import ExprEngine.Proofs.Machine.Requests

/-!
# Agreement up to limits

Two ways to evaluate a source may differ in how many instructions they run and how high the stack
gets. They are compared as far as the first stays within the limits of the machine: a run that
reaches a limit halts, which is reported, and every evaluation that it is part of fails.

* `Limited m r`: the run from `m` that ends in `r` has reached a limit, its own or one inside.
* `Exceeds m r`: so has the evaluation; if the limit was reached, that has been reported.
* `Agree`: unless the first has reached a limit, two steps come to related values, or halt alike, at
  related machines.
* `callValue_agrees`: calls agree if the evaluators do.
* `Agree.outcome`: evaluations that agree have the same outcome.
-/

namespace ExprEngine

/-- The failure says that a limit of the machine was reached. -/
def EvalError.limits : EvalError → Bool
  | .stackOverflow | .instructionLimit _ => true
  | _ => false

/-- The halt says that a limit was reached. -/
def Halt.limits : Halt → Bool
  | .failure (.eval e) => e.limits
  | .exhausted => true
  | _ => false

/-- The report says that a limit was reached. -/
def Diagnostic.limits : Diagnostic → Bool
  | .abort (.eval e) => e.limits
  | _ => false

/-- How often it has been reported that a limit was reached. -/
def Session.limitReports (s : Session) : Nat :=
  s.diagnostics.toList.countP Diagnostic.limits

theorem Session.limitReports_le {s t : Session}
    (h : s.diagnostics.toList <+: t.diagnostics.toList) : s.limitReports ≤ t.limitReports :=
  h.sublist.countP_le

theorem Session.limitReports_report (s : Session) (d : Diagnostic) :
    (s.report d).limitReports = s.limitReports + if d.limits then 1 else 0 := by
  simp [limitReports, report]

namespace Machine

/-- The run that ends like this has reached a limit: it halts for that, or one inside did and that
has been reported since `m`. -/
def Limited {α : Type} (m : Machine) : EStateM.Result Halt Machine α → Prop
  | .ok .. => False
  | .error h n => m.session.limitReports < n.session.limitReports ∨
      h.limits ∧ m.session.limitReports ≤ n.session.limitReports

/-- The evaluation that ends like this has reached a limit: it has been reported since `m` that one
was, or the evaluation does not come to an end. -/
def Exceeds {α : Type} (m : Machine) : EStateM.Result Halt Machine α → Prop
  | .ok .. => False
  | .error h n => m.session.limitReports < n.session.limitReports ∨
      h = .exhausted ∧ m.session.limitReports ≤ n.session.limitReports

variable {α β γ δ : Type} {m m' n : Machine}

theorem Calm.limitReports_le (h : Calm m n) : m.session.limitReports ≤ n.session.limitReports :=
  Session.limitReports_le h.reports

theorem Limited.of_le {r : EStateM.Result Halt Machine α} (h : Limited m' r)
    (hm : m.session.limitReports ≤ m'.session.limitReports) : Limited m r := by
  cases r with
  | ok a n => exact h
  | error e n =>
      exact h.imp (Nat.lt_of_le_of_lt hm) fun ⟨he, hn⟩ => ⟨he, Nat.le_trans hm hn⟩

theorem Exceeds.of_le {r : EStateM.Result Halt Machine α} (h : Exceeds m' r)
    (hm : m.session.limitReports ≤ m'.session.limitReports) : Exceeds m r := by
  cases r with
  | ok a n => exact h
  | error e n =>
      exact h.imp (Nat.lt_of_le_of_lt hm) fun ⟨he, hn⟩ => ⟨he, Nat.le_trans hm hn⟩

theorem Limited.halt {h : Halt} (hh : h.limits) : Limited m (.error h m : EStateM.Result _ _ α) :=
  .inr ⟨hh, Nat.le_refl _⟩

/-- A step that is limited halts, and so does what begins with it. -/
theorem Limited.bind {x : Eval α} (h : Limited m (x m)) (f : α → Eval β) :
    Limited m ((x >>= f) m) := by
  rw [bind_apply]
  cases e : x m with
  | ok a n =>
      rw [e] at h
      exact h.elim
  | error k n =>
      rw [e] at h
      exact h

/-- Unless the first result is excused by `L`, both are values that `Q` relates, or the same halt,
at machines that `E` relates unless the program has a defect. -/
inductive Agree (L : Machine → EStateM.Result Halt Machine α → Prop) (E : Machine → Machine → Prop)
    (Q : α → β → Machine → Machine → Prop) (m : Machine) :
    EStateM.Result Halt Machine α → EStateM.Result Halt Machine β → Prop
  | excused {r : EStateM.Result Halt Machine α} {t : EStateM.Result Halt Machine β} (h : L m r) :
    Agree L E Q m r t
  | ok {a : α} {b : β} {m' n : Machine}
    (hm : m.session.limitReports ≤ m'.session.limitReports) (h : Q a b m' n) :
    Agree L E Q m (.ok a m') (.ok b n)
  | error {k : Halt} {m' n : Machine}
    (hm : m.session.limitReports ≤ m'.session.limitReports) (h : (∀ f, k ≠ .fault f) → E m' n) :
    Agree L E Q m (.error k m') (.error k n)

/-- Equal values at related machines. -/
abbrev Same (F : Machine → Machine → Prop) (a b : α) (m n : Machine) : Prop :=
  a = b ∧ F m n

namespace Agree

variable {E : Machine → Machine → Prop} {Q : α → β → Machine → Machine → Prop}
  {R : γ → δ → Machine → Machine → Prop}

theorem of_le {L : Machine → EStateM.Result Halt Machine α → Prop}
    {r : EStateM.Result Halt Machine α} {t : EStateM.Result Halt Machine β}
    (h : Agree L E Q m' r t) (hL : L m' r → L m r)
    (hm : m.session.limitReports ≤ m'.session.limitReports) : Agree L E Q m r t := by
  cases h with
  | excused h => exact .excused (hL h)
  | ok hl h => exact .ok (Nat.le_trans hm hl) h
  | error hl h => exact .error (Nat.le_trans hm hl) h

/-- The first goes on where the second has come to a value. -/
theorem okThen {x : Eval α} {f : α → Eval γ} {b : β} {t : EStateM.Result Halt Machine δ}
    (hx : Agree Limited E Q m (x m) (.ok b n))
    (hf : ∀ a m', Q a b m' n → Agree Limited E R m' (f a m') t) :
    Agree Limited E R m ((x >>= f) m) t := by
  cases ex : x m with
  -- a halt of the first alone is excused
  | error k m' =>
      rw [bind_of_error ex]
      rw [ex] at hx
      cases hx with
      | excused h => exact .excused h
  | ok a m' =>
      rw [bind_of_ok ex]
      rw [ex] at hx
      cases hx with
      | excused h => exact h.elim
      | ok hm h => exact (hf a m' h).of_le (·.of_le hm) hm

/-- The second has come to a halt. -/
theorem halted {x : Eval α} {k : Halt}
    (hx : Agree Limited E Q m (x m) (.error k n : EStateM.Result _ _ β)) (f : α → Eval γ) :
    Agree Limited E R m ((x >>= f) m) (.error k n) := by
  cases ex : x m with
  | error k' m' =>
      rw [bind_of_error ex]
      rw [ex] at hx
      cases hx with
      | excused h => exact .excused h
      | error hm h => exact .error hm h
  | ok a m' =>
      rw [ex] at hx
      cases hx with
      | excused h => exact h.elim

/-- Steps in a row that agree one after the other. -/
theorem bind {x : Eval α} {y : Eval β} {f : α → Eval γ} {g : β → Eval δ}
    (hx : Agree Limited E Q m (x m) (y n))
    (hf : ∀ a b m' n', Q a b m' n' → Agree Limited E R m' (f a m') (g b n')) :
    Agree Limited E R m ((x >>= f) m) ((y >>= g) n) := by
  cases ey : y n with
  | ok b n' =>
      rw [ey] at hx
      rw [bind_of_ok ey]
      exact hx.okThen fun a m' h => hf a b m' n' h
  | error k n' =>
      rw [ey] at hx
      rw [bind_of_error ey]
      exact hx.halted f

/-- The first goes on where the second is done. -/
theorem andThen {x : Eval α} {t : EStateM.Result Halt Machine β} {f : α → Eval γ}
    {R : γ → β → Machine → Machine → Prop} (hx : Agree Limited E Q m (x m) t)
    (hf : ∀ a b m' n', Q a b m' n' → Agree Limited E R m' (f a m') (.ok b n')) :
    Agree Limited E R m ((x >>= f) m) t := by
  cases t with
  | ok b n' => exact hx.okThen fun a m' h => hf a b m' n' h
  | error k n' => exact hx.halted f

/-- The first makes a step before the second begins. -/
theorem first {x : Eval α} {f : α → Eval γ} {y : Eval δ} {P : Machine → Machine → Prop}
    (hx : Agree Limited E (fun _ _ => P) m (x m) (.ok () n))
    (hf : ∀ a m' n', P m' n' → Agree Limited E R m' (f a m') (y n')) :
    Agree Limited E R m ((x >>= f) m) (y n) :=
  bind (y := pure ()) (g := fun _ => y) hx fun a _ m' n' h => hf a m' n' h

/-- The second goes on where the first is done. -/
theorem last {r : Eval α} {y : Eval β} {g : β → Eval δ} {R : α → δ → Machine → Machine → Prop}
    (hx : Agree Limited E Q m (r m) (y n))
    (hg : ∀ a b m' n', Q a b m' n' → Agree Limited E R m' (.ok a m') (g b n')) :
    Agree Limited E R m (r m) ((y >>= g) n) := by
  have h := bind (f := pure) hx hg
  rwa [bind_pure] at h

/-- The second has come to a limit, hence the first has. -/
theorem limited {r : EStateM.Result Halt Machine α} {k : Halt}
    (h : Agree Limited E Q m r (.error k n : EStateM.Result _ _ β)) (hk : k.limits) :
    Limited m r := by
  cases h with
  | excused h => exact h
  | error hm _ => exact .inr ⟨hk, hm⟩

theorem mono {L : Machine → EStateM.Result Halt Machine α → Prop} {E' : Machine → Machine → Prop}
    {Q' : α → β → Machine → Machine → Prop} {r : EStateM.Result Halt Machine α}
    {t : EStateM.Result Halt Machine β} (h : Agree L E Q m r t) (hE : ∀ m n, E m n → E' m n)
    (hQ : ∀ a b m n, Q a b m n → Q' a b m n) : Agree L E' Q' m r t := by
  cases h with
  | excused h => exact .excused h
  | ok hm h => exact .ok hm (hQ _ _ _ _ h)
  | error hm h => exact .error hm fun hk => hE _ _ (h hk)

/-- A step that sees no more than a session sees agrees with itself. -/
theorem of_blind {F : Machine → Machine → Prop} (hF : Reframes F) (h : F m n) {x : Eval α}
    (hb : Blind x) (hc : Calm m (after x m)) : Agree Limited F (Same F) m (x m) (x n) := by
  have ha := hb F hF m n h
  have hl := hc.limitReports_le
  unfold after left at hl
  cases ex : x m <;> cases ey : x n <;> rw [ex, ey] at ha <;> rw [ex] at hl
  · exact .ok hl ha
  · exact ha.elim
  · exact ha.elim
  · obtain ⟨rfl, ha⟩ := ha
    exact .error hl fun _ => ha

theorem of_mild {F : Machine → Machine → Prop} (hF : Reframes F) (h : F m n) {x : Eval α}
    (hx : Mild x) : Agree Limited F (Same F) m (x m) (x n) :=
  of_blind hF h hx.blind (hx.quiet m).calm

end Agree

/-! ### Ends of executions -/

theorem limitReports_unwind (m : Machine) (base : Nat) (e : EvalError) :
    (m.unwind base e).session.limitReports =
      m.session.limitReports + if e.limits then 1 else 0 := by
  unfold unwind
  by_cases he : e = .aborted
  · rw [if_pos he, he]
    rfl
  · rw [if_neg he, Session.limitReports_report]
    rfl

/-- An execution whose run has reached a limit exceeds it: the limit is reported. -/
theorem Limited.finished {r : EStateM.Result Halt Machine Unit} (h : Limited m r) (base : Nat) :
    Exceeds m (finished base r) := by
  cases r with
  | ok u n => exact h.elim
  | error k n =>
      cases k with
      | failure f =>
          cases f with
          | compile e => exact h.imp id fun h => absurd h.1 Bool.false_ne_true
          | eval e =>
              refine .inl ?_
              rw [limitReports_unwind]
              rcases h with h | ⟨he, h⟩
              · exact Nat.lt_of_lt_of_le h (Nat.le_add_right _ _)
              · rw [if_pos (show e.limits = true from he)]
                exact Nat.lt_succ_of_le h
      | fault f => exact h.imp id fun h => absurd h.1 Bool.false_ne_true
      | exhausted => exact h.imp id fun h => ⟨rfl, h.2⟩

theorem budget_limits (s : Settings) : (budget s).2.limits := by
  unfold budget
  split <;> rfl

/-! ### Calls -/

theorem Request.limitReports {vs : List Value} {s : Session} {q : Request}
    (h : request? vs s = some q) :
    q.inner.limitReports = s.limitReports ∧ ∀ t, (q.back t).limitReports = t.limitReports := by
  obtain ⟨hi, hb⟩ := Request.diagnostics h
  unfold Session.limitReports
  exact ⟨by rw [hi], fun t => by rw [hb]⟩

/-- An evaluation inside that exceeds a limit limits the run that it is part of. -/
theorem Request.limited {vs : List Value} {q : Request} (hq : request? vs m.session = some q)
    {r : EStateM.Result Halt Machine Value} (h : Exceeds { m with session := q.inner } r) :
    Limited m (q.resume r) := by
  obtain ⟨hi, hb⟩ := Request.limitReports hq
  cases r with
  | ok v n => exact h
  | error k n =>
      cases k with
      | failure f =>
          simp only [Request.resume, Limited, Exceeds, hb, hi] at h ⊢
          exact h.imp id nofun
      | fault f =>
          simp only [Request.resume, Limited, Exceeds, hb, hi] at h ⊢
          exact h.imp id nofun
      | exhausted =>
          simp only [Request.resume, Limited, Exceeds, hb, hi] at h ⊢
          exact h.imp id fun h => ⟨rfl, h.2⟩

/-- What evaluations that agree are resumed to agrees. -/
theorem Request.resume_agrees {F : Machine → Machine → Prop} (hF : Reframes F) {vs : List Value}
    {q : Request} (hq : request? vs m.session = some q) {r t : EStateM.Result Halt Machine Value}
    (h : Agree Exceeds F (Same F) { m with session := q.inner } r t) :
    Agree Limited F (Same F) m (q.resume r) (q.resume t) := by
  obtain ⟨hi, hb⟩ := Request.limitReports hq
  have back {s : Session} (hl : q.inner.limitReports ≤ s.limitReports) :
      m.session.limitReports ≤ (q.back s).limitReports := by
    rwa [hb, ← hi]
  cases h with
  | excused h => exact .excused (Request.limited hq h)
  | @ok v w m' n hl h =>
      obtain ⟨rfl, h⟩ := h
      refine .ok (back hl) ⟨?_, ?_⟩
      · rw [hF.session h]
      · rw [hF.session h]
        exact hF.setSession _ h
  | @error k m' n hl h =>
      have go (hk : ∀ f, k ≠ .fault f) :
          F { m' with session := q.back m'.session } { n with session := q.back n.session } := by
        rw [hF.session (h hk)]
        exact hF.setSession _ (h hk)
      cases k with
      | failure f => exact .error (back hl) fun _ => go nofun
      | fault f => exact .error (back hl) fun hk => absurd rfl (hk f)
      | exhausted => exact .error (back hl) fun _ => go nofun

/-- **Calls agree** if the evaluators do. -/
theorem callValue_agrees {F : Machine → Machine → Prop} (hF : Reframes F)
    {evaluate evaluate' : String → Eval Value}
    (he : ∀ source m n, F m n →
      Agree Exceeds F (Same F) m (evaluate source m) (evaluate' source n))
    (h : F m n) (vs : List Value) :
    Agree Limited F (Same F) m (callValue evaluate vs m) (callValue evaluate' vs n) := by
  have hs := hF.session h
  cases hq : request? vs m.session with
  | none =>
      rw [callValue_of_none evaluate hq, callValue_of_none evaluate' (hs ▸ hq)]
      exact .of_blind hF h (idle_blind vs) (idle_calm vs m)
  | some q =>
      rw [callValue_of_request evaluate hq, callValue_of_request evaluate' (hs ▸ hq)]
      exact Request.resume_agrees hF hq (he q.source _ _ (hF.setSession q.inner h))

/-! ### Outcomes -/

/-- The same value or failure and the same machine, or the same defect. -/
def SameOutcome : EStateM.Result Halt Machine α → EStateM.Result Halt Machine α → Prop
  | .error (.fault f) _, .error (.fault g) _ => f = g
  | r, t => r = t

/-- A result whose machine has been changed. -/
def moved (g : Machine → Machine) : EStateM.Result Halt Machine α → EStateM.Result Halt Machine α
  | .ok a n => .ok a (g n)
  | .error h n => .error h (g n)

theorem moved_id (r : EStateM.Result Halt Machine α) : moved id r = r := by
  cases r <;> rfl

/-- Evaluations that agree have the same outcome, if the first stays within the limits. -/
theorem Agree.outcome {F : Machine → Machine → Prop} {g : Machine → Machine}
    {r t : EStateM.Result Halt Machine α} (h : Agree Exceeds F (Same F) m r t)
    (hg : ∀ m n, F m n → n = g m) (hl : ¬Exceeds m r) : SameOutcome (moved g r) t := by
  cases h with
  | excused h => exact absurd h hl
  | @ok a b m' n _ h =>
      obtain ⟨rfl, h⟩ := h
      rw [hg m' n h]
      rfl
  | @error k m' n _ h =>
      cases k with
      | fault f => rfl
      | failure f =>
          rw [hg m' n (h fun _ => nofun)]
          rfl
      | exhausted =>
          rw [hg m' n (h fun _ => nofun)]
          rfl

end Machine

end ExprEngine
