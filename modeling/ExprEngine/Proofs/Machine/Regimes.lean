import ExprEngine.Proofs.Machine.Filling
import ExprEngine.Proofs.Machine.References

/-!
# What well laid programs keep to

A `Regime` says which values sessions hold, which may lie in the places of a layout, and which
defects steps may have, such that nothing else comes of these values: what is pushed may lie where
it is pushed, what is stored may be held, and a call has no defect but those.

While a well laid program runs, the session holds such values, and the values above the stack that
the program found lie as the layout of the index says that the run has come to (`Tidy`).  Every step
keeps that and has no defect but those of the regime, and where it halts the session still holds
such values (`Clean`).  So does every run, hence every execution, and every evaluation, since the
sources that calls ask for are compiled and executed likewise.

* `Tidy.step`: one step of an operation that finds what it asks for.
* `Reaches.tidy`, `execute_clean`: what a run comes to, and how an execution ends.
* `Regime.evaluated`: every evaluation keeps to the regime.
* `Regime.preserves`: in all moments sessions hold such values.
-/

namespace ExprEngine

open Machine

/-- What well laid programs keep to, and why nothing leads out of it. -/
structure Regime (κ : Type) where
  calling : Calling κ
  /-- The values that sessions hold. -/
  Held : Value → Prop
  /-- The values that may lie in a place. -/
  Fills : Option κ → Value → Prop
  /-- The defects that steps may have. -/
  May : Fault → Prop
  data : ∀ {v}, v.Data → Held v
  operand : ∀ {v}, Held v → Fills none v
  stored : ∀ {v}, Fills none v → v.name? = none → Held v
  roomy : Roomy Fills
  pushed : ∀ v, Fills (calling.of? v) v
  called : ∀ {x callee b} {args : List Value}, Fills x callee → callee.function? = some b →
    (∀ k, x = some k → calling.Takes k args.length) → Builtin.Provides May args b.arity.1

namespace Regime

variable {κ : Type} (D : Regime κ)

theorem held_of_made {v : Value} (h : v.Made) : D.Held v :=
  D.data h.data

theorem filled_of_data {v : Value} (h : v.Data) : D.Fills none v :=
  D.operand (D.data h)

/-- What may lie where nothing to call is expected is resolved to what may be held. -/
theorem held_resolve (s : Session) {v : Value} (h : D.Fills none v) : D.Held (s.resolve v) := by
  unfold Session.resolve
  split
  · exact D.data (s.data_resolveName _)
  · next hn => exact D.stored h hn

end Regime

namespace Machine

variable {κ : Type} {D : Regime κ} {α β : Type} {base : List Value} {l k : Places κ} {m : Machine}

/-- The session holds what it may, and above the stack `base` the values lie as the layout says. -/
structure Tidy (D : Regime κ) (base : List Value) (l : Places κ) (m : Machine) : Prop where
  session : m.session.Holds D.Held
  values : Stacked D.Fills base l m.stack

/-- Where a step succeeds `post` says what it comes to; where it halts it has no defect but those
that it may have, and the session holds what it may. -/
def Clean (D : Regime κ) (post : α → Machine → Prop) : EStateM.Result Halt Machine α → Prop
  | .ok a n => post a n
  | .error h n => (∀ f, h = .fault f → D.May f) ∧ n.session.Holds D.Held

theorem Clean.bind {mid : α → Machine → Prop} {post : β → Machine → Prop} {x : Eval α}
    {f : α → Eval β} (hx : Clean D mid (x m)) (hf : ∀ a n, mid a n → Clean D post (f a n)) :
    Clean D post ((x >>= f) m) := by
  rw [bind_apply]
  cases e : x m with
  | ok a n =>
      rw [e] at hx
      exact hf a n hx
  | error h n =>
      rw [e] at hx
      exact hx

/-- A failure is no defect. -/
theorem Clean.failure {post : α → Machine → Prop} {f : Failure} (h : m.session.Holds D.Held) :
    Clean D post (.error (.failure f) m) :=
  ⟨fun _ => nofun, h⟩

theorem Clean.exhausted {post : α → Machine → Prop} (h : m.session.Holds D.Held) :
    Clean D post (.error .exhausted m) :=
  ⟨fun _ => nofun, h⟩

/-- The evaluator keeps to the regime, and leaves the stack as it was. -/
def Keeping (D : Regime κ) (evaluate : String → Eval Value) : Prop :=
  ∀ source {base : List Value} {l : Places κ} {m : Machine}, Tidy D base l m →
    Clean D (fun v n => D.Fills none v ∧ Tidy D base l n) (evaluate source m)

namespace Tidy

theorem length_eq (h : Tidy D base l m) : m.stack.length = base.length + l.length :=
  h.values.length_eq

theorem fits (h : Tidy D base l m) (hf : l.Fits k) : Tidy D base k m :=
  ⟨h.session, h.values.fits D.roomy hf⟩

/-- A simple step has no defect but those of the regime, and stores nothing. -/
theorem simple {P : α → Prop} {x : Eval α} (hx : Simple D.May P x) (h : Tidy D base l m) :
    Clean D (fun a n => P a ∧ Tidy D base l n) (x m) := by
  induction hx generalizing m with
  | pure ha => exact ⟨ha, h⟩
  | bind _ _ hx hf => exact (hx h).bind fun a n hn => hf a hn.2
  | session => exact ⟨trivial, h⟩
  | host ha => exact ⟨ha _, h⟩
  | observe | draw | report | keep =>
      exact ⟨trivial, ⟨h.session.globals, h.session.frames, h.session.result⟩, h.values⟩
  | fail => exact .failure h.session
  | fault hf => exact ⟨fun f e => by cases e; exact hf, h.session⟩

/-! ### Operations of the stack -/

theorem push {x : Option κ} {v : Value} {op : Op Nat} (h : Tidy D base k m) (hv : D.Fills x v)
    (hk : x :: k = D.calling.effect op l) :
    Clean D (Leads D.calling (Tidy D base) op l)
      ((push v >>= fun _ => pure (none : Option Nat)) m) := by
  rw [bind_apply, push_apply]
  split
  · next hl =>
    split at hl
    · cases hl
    · cases hl
      have hp : Tidy D base (x :: k) { m with stack := v :: m.stack } :=
        ⟨h.session, h.values.push hv⟩
      rw [hk] at hp
      exact hp
  · next hl =>
    split at hl
    · cases hl
      exact .failure h.session
    · cases hl

/-- The operands that an operation takes. -/
theorem popMany {n : Nat} (h : Tidy D base l m) (hn : n ≤ l.length) :
    Clean D (fun vs o => (vs.length = n ∧ Places.Filled D.Fills (l.take n) vs.reverse) ∧
      Tidy D base (l.drop n) o) (popMany base.length n m) := by
  obtain ⟨vs, hp, hl, hf, hd⟩ := h.values.popMany hn
  rw [hp]
  exact ⟨⟨hl, hf⟩, h.session, hd⟩

theorem top {x : Option κ} (h : Tidy D base (x :: l) m) :
    Clean D (fun v n => D.Fills x v ∧ Tidy D base (x :: l) n) (top base.length m) := by
  obtain ⟨v, ht, hv⟩ := h.values.top
  rw [ht]
  exact ⟨hv, h⟩

/-- A jump looks at the top of the stack, if at anything. -/
theorem jumps {kind : JumpKind} {t : Nat} (h : Tidy D base l m)
    (ha : (Op.jump kind t).need ≤ l.length) :
    Clean D (fun _ => Tidy D base l) (jumps kind base.length m) := by
  -- every kind but one looks at the top, and leaves it there
  have looked {f : Value → Eval Bool} (hf : ∀ v, Simple D.May (fun _ => True) (f v))
      (hl : 1 ≤ l.length) :
      Clean D (fun _ => Tidy D base l) ((Machine.top base.length >>= f) m) := by
    match l with
    | x :: l =>
        refine h.top.bind fun v n hv => ?_
        have hn := hv.2.simple (hf v)
        cases e : f v n <;> rw [e] at hn
        · exact hn.2
        · exact hn
  have truth (v : Value) : Simple D.May (fun _ => True) (observe (·.truth v)) :=
    .observe fun s => s.mute_truth v
  cases kind with
  | always => exact h
  | ifFalse => exact looked (fun v => .bind (truth v) fun _ => .pure trivial) ha
  | ifTrue => exact looked truth ha
  | ifNonEmpty => exact looked (fun v => .pure trivial) ha

/-! ### Values that operations come to -/

/-- What is selected may be held. -/
theorem selected (h : Tidy D base l m) (selector : Selector) :
    Clean D (fun v n => D.Held v ∧ Tidy D base l n) (selected selector m) := by
  have hn := h.simple (simple_selected selector)
  cases e : Machine.selected selector m with
  | ok v n =>
      rw [e] at hn
      exact ⟨selected_holds (fun _ => D.held_of_made) h.session e, hn.2⟩
  | error h n => rwa [e] at hn

/-- An operator that has its operands stores and comes to what may be held. -/
theorem reduce {op : Operator} {args : List Value} (hn : op.Takes args.length)
    (hv : ∀ v ∈ args, D.Fills none v) (h : Tidy D base l m) :
    Clean D (fun v n => D.Held v ∧ Tidy D base l n) (inSession (op.reduce args) m) := by
  have hr : Operator.Reduced D.May args m.session (op.reduce args m.session) :=
    Operator.reduces (fun ht => absurd hn ht) m.session
  unfold inSession
  generalize op.reduce args m.session = r at hr ⊢
  cases hr with
  | computed _ hd => exact ⟨D.held_of_made hd, h.session.record _, h.values⟩
  | halted _ hh =>
      refine ⟨?_, h.session.record _⟩
      rintro f rfl
      cases hh with
      | fault hf => exact hf
  | @stored x v log _ hs =>
      have hd : D.Held v := by
        cases hs with
        | made hm => exact D.held_of_made hm
        | operand hm hn => exact D.stored (hv v hm) hn
        | «variable» y hy => exact h.session.lookup hy
      exact ⟨hd, (h.session.record log).assign x hd, h.values⟩

section

variable {evaluate : String → Eval Value} (he : Keeping D evaluate)

include he

/-- A call comes to what may be held. -/
theorem call {x : Option κ} {callee : Value} {args : List Value} (hc : D.Fills x callee)
    (hk : ∀ k, x = some k → D.calling.Takes k args.length) (hv : ∀ v ∈ args, D.Fills none v)
    (h : Tidy D base l m) :
    Clean D (fun v n => D.Held v ∧ Tidy D base l n) (callValue evaluate (callee :: args) m) := by
  cases hq : request? (callee :: args) m.session with
  | none =>
      have provided (b : Builtin) (hb : callee.payload = .function b) :
          Builtin.Provides D.May args b.arity.1 :=
        D.called hc (by rw [Value.function?, hb]) hk
      rcases callValue_of_no_request evaluate hq provided with ⟨x, hx, he⟩ | he | ⟨name, arg, he⟩
      · have hn := h.simple hx
        rw [he]
        cases e : x m <;> rw [e] at hn
        · exact ⟨D.held_of_made hn.1, hn.2⟩
        · exact hn
      · rw [he]
        exact ⟨D.data trivial, h⟩
      · rw [he]
        unfold runCommand
        split
        · exact ⟨D.data trivial, ⟨h.session.globals, h.session.frames, h.session.result⟩, h.values⟩
        · exact .failure h.session
  | some q =>
      obtain ⟨hi, hb⟩ :=
        Request.holds (fun _ => D.held_of_made) hq (fun v hm => D.stored (hv v hm)) h.session
      have hx := he q.source (m := { m with session := q.inner }) ⟨hi, h.values⟩
      rw [callValue_of_request _ hq]
      cases e : evaluate q.source { m with session := q.inner } with
      | ok v n =>
          rw [e] at hx
          exact ⟨D.held_resolve _ hx.1, hb _ hx.2.session, hx.2.values⟩
      | error k n =>
          rw [e] at hx
          cases k with
          | failure => exact .failure (hb _ hx.2)
          | fault | exhausted => exact ⟨hx.1, hb _ hx.2⟩

/-! ### Steps -/

/-- **One step** of an operation that finds what it asks for. -/
theorem step {op : Op Nat} (ha : D.calling.Accepts op l) (h : Tidy D base l m) :
    Clean D (Leads D.calling (Tidy D base) op l) (step evaluate base.length op m) := by
  -- what most operations end with
  have pushes {k : Places κ} {x : Eval Value} {m : Machine}
      (hk : none :: k = D.calling.effect op l)
      (hx : Clean D (fun v n => D.Held v ∧ Tidy D base k n) (x m)) :
      Clean D (Leads D.calling (Tidy D base) op l)
        ((x >>= fun v => Machine.push v >>= fun _ => pure (none : Option Nat)) m) :=
    hx.bind fun v n hv => hv.2.push (D.operand hv.1) hk
  cases op with
  | jump kind t =>
      refine (h.jumps ha.1).bind fun b n hn => ?_
      cases b with
      | true => exact ⟨rfl, hn⟩
      | false => exact hn
  | push v => exact h.push (D.pushed v) rfl
  | pop n => exact (h.popMany ha.1).bind fun vs o ho => ho.2
  | dup =>
      cases l with
      | nil => exact absurd ha.1 (Nat.not_succ_le_zero 0)
      | cons x l => exact h.top.bind fun v n hv => hv.2.push hv.1 rfl
  | pushVariable x => exact h.push (D.filled_of_data (m.session.data_resolveName x)) rfl
  | pushParam s => exact pushes rfl (h.selected s)
  | pushBody name =>
      refine Clean.bind (h.simple .session) fun s n hn => ?_
      cases s.macroBody? name with
      | some body => exact hn.2.push (D.filled_of_data (v := .text body) trivial) rfl
      | none =>
          refine Clean.bind (hn.2.simple (.report (d := .undefinedMacro name) nofun))
            fun _ o ho => ?_
          exact ho.2.push (D.filled_of_data (v := .blank) trivial) rfl
  | pushOutput line =>
      refine (h.simple (simple_commandOutput line)).bind fun v n hv => ?_
      exact hv.2.push (D.filled_of_data hv.1.data) rfl
  | call n =>
      refine (h.popMany ha.1).bind fun vs o ⟨⟨hl, hf⟩, ho⟩ => ?_
      obtain ⟨callee, args, x, rfl, hc, hk, hargs⟩ := operands_of_call ha hl hf
      exact pushes rfl (ho.call he hc hk hargs)
  | reduce op n =>
      refine (h.popMany ha.1).bind fun vs o ⟨⟨hl, hf⟩, ho⟩ => ?_
      have hargs v hv := hf.all_none ha.2.2 v (List.mem_reverse.mpr hv)
      exact pushes rfl (ho.reduce (hl.symm ▸ ha.2.1) hargs)

end

end Tidy

/-! ### Runs -/

theorem budget_ne_fault (s : Settings) (f : Fault) : (budget s).2 ≠ .fault f := by
  unfold budget
  split <;> exact nofun

section

variable {evaluate : String → Eval Value} {p : Program} (he : Keeping D evaluate)
  (hw : D.calling.WellLaid p) (hm : m.session.Holds D.Held)

include he hw hm

/-- **At every index** that a run comes to, the values lie as the layout says. -/
theorem Reaches.tidy {pc : Nat} {n : Machine} (hr : Reaches evaluate p m pc n) :
    pc ≤ p.code.size ∧ Tidy D m.stack (D.calling.placesAt p.code.toList pc) n := by
  induction hr with
  | start => exact ⟨Nat.zero_le _, hm, .nil _ _⟩
  | @step pc n o i target _ hi hs ih =>
      have ho := ih.2.step he (hw.inPlace pc i hi).1
      rw [hs] at ho
      exact Leads.next (H := Tidy D m.stack) hw Tidy.fits hi ho

/-- A run comes to the end, with one value, or halts with no defect but those of the regime. -/
theorem Ends.clean {r : EStateM.Result Halt Machine Unit} {spent : Halt}
    (hs : ∀ f, spent ≠ .fault f) (h : Ends evaluate p m spent r) :
    Clean D (fun _ n => Reaches evaluate p m p.code.size n ∧ Tidy D m.stack [none] n) r := by
  cases h with
  | @done pc n hr hk =>
      obtain ⟨hk', hn⟩ := hr.tidy he hw hm
      -- the run has come to the end, and not beyond
      cases Nat.le_antisymm hk' hk
      exact ⟨hr, hw.final ▸ hn⟩
  | spent hr => exact ⟨fun f hf => absurd hf (hs f), (hr.tidy he hw hm).2.session⟩
  | @halted pc n o i h hr hi hs =>
      have ho := (hr.tidy he hw hm).2.step he (hw.inPlace pc i hi).1
      rwa [hs] at ho

/-- The value of an execution is the one that the run left at the end; an execution that halts has
no defect but those of the regime. -/
theorem execute_clean :
    Clean D (fun v n => D.Fills none v ∧ n.session.Holds D.Held ∧
      ∃ o, Reaches evaluate p m p.code.size o ∧ o.stack = v :: m.stack ∧
        n = { o with stack := m.stack }) (execute evaluate p m) := by
  obtain ⟨r, hr, hx⟩ := execute_ends_run evaluate p m
  have hc := hr.clean he hw hm (budget_ne_fault m.settings)
  rw [hx]
  cases r with
  | ok u o =>
      obtain ⟨v, hs, hv⟩ := hc.2.values.single
      rw [finished_of_single hs]
      exact ⟨hv, hc.2.session, o, hc.1, hs, rfl⟩
  | error h o =>
      have hs : (left (finished m.stack.length (.error h o))).session.Holds D.Held := by
        rcases finished_session m.stack.length (.error h o) with hf | ⟨d, hf⟩ <;> rw [hf]
        · exact hc.2
        · exact hc.2.report d
      cases h with
      | failure f => cases f <;> exact .failure hs
      | fault | exhausted => exact hc

end

end Machine

/-! ### Evaluations -/

namespace Regime

variable {κ : Type} (D : Regime κ)

/-- **Every evaluation** keeps to the regime. -/
theorem evaluated (depth : Nat) : Keeping D (evaluate depth) := by
  induction depth with
  | zero => exact fun source _ _ _ h => .exhausted h.session
  | succ depth ih =>
      intro source base l m h
      have hr := holds_remarked h.session source
      have hk := (remarked_calm source m).stack
      rw [evaluate, evaluateWith_apply]
      cases hc : (Program.compile m.settings.optimize m.session.findCommand? source).1 with
      | error e => exact .failure (hr.report _)
      | ok p =>
          have hx := execute_clean ih (Calling.wellLaid_of_compile hc) hr
          dsimp only
          cases e : execute (evaluate depth) p (remarked source m) with
          | error h n => rwa [e] at hx
          | ok v n =>
              rw [e] at hx
              obtain ⟨hv, hn, o, -, -, rfl⟩ := hx
              exact ⟨hv, hn, hk.symm ▸ h.values⟩

/-- **In all moments** of their executions, well laid programs keep sessions to the regime. -/
theorem preserves : Preserves D.Held D.calling.WellLaid where
  compiled h := Calling.wellLaid_of_compile h
  kept depth _ p m hw hm := by
    have he := D.evaluated depth
    have tidy {pc : Nat} {n : Machine} (hr : Reaches (evaluate depth) p m pc n) :
        Tidy D m.stack (D.calling.placesAt p.code.toList pc) n := (hr.tidy he hw hm).2
    refine ⟨fun o ho => ?_, fun vs o q hq => ?_, ?_⟩
    · cases ho with
      | between hr => exact (tidy hr).session
      | taken hr ht => exact session_of_popMany ht ▸ (tidy hr).session
      | @halted pc n o i h hr hi hs =>
          have ho := (tidy hr).step he (hw.inPlace pc i hi).1
          rw [hs] at ho
          exact ho.2
    · obtain ⟨pc, n, count, span, hr, hi, ht, hq⟩ := hq
      -- the operands of the call lie as the layout says
      have ha : D.calling.Accepts (.call count) _ := (hw.inPlace pc _ hi).1
      have hn := (tidy hr).popMany (n := count) ha.1
      rw [ht] at hn
      obtain ⟨callee, args, x, rfl, -, -, hargs⟩ := operands_of_call ha hn.1.1 hn.1.2
      exact (Request.holds (fun _ => D.held_of_made) hq (fun v hv => D.stored (hargs v hv))
        hn.2.session).1
    · have hx := execute_clean he hw hm
      cases e : execute (evaluate depth) p m with
      | ok v n =>
          rw [e] at hx
          refine ⟨hx.2.1, fun w o hw => ?_⟩
          cases hw
          exact D.held_resolve _ hx.1
      | error h n =>
          rw [e] at hx
          exact .error hx.2

end Regime

end ExprEngine
