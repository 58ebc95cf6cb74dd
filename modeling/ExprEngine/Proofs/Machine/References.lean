import ExprEngine.Proofs.Machine.Effects

/-!
# Values that sessions hold on to

A reference is worth what its variable is worth when it is read, so that a stored one could lead
round in a circle.  None is ever stored: an assignment copies the variable that its right operand
names, the argument of a macro becomes a text, and what a macro or `test` comes to is resolved.

What an execution goes through is a `Moment`, from the first instruction to behind the last, in it
and in all executions inside it.  Where every execution keeps to some kind of values
(`Preserves`), so do all moments.

* `Preserves.moment`, `Preserves.answer`: what is kept in every moment, and what calls come to.
* `Session.Holds.shallow`: without stored references, every view makes one look-up at most.
* `direct_preserved`: no program stores a reference.
-/

namespace ExprEngine

open Machine

/-- The value is no reference. -/
def Value.Direct (v : Value) : Prop :=
  v.name? = none

/-! ### One look-up -/

namespace Session

/-- Every view of the first value is that of the second. -/
structure Alike (s : Session) (v w : Value) : Prop where
  number : s.number v = s.number w
  truth : s.truth v = s.truth w
  toInt : s.toInt v = s.toInt w
  toTime : s.toTime v = s.toTime w
  toReal : s.toReal v = s.toReal w
  toText : s.toText v = s.toText w

/-- What a value stands for is found with one look-up at most, and there every view reads it. -/
structure Shallow (s : Session) : Prop where
  target (v : Value) : s.target? v = s.follow 1 v
  views {v w : Value} (h : s.follow 1 v = some w) : w.Direct ∧ s.Alike v w

theorem alike_of_target {s : Session} {v w : Value} (h : s.target? v = s.target? w) :
    s.Alike v w := by
  have hn : s.number v = s.number w := by rw [number, number, h]
  exact ⟨hn, by rw [truth, truth, hn], by rw [toInt, toInt, hn], by rw [toTime, toTime, hn],
    by rw [toReal, toReal, h], by rw [toText, toText, h]⟩

/-- A value that is no reference stands for itself. -/
theorem follow_direct (s : Session) {v : Value} (h : v.Direct) (n : Nat) :
    s.follow n v = some v := by
  rw [Value.Direct] at h
  cases n <;> simp [follow, h]

/-- **One look-up** is all that a reference takes where no variable holds another. -/
theorem Holds.shallow {s : Session} (hs : s.Holds Value.Direct) : s.Shallow := by
  have one (n : Nat) (v : Value) :
      s.follow (n + 1) v = (v.name?.elim (some v) s.lookup) := by
    rw [follow]
    cases v.name? with
    | none => rfl
    | some x =>
        cases hx : s.lookup x with
        | none => simp [hx]
        | some w => simpa [hx] using s.follow_direct (hs.lookup hx) n
  refine ⟨fun v => (one _ v).trans (one 0 v).symm, fun {v w} h => ?_⟩
  have hw : w.Direct := by
    rw [one] at h
    cases hv : v.name? with
    | none =>
        rw [hv] at h
        cases h
        exact hv
    | some x =>
        rw [hv] at h
        exact hs.lookup h
  refine ⟨hw, alike_of_target ?_⟩
  rw [target?, one, ← one 0, h, target?, s.follow_direct hw]

end Session

/-! ### Moments -/

namespace Machine

/-- The execution comes to a call of these values that asks for a source, in the machine without its
operands. -/
def Calls (evaluate : String → Eval Value) (p : Program) (m : Machine) (vs : List Value)
    (n : Machine) (q : Request) : Prop :=
  ∃ pc o count span, Reaches evaluate p m pc o ∧ p.code[pc]? = some ⟨.call count, span⟩ ∧
    popMany m.stack.length count o = .ok vs n ∧ request? vs n.session = some q

/-- A session that an execution goes through, or that an execution inside goes through. -/
inductive Moment (depth : Nat) (p : Program) (m : Machine) : Session → Prop
  /-- In front of an instruction, behind the taking of operands, or where an instruction halts. -/
  | passed {k : Nat} {q : Program} {n o : Machine} (hi : Inside depth p m k q n)
    (ho : Passes (evaluate k) q n o) : Moment depth p m o.session
  /-- Behind the last instruction, with a failure reported. -/
  | ended {k : Nat} {q : Program} {n : Machine} (hi : Inside depth p m k q n) :
    Moment depth p m (after (execute (evaluate k) q) n).session
  /-- In the frame of a macro, before its text is looked at. -/
  | entered {k : Nat} {q : Program} {n o : Machine} {vs : List Value} {r : Request}
    (hi : Inside depth p m k q n) (hc : Calls (evaluate k) q n vs o r) :
    Moment depth p m r.inner
  /-- Behind the evaluation that a call asks for. -/
  | evaluated {k : Nat} {q : Program} {n o : Machine} {vs : List Value} {r : Request}
    (hi : Inside depth p m k q n) (hc : Calls (evaluate k) q n vs o r) :
    Moment depth p m (left (asked (evaluate k) r o)).session
  /-- With the value of a macro for a result, before its frame is left. -/
  | resulted {k : Nat} {q : Program} {n o u : Machine} {vs : List Value} {r : Request} {v : Value}
    (hi : Inside depth p m k q n) (hc : Calls (evaluate k) q n vs o r)
    (hv : asked (evaluate k) r o = .ok v u) :
    Moment depth p m { u.session with result := some (u.session.resolve v) }

/-- What a macro or `test` comes to in an execution, or in one inside. -/
def Answer (depth : Nat) (p : Program) (m : Machine) (v : Value) : Prop :=
  ∃ k q n vs o r u, Inside depth p m k q n ∧ Calls (evaluate k) q n vs o r ∧
    callValue (evaluate k) vs o = .ok v u

/-! ### What executions keep to -/

variable {P : Value → Prop} {A : Program → Prop}

/-- The session keeps to `P` however the evaluation ends, and so does its value once it is
resolved. -/
structure Ended (P : Value → Prop) (r : EStateM.Result Halt Machine Value) : Prop where
  session : (left r).session.Holds P
  value : ∀ v n, r = .ok v n → P (n.session.resolve v)

theorem Ended.error {h : Halt} {n : Machine} (hs : n.session.Holds P) : Ended P (.error h n) :=
  ⟨hs, fun _ _ => nofun⟩

/-- An execution keeps to `P`: in the sessions of its own, in those that it makes for calls, and at
its end. -/
structure Kept (P : Value → Prop) (evaluate : String → Eval Value) (p : Program) (m : Machine) :
    Prop where
  passed : ∀ o, Passes evaluate p m o → o.session.Holds P
  entered : ∀ vs o q, Calls evaluate p m vs o q → q.inner.Holds P
  ended : Ended P (execute evaluate p m)

/-- Programs of a kind, among them all that the compiler makes, keep sessions to `P`, if the
evaluations that they ask for do. -/
structure Preserves (P : Value → Prop) (A : Program → Prop) : Prop where
  compiled : ∀ {optimize commands source p},
    (Program.compile optimize commands source).1 = .ok p → A p
  kept : ∀ depth, (∀ source (m : Machine), m.session.Holds P → Ended P (evaluate depth source m)) →
    ∀ p (m : Machine), A p → m.session.Holds P → Kept P (evaluate depth) p m

namespace Preserves

variable {depth : Nat} {p : Program} {m : Machine}

/-- **Every evaluation** keeps to `P`. -/
theorem evaluated (hP : Preserves P A) (depth : Nat) (source : String) (h : m.session.Holds P) :
    Ended P (evaluate depth source m) := by
  induction depth generalizing source m with
  | zero => exact .error h
  | succ depth ih =>
      have hr := holds_remarked h source
      rw [evaluate, evaluateWith_apply]
      cases hc : (Program.compile m.settings.optimize m.session.findCommand? source).1 with
      | ok p =>
          exact (hP.kept depth (fun source _ h => ih source h) p _ (hP.compiled hc) hr).ended
      | error e => exact .error (hr.report _)

theorem execution (hP : Preserves P A) (depth : Nat) (ha : A p) (h : m.session.Holds P) :
    Kept P (evaluate depth) p m :=
  hP.kept depth (fun source _ h => hP.evaluated depth source h) p m ha h

/-- Executions inside start with sessions that keep to `P`, and are of programs of the kind. -/
theorem inside (hP : Preserves P A) {k : Nat} {q : Program} {n : Machine}
    (hi : Inside depth p m k q n) (ha : A p) (h : m.session.Holds P) : A q ∧ n.session.Holds P := by
  induction hi with
  | self => exact ⟨ha, h⟩
  | @call depth pc count k p r q m n o t u span vs request hr hi ht hq hc _ ih =>
      have hs := (hP.execution (depth + 1) ha h).entered vs o request
        ⟨pc, n, count, span, hr, hi, ht, hq⟩
      rw [compile_apply] at hc
      injection hc with hr ht
      have hr' := holds_remarked (m := { o with session := request.inner }) hs request.source
      exact ih (hP.compiled hr) (ht ▸ hr')

/-- **In every moment** of an execution and of those inside, the session keeps to `P`. -/
theorem moment (hP : Preserves P A) (ha : A p) (h : m.session.Holds P) {s : Session}
    (hs : Moment depth p m s) : s.Holds P := by
  have inside {k : Nat} {q : Program} {n : Machine} (hi : Inside depth p m k q n) :
      Kept P (evaluate k) q n :=
    have ⟨hq, hn⟩ := hP.inside hi ha h
    hP.execution k hq hn
  have asked {k : Nat} {q : Program} {n o : Machine} {vs : List Value} {r : Request}
      (hi : Inside depth p m k q n) (hc : Calls (evaluate k) q n vs o r) :
      Ended P (asked (evaluate k) r o) :=
    hP.evaluated k r.source ((inside hi).entered vs o r hc)
  cases hs with
  | passed hi ho => exact (inside hi).passed _ ho
  | ended hi => exact (inside hi).ended.session
  | entered hi hc => exact (inside hi).entered _ _ _ hc
  | evaluated hi hc => exact (asked hi hc).session
  | resulted hi hc hv =>
      have hu := (asked hi hc).session
      rw [hv] at hu
      exact ⟨hu.globals, hu.frames, fun w hw => by cases hw; exact (asked hi hc).value _ _ hv⟩

/-- What calls come to keeps to `P`. -/
theorem answer (hP : Preserves P A) (ha : A p) (h : m.session.Holds P) {v : Value}
    (hv : Answer depth p m v) : P v := by
  obtain ⟨k, q, n, vs, o, r, u, hi, hc, he⟩ := hv
  obtain ⟨hq, hn⟩ := hP.inside hi ha h
  have hx := hP.evaluated k r.source (m := { o with session := r.inner })
    ((hP.execution k hq hn).entered vs o r hc)
  obtain ⟨-, -, -, -, -, -, -, hr⟩ := hc
  rw [callValue_of_request _ hr] at he
  cases e : evaluate k r.source { o with session := r.inner } with
  | ok w t =>
      rw [e] at he
      cases he
      exact hx.value w t e
  | error h t =>
      rw [e] at he
      cases h <;> cases he

end Preserves

end Machine

/-! ### References -/

/-- Whatever evaluations bring about stores no reference. -/
theorem Session.Evolves.direct {s t : Session} (h : s.Evolves t) (hs : s.Holds Value.Direct) :
    t.Holds Value.Direct := by
  induction h with
  | refl => exact hs
  | noted _ _ _ _ ih => exact ⟨(ih hs).globals, (ih hs).frames, (ih hs).result⟩
  | assigned _ x hv ih =>
      exact (ih hs).assign x (hv.elim id fun ⟨_, hy⟩ => (ih hs).lookup hy)
  | called _ hq _ ih ihu =>
      obtain ⟨hi, hb⟩ := Request.holds (fun _ hm => hm.data.name?) hq (fun _ _ hn => hn) (ih hs)
      exact hb _ (ihu hi)

namespace Machine

/-- **No program stores a reference**, compiled or not. -/
theorem direct_preserved : Preserves Value.Direct fun _ => True where
  compiled _ := trivial
  kept depth _ p m _ hm := by
    have he := evaluate_develops depth
    have reached {pc : Nat} {n : Machine} (hr : Reaches (evaluate depth) p m pc n) :
        n.session.Holds Value.Direct := (hr.develops he).session.direct hm
    refine ⟨fun o ho => ?_, fun vs o q hc => ?_, ?_, fun v n _ => name?_resolve n.session v⟩
    · cases ho with
      | between hr => exact reached hr
      | taken hr ht => exact session_of_popMany ht ▸ reached hr
      | @halted pc n o i h hr _ hs =>
          have ho := (step_develops he m.stack.length i.op n).session.direct (reached hr)
          rwa [after_of_error hs] at ho
    · obtain ⟨pc, n, count, span, hr, -, ht, hq⟩ := hc
      have ho : o.session.Holds Value.Direct := session_of_popMany ht ▸ reached hr
      exact (Request.holds (fun _ hm => hm.data.name?) hq (fun _ _ hn => hn) ho).1
    · exact (execute_develops he p m).session.direct hm

end Machine

end ExprEngine
