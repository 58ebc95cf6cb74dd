import ExprEngine.Proofs.Machine.Regimes

/-!
# Functions and commands in sessions

A compiled program pushes a function or a command for the end of a callee only.  No operand of an
operator and no argument is ever one, so that none is stored: in a session that holds data, a
compiled program finds nothing but data to store.

* `dataOnly`: the regime of sessions that hold data, for well laid programs.
* `stored_values`: what sessions hold in all moments of an execution.
-/

namespace ExprEngine

open Machine

/-- The value is not there to be called: it is data or a reference. -/
abbrev Value.Inert (v : Value) : Prop :=
  Calling.all.of? v = none

theorem Value.data_of_inert {v : Value} (h : v.Inert) (hn : v.name? = none) : v.Data := by
  unfold Inert Calling.all function? command? at h
  unfold name? at hn
  unfold Data
  split <;> simp_all

/-- Sessions hold data, and where nothing to call is expected there is nothing to call. -/
def dataOnly : Regime Unit where
  calling := .all
  Held := Value.Data
  Fills x v := x = none → v.Inert
  May _ := True
  data h := h
  operand h _ := Calling.all.of?_data h
  stored h hn := Value.data_of_inert (h rfl) hn
  roomy _ _ h _ := h rfl
  pushed _ h := h
  called _ _ _ _ _ _ := trivial

namespace Machine

/-- **Compiled programs store data only**, in sessions that hold nothing else. -/
theorem data_preserved : Preserves Value.Data Calling.all.WellLaid :=
  dataOnly.preserves

/-- **What sessions hold.**  In a session without references, no program ever stores one, compiled
or not, and no macro comes to one: not in any moment of its execution or of the executions inside
it.  So every view makes one look-up at most.  If the session holds no function and no command
either, a compiled program does not store any, and no macro comes to one. -/
theorem stored_values {m : Machine} (hm : m.session.Holds Value.Direct) (depth : Nat)
    (p : Program) :
    (∀ s, Moment depth p m s → s.Holds Value.Direct ∧ s.Shallow) ∧
    (∀ v, Answer depth p m v → v.Direct) ∧
    ∀ optimize commands source, (Program.compile optimize commands source).1 = .ok p →
      m.session.Holds Value.Data →
        (∀ s, Moment depth p m s → s.Holds Value.Data) ∧ ∀ v, Answer depth p m v → v.Data := by
  refine ⟨fun s hs => ?_, fun v hv => direct_preserved.answer trivial hm hv,
    fun optimize commands source hc hd => ?_⟩
  · have h := direct_preserved.moment trivial hm hs
    exact ⟨h, h.shallow⟩
  · have ha := data_preserved.compiled hc
    exact ⟨fun s hs => data_preserved.moment ha hd hs, fun v hv => data_preserved.answer ha hd hv⟩

/-- A copy of the variable `x`. -/
def copyOfX : Program :=
  ⟨"y := x", #[⟨.push (.name "y"), ⟨0, 1⟩⟩, ⟨.push (.name "x"), ⟨5, 6⟩⟩,
    ⟨.reduce .assign 2, ⟨2, 4⟩⟩]⟩

theorem compile_copyOfX :
    (Program.compile false (fun _ => none) copyOfX.source).1 = .ok copyOfX :=
  of_toOption (by decide +kernel)

/-- A machine whose session has a value for the variable `x`. -/
def givenX (v : Value) : Machine :=
  { session := ({} : Session).assign "x" v }

theorem holds_givenX {P : Value → Prop} {v : Value} (hv : P v) : (givenX v).session.Holds P :=
  Session.Holds.empty.assign "x" hv

theorem stored_values_copyOfX :
    (Program.compile false (fun _ => none) copyOfX.source).1 = .ok copyOfX ∧
      (givenX (.text "5")).session.Holds Value.Data ∧
      ∀ s, Moment 1 copyOfX (givenX (.text "5")) s → s.Holds Value.Data ∧ s.Shallow := by
  have hc := compile_copyOfX
  have hd : (givenX (.text "5")).session.Holds Value.Data := holds_givenX trivial
  obtain ⟨hm, -, ha⟩ := stored_values (m := givenX (.text "5")) (holds_givenX rfl) 1 copyOfX
  exact ⟨hc, hd, fun s hs => ⟨(ha false _ _ hc hd).1 s hs, (hm s hs).2⟩⟩

/-- A function that the session held before is copied like any other value. -/
theorem function_copied :
    (Program.compile false (fun _ => none) copyOfX.source).1 = .ok copyOfX ∧
      (givenX ⟨.function .strlen, false⟩).session.Holds Value.Direct ∧
      (givenX ⟨.function .strlen, false⟩).session.lookup "y" = none ∧
      ∃ s, Moment 0 copyOfX (givenX ⟨.function .strlen, false⟩) s ∧
        s.lookup "y" = some ⟨.function .strlen, false⟩ :=
  ⟨compile_copyOfX, holds_givenX rfl, rfl, _, .ended (.self _ _ _), rfl⟩

end Machine

end ExprEngine
