import ExprEngine.Proofs.Bytewise.Safety
import ExprEngine.Proofs.Machine.Operators

/-!
# What compiling depends on

While a source is compiled, the compiler asks which commands there are, whether constants are to be
folded, and for each remark whether to make it now: the latter hangs on pedantry, on what has been
remarked, and on the macros of the session.  None of what only remarks hang on shows in the program.

* `Machine.Warned m n`: from `m` to `n` there are only warnings, and notes of having made them.
* `Machine.remark_warned`, `Machine.remarked_warned`: what one remark does, and all those on a
  source.
* `Bytewise.compile_depends`: from machines that agree on folding and on the commands, a source is
  compiled to the same, and what is not said of warnings stays as it was.
-/

namespace ExprEngine

namespace Machine

/-- The machine after warnings, of which those that are made once may have been noted. -/
def Warned (m n : Machine) : Prop :=
  ∃ (warnings : List Diagnostic) (bracketed percent : Bool),
    (∀ d ∈ warnings, d.isWarning = true) ∧
    n = { m with
      saidBracketed := m.saidBracketed || bracketed
      saidPercent := m.saidPercent || percent
      session := m.session.record warnings }

namespace Warned

theorem refl (m : Machine) : Warned m m :=
  ⟨[], false, false, nofun, by simp [Session.record]⟩

theorem trans {m n o : Machine} (h : Warned m n) (k : Warned n o) : Warned m o := by
  obtain ⟨ws, b, p, hw, rfl⟩ := h
  obtain ⟨vs, c, q, hv, rfl⟩ := k
  refine ⟨ws ++ vs, b || c, p || q, ?_, ?_⟩
  · exact List.forall_mem_append.mpr ⟨hw, hv⟩
  · simp only [Session.record_record, Bool.or_assoc]

end Warned

theorem remark_warned (m : Machine) (n : Note) : Warned m (m.remark n) := by
  by_cases hw : m.wants n
  · refine ⟨[.note n], (m.remark n).saidBracketed, (m.remark n).saidPercent, ?_, ?_⟩
    · simp [Diagnostic.isWarning]
    · simp [remark, hw, Session.record, Session.report]
  · unfold remark
    rw [if_neg hw]
    exact .refl m

theorem remarked_warned (source : String) (m : Machine) : Warned m (remarked source m) := by
  unfold remarked
  generalize (Program.compile m.settings.optimize m.session.findCommand? source).2 = notes
  induction notes generalizing m with
  | nil => exact .refl m
  | cons n rest ih => exact (remark_warned m n).trans (ih (m.remark n))

end Machine

namespace Bytewise

variable {m n : Machine}

/-- Compiling a source depends on nothing but it, the setting for folding and the commands, and
makes warnings only, some of which it notes to have made. -/
theorem compile_depends (source : String) (ho : m.settings.optimize = n.settings.optimize)
    (hc : ∀ x, m.session.findCommand? x = n.session.findCommand? x) :
    ∃ r m' n', compile source m = some (r, m') ∧ Machine.compile source m = .ok r m' ∧
      compile source n = some (r, n') ∧ Machine.compile source n = .ok r n' ∧
      m.Warned m' ∧ n.Warned n' := by
  have hr : (Program.compile n.settings.optimize n.session.findCommand? source).1 =
      (Program.compile m.settings.optimize m.session.findCommand? source).1 := by
    rw [ho, funext hc]
  refine ⟨_, _, _, compile_eq source m, Machine.compile_apply source m, ?_, ?_,
    Machine.remarked_warned source m, Machine.remarked_warned source n⟩
  · rw [compile_eq, hr]
  · rw [Machine.compile_apply, hr]

/-- A machine that is pedantic and has made a remark, in a session with a variable and a macro. -/
def busy : Machine where
  settings := { pedantic := true }
  saidBracketed := true
  session := (({} : Session).setGlobal "x" (.text "1")).defineMacro "if" "x"

theorem compile_depends_of_busy :
    ∃ r m' n', compile "$[1 + 2] /if" {} = some (r, m') ∧
      Machine.compile "$[1 + 2] /if" {} = .ok r m' ∧
      compile "$[1 + 2] /if" busy = some (r, n') ∧ Machine.compile "$[1 + 2] /if" busy = .ok r n' ∧
      Machine.Warned {} m' ∧ busy.Warned n' :=
  compile_depends "$[1 + 2] /if" rfl fun _ => rfl

end Bytewise

end ExprEngine
