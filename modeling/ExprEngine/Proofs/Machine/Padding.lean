import ExprEngine.Machine.Line
import ExprEngine.Proofs.Grammar.Padding

/-!
# Evaluating with blanks around

A source with blanks around it is the same program up to places, so its evaluation is the same one.
If it is refused, the reports say the same, but for complaints about something that is open at the
end of the source.

* `Machine.unreported`, `Machine.reports`: a machine without its reports, and what they say.
* `Machine.EndsLike`: evaluations that end alike.
* `Machine.evaluateWith_pad`: the evaluation of a source with blanks around it.
-/

namespace ExprEngine

open Grammar

/-- Something in the source is still open where it ends. -/
def Grammar.Unfinished (commands : Commands) (source : String) : Prop :=
  ∃ e, (parse commands source).1 = .error e ∧ e.cause.Unfinished

namespace Machine

/-- The machine without its reports. -/
def unreported (m : Machine) : Machine :=
  { m with session := { m.session with diagnostics := #[] } }

/-- What the reports say. -/
def reports (m : Machine) : List String :=
  m.session.diagnostics.toList.map Diagnostic.text

/-- Two evaluations end alike: with the same result, or both sources are refused, and then the
reports say the same unless the exception is met. -/
inductive EndsLike (excepted : Prop) :
    EStateM.Result Halt Machine Value → EStateM.Result Halt Machine Value → Prop
  | same {r} : EndsLike excepted r r
  | refused {e f : CompileError} {m n : Machine} : n.unreported = m.unreported →
    (¬excepted → n.reports = m.reports) →
    EndsLike excepted (.error (.failure (.compile e)) m) (.error (.failure (.compile f)) n)

/-- The machine after a source was refused. -/
def refused (m : Machine) (e : CompileError) : Machine :=
  { m with session := m.session.report (.abort (.compile e)) }

@[simp] theorem unreported_refused (m : Machine) (e : CompileError) :
    (m.refused e).unreported = m.unreported :=
  rfl

theorem reports_refused (m : Machine) (e : CompileError) :
    (m.refused e).reports = m.reports ++ ["error: " ++ e.cause.message] := by
  show (m.session.diagnostics.push _).toList.map Diagnostic.text = _
  rw [Array.toList_push, List.map_append]
  rfl

/-- A remark on an escape is nothing but a report. -/
theorem unreported_remark_escape (m : Machine) (q c : Char) :
    (m.remark (.needlessEscape q c)).unreported = m.unreported := by
  have hn : (Note.needlessEscape q c == .bracketed) = false := rfl
  unfold remark
  split
  · simp [unreported, Session.report, hn]
  · rfl

theorem unreported_remark_escapes (m : Machine) {notes : List Note}
    (h : ∀ n ∈ notes, ∃ q c, n = .needlessEscape q c) :
    (notes.foldl remark m).unreported = m.unreported := by
  induction notes generalizing m with
  | nil => rfl
  | cons n notes ih =>
      obtain ⟨q, c, rfl⟩ := h n List.mem_cons_self
      rw [List.foldl_cons, ih _ fun k hk => h k (List.mem_cons_of_mem _ hk),
        unreported_remark_escape]

/-- **The evaluation of a source with blanks around it.** -/
theorem evaluateWith_pad (evaluate : String → Eval Value) (m : Machine) {lead row : List Char}
    (hl : Blanks lead) (hrow : Blanks row) (core : List Char) :
    EndsLike (row ≠ [] ∧ Unfinished m.session.findCommand? (String.ofList core))
      (evaluateWith evaluate (String.ofList core) m)
      (evaluateWith evaluate (String.ofList (lead ++ core ++ row)) m) := by
  have h := parse_pad m.session.findCommand? hl hrow core
  rw [evaluateWith_apply, evaluateWith_apply, remarked, remarked, Program.compile_fst,
    Program.compile_fst, Program.compile_snd, Program.compile_snd]
  unfold Unfinished
  generalize parse m.session.findCommand? (String.ofList core) = x at h ⊢
  generalize parse m.session.findCommand? (String.ofList (lead ++ core ++ row)) = y at h ⊢
  cases h with
  | ok hs =>
      have hsame := Program.alike_of_unplaced hs m.settings.optimize (String.ofList core)
        (String.ofList (lead ++ core ++ row))
      show EndsLike _ (execute evaluate _ _) (execute evaluate _ _)
      rw [execute_congr evaluate hsame]
      exact .same
  | @same e f notes hc =>
      refine .refused rfl fun _ => ?_
      show ((notes.foldl remark m).refused f).reports = ((notes.foldl remark m).refused e).reports
      rw [reports_refused, reports_refused, hc]
  | @unfinished e f notes more hr hu hm =>
      refine .refused ?_ fun h => absurd ⟨hr, e, rfl, hu⟩ h
      show (refused _ f).unreported = (refused _ e).unreported
      rw [unreported_refused, unreported_refused, List.foldl_append,
        unreported_remark_escapes _ hm]

end Machine

end ExprEngine
