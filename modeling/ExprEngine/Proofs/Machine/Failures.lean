import ExprEngine.Proofs.Machine.Effects

/-!
# How failures are reported

An evaluation that fails has been given up somewhere: a source is no expression, or a program fails
on its own account.  Whoever gives up reports that, and callers give up in turn without a word.  So
of every failure there is one report, however deep inside of calls it happened, and nothing is
reported behind it.

* `FailsFor`: the failure at the bottom of an evaluation that fails.
* `failure_reported_once`: the reports of an evaluation, by how it ends.
-/

namespace ExprEngine.Machine

/-! ### Reports -/

/-- Between the machines these reports have been added. -/
def Adds (m n : Machine) (log : List Diagnostic) : Prop :=
  n.session.diagnostics.toList = m.session.diagnostics.toList ++ log

/-- No failure has been reported between the machines. -/
def Silent (m n : Machine) : Prop :=
  ∃ log, Mute log ∧ Adds m n log

theorem Adds.trans {m n o : Machine} {log more : List Diagnostic} (h : Adds m n log)
    (k : Adds n o more) : Adds m o (log ++ more) := by
  rw [Adds, k, h, List.append_assoc]

theorem adds_report (m : Machine) (d : Diagnostic) :
    Adds m { m with session := m.session.report d } [d] := by
  simp [Adds, Session.report]

namespace Silent

variable {m n o : Machine}

theorem of_eq (h : n.session.diagnostics = m.session.diagnostics) : Silent m n :=
  ⟨[], .nil, by rw [Adds, h, List.append_nil]⟩

theorem of_touched (h : m.session.Touched n.session) : Silent m n :=
  h.reports

theorem trans (h : Silent m n) (k : Silent n o) : Silent m o := by
  obtain ⟨log, hl, ha⟩ := h
  obtain ⟨more, hm, hb⟩ := k
  exact ⟨log ++ more, hl.append hm, ha.trans hb⟩

end Silent

/-! ### Failures inside of failures -/

/-- The evaluation fails, and this is the failure at the bottom of it: its own, or that of an
evaluation which one of its calls asks for. -/
inductive FailsFor : (depth : Nat) → (source : String) → Machine → Failure → Prop
  | own {depth : Nat} {source : String} {m n : Machine} {f : Failure}
    (he : evaluate depth source m = .error (.failure f) n) (hf : f ≠ .eval .aborted) :
    FailsFor depth source m f
  | inside {depth : Nat} {source : String} {q : Request} {m n u : Machine} {f : Failure}
    (he : evaluate (depth + 1) source m = .error EvalError.aborted.halt n)
    (ha : AsksFor depth source m u q)
    (hf : FailsFor depth q.source { u with session := q.inner } f) :
    FailsFor (depth + 1) source m f

/-- The reports of an evaluation by how it ends.  If it succeeds, no failure is reported; if it
fails, the one that it fails for is, and that comes last. -/
def Accounted (depth : Nat) (source : String) (m : Machine) :
    EStateM.Result Halt Machine Value → Prop
  | .ok _ n => Silent m n
  | .error (.failure f) n => ∃ log g, Mute log ∧ Adds m n (log ++ [.abort g]) ∧
      FailsFor depth source m g ∧ (f = g ∨ f = .eval .aborted)
  | .error _ _ => True

/-- What is known of an evaluator that reports no failure unless it fails. -/
def Discreet (evaluate : String → Eval Value) : Prop :=
  ∀ source m v n, evaluate source m = .ok v n → Silent m n

section

variable {evaluate : String → Eval Value} {p : Program} {base : Nat} {op : Op Nat}
  {m n u : Machine} {q : Request}

/-- Around the evaluation that it asks for, a call does not report. -/
theorem Asks.adds (h : Asks base op m n q) {log : List Diagnostic}
    (hu : Adds { n with session := q.inner } u log) :
    Adds m { u with session := q.back u.session } log := by
  have hs := h.session
  obtain ⟨count, vs, -, -, hq⟩ := h
  obtain ⟨hi, hb⟩ := Request.diagnostics hq
  rw [Adds] at hu ⊢
  rw [hb, hu, hi, hs]

theorem Asks.silent (h : Asks base op m n q) (hu : Silent { n with session := q.inner } u) :
    Silent m { u with session := q.back u.session } := by
  obtain ⟨log, hl, ha⟩ := hu
  exact ⟨log, hl, h.adds ha⟩

theorem Silent.of_own {α : Type} {r : EStateM.Result Halt Machine α} (h : Own m r) :
    Silent m (left r) :=
  h.acts.session.reports

theorem step_silent (he : Discreet evaluate) {target : Option Nat}
    (hs : step evaluate base op m = .ok target n) : Silent m n := by
  have h := stepped evaluate base op m
  rw [hs] at h
  cases h with
  | own h => exact .of_own h
  | answered ha hv h => exact (ha.silent (he _ _ _ _ hv)).trans (.of_own h)

theorem Reaches.silent (he : Discreet evaluate) {pc : Nat} (hr : Reaches evaluate p m pc n) :
    Silent m n := by
  induction hr with
  | start => exact .of_eq rfl
  | step _ _ hs ih => exact ih.trans (step_silent he hs)

/-- **A step that halts** does so on its own account, or since an evaluation inside it halts. -/
theorem step_halts (he : Discreet evaluate) {h : Halt} (hs : step evaluate base op m = .error h n) :
    (h.Own (fun _ => True) ∧ Silent m n) ∨
      ∃ o q e u, Asks base op m o q ∧ asked evaluate q o = .error e u ∧ h = e.inCaller ∧
        n = { u with session := q.back u.session } := by
  have hm := stepped evaluate base op m
  rw [hs] at hm
  cases hm with
  | own ho =>
      refine .inl ⟨?_, .of_own ho⟩
      cases ho with
      | error _ hh => exact hh
  | answered ha hv ho =>
      refine .inl ⟨?_, (ha.silent (he _ _ _ _ hv)).trans (.of_own ho)⟩
      cases ho with
      | error _ hh => exact hh
  | @halted o u q e ha hv => exact .inr ⟨o, q, e, u, ha, hv, rfl, rfl⟩

end

/-! ### Ends of executions -/

/-- A failure of the execution's own is reported when it is unwound, and no other one. -/
theorem adds_unwind (m : Machine) (base : Nat) (e : EvalError) :
    Adds m (m.unwind base e) (if e = .aborted then [] else [.abort (.eval e)]) := by
  unfold unwind
  split
  · exact (List.append_nil _).symm
  · exact adds_report m _

theorem budget_own (s : Settings) :
    (budget s).2 = .exhausted ∨
      ∃ limit, (budget s).2 = (EvalError.instructionLimit limit).halt := by
  unfold budget
  split
  · exact .inl rfl
  · exact .inr ⟨_, rfl⟩

section

variable {depth : Nat} {source : String} {p : Program} {m n t : Machine}

/-- Behind the program no failure is left to report. -/
theorem accounted_done (h : Silent m n) (base : Nat) :
    Accounted depth source m (finished base (.ok () n)) := by
  unfold finished
  split
  · next hr => cases hr
  · next hr => cases hr
  · next hr =>
    cases hr
    split
    · exact h
    · exact h
    · trivial

/-- The evaluation of a source that is an expression. -/
theorem accounted_execute (ih : ∀ source m, Accounted depth source m (evaluate depth source m))
    (hc : compile source m = .ok (.ok p) t) :
    Accounted (depth + 1) source m (execute (evaluate depth) p t) := by
  have hd : Discreet (evaluate depth) := by
    intro source m v n hv
    have := ih source m
    rwa [hv] at this
  have he : evaluate (depth + 1) source m = execute (evaluate depth) p t := by
    rw [evaluate, evaluateWith, bind_of_ok hc]
  have ht : Silent m t := by
    rw [compile_apply] at hc
    injection hc with _ hc
    exact hc ▸ .of_touched (remarked_acts source m).session
  -- a failure of the program's own is the one that the evaluation fails for
  have own {e : EvalError} {o : Machine} (hn : e ≠ .aborted) (hq : Silent m o)
      (hx : execute (evaluate depth) p t = .error e.halt (o.unwind t.stack.length e)) :
      Accounted (depth + 1) source m (.error e.halt (o.unwind t.stack.length e)) := by
    obtain ⟨log, hl, ha⟩ := hq
    have hu := adds_unwind o t.stack.length e
    rw [if_neg hn] at hu
    refine ⟨log, .eval e, hl, ha.trans hu, .own (he.trans hx) ?_, .inl rfl⟩
    rintro ⟨⟩
    exact hn rfl
  obtain ⟨r, hr, hx⟩ := execute_ends_run (evaluate depth) p t
  cases hr with
  | done hr => exact hx ▸ accounted_done (ht.trans (hr.silent hd)) _
  | @spent pc n hr =>
      rcases budget_own t.settings with hb | ⟨limit, hb⟩ <;> rw [hb] at hx
      · exact hx ▸ trivial
      · rw [hx]
        exact own (e := .instructionLimit limit) (by simp) (ht.trans (hr.silent hd)) hx
  | @halted pc o n i h hr hi hs =>
      have ho := ht.trans (hr.silent hd)
      rcases step_halts hd hs with ⟨hh, hq⟩ | ⟨u, q, e, w, ha, hv, rfl, rfl⟩
      · cases hh with
        | failure hn =>
            rw [hx]
            exact own hn.ne_aborted (ho.trans hq) hx
        | fault => exact hx ▸ trivial
      · cases e with
        | fault f => exact hx ▸ trivial
        | exhausted => exact hx ▸ trivial
        | failure f =>
            -- what has failed inside has been reported there
            have hu : Accounted depth q.source { u with session := q.inner } _ := ih ..
            rw [show evaluate depth q.source { u with session := q.inner } = _ from hv] at hu
            obtain ⟨more, g, hm, hadd, hf, -⟩ := hu
            obtain ⟨log, hl, hlog⟩ := ho
            have hall := (hlog.trans (ha.adds hadd)).trans
              (adds_unwind { w with session := q.back w.session } t.stack.length .aborted)
            rw [if_pos rfl, List.append_nil, ← List.append_assoc] at hall
            exact hx ▸ ⟨log ++ more, g, hl.append hm, hall,
              .inside (he.trans hx) ⟨_, _, _, _, _, hc, hr, hi, ha⟩ hf, .inr rfl⟩

end

theorem evaluate_accounted (depth : Nat) (source : String) (m : Machine) :
    Accounted depth source m (evaluate depth source m) := by
  induction depth generalizing source m with
  | zero => trivial
  | succ depth ih =>
      have he : evaluate (depth + 1) source m = _ := evaluateWith_apply (evaluate depth) source m
      cases hp : (Program.compile m.settings.optimize m.session.findCommand? source).1 with
      | ok p =>
          rw [hp] at he
          exact he ▸ accounted_execute ih (by rw [compile_apply, hp])
      | error e =>
          rw [hp] at he
          obtain ⟨log, hl, ha⟩ := Silent.of_touched (remarked_acts source m).session
          exact he ▸ ⟨log, .compile e, hl, ha.trans (adds_report _ _), .own he nofun, .inl rfl⟩

/-- **A failure is reported once.**  If an evaluation succeeds, no failure has been reported.  If it
fails, one has, behind everything else, however deep inside it happened; its text is that of the
failure at the bottom.  That is the failure of the evaluation itself unless it gave up for an
evaluation inside. -/
theorem failure_reported_once (depth : Nat) (source : String) (m : Machine) :
    (∀ v n, evaluate depth source m = .ok v n → ∃ log, Mute log ∧ Adds m n log) ∧
    ∀ f n, evaluate depth source m = .error (.failure f) n →
      ∃ log g, Mute log ∧ Adds m n (log ++ [.abort g]) ∧ FailsFor depth source m g ∧
        (f ≠ .eval .aborted → f = g) ∧ (Diagnostic.abort g).text = "error: " ++ g.message := by
  have h := evaluate_accounted depth source m
  refine ⟨fun v n he => by rwa [he] at h, fun f n he => ?_⟩
  rw [he] at h
  obtain ⟨log, g, hl, ha, hf, hg⟩ := h
  exact ⟨log, g, hl, ha, hf, fun hn => hg.resolve_right hn, rfl⟩

end ExprEngine.Machine
