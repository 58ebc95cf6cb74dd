import ExprEngine.Proofs.Machine.Stack

/-!
# Effects of steps

What an execution does to the session, step by step.  A step either asks for a source (`Asks`) or
acts on its own account (`Own`): then it reports, keeps a match, writes or stores a value, and if it
halts, nothing inside it has failed.  So whatever an execution does comes of a few kinds of changes
(`Evolves`), and what all of them keep, every evaluation keeps.

* `stepped`: the two kinds of steps.
* `Reaches.run_ends`: how a run ends, in terms of the machines that its execution goes through.
* `evaluate_develops`: every evaluation, of whatever source, brings about these changes only.
-/

namespace ExprEngine

/-! ### Changes of a session -/

/-- What a step does to a session on its own account.  A value that is stored is no reference, or
is the value of some variable. -/
inductive Session.Touched (s : Session) : Session → Prop
  | refl : Touched s s
  | noted {t : Session} {log : List Diagnostic} (h : Touched s t) (hl : Mute log)
    (lastMatch : Option Found) (output : Array String) :
    Touched s { t.record log with lastMatch, output }
  | assigned {t : Session} {v : Value} (h : Touched s t) (x : String)
    (hv : v.name? = none ∨ ∃ y, t.lookup y = some v) : Touched s (t.assign x v)

namespace Session.Touched

variable {s t u : Session}

theorem trans (h : s.Touched t) (k : t.Touched u) : s.Touched u := by
  induction k with
  | refl => exact h
  | noted _ hl found output ih => exact .noted ih hl found output
  | assigned _ x hv ih => exact .assigned ih x hv

theorem record (s : Session) {log : List Diagnostic} (hl : Mute log) : s.Touched (s.record log) :=
  .noted .refl hl s.lastMatch s.output

theorem report (s : Session) {d : Diagnostic} (h : ¬d.isAbort) : s.Touched (s.report d) :=
  s.report_eq_record d ▸ record s (.single h)

/-- A step adds to the reports, and does not report that an evaluation was given up. -/
theorem reports (h : s.Touched t) :
    ∃ log, Mute log ∧ t.diagnostics.toList = s.diagnostics.toList ++ log := by
  induction h with
  | refl => exact ⟨[], .nil, (List.append_nil _).symm⟩
  | @noted t log _ hl found output ih =>
      obtain ⟨more, hm, ht⟩ := ih
      refine ⟨more ++ log, hm.append hl, ?_⟩
      rw [← List.append_assoc, ← ht]
      simp [Session.record]
  | assigned _ x _ ih =>
      rw [diagnostics_assign]
      exact ih

end Session.Touched

theorem Operator.Reduced.touched {may : Fault → Prop} {args : List Value} {s : Session}
    {r : EStateM.Result Halt Session Value} (h : Reduced may args s r) :
    s.Touched (Machine.left r) := by
  cases h with
  | computed hl | halted hl => exact .record s hl
  | @stored x v log hl hv =>
      refine .assigned (.record s hl) x ?_
      cases hv with
      | made hm => exact .inl hm.data.name?
      | operand _ hn => exact .inl hn
      | «variable» y hy => exact .inr ⟨y, hy⟩

/-- How a caller halts for an evaluation that halts: a failure has been reported inside. -/
def Halt.inCaller : Halt → Halt
  | .failure _ => EvalError.aborted.halt
  | h => h

namespace Machine

variable {α β : Type}

/-! ### Steps on their own account -/

/-- What a step does on its own account: it leaves the settings alone. -/
structure Acts (m n : Machine) : Prop where
  session : m.session.Touched n.session
  settings : n.settings = m.settings

theorem Acts.trans {m n o : Machine} (h : Acts m n) (k : Acts n o) : Acts m o :=
  ⟨h.session.trans k.session, k.settings.trans h.settings⟩

/-- The outcome of a step that acts on its own account. -/
inductive Own (m : Machine) : EStateM.Result Halt Machine α → Prop
  | ok {a : α} {n : Machine} (h : Acts m n) : Own m (.ok a n)
  | error {e : Halt} {n : Machine} (h : Acts m n) (he : e.Own fun _ => True) : Own m (.error e n)

/-- The step acts on its own account from whatever machine. -/
def Owned (x : Eval α) : Prop :=
  ∀ m, Own m (x m)

theorem Own.acts {m : Machine} {r : EStateM.Result Halt Machine α} (h : Own m r) :
    Acts m (left r) := by
  cases h with
  | ok h => exact h
  | error h _ => exact h

theorem Own.bind {m : Machine} {x : Eval α} {f : α → Eval β} (hx : Own m (x m))
    (hf : ∀ a n, x m = .ok a n → Own n (f a n)) : Own m ((x >>= f) m) := by
  rw [bind_apply]
  cases e : x m with
  | error k n =>
      rw [e] at hx
      cases hx with
      | error h he => exact .error h he
  | ok a n =>
      rw [e] at hx
      have hn := hf a n e
      dsimp only
      generalize f a n = r at hn ⊢
      cases hx with
      | ok h =>
          cases hn with
          | ok k => exact .ok (h.trans k)
          | error k he => exact .error (h.trans k) he

namespace Owned

theorem pure (a : α) : Owned (pure a : Eval α) :=
  fun _ => .ok ⟨.refl, rfl⟩

theorem bind {x : Eval α} {f : α → Eval β} (hx : Owned x) (hf : ∀ a, Owned (f a)) :
    Owned (x >>= f) :=
  fun m => (hx m).bind fun a n _ => hf a n

theorem push (v : Value) : Owned (push v) := by
  intro m
  rw [push_apply]
  split
  · exact .error ⟨.refl, rfl⟩ (.failure (e := .stackOverflow) trivial)
  · exact .ok ⟨.refl, rfl⟩

/-- What most steps end with. -/
theorem pushed (v : Value) : Owned (Machine.push v >>= fun _ => Pure.pure (none : Option Nat)) :=
  (push v).bind fun _ => pure _

theorem popMany (base n : Nat) : Owned (popMany base n) := by
  intro m
  rw [popMany_apply]
  split
  · exact .error ⟨.refl, rfl⟩ (.fault trivial)
  · exact .ok ⟨.refl, rfl⟩

theorem top (base : Nat) : Owned (top base) := by
  intro m
  rw [top_apply]
  split
  · split
    · exact .ok ⟨.refl, rfl⟩
    · exact .error ⟨.refl, rfl⟩ (.fault trivial)
  · exact .error ⟨.refl, rfl⟩ (.fault trivial)

theorem reduce (op : Operator) (args : List Value) : Owned (inSession (op.reduce args)) := by
  intro m
  have hr : Operator.Reduced (fun _ => True) args m.session (op.reduce args m.session) :=
    Operator.reduces (fun _ _ => trivial) m.session
  unfold inSession
  cases e : op.reduce args m.session with
  | ok v s =>
      rw [e] at hr
      exact .ok ⟨hr.touched, rfl⟩
  | error k s =>
      rw [e] at hr
      refine .error ⟨hr.touched, rfl⟩ ?_
      cases hr with
      | halted _ hh => exact hh

theorem runCommand (name arg : String) : Owned (runCommand name arg) := by
  unfold Machine.runCommand
  split
  · exact fun m => .ok ⟨.noted .refl .nil _ _, rfl⟩
  · exact fun m => .error ⟨.refl, rfl⟩ (.failure (e := .commandNotAvailable name) trivial)

end Owned

theorem Simple.owned {P : α → Prop} {x : Eval α} (h : Simple (fun _ => True) P x) : Owned x := by
  induction h with
  | pure => exact .pure _
  | bind _ _ hx hf => exact hx.bind hf
  | session | host | draw => exact fun m => .ok ⟨.refl, rfl⟩
  | observe hl => exact fun m => .ok ⟨.record m.session (hl m.session), rfl⟩
  | report h => exact fun m => .ok ⟨.report m.session h, rfl⟩
  | keep found => exact fun m => .ok ⟨.noted .refl .nil _ _, rfl⟩
  | fail h => exact fun m => .error ⟨.refl, rfl⟩ (.failure h)
  | fault => exact fun m => .error ⟨.refl, rfl⟩ (.fault trivial)

/-- A call that asks for no source acts on its own account. -/
theorem callValue_own (evaluate : String → Eval Value) {vs : List Value} {m : Machine}
    (h : request? vs m.session = none) : Own m (callValue evaluate vs m) := by
  match vs with
  | [] => exact .error ⟨.refl, rfl⟩ (.fault trivial)
  | callee :: args =>
      have provided (b : Builtin) (_ : callee.payload = .function b) :
          Builtin.Provides (fun _ => True) args b.arity.1 := fun _ _ _ => trivial
      rcases callValue_of_no_request evaluate h provided with ⟨x, hx, hc⟩ | hc | ⟨name, arg, hc⟩
      · exact hc ▸ hx.owned m
      · exact hc ▸ .ok ⟨.refl, rfl⟩
      · exact hc ▸ Owned.runCommand name arg m

/-! ### Steps -/

/-- The operation is a call that asks for a source, in the machine without its operands. -/
def Asks (base : Nat) (op : Op Nat) (m n : Machine) (q : Request) : Prop :=
  ∃ count vs, op = .call count ∧ popMany base count m = .ok vs n ∧ request? vs n.session = some q

/-- The evaluation that a call asks for, from the machine without the operands of the call. -/
abbrev asked (evaluate : String → Eval Value) (q : Request) (m : Machine) :
    EStateM.Result Halt Machine Value :=
  evaluate q.source { m with session := q.inner }

/-- The outcome of a step: of its own account, or of the evaluation that it asks for, behind which
there is a value to push. -/
inductive Stepped (evaluate : String → Eval Value) (base : Nat) (op : Op Nat) (m : Machine) :
    EStateM.Result Halt Machine (Option Nat) → Prop
  | own {r : EStateM.Result Halt Machine (Option Nat)} (h : Own m r) : Stepped evaluate base op m r
  | answered {n u : Machine} {q : Request} {v : Value}
    {r : EStateM.Result Halt Machine (Option Nat)} (ha : Asks base op m n q)
    (he : asked evaluate q n = .ok v u) (h : Own { u with session := q.back u.session } r) :
    Stepped evaluate base op m r
  | halted {n u : Machine} {q : Request} {e : Halt} (ha : Asks base op m n q)
    (he : asked evaluate q n = .error e u) :
    Stepped evaluate base op m (.error e.inCaller { u with session := q.back u.session })

section

variable (evaluate : String → Eval Value) {base : Nat} {op : Op Nat} {m n : Machine} {q : Request}

/-- A step that asks for a source goes on with what the evaluation comes to. -/
theorem stepped_of_asks (h : Asks base op m n q) :
    Stepped evaluate base op m (step evaluate base op m) := by
  obtain ⟨count, vs, rfl, ht, hq⟩ := id h
  have hs : step evaluate base (.call count) m =
      (callValue evaluate vs >>= fun v => push v >>= fun _ => pure none) n := by
    simp only [step, bind_of_ok ht]
  rw [hs, bind_apply, callValue_of_request evaluate hq]
  cases he : asked evaluate q n with
  | ok v u =>
      have hr : q.resume (asked evaluate q n) = _ := congrArg q.resume he
      rw [hr]
      exact .answered h he (Owned.pushed _ _)
  | error e u =>
      have hr : q.resume (asked evaluate q n) = _ := congrArg q.resume he
      rw [hr]
      have hh := Stepped.halted h he
      cases e <;> exact hh

/-- A step that asks for no source acts on its own account. -/
theorem step_own (h : ∀ n q, ¬Asks base op m n q) : Own m (step evaluate base op m) := by
  have session : Owned getSession := Simple.session.owned
  cases op with
  | jump kind target =>
      refine Owned.bind ?_ (fun b => by split <;> exact .pure _) m
      have truth (v : Value) : Owned (observe (·.truth v)) :=
        (Simple.observe (·.mute_truth v)).owned
      cases kind with
      | always => exact .pure _
      | ifFalse => exact (Owned.top base).bind fun v => (truth v).bind fun b => .pure _
      | ifTrue => exact (Owned.top base).bind truth
      | ifNonEmpty => exact (Owned.top base).bind fun v => .pure _
  | push v => exact Owned.pushed v m
  | pop n => exact Owned.bind (.popMany base n) (fun _ => .pure _) m
  | dup => exact Owned.bind (.top base) Owned.pushed m
  | pushVariable x => exact session.bind (fun s => Owned.pushed _) m
  | pushParam s => exact (simple_selected s).owned.bind Owned.pushed m
  | pushBody name =>
      refine session.bind (fun s => ?_) m
      split
      · exact Owned.pushed _
      · exact (Simple.report (d := .undefinedMacro name) nofun).owned.bind
          fun _ => Owned.pushed _
  | pushOutput line => exact (simple_commandOutput line).owned.bind Owned.pushed m
  | call count =>
      refine (Owned.popMany base count m).bind fun vs o ho => ?_
      refine Own.bind (callValue_own evaluate ?_) fun v t _ => Owned.pushed v t
      cases hq : request? vs o.session with
      | none => rfl
      | some q => exact absurd ⟨count, vs, rfl, ho, hq⟩ (h o q)
  | reduce op count =>
      exact Owned.bind (.popMany base count) (fun vs => (Owned.reduce op vs).bind Owned.pushed) m

/-- **Every step** asks for a source or acts on its own account. -/
theorem stepped (evaluate : String → Eval Value) (base : Nat) (op : Op Nat) (m : Machine) :
    Stepped evaluate base op m (step evaluate base op m) := by
  by_cases h : ∃ n q, Asks base op m n q
  · obtain ⟨n, q, ha⟩ := h
    exact stepped_of_asks evaluate ha
  · exact .own (step_own evaluate fun n q ha => h ⟨n, q, ha⟩)

end

theorem session_of_popMany {base count : Nat} {m n : Machine} {vs : List Value}
    (h : popMany base count m = .ok vs n) : n.session = m.session := by
  rw [popMany_apply] at h
  split at h
  · cases h
  · cases h
    rfl

theorem settings_of_popMany {base count : Nat} {m n : Machine} {vs : List Value}
    (h : popMany base count m = .ok vs n) : n.settings = m.settings := by
  rw [popMany_apply] at h
  split at h
  · cases h
  · cases h
    rfl

theorem Asks.settings {base : Nat} {op : Op Nat} {m n : Machine} {q : Request}
    (h : Asks base op m n q) : n.settings = m.settings := by
  obtain ⟨count, vs, -, ht, -⟩ := h
  exact settings_of_popMany ht

theorem Asks.session {base : Nat} {op : Op Nat} {m n : Machine} {q : Request}
    (h : Asks base op m n q) : n.session = m.session := by
  obtain ⟨count, vs, -, ht, -⟩ := h
  exact session_of_popMany ht

/-! ### Runs -/

section

variable {evaluate : String → Eval Value} {p : Program} {m : Machine}

/-- How the run of an execution ends: behind the program, where its instructions are spent, or where
one of them halts. -/
inductive Ends (evaluate : String → Eval Value) (p : Program) (m : Machine) (spent : Halt) :
    EStateM.Result Halt Machine Unit → Prop
  | done {pc : Nat} {n : Machine} (hr : Reaches evaluate p m pc n) (hk : p.code.size ≤ pc) :
    Ends evaluate p m spent (.ok () n)
  | spent {pc : Nat} {n : Machine} (hr : Reaches evaluate p m pc n) :
    Ends evaluate p m spent (.error spent n)
  | halted {pc : Nat} {n o : Machine} {i : Instr Nat} {h : Halt} (hr : Reaches evaluate p m pc n)
    (hi : p.code[pc]? = some i) (hs : step evaluate m.stack.length i.op n = .error h o) :
    Ends evaluate p m spent (.error h o)

theorem runFrom_of_ok {base pc budget : Nat} {spent : Halt} {i : Instr Nat} {target : Option Nat}
    {n o : Machine} (hi : p.code[pc]? = some i) (hs : step evaluate base i.op n = .ok target o) :
    runFrom evaluate base p spent (budget + 1) pc n =
      runFrom evaluate base p spent budget (target.getD (pc + 1)) o := by
  rw [runFrom, hi]
  exact bind_of_ok hs _

theorem runFrom_of_error {base pc budget : Nat} {spent h : Halt} {i : Instr Nat} {n o : Machine}
    (hi : p.code[pc]? = some i) (hs : step evaluate base i.op n = .error h o) :
    runFrom evaluate base p spent (budget + 1) pc n = .error h o := by
  rw [runFrom, hi]
  exact bind_of_error hs _

theorem Reaches.run_ends {pc : Nat} {n : Machine} (hr : Reaches evaluate p m pc n) (spent : Halt)
    (budget : Nat) :
    Ends evaluate p m spent (runFrom evaluate m.stack.length p spent budget pc n) := by
  induction budget generalizing pc n with
  | zero =>
      unfold runFrom
      split
      · exact .spent hr
      · next hk => exact .done hr (Nat.le_of_not_lt hk)
  | succ budget ih =>
      cases hi : p.code[pc]? with
      | none =>
          rw [runFrom, hi]
          exact .done hr (Array.getElem?_eq_none_iff.mp hi)
      | some i =>
          cases hs : Machine.step evaluate m.stack.length i.op n with
          | ok target o => exact runFrom_of_ok hi hs ▸ ih (hr.step hi hs)
          | error e o => exact runFrom_of_error hi hs ▸ .halted hr hi hs

/-- An execution ends as its run does, from the machine that it started with. -/
theorem execute_ends_run (evaluate : String → Eval Value) (p : Program) (m : Machine) :
    ∃ r, Ends evaluate p m (budget m.settings).2 r ∧
      execute evaluate p m = finished m.stack.length r :=
  ⟨_, Reaches.start.run_ends _ _, execute_apply evaluate p m⟩

end

/-- At its end an execution changes nothing of the session, but that it may report a failure. -/
theorem finished_session (base : Nat) (r : EStateM.Result Halt Machine Unit) :
    (left (finished base r)).session = (left r).session ∨
      ∃ d, (left (finished base r)).session = (left r).session.report d := by
  unfold finished
  split
  · next e n =>
    by_cases he : e = .aborted
    · exact .inl (by simp only [left, unwind, if_pos he])
    · exact .inr ⟨_, by simp only [left, unwind, if_neg he]; rfl⟩
  · exact .inl rfl
  · split <;> exact .inl rfl

theorem finished_settings (base : Nat) (r : EStateM.Result Halt Machine Unit) :
    (left (finished base r)).settings = (left r).settings := by
  unfold finished
  split
  · rfl
  · rfl
  · split <;> rfl

/-- The remarks on a source are reports. -/
theorem remarked_acts (source : String) (m : Machine) : Acts m (remarked source m) := by
  refine ⟨?_, (remarked_calm source m).settings⟩
  unfold remarked
  generalize (Program.compile m.settings.optimize m.session.findCommand? source).2 = notes
  induction notes generalizing m with
  | nil => exact .refl
  | cons n rest ih =>
      refine Session.Touched.trans ?_ (ih (m.remark n))
      unfold remark
      split
      · exact .report m.session nofun
      · exact .refl

end Machine

/-! ### Evaluations -/

open Machine

/-- What evaluations do to a session: they report, keep matches, write and assign, and they make
calls, inside of which they do the same. -/
inductive Session.Evolves : Session → Session → Prop
  | refl (s : Session) : Evolves s s
  | noted {s t : Session} (h : Evolves s t) (diagnostics : Array Diagnostic)
    (lastMatch : Option Found) (output : Array String) :
    Evolves s { t with diagnostics, lastMatch, output }
  | assigned {s t : Session} {v : Value} (h : Evolves s t) (x : String)
    (hv : v.name? = none ∨ ∃ y, t.lookup y = some v) : Evolves s (t.assign x v)
  | called {s t u : Session} {vs : List Value} {q : Request} (h : Evolves s t)
    (hq : request? vs t = some q) (hu : Evolves q.inner u) : Evolves s (q.back u)

namespace Session.Evolves

variable {s t u : Session}

theorem trans (h : s.Evolves t) (k : t.Evolves u) : s.Evolves u := by
  induction k with
  | refl => exact h
  | noted _ diagnostics found output ih => exact .noted (ih h) diagnostics found output
  | assigned _ x hv ih => exact .assigned (ih h) x hv
  | called _ hq hu ih _ => exact .called (ih h) hq hu

theorem report (h : s.Evolves t) (d : Diagnostic) : s.Evolves (t.report d) :=
  .noted h _ t.lastMatch t.output

theorem of_touched (h : s.Touched t) : s.Evolves t := by
  induction h with
  | refl => exact .refl s
  | noted _ _ found output ih => exact .noted ih _ found output
  | assigned _ x hv ih => exact .assigned ih x hv

end Session.Evolves

namespace Machine

/-- The session evolves, and the settings stay. -/
structure Develops (m n : Machine) : Prop where
  session : m.session.Evolves n.session
  settings : n.settings = m.settings

namespace Develops

variable {m n o : Machine}

theorem refl (m : Machine) : Develops m m :=
  ⟨.refl _, rfl⟩

theorem trans (h : Develops m n) (k : Develops n o) : Develops m o :=
  ⟨h.session.trans k.session, k.settings.trans h.settings⟩

theorem of_acts (h : Acts m n) : Develops m n :=
  ⟨.of_touched h.session, h.settings⟩

end Develops

/-- Evaluations develop the machine that they find. -/
def Evolving (evaluate : String → Eval Value) : Prop :=
  ∀ source m, Develops m (after (evaluate source) m)

section

variable {evaluate : String → Eval Value} {p : Program} {base : Nat} {op : Op Nat}
  {m n : Machine} {q : Request}

/-- The machine without the operands of a call develops from that in front of the call, and behind
the call goes on developing. -/
theorem Asks.develops (he : Evolving evaluate) (h : Asks base op m n q) :
    Develops m { left (asked evaluate q n) with
      session := q.back (left (asked evaluate q n)).session } := by
  have hu := he q.source { n with session := q.inner }
  have hn := h.settings
  obtain ⟨count, vs, -, ht, hq⟩ := h
  exact ⟨.called (.refl _) (session_of_popMany ht ▸ hq) hu.session, hu.settings.trans hn⟩

/-- **One step** develops the machine if the evaluation that it may ask for does. -/
theorem step_develops (he : Evolving evaluate) (base : Nat) (op : Op Nat) (m : Machine) :
    Develops m (after (step evaluate base op) m) := by
  have hs := stepped evaluate base op m
  unfold after
  generalize step evaluate base op m = r at hs ⊢
  cases hs with
  | own h => exact .of_acts h.acts
  | answered ha hv h =>
      have hc := ha.develops he
      rw [hv] at hc
      exact hc.trans (.of_acts h.acts)
  | halted ha hv =>
      have hc := ha.develops he
      rwa [hv] at hc

theorem Reaches.develops (he : Evolving evaluate) {pc : Nat} (hr : Reaches evaluate p m pc n) :
    Develops m n := by
  induction hr with
  | start => exact .refl _
  | @step pc n o i target _ _ hs ih =>
      have ho := step_develops he m.stack.length i.op n
      rw [after_of_ok hs] at ho
      exact ih.trans ho

theorem Ends.develops (he : Evolving evaluate) {spent : Halt}
    {r : EStateM.Result Halt Machine Unit} (h : Ends evaluate p m spent r) :
    Develops m (left r) := by
  cases h with
  | done hr | spent hr => exact hr.develops he
  | @halted pc n o i h hr _ hs =>
      have ho := step_develops he m.stack.length i.op n
      rw [after_of_error hs] at ho
      exact (hr.develops he).trans ho

theorem execute_develops (he : Evolving evaluate) (p : Program) (m : Machine) :
    Develops m (after (execute evaluate p) m) := by
  obtain ⟨r, hr, hx⟩ := execute_ends_run evaluate p m
  have h := hr.develops he
  rw [after, hx]
  refine ⟨?_, (finished_settings _ r).trans h.settings⟩
  rcases finished_session m.stack.length r with hf | ⟨d, hf⟩ <;> rw [hf]
  · exact h.session
  · exact h.session.report d

end

/-- **Every evaluation** develops the machine, whether it succeeds or fails. -/
theorem evaluate_develops (depth : Nat) : Evolving (evaluate depth) := by
  induction depth with
  | zero => exact fun source m => .refl m
  | succ depth ih =>
      intro source m
      have hr := Develops.of_acts (remarked_acts source m)
      rw [after, evaluate, evaluateWith_apply]
      cases (Program.compile m.settings.optimize m.session.findCommand? source).1 with
      | ok p => exact hr.trans (execute_develops ih p (remarked source m))
      | error e => exact ⟨hr.session.report _, hr.settings⟩

/-! ### Evaluations inside evaluations -/

/-- The evaluation of a source comes to a call that asks for another one, which is evaluated at
`depth`, in the machine without the operands of the call. -/
def AsksFor (depth : Nat) (source : String) (m n : Machine) (q : Request) : Prop :=
  ∃ p t pc o i, compile source m = .ok (.ok p) t ∧ Reaches (evaluate depth) p t pc o ∧
    p.code[pc]? = some i ∧ Asks t.stack.length i.op o n q

theorem AsksFor.develops {depth : Nat} {source : String} {m n : Machine} {q : Request}
    (h : AsksFor depth source m n q) : Develops m n := by
  obtain ⟨p, t, pc, o, i, hc, hr, -, ha⟩ := h
  rw [compile_apply] at hc
  injection hc with _ hc
  have ht : Develops m t := hc ▸ .of_acts (remarked_acts source m)
  have ho := ht.trans (hr.develops (evaluate_develops depth))
  exact ⟨ha.session ▸ ho.session, ha.settings.trans ho.settings⟩

end Machine

end ExprEngine
