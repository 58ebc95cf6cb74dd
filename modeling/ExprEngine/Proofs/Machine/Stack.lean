import ExprEngine.Proofs.Machine.Requests

/-!
# The shared stack

All executions of a session work on one stack.  An execution does not touch what lies below the
height that it found, and the stack never grows beyond its limit (`Above`); when the execution comes
back, with a value or with a failure, the stack is the one that it found (`Restored`).

The statement is about every execution inside another (`Inside`) and about every machine that such
an execution goes through (`Passes`): those between its instructions, those whose operands have been
taken for a call, and the one where it halts.

* `Disciplined`: what is shown of every evaluation, by induction on the nesting depth.
* `stack_discipline`: the same, said of all executions inside an execution.
-/

namespace ExprEngine.Machine

variable {α β : Type}

/-! ### Above a height -/

/-- The stack of `m` is the lower part of that of `n`, which is within the limit. -/
structure Above (m n : Machine) : Prop where
  settings : n.settings = m.settings
  below : m.stack <:+ n.stack
  height : n.stack.length ≤ m.settings.stackSize

/-- An execution that comes back leaves the stack that it found. -/
def Restored (m : Machine) : EStateM.Result Halt Machine α → Prop
  | .ok _ n | .error (.failure _) n => n.stack = m.stack
  | .error _ _ => True

/-- A step that stays above the stack that it found and restores it. -/
def Disciplined (x : Eval α) : Prop :=
  ∀ m : Machine, m.stack.length ≤ m.settings.stackSize → Above m (after x m) ∧ Restored m (x m)

theorem Restored.of_eq {m n : Machine} {r : EStateM.Result Halt Machine α} (h : Restored n r)
    (hs : n.stack = m.stack) : Restored m r := by
  cases r with
  | ok a o => exact Eq.trans h hs
  | error e o =>
      cases e with
      | failure f => exact Eq.trans h hs
      | _ => trivial

theorem Above.refl {m : Machine} (h : m.stack.length ≤ m.settings.stackSize) : Above m m :=
  ⟨rfl, List.suffix_rfl, h⟩

theorem Above.room {m n : Machine} (h : Above m n) : n.stack.length ≤ n.settings.stackSize := by
  rw [h.settings]
  exact h.height

theorem Above.trans {m n o : Machine} (h : Above m n) (k : Above n o) : Above m o := by
  refine ⟨k.settings.trans h.settings, h.below.trans k.below, ?_⟩
  rw [← h.settings]
  exact k.height

/-- Where the settings and the stack are the same, nothing is lost. -/
theorem Above.of_eq {m n o : Machine} (h : Above m n) (hs : o.settings = n.settings)
    (hk : o.stack = n.stack) : Above m o :=
  ⟨hs.trans h.settings, hk ▸ h.below, hk ▸ h.height⟩

theorem Above.calm {m n o : Machine} (h : Above m n) (k : Calm n o) : Above m o :=
  h.of_eq k.settings k.stack

/-- The step stays above the stack of `m`. -/
def Keeps (m : Machine) (x : Eval α) : Prop :=
  ∀ n, Above m n → Above m (after x n)

namespace Keeps

variable {m : Machine}

theorem calm {x : Eval α} (hx : ∀ n, Calm n (after x n)) : Keeps m x :=
  fun n h => h.calm (hx n)

theorem mild {x : Eval α} (hx : Mild x) : Keeps m x :=
  calm fun n => (hx.quiet n).calm

theorem bind {x : Eval α} {f : α → Eval β} (hx : Keeps m x) (hf : ∀ a, Keeps m (f a)) :
    Keeps m (x >>= f) := by
  intro n h
  have hn := hx n h
  cases e : x n with
  | ok a o =>
      rw [after_of_ok e] at hn
      have ho := hf a o hn
      rwa [after, ← bind_of_ok e f, ← after] at ho
  | error k o =>
      rw [after_of_error e] at hn
      rwa [after_of_error (bind_of_error e f)]

theorem push (v : Value) : Keeps m (push v) := by
  intro n h
  have he := push_apply v n
  by_cases hs : n.settings.stackSize ≤ n.stack.length
  · rw [if_pos hs] at he
    rwa [after_of_error he]
  · rw [if_neg hs] at he
    rw [after_of_ok he]
    refine ⟨h.settings, h.below.trans (List.suffix_cons v _), ?_⟩
    rw [← h.settings]
    simp only [List.length_cons]
    omega

/-- Operands are taken above the height that was found only. -/
theorem popMany (n : Nat) : Keeps m (popMany m.stack.length n) := by
  intro o h
  have he := popMany_apply m.stack.length n o
  by_cases hs : o.stack.length - m.stack.length < n
  · rw [if_pos hs] at he
    rwa [after_of_error he]
  · rw [if_neg hs] at he
    rw [after_of_ok he]
    -- what is taken is part of what lies above the stack of `m`
    obtain ⟨upper, hu⟩ := h.below
    have hl : o.stack.length = upper.length + m.stack.length := by
      rw [← hu, List.length_append]
    have hh := h.height
    refine ⟨h.settings, ?_, ?_⟩
    · dsimp only
      rw [← hu, List.drop_append_of_le_length (by omega)]
      exact List.suffix_append ..
    · simp only [List.length_drop]
      omega

theorem top (base : Nat) : Keeps m (top base) := by
  intro o h
  have he := top_apply base o
  rw [after, he]
  cases o.stack with
  | nil => exact h
  | cons v rest =>
      dsimp only
      by_cases hb : base ≤ rest.length
      · rwa [if_pos hb]
      · rwa [if_neg hb]

theorem jumps (kind : JumpKind) : Keeps m (jumps kind m.stack.length) := by
  cases kind with
  | always => exact mild (.pure _)
  | ifFalse => exact (top _).bind fun v => (mild (.observe _)).bind fun b => mild (.pure _)
  | ifTrue => exact (top _).bind fun v => mild (.observe _)
  | ifNonEmpty => exact (top _).bind fun v => mild (.pure _)

end Keeps

/-! ### Executions -/

section

variable {evaluate : String → Eval Value}

/-- What a request asks for stays above the stack that the caller had. -/
theorem callValue_disciplined (he : ∀ source, Disciplined (evaluate source)) (vs : List Value) :
    Disciplined (callValue evaluate vs) := by
  intro m h
  cases hq : request? vs m.session with
  | none =>
      rw [after, callValue_of_none evaluate hq, ← after]
      have hc := idle_calm vs m
      refine ⟨(Above.refl h).calm hc, ?_⟩
      have hk := hc.stack
      unfold after left at hk
      cases hi : callValue idle vs m with
      | ok v n => rwa [hi] at hk
      | error e n =>
          rw [hi] at hk
          cases e <;> first | exact hk | trivial
  | some q =>
      obtain ⟨ha, hr⟩ := he q.source { m with session := q.inner } h
      have hc := callValue_of_request evaluate hq
      cases hi : evaluate q.source { m with session := q.inner } with
      | ok v n =>
          rw [hi] at hc hr
          rw [after_of_ok hi] at ha
          rw [after_of_ok hc, hc]
          exact ⟨⟨ha.settings, ha.below, ha.height⟩, hr⟩
      | error e n =>
          rw [hi] at hc hr
          rw [after_of_error hi] at ha
          cases e with
          | failure f =>
              rw [after_of_error hc, hc]
              exact ⟨⟨ha.settings, ha.below, ha.height⟩, hr⟩
          | _ =>
              rw [after_of_error hc, hc]
              exact ⟨⟨ha.settings, ha.below, ha.height⟩, trivial⟩

theorem Keeps.disciplined {x : Eval α} (hx : Disciplined x) (m : Machine) : Keeps m x :=
  fun n h => h.trans (hx n h.room).1

/-- **One step** stays above the stack that its execution found. -/
theorem step_keeps (he : ∀ source, Disciplined (evaluate source)) (m : Machine) (op : Op Nat) :
    Keeps m (step evaluate m.stack.length op) := by
  cases op with
  | jump kind target => exact .bind (.jumps kind) fun b => .mild (by split <;> exact .pure _)
  | push v => exact .bind (.push v) fun _ => .mild (.pure _)
  | pop n => exact .bind (.popMany n) fun _ => .mild (.pure _)
  | dup => exact .bind (.top _) fun v => .bind (.push v) fun _ => .mild (.pure _)
  | pushVariable x =>
      exact .bind (.mild .getSession) fun s => .bind (.push _) fun _ => .mild (.pure _)
  | pushParam s =>
      exact .bind (.mild (selected_mild s)) fun v => .bind (.push v) fun _ => .mild (.pure _)
  | pushBody name =>
      refine .bind (.mild .getSession) fun s => ?_
      split
      · exact .bind (.push _) fun _ => .mild (.pure _)
      · exact .bind (.mild (.report _)) fun _ => .bind (.push _) fun _ => .mild (.pure _)
  | pushOutput line =>
      exact .bind (.mild (commandOutput_mild line)) fun v =>
        .bind (.push v) fun _ => .mild (.pure _)
  | call n =>
      refine .bind (.popMany n) fun vs => ?_
      exact .bind (.disciplined (callValue_disciplined he vs) m) fun v =>
        .bind (.push v) fun _ => .mild (.pure _)
  | reduce op n =>
      refine .bind (.popMany n) fun vs => ?_
      exact .bind (.calm (inSession_calm (Operator.orderly_reduce op vs))) fun v =>
        .bind (.push v) fun _ => .mild (.pure _)

/-- One step does not fail because some source is no expression. -/
theorem step_accepted (evaluate : String → Eval Value) (base : Nat) (op : Op Nat) :
    Accepted (step evaluate base op) := by
  have push (v : Value) : Accepted (push v >>= fun _ => pure (none : Option Nat)) := by
    refine .bind (fun m e n he => ?_) fun _ => .pure _
    rw [push_apply] at he
    split at he <;> cases he
  have top : Accepted (top base) := by
    intro m e n he
    rw [top_apply] at he
    split at he
    · split at he <;> cases he
    · cases he
  have popMany (n : Nat) : Accepted (popMany base n) := by
    intro m e o he
    rw [popMany_apply] at he
    split at he <;> cases he
  cases op with
  | jump kind target =>
      refine .bind ?_ fun b => by split <;> exact .pure _
      cases kind with
      | always => exact .pure _
      | ifFalse => exact .bind top fun v => (Mild.observe _).accepted.bind fun b => .pure _
      | ifTrue => exact .bind top fun v => (Mild.observe _).accepted
      | ifNonEmpty => exact .bind top fun v => .pure _
  | push v => exact push v
  | pop n => exact .bind (popMany n) fun _ => .pure _
  | dup => exact .bind top push
  | pushVariable x => exact Mild.getSession.accepted.bind fun s => push _
  | pushParam s => exact (selected_mild s).accepted.bind push
  | pushBody name =>
      refine Mild.getSession.accepted.bind fun s => ?_
      split
      · exact push _
      · exact (Mild.report _).accepted.bind fun _ => push _
  | pushOutput line => exact (commandOutput_mild line).accepted.bind push
  | call n => exact .bind (popMany n) fun vs => (callValue_accepted evaluate vs).bind push
  | reduce op n =>
      exact .bind (popMany n) fun vs =>
        .bind (.inSession (Operator.orderly_reduce op vs).accepted) push

/-- **A run** stays above the stack that its execution found. -/
theorem runFrom_keeps (he : ∀ source, Disciplined (evaluate source)) (m : Machine) (p : Program)
    (spent : Halt) (budget pc : Nat) :
    Keeps m (runFrom evaluate m.stack.length p spent budget pc) := by
  induction budget generalizing pc with
  | zero =>
      intro n h
      unfold runFrom
      split <;> exact h
  | succ budget ih =>
      unfold runFrom
      split
      · exact .mild (.pure _)
      · exact .bind (step_keeps he m _) fun target => ih _

theorem runFrom_accepted (evaluate : String → Eval Value) (base : Nat) (p : Program) {spent : Halt}
    (hs : ∀ e, spent ≠ .failure (.compile e)) (budget pc : Nat) :
    Accepted (runFrom evaluate base p spent budget pc) := by
  induction budget generalizing pc with
  | zero =>
      unfold runFrom
      split
      · exact .throw hs
      · exact .pure _
  | succ budget ih =>
      unfold runFrom
      split
      · exact .pure _
      · exact .bind (step_accepted evaluate base _) fun target => ih _

theorem budget_accepted (s : Settings) (e : CompileError) :
    (budget s).2 ≠ .failure (.compile e) := by
  unfold budget
  split <;> exact nofun

/-- What is above the stack of `m` as high as that is the stack of `m`. -/
theorem Above.stack_eq {m n : Machine} (h : Above m n) (hl : n.stack.length ≤ m.stack.length) :
    n.stack = m.stack :=
  (h.below.eq_of_length_le hl).symm

/-- Below a single value is the stack of `m`. -/
theorem Above.rest_eq {m n : Machine} (h : Above m n) {v : Value} {rest : List Value}
    (hs : n.stack = v :: rest) (hl : n.stack.length - m.stack.length = 1) : rest = m.stack := by
  have hb := h.below
  rw [hs] at hb hl
  simp only [List.length_cons] at hl
  rcases List.suffix_cons_iff.mp hb with he | hb
  · rw [he, List.length_cons] at hl
    omega
  · exact (hb.eq_of_length_le (by omega)).symm

/-- Back at the stack of `m`. -/
theorem Above.back {m n o : Machine} (h : Above m n) (hs : o.settings = n.settings)
    (hk : o.stack = m.stack) : Above m o :=
  ⟨hs.trans h.settings, hk ▸ List.suffix_rfl, hk ▸ Nat.le_trans h.below.length_le h.height⟩

theorem Above.unwind {m n : Machine} (h : Above m n) (e : EvalError) :
    (n.unwind m.stack.length e).stack = m.stack := by
  obtain ⟨upper, hu⟩ := h.below
  have hl : n.stack.length - m.stack.length = upper.length := by
    rw [← hu, List.length_append]
    omega
  unfold Machine.unwind
  rw [hl, ← hu, List.drop_left]

/-- The end of a run that stays above the stack of `m` restores that stack. -/
theorem finished_disciplined {m : Machine} {r : EStateM.Result Halt Machine Unit}
    (hr : ∀ e n, r ≠ .error (.failure (.compile e)) n) (h : Above m (left r)) :
    Above m (left (finished m.stack.length r)) ∧ Restored m (finished m.stack.length r) := by
  have hm := h.below.length_le
  cases r with
  | ok u n =>
      change Above m n at h
      simp only [finished]
      split
      -- nothing is left above the stack, one value, or more
      · next hl => exact ⟨h, h.stack_eq (by omega)⟩
      · next v rest hl hs =>
        refine ⟨h.back rfl ?_, ?_⟩ <;> exact h.rest_eq hs hl
      · exact ⟨h, trivial⟩
  | error e n =>
      change Above m n at h
      cases e with
      | failure f =>
          cases f with
          | compile e => exact absurd rfl (hr e n)
          | eval e =>
              exact ⟨h.back rfl (h.unwind e), h.unwind e⟩
      | _ => exact ⟨h, trivial⟩

theorem execute_disciplined (he : ∀ source, Disciplined (evaluate source)) (p : Program) :
    Disciplined (execute evaluate p) := by
  intro m h
  unfold after
  rw [execute_apply]
  exact finished_disciplined (runFrom_accepted evaluate _ p (budget_accepted m.settings) _ 0 m)
    (runFrom_keeps he m p _ _ 0 m (.refl h))

end

/-! ### Evaluations -/

/-- The remarks on a source leave the stack as it is. -/
theorem Above.remarked {m : Machine} (h : m.stack.length ≤ m.settings.stackSize) (source : String) :
    Above m (remarked source m) :=
  (Above.refl h).calm (remarked_calm source m)

theorem evaluateWith_disciplined {evaluate : String → Eval Value}
    (he : ∀ source, Disciplined (evaluate source)) (source : String) :
    Disciplined (evaluateWith evaluate source) := by
  intro m h
  have hr := Above.remarked h source
  have hs := (remarked_calm source m).stack
  rw [after, evaluateWith_apply]
  cases (Program.compile m.settings.optimize m.session.findCommand? source).1 with
  | ok p =>
      obtain ⟨ha, hb⟩ := execute_disciplined he p (Machine.remarked source m) hr.room
      exact ⟨hr.trans ha, hb.of_eq hs⟩
  | error e => exact ⟨hr.of_eq rfl rfl, hs⟩

/-- **Every evaluation** stays above the stack that it found and restores it. -/
theorem evaluate_disciplined (depth : Nat) (source : String) :
    Disciplined (evaluate depth source) := by
  induction depth generalizing source with
  | zero => exact fun m h => ⟨.refl h, trivial⟩
  | succ depth ih => exact evaluateWith_disciplined ih source

/-! ### Executions inside executions -/

/-- The execution of the program from `m` on comes to index `pc` with the machine `n`. -/
inductive Reaches (evaluate : String → Eval Value) (p : Program) (m : Machine) :
    Nat → Machine → Prop
  | start : Reaches evaluate p m 0 m
  | step {pc : Nat} {n o : Machine} {i : Instr Nat} {target : Option Nat} :
    Reaches evaluate p m pc n → p.code[pc]? = some i →
    step evaluate m.stack.length i.op n = .ok target o →
    Reaches evaluate p m (target.getD (pc + 1)) o

/-- The execution goes through the machine: between two instructions, behind the taking of operands,
or where an instruction halts. -/
inductive Passes (evaluate : String → Eval Value) (p : Program) (m : Machine) : Machine → Prop
  | between {pc : Nat} {n : Machine} : Reaches evaluate p m pc n → Passes evaluate p m n
  | taken {pc count : Nat} {n o : Machine} {vs : List Value} :
    Reaches evaluate p m pc n → popMany m.stack.length count n = .ok vs o → Passes evaluate p m o
  | halted {pc : Nat} {n o : Machine} {i : Instr Nat} {h : Halt} :
    Reaches evaluate p m pc n → p.code[pc]? = some i →
    step evaluate m.stack.length i.op n = .error h o → Passes evaluate p m o

/-- The execution of `p` from `m` on is, or has inside, that of `q` from `n` on.  Numbers are
nesting depths: what executes at one evaluates sources at one less. -/
inductive Inside : Nat → Program → Machine → Nat → Program → Machine → Prop
  | self (depth : Nat) (p : Program) (m : Machine) : Inside depth p m depth p m
  | call {depth pc count k : Nat} {p r q : Program} {m n o t u : Machine} {span : Span}
      {vs : List Value} {request : Request} :
    Reaches (evaluate (depth + 1)) p m pc n → p.code[pc]? = some ⟨.call count, span⟩ →
    popMany m.stack.length count n = .ok vs o → request? vs o.session = some request →
    compile request.source { o with session := request.inner } = .ok (.ok r) t →
    Inside depth r t k q u → Inside (depth + 1) p m k q u

theorem Reaches.above {evaluate : String → Eval Value}
    (he : ∀ source, Disciplined (evaluate source)) {p : Program} {m n : Machine} {pc : Nat}
    (h : m.stack.length ≤ m.settings.stackSize)
    (hr : Reaches evaluate p m pc n) : Above m n := by
  induction hr with
  | start => exact .refl h
  | step _ _ hs ih => exact after_of_ok hs ▸ step_keeps he m _ _ ih

theorem Passes.above {evaluate : String → Eval Value} (he : ∀ source, Disciplined (evaluate source))
    {p : Program} {m n : Machine} (h : m.stack.length ≤ m.settings.stackSize)
    (hp : Passes evaluate p m n) : Above m n := by
  cases hp with
  | between hr => exact hr.above he h
  | taken hr ht => exact after_of_ok ht ▸ Keeps.popMany _ _ (hr.above he h)
  | halted hr _ hs => exact after_of_error hs ▸ step_keeps he m _ _ (hr.above he h)

theorem Inside.above {depth k : Nat} {p q : Program} {m n : Machine}
    (h : m.stack.length ≤ m.settings.stackSize) (hi : Inside depth p m k q n) : Above m n := by
  induction hi with
  | self => exact .refl h
  | @call depth pc count k p r q m n o t u span vs request hr _ ht _ hc _ ih =>
      have hn := hr.above (evaluate_disciplined _) h
      have ho : Above m o := after_of_ok ht ▸ Keeps.popMany _ _ hn
      rw [compile_apply] at hc
      injection hc with _ hc
      subst hc
      have hs : Above m { o with session := request.inner } := ho.of_eq rfl rfl
      have ht := hs.trans (.remarked hs.room request.source)
      exact ht.trans (ih ht.room)

/-- **Stack discipline.**  Whatever program is executed on a stack within its limit, each execution
inside works above the stack that it found, which lies above the one that was found first, within
the limit; and it restores the stack that it found whenever it comes back. -/
theorem stack_discipline {depth k : Nat} {p q : Program} {m n : Machine}
    (h : m.stack.length ≤ m.settings.stackSize) (hi : Inside depth p m k q n) :
    Above m n ∧ (∀ o, Passes (evaluate k) q n o → Above m o ∧ Above n o) ∧
      Restored n (execute (evaluate k) q n) := by
  have hn := hi.above h
  refine ⟨hn, fun o ho => ?_, (execute_disciplined (evaluate_disciplined k) q n hn.room).2⟩
  have ha := ho.above (evaluate_disciplined k) hn.room
  exact ⟨hn.trans ha, ha⟩

/-- A machine with a value on its stack, whose session knows a macro `one`. -/
def knowingOne : Machine :=
  { stack := [.int 7], session := ({} : Session).defineMacro "one" "1" }

/-- The call of `one`. -/
def callOfOne : Program :=
  ⟨"one()", #[⟨.push (.name "one"), ⟨0, 3⟩⟩, ⟨.call 1, ⟨3, 5⟩⟩]⟩

/-- The body of `one`. -/
def bodyOfOne : Program :=
  ⟨"1", #[⟨.push (.int 1), ⟨0, 1⟩⟩]⟩

/-- The body of `one` in its frame, above a value that was there before. -/
theorem stack_discipline_callOfOne :
    let n := { knowingOne with session := macroSession knowingOne.session "one" [] }
    Inside 1 callOfOne knowingOne 0 bodyOfOne n ∧ Above knowingOne n ∧
      (∀ o, Passes (evaluate 0) bodyOfOne n o → Above knowingOne o ∧ Above n o) ∧
      Restored n (execute (evaluate 0) bodyOfOne n) := by
  intro n
  have hr : Reaches (evaluate 1) callOfOne knowingOne 1
      { knowingOne with stack := .name "one" :: knowingOne.stack } :=
    Reaches.step .start (show callOfOne.code[0]? = some ⟨.push (.name "one"), ⟨0, 3⟩⟩ from rfl)
      (show _ = EStateM.Result.ok none _ from rfl)
  have ht : popMany knowingOne.stack.length 1
      { knowingOne with stack := .name "one" :: knowingOne.stack } =
        .ok [.name "one"] knowingOne := rfl
  have hq : request? [.name "one"] knowingOne.session =
      some ⟨"1", n.session, macroBack knowingOne.session⟩ := rfl
  have hp : (Program.compile n.settings.optimize n.session.findCommand? "1").1 = .ok bodyOfOne :=
    of_toOption (by decide +kernel)
  have hn : (Program.compile n.settings.optimize n.session.findCommand? "1").2 = [] :=
    List.isEmpty_iff.mp (by decide +kernel)
  have hc : compile "1" { knowingOne with session := n.session } = .ok (.ok bodyOfOne) n := by
    rw [compile_apply, hp, remarked, hn]
    rfl
  have hi : Inside 1 callOfOne knowingOne 0 bodyOfOne n :=
    .call hr rfl ht hq hc (.self 0 bodyOfOne n)
  exact ⟨hi, stack_discipline (by decide) hi⟩

end ExprEngine.Machine
