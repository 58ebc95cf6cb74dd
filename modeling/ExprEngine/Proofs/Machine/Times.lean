import ExprEngine.Proofs.Machine.Callables
import ExprEngine.Proofs.Program.Times

/-!
# Times in executions

Where the clock and the session hold normal times only, an execution meets no others.  What a
program pushes is a constant, which is normal, or a copy of what the session holds; operators make
normal times whatever their operands are, and store and copy what there is; `time` comes to what the
clock says, and no other function makes a time.

The values of an execution lie above the stack that it found, and so do those of the executions
inside it (`Timed`).  A step keeps them normal wherever it ends, in a value or in a halt
(`KeepsTimes`); so does a run, and by induction on the nesting depth every evaluation.

* `Timed.step`: one step.
* `evaluate_timed`: every evaluation.
* `times_stay_normal`: all moments of an evaluation, and all values that it meets.
-/

namespace ExprEngine

/-- What a name is resolved to. -/
theorem Session.Holds.normal_resolveName {s : Session} (hs : s.Holds Value.Normal) (x : String) :
    (s.resolveName x).Normal := by
  unfold Session.resolveName
  split
  · trivial
  · next v hv =>
    have h := hs.lookup hv
    unfold Value.Normal at h
    split
    · trivial
    · trivial
    · trivial
    · next t kind hp =>
      rw [hp] at h
      exact h
    · trivial
    · trivial

theorem Session.Holds.normal_resolve {s : Session} (hs : s.Holds Value.Normal) {v : Value}
    (hv : v.Normal) : (s.resolve v).Normal := by
  unfold Session.resolve
  split
  · exact hs.normal_resolveName _
  · exact hv

namespace Machine

variable {α β : Type} {base : List Value} {m n : Machine} {P : α → Prop} {Q : β → Prop}

/-- The clock, the session and the values above the stack `base` are normal where they are times. -/
structure Timed (base : List Value) (m : Machine) : Prop where
  clock : m.host.clock.Normal
  session : m.session.Holds Value.Normal
  values : ∃ vs, m.stack = vs ++ base ∧ ∀ v ∈ vs, v.Normal

/-- A step leaves normal times only, and `P` holds of what it comes to. -/
def KeepsTimes (base : List Value) (P : α → Prop) : EStateM.Result Halt Machine α → Prop
  | .ok a n => P a ∧ Timed base n
  | .error _ n => Timed base n

namespace KeepsTimes

theorem timed {r : EStateM.Result Halt Machine α} (h : KeepsTimes base P r) :
    Timed base (left r) := by
  cases r with
  | ok a n => exact h.2
  | error e n => exact h

theorem bind {x : Eval α} {f : α → Eval β} (hx : KeepsTimes base P (x m))
    (hf : ∀ a n, P a → Timed base n → KeepsTimes base Q (f a n)) :
    KeepsTimes base Q ((x >>= f) m) := by
  rw [bind_apply]
  cases e : x m with
  | ok a n =>
      rw [e] at hx
      exact hf a n hx.1 hx.2
  | error h n =>
      rw [e] at hx
      exact hx

theorem mono {P' : α → Prop} {r : EStateM.Result Halt Machine α} (h : KeepsTimes base P r)
    (hp : ∀ a, P a → P' a) : KeepsTimes base P' r := by
  cases r with
  | ok a n => exact ⟨hp a h.1, h.2⟩
  | error e n => exact h

end KeepsTimes

namespace Timed

/-- Above its own stack a machine has no values. -/
theorem start (hc : m.host.clock.Normal) (hs : m.session.Holds Value.Normal) : Timed m.stack m :=
  ⟨hc, hs, [], rfl, fun _ hv => absurd hv List.not_mem_nil⟩

theorem restart (h : Timed base m) : Timed m.stack m :=
  start h.clock h.session

theorem withSession (h : Timed base m) {s : Session} (hs : s.Holds Value.Normal) :
    Timed base { m with session := s } :=
  ⟨h.clock, hs, h.values⟩

/-- What lies above a stack that lies above `base`. -/
theorem above (h : Timed base m) (k : Timed m.stack n) : Timed base n := by
  obtain ⟨vs, hs, hv⟩ := h.values
  obtain ⟨ws, hn, hw⟩ := k.values
  refine ⟨k.clock, k.session, ws ++ vs, ?_, fun v hm => ?_⟩
  · rw [hn, hs, List.append_assoc]
  · exact (List.mem_append.mp hm).elim (hw v) (hv v)

theorem remarked (h : Timed base m) (source : String) : Timed base (remarked source m) := by
  have hc := remarked_calm source m
  exact ⟨hc.host ▸ h.clock, holds_remarked h.session source, hc.stack ▸ h.values⟩

/-- A simple step keeps what times there are. -/
theorem simple {x : Eval α} (hx : Simple (fun _ => True) P x) (h : Timed base m) :
    KeepsTimes base P (x m) := by
  induction hx generalizing m with
  | pure ha => exact ⟨ha, h⟩
  | bind _ _ hx hf => exact (hx h).bind fun a n _ hn => hf a hn
  | session => exact ⟨trivial, h⟩
  | host ha => exact ⟨ha _, h⟩
  | observe | draw | report | keep =>
      exact ⟨trivial, h.clock, ⟨h.session.globals, h.session.frames, h.session.result⟩, h.values⟩
  | fail | fault => exact h

/-! ### Operations of the stack -/

/-- What most operations end with. -/
theorem push {v : Value} (h : Timed base m) (hv : v.Normal) :
    KeepsTimes base (fun _ => True) ((push v >>= fun _ => pure (none : Option Nat)) m) := by
  rw [bind_apply, push_apply]
  split
  · next hl =>
    split at hl
    · cases hl
    · cases hl
      obtain ⟨vs, hs, hvs⟩ := h.values
      refine ⟨trivial, h.clock, h.session, v :: vs, by rw [hs]; rfl, fun w hw => ?_⟩
      rcases List.mem_cons.mp hw with rfl | hw
      · exact hv
      · exact hvs w hw
  · next hl =>
    split at hl
    · cases hl
      exact h
    · cases hl

theorem popMany (h : Timed base m) (n : Nat) :
    KeepsTimes base (∀ v ∈ ·, v.Normal) (popMany base.length n m) := by
  obtain ⟨vs, hs, hvs⟩ := h.values
  rw [popMany_apply]
  split
  · exact h
  · next hl =>
    -- as many values as are taken lie above the stack that was found
    have hn : n ≤ vs.length := by
      rw [hs, List.length_append] at hl
      omega
    refine ⟨fun v hv => ?_, h.clock, h.session, vs.drop n, ?_, fun v hv => ?_⟩
    · rw [hs, List.take_append_of_le_length hn] at hv
      exact hvs v (List.mem_of_mem_take (List.mem_reverse.mp hv))
    · rw [← List.drop_append_of_le_length hn, ← hs]
    · exact hvs v (List.mem_of_mem_drop hv)

theorem top (h : Timed base m) : KeepsTimes base Value.Normal (top base.length m) := by
  obtain ⟨vs, hs, hvs⟩ := h.values
  rw [top_apply]
  split
  · next v rest hr =>
    split
    · next hl =>
      refine ⟨?_, h⟩
      cases vs with
      | nil =>
          rw [hr, List.nil_append] at hs
          rw [← hs, List.length_cons] at hl
          omega
      | cons w vs =>
          rw [hr, List.cons_append, List.cons.injEq] at hs
          exact hs.1 ▸ hvs w List.mem_cons_self
    · exact h
  · exact h

/-- A jump looks at the top of the stack, if at anything. -/
theorem jumps (h : Timed base m) (kind : JumpKind) :
    KeepsTimes base (fun _ => True) (jumps kind base.length m) := by
  have truth (v : Value) : Simple (fun _ => True) (fun _ => True) (observe (·.truth v)) :=
    .observe fun s => s.mute_truth v
  cases kind with
  | always => exact ⟨trivial, h⟩
  | ifFalse => exact h.top.bind fun v n _ hn => hn.simple (.bind (truth v) fun _ => .pure trivial)
  | ifTrue => exact h.top.bind fun v n _ hn => hn.simple (truth v)
  | ifNonEmpty => exact h.top.bind fun v n _ hn => hn.simple (.pure trivial)

/-! ### Values that operations come to -/

theorem selected (h : Timed base m) (selector : Selector) :
    KeepsTimes base Value.Normal (selected selector m) := by
  have hn := h.simple (simple_selected selector)
  cases e : Machine.selected selector m with
  | ok v n =>
      rw [e] at hn
      exact ⟨selected_holds (fun _ => Value.Made.normal) h.session e, hn.2⟩
  | error k n => rwa [e] at hn

/-- An operator makes a normal time or comes to one that there is. -/
theorem reduce {args : List Value} (h : Timed base m) (ha : ∀ v ∈ args, v.Normal)
    (op : Operator) : KeepsTimes base Value.Normal (inSession (op.reduce args) m) := by
  have hr : Operator.Reduced (fun _ => True) args m.session (op.reduce args m.session) :=
    Operator.reduces (fun _ _ => trivial) m.session
  unfold inSession
  generalize op.reduce args m.session = r at hr ⊢
  cases hr with
  | computed _ hv => exact ⟨hv.normal, h.withSession (h.session.record _)⟩
  | halted => exact h.withSession (h.session.record _)
  | @stored x v log _ hv =>
      have hn := hv.normal ha h.session
      exact ⟨hn, h.withSession ((h.session.record log).assign x hn)⟩

end Timed

/-- The evaluator keeps times normal. -/
def TimeKeeping (evaluate : String → Eval Value) : Prop :=
  ∀ source {base m}, Timed base m → KeepsTimes base Value.Normal (evaluate source m)

/-! ### Steps -/

section

variable {evaluate : String → Eval Value} (he : TimeKeeping evaluate)

/-- Behind an evaluation that a call asked for. -/
theorem KeepsTimes.resume {q : Request} {r : EStateM.Result Halt Machine Value}
    (h : KeepsTimes base Value.Normal r)
    (hb : ∀ s : Session, s.Holds Value.Normal → (q.back s).Holds Value.Normal) :
    KeepsTimes base Value.Normal (q.resume r) := by
  cases r with
  | ok v n => exact ⟨h.2.session.normal_resolve h.1, h.2.withSession (hb _ h.2.session)⟩
  | error e n =>
      have hn : Timed base { n with session := q.back n.session } :=
        Timed.withSession h (hb _ h.session)
      cases e <;> exact hn

namespace Timed

/-- The session in which a source is evaluated that a call asks for, and the one behind it. -/
theorem request {vs : List Value} {q : Request} (h : Timed base m) (hv : ∀ v ∈ vs, v.Normal)
    (hq : request? vs m.session = some q) :
    Timed base { m with session := q.inner } ∧
      ∀ s : Session, s.Holds Value.Normal → (q.back s).Holds Value.Normal := by
  obtain ⟨hi, hb⟩ := Request.holds (fun _ => Value.Made.normal) hq
    (fun v hm _ => hv v (List.mem_of_mem_tail hm)) h.session
  exact ⟨h.withSession hi, hb⟩

include he

theorem call {vs : List Value} (h : Timed base m) (hv : ∀ v ∈ vs, v.Normal) :
    KeepsTimes base Value.Normal (callValue evaluate vs m) := by
  match vs with
  | [] => exact h
  | callee :: args =>
      cases hq : request? (callee :: args) m.session with
      | some q =>
          obtain ⟨hi, hb⟩ := h.request hv hq
          rw [callValue_of_request evaluate hq]
          exact (he q.source hi).resume hb
      | none =>
          have provided (b : Builtin) (_ : callee.payload = .function b) :
              Builtin.Provides (fun _ => True) args b.arity.1 := fun _ _ _ => trivial
          rcases callValue_of_no_request evaluate hq provided with
            ⟨x, hx, hc⟩ | hc | ⟨name, arg, hc⟩ <;> rw [hc]
          · exact (h.simple hx).mono fun _ => Value.Made.normal
          · exact ⟨h.clock, h⟩
          · unfold runCommand
            split
            · exact ⟨trivial, h.withSession
                ⟨h.session.globals, h.session.frames, h.session.result⟩⟩
            · exact h

/-- **One step**, of an operation that pushes no time that is not normal. -/
theorem step {op : Op Nat} (hp : ∀ v, op = .push v → v.Normal) (h : Timed base m) :
    KeepsTimes base (fun _ => True) (step evaluate base.length op m) := by
  cases op with
  | jump kind target => exact (h.jumps kind).bind fun b n _ hn => ⟨trivial, hn⟩
  | push v => exact h.push (hp v rfl)
  | pop count => exact (h.popMany count).bind fun vs n _ hn => ⟨trivial, hn⟩
  | dup => exact h.top.bind fun v n hv hn => hn.push hv
  | pushVariable x => exact h.push (h.session.normal_resolveName x)
  | pushParam s => exact (h.selected s).bind fun v n hv hn => hn.push hv
  | pushBody name =>
      refine (h.simple .session).bind fun s n _ hn => ?_
      cases s.macroBody? name with
      | some body => exact hn.push trivial
      | none =>
          exact (hn.simple (.report (d := .undefinedMacro name) nofun)).bind fun _ o _ ho =>
            ho.push trivial
  | pushOutput line =>
      exact (h.simple (simple_commandOutput line)).bind fun v n hv hn => hn.push hv.normal
  | call count =>
      exact (h.popMany count).bind fun vs n hv hn =>
        (call he hn hv).bind fun v o hv ho => ho.push hv
  | reduce op count =>
      exact (h.popMany count).bind fun vs n hv hn =>
        (hn.reduce hv op).bind fun v o hv ho => ho.push hv

end Timed

/-! ### Runs -/

section

variable {p : Program} (hp : p.Normal) (hm : Timed m.stack m)

include he hp hm

/-- **At every index** that a run comes to. -/
theorem Reaches.timed {pc : Nat} (hr : Reaches evaluate p m pc n) : Timed m.stack n := by
  induction hr with
  | start => exact hm
  | @step pc n o i target _ hi hs ih =>
      have ho := ih.step he (hp pc i hi)
      rw [hs] at ho
      exact ho.2

/-- In every machine that an execution goes through. -/
theorem Passes.timed {o : Machine} (h : Passes evaluate p m o) : Timed m.stack o := by
  cases h with
  | between hr => exact hr.timed he hp hm
  | @taken pc count n o vs hr ht =>
      have ho := (hr.timed he hp hm).popMany count
      rw [ht] at ho
      exact ho.2
  | @halted pc n o i h hr hi hs =>
      have ho := (hr.timed he hp hm).step he (hp pc i hi)
      rwa [hs] at ho

theorem Ends.timed {r : EStateM.Result Halt Machine Unit} {spent : Halt}
    (h : Ends evaluate p m spent r) : Timed m.stack (left r) := by
  cases h with
  | done hr | spent hr => exact hr.timed he hp hm
  | halted hr hi hs => exact Passes.timed he hp hm (.halted hr hi hs)

end

end

/-- What is left of the stack behind an execution is the stack that it found. -/
theorem Timed.unwind (h : Timed base m) (e : EvalError) :
    Timed base (m.unwind base.length e) := by
  obtain ⟨vs, hs, -⟩ := h.values
  refine ⟨h.clock, ?_, [], ?_, fun _ hv => absurd hv List.not_mem_nil⟩
  · unfold Machine.unwind
    dsimp only
    split
    · exact h.session
    · exact h.session.report _
  · unfold Machine.unwind
    rw [hs, List.length_append, Nat.add_sub_cancel, List.drop_left, List.nil_append]

/-- An execution comes to the value that its run leaves, or to an empty text. -/
theorem KeepsTimes.finished {r : EStateM.Result Halt Machine Unit} (h : Timed base (left r)) :
    KeepsTimes base Value.Normal (finished base.length r) := by
  cases r with
  | error e n =>
      cases e with
      | failure f =>
          cases f with
          | eval e => exact h.unwind e
          | compile e => exact h
      | fault | exhausted => exact h
  | ok u n =>
      obtain ⟨vs, hs, hv⟩ := id h.values
      change n.stack = vs ++ base at hs
      unfold Machine.finished
      match vs with
      | [] =>
          have hl : n.stack.length - base.length = 0 := by rw [hs, List.nil_append, Nat.sub_self]
          simp only [hl]
          exact ⟨trivial, h⟩
      | [v] =>
          have hf : Machine.finished base.length (.ok () n) = .ok v { n with stack := base } :=
            finished_of_single hs
          unfold Machine.finished at hf
          rw [hf]
          exact ⟨hv v List.mem_cons_self, h.clock, h.session, [], rfl,
            fun _ hv => absurd hv List.not_mem_nil⟩
      | v :: w :: rest =>
          have hl : n.stack.length - base.length = rest.length + 2 := by
            rw [hs, List.length_append, Nat.add_sub_cancel]
            rfl
          simp only [hl]
          exact h

theorem execute_timed {evaluate : String → Eval Value} (he : TimeKeeping evaluate) {p : Program}
    (hp : p.Normal) (hm : Timed m.stack m) :
    KeepsTimes m.stack Value.Normal (execute evaluate p m) := by
  obtain ⟨r, hr, hx⟩ := execute_ends_run evaluate p m
  rw [hx]
  exact .finished (hr.timed he hp hm)

/-- **Every evaluation** keeps times normal. -/
theorem evaluate_timed (depth : Nat) : TimeKeeping (evaluate depth) := by
  induction depth with
  | zero => exact fun source _ _ h => h
  | succ depth ih =>
      intro source base m h
      have hr := h.remarked source
      rw [evaluate, evaluateWith_apply]
      cases hc : (Program.compile m.settings.optimize m.session.findCommand? source).1 with
      | error e => exact hr.withSession (hr.session.report _)
      | ok p =>
          have hx := execute_timed ih (Program.normal_of_compile hc) hr.restart
          dsimp only
          cases e : execute (evaluate depth) p (Machine.remarked source m) with
          | ok v n =>
              rw [e] at hx
              exact ⟨hx.1, hr.above hx.2⟩
          | error k n =>
              rw [e] at hx
              exact hr.above hx

/-! ### Executions inside executions -/

section

variable {depth k : Nat} {p q : Program}

/-- The operands of a call, and the machine without them. -/
theorem Calls.timed {evaluate : String → Eval Value} {vs : List Value} {r : Request}
    (hc : Calls evaluate p m vs n r) (he : TimeKeeping evaluate) (hp : p.Normal)
    (hm : Timed m.stack m) :
    (∀ v ∈ vs, v.Normal) ∧ Timed m.stack n ∧ request? vs n.session = some r := by
  obtain ⟨pc, o, count, span, hr, -, ht, hq⟩ := hc
  have hn := (hr.timed he hp hm).popMany count
  rw [ht] at hn
  exact ⟨hn.1, hn.2, hq⟩

/-- Executions inside are of programs with normal constants, and find normal times only. -/
theorem Inside.timed (hi : Inside depth p m k q n) (hp : p.Normal) (hm : Timed base m) :
    q.Normal ∧ Timed base n := by
  induction hi with
  | self => exact ⟨hp, hm⟩
  | @call depth pc count k p r q m n o t u span vs request hr hi ht hq hc _ ih =>
      obtain ⟨hv, ho, -⟩ := Calls.timed ⟨pc, n, count, span, hr, hi, ht, hq⟩
        (evaluate_timed (depth + 1)) hp hm.restart
      have hs := ((ho.request hv hq).1).remarked request.source
      rw [compile_apply] at hc
      injection hc with hr' ht'
      exact ih (Program.normal_of_compile hr') (hm.above (ht' ▸ hs))

/-- What a call asks for, in an execution or in one inside. -/
theorem Inside.asked_timed {vs : List Value} {r : Request} {o : Machine}
    (hi : Inside depth p m k q n) (hc : Calls (evaluate k) q n vs o r) (hp : p.Normal)
    (hm : Timed base m) :
    r.inner.Holds Value.Normal ∧ KeepsTimes n.stack Value.Normal (asked (evaluate k) r o) := by
  obtain ⟨hq, hn⟩ := hi.timed hp hm
  obtain ⟨hv, ho, hr⟩ := hc.timed (evaluate_timed k) hq hn.restart
  have hs := (ho.request hv hr).1
  exact ⟨hs.session, evaluate_timed k r.source hs⟩

/-- **In every moment** of an execution and of those inside. -/
theorem Moment.timed {s : Session} (h : Moment depth p m s) (hp : p.Normal)
    (hm : Timed base m) : s.Holds Value.Normal := by
  cases h with
  | @passed k _ _ _ hi ho =>
      obtain ⟨hq, hn⟩ := hi.timed hp hm
      exact (ho.timed (evaluate_timed k) hq hn.restart).session
  | @ended k _ _ hi =>
      obtain ⟨hq, hn⟩ := hi.timed hp hm
      exact (execute_timed (evaluate_timed k) hq hn.restart).timed.session
  | entered hi hc => exact (hi.asked_timed hc hp hm).1
  | evaluated hi hc => exact (hi.asked_timed hc hp hm).2.timed.session
  | resulted hi hc hv =>
      have hr := (hi.asked_timed hc hp hm).2
      rw [hv] at hr
      have hu := hr.2.session
      exact ⟨hu.globals, hu.frames, fun w hw => by cases hw; exact hu.normal_resolve hr.1⟩

/-- What macros and `test` come to in an execution and in those inside. -/
theorem Answer.timed {v : Value} (h : Answer depth p m v) (hp : p.Normal) (hm : Timed base m) :
    v.Normal := by
  obtain ⟨k, q, n, vs, o, r, u, hi, hc, hv⟩ := h
  obtain ⟨hq, hn⟩ := hi.timed hp hm
  obtain ⟨ha, ho, -⟩ := hc.timed (evaluate_timed k) hq hn.restart
  have hr := ho.call (evaluate_timed k) ha
  rw [hv] at hr
  exact hr.1

end

/-- **Times stay normal.**  Sums and differences are normal, also where their seconds wrap around.
And if the clock says a normal time and the session holds no others, then so it is with all times
that the evaluation of a source meets: with its value; with what the session holds behind it, and
holds in all moments of the execution of the source and of those inside it; with what macros and
`test` come to; with the constants of all programs that are executed; and with the values on the
stack, above those that were there before. -/
theorem times_stay_normal {m : Machine} (hc : m.host.clock.Normal)
    (hs : m.session.Holds Value.Normal) :
    (∀ a b : TimePair, (a.add b).Normal ∧ (a.sub b).Normal) ∧
    ∀ depth source,
      (∀ v n, evaluate depth source m = .ok v n → v.Normal) ∧
      (after (evaluate depth source) m).session.Holds Value.Normal ∧
      ∀ p t, compile source m = .ok (.ok p) t →
        (∀ s, Moment depth p t s → s.Holds Value.Normal) ∧
        (∀ v, Answer depth p t v → v.Normal) ∧
        ∀ k q n, Inside depth p t k q n → q.Normal ∧
          ∀ o, Passes (evaluate k) q n o → ∃ vs, o.stack = vs ++ m.stack ∧ ∀ v ∈ vs, v.Normal := by
  have hm : Timed m.stack m := .start hc hs
  refine ⟨fun a b => ⟨a.add_normal b, a.sub_normal b⟩, fun depth source => ?_⟩
  have hx := evaluate_timed depth source hm
  refine ⟨fun v n hv => ?_, hx.timed.session, fun p t ht => ?_⟩
  · rw [hv] at hx
    exact hx.1
  · rw [compile_apply] at ht
    injection ht with hp ht
    have hp : p.Normal := Program.normal_of_compile hp
    have ht : Timed m.stack t := ht ▸ hm.remarked source
    refine ⟨fun s h => h.timed hp ht, fun v h => h.timed hp ht, fun k q n hi => ?_⟩
    obtain ⟨hq, hn⟩ := hi.timed hp ht
    exact ⟨hq, fun o ho => (hn.above (ho.timed (evaluate_timed k) hq hn.restart)).values⟩

/-- Three quarters of a second more than `x`. -/
def sumOfX : Program :=
  ⟨"x + 0.75", #[⟨.push (.name "x"), ⟨0, 1⟩⟩,
    ⟨.push (.time ⟨0, 750000⟩ .decimal), ⟨4, 8⟩⟩, ⟨.reduce .add 2, ⟨2, 3⟩⟩]⟩

/-- The sum is taken where the seconds of `x` are the greatest word. -/
theorem times_stay_normal_sumOfX :
    let m := givenX (.time ⟨9223372036854775807, 500000⟩ .decimal)
    m.host.clock.Normal ∧ m.session.Holds Value.Normal ∧
      ∃ t, compile sumOfX.source m = .ok (.ok sumOfX) t ∧ sumOfX.Normal ∧
        ∀ s, Moment 0 sumOfX t s → s.Holds Value.Normal := by
  intro m
  have hc : m.host.clock.Normal := TimePair.zero_normal
  have hs : m.session.Holds Value.Normal := holds_givenX (show TimePair.Normal _ by decide)
  have hp : (Program.compile m.settings.optimize m.session.findCommand? sumOfX.source).1 =
      .ok sumOfX := of_toOption (by decide +kernel)
  have ht : compile sumOfX.source m = .ok (.ok sumOfX) (remarked sumOfX.source m) := by
    rw [compile_apply, hp]
  obtain ⟨-, -, h⟩ := (times_stay_normal hc hs).2 0 sumOfX.source
  obtain ⟨hm, -, hi⟩ := h sumOfX _ ht
  exact ⟨hc, hs, _, ht, (hi 0 sumOfX _ (.self _ _ _)).1, hm⟩

end Machine

end ExprEngine
