import ExprEngine.Proofs.Machine.Contents
import ExprEngine.Proofs.Machine.Operators

/-!
# What a call asks for

Of all that a step does, only a call may evaluate a source: `test` does, and so does the call of a
macro.  `request?` says whether a call will, which source it is, in which session it is evaluated,
and which session the caller goes on with.

* `callValue_of_request`: a call that asks for a source is the evaluation of that source, resumed.
* `callValue_of_none`: a call that asks for none does not depend on the evaluator.
* `callValue_of_no_request`: it is a simple step, a look at the clock, or a command.
* `idle_calm`, `idle_blind`: what calls do on their own account.
-/

namespace ExprEngine.Machine

open Builtin

/-- A source that a call asks for. -/
structure Request where
  source : String
  /-- The session in which the source is evaluated. -/
  inner : Session
  /-- The session that the caller goes on with, from the one that the evaluation leaves. -/
  back : Session → Session

/-- The session inside the call of a macro. -/
def macroSession (s : Session) (name : String) (args : List Value) : Session :=
  { s.pushFrame name (args.map (parameter s)) with result := none }

/-- The session behind a call that was made in a session `s`, from the one that the macro leaves. -/
def macroBack (s t : Session) : Session :=
  { t.popFrame with result := s.result }

/-- The source that a call with these values asks for, if it asks for one. -/
def request? (vs : List Value) (s : Session) : Option Request :=
  match vs with
  | [] => none
  | callee :: args =>
    match callee.payload with
    | .function .test => args.head?.map fun v => ⟨s.toText v, s, id⟩
    | .name x =>
      match s.macroBody? x with
      | some body =>
        if greatestDepth < (macroSession s x args).frames.length then none
        else some ⟨body, macroSession s x args, macroBack s⟩
      | none => none
    | _ => none

/-- The caller goes on with the value that the evaluation came to, or gives up if that failed. -/
def Request.resume (q : Request) :
    EStateM.Result Halt Machine Value → EStateM.Result Halt Machine Value
  | .ok v n => .ok (n.session.resolve v) { n with session := q.back n.session }
  | .error (.failure _) n => .error EvalError.aborted.halt { n with session := q.back n.session }
  | .error h n => .error h { n with session := q.back n.session }

/-- The evaluator of calls that have to do without one. -/
def idle : String → Eval Value :=
  fun _ => throw .exhausted

/-! ### Sessions of requests -/

/-- A request is that of `test` for its argument, or that of a macro for its body. -/
inductive Requested (s : Session) : List Value → Request → Prop
  | test {callee v : Value} {rest : List Value} (hc : callee.payload = .function .test) :
    Requested s (callee :: v :: rest) ⟨s.toText v, s, id⟩
  | body {callee : Value} {x body : String} {args : List Value} (hc : callee.payload = .name x)
    (hb : s.macroBody? x = some body)
    (hd : (macroSession s x args).frames.length ≤ greatestDepth) :
    Requested s (callee :: args) ⟨body, macroSession s x args, macroBack s⟩

theorem requested_of_request? {vs : List Value} {s : Session} {q : Request}
    (h : request? vs s = some q) : Requested s vs q := by
  unfold request? at h
  split at h
  · cases h
  · next callee args =>
    split at h
    · next hc =>
      cases args with
      | nil => cases h
      | cons v rest =>
          cases h
          exact .test hc
    · next x hc =>
      split at h
      · next body hb =>
        split at h
        · cases h
        · next hd =>
          cases h
          exact .body hc hb (Nat.le_of_not_lt hd)
      · cases h
    · cases h

/-- Before and after, a request leaves the reports as they are. -/
theorem Request.diagnostics {vs : List Value} {s : Session} {q : Request}
    (h : request? vs s = some q) :
    q.inner.diagnostics = s.diagnostics ∧ ∀ t, (q.back t).diagnostics = t.diagnostics := by
  cases requested_of_request? h <;> exact ⟨rfl, fun _ => rfl⟩

/-- The session of a request holds what that of the caller holds, and arguments that are no
references; and so does the one that the caller goes on with. -/
theorem Request.holds {P : Value → Prop} (hp : ∀ v : Value, v.Made → P v) {vs : List Value}
    {s : Session} {q : Request} (h : request? vs s = some q)
    (hv : ∀ v ∈ vs.tail, v.name? = none → P v) (hs : s.Holds P) :
    q.inner.Holds P ∧ ∀ t : Session, t.Holds P → (q.back t).Holds P := by
  cases requested_of_request? h with
  | test => exact ⟨hs, fun t ht => ht⟩
  | body =>
      refine ⟨⟨hs.globals, ?_, fun _ => nofun⟩, fun t ht => ⟨ht.globals, ?_, hs.result⟩⟩
      · intro f hf
        rcases List.mem_cons.mp hf with rfl | hf
        · refine ⟨fun v hv' => ?_, fun y v hy => ?_⟩
          · obtain ⟨w, hw, rfl⟩ := List.mem_map.mp hv'
            exact holds_parameter hp (hv w hw)
          · cases hy
        · exact hs.frames f hf
      · exact fun f hf => ht.frames f (List.mem_of_mem_tail hf)

/-- What a value was resolved to is no reference any more. -/
theorem name?_resolve (s : Session) (v : Value) : (s.resolve v).name? = none := by
  unfold Session.resolve
  split
  · exact (s.data_resolveName _).name?
  · assumption

theorem resolve_of_name? {v : Value} (h : v.name? = none) (s : Session) : s.resolve v = v := by
  unfold Session.resolve
  rw [h]

/-! ### Calls -/

section

variable (evaluate : String → Eval Value) {m : Machine}

/-- How a macro ends that is not nested too deeply. -/
theorem runMacro_apply (body : String) (h : ¬greatestDepth < m.session.frames.length) :
    runMacro evaluate body m = match evaluate body m with
      | .ok v n =>
        .ok () { n with session := { n.session with result := some (n.session.resolve v) } }
      | .error (.failure _) n => .error EvalError.aborted.halt n
      | .error e n => .error e n := by
  have hs : runMacro evaluate body m = (aborting (evaluate body) >>= fun v =>
      modifySession fun s => { s with result := some (s.resolve v) }) m := by
    unfold runMacro
    rw [bind_of_ok (show getSession m = .ok m.session m from rfl), if_neg h]
  rw [hs, bind_apply, aborting]
  cases evaluate body m with
  | ok v n => rfl
  | error e n => cases e <;> rfl

/-- A macro runs between the session of its call and the session behind it. -/
theorem callMacro_apply (name body : String) (args : List Value) (m : Machine) :
    callMacro evaluate name body args m =
      match runMacro evaluate body { m with session := macroSession m.session name args } with
      | .ok () n => .ok ((n.session.result.map n.session.resolve).getD .blank)
          { n with session := macroBack m.session n.session }
      | .error e n => .error e { n with session := macroBack m.session n.session } := by
  unfold callMacro macroSession macroBack
  rfl

theorem callMacro_too_deep (name body : String) (args : List Value)
    (h : greatestDepth < (macroSession m.session name args).frames.length) :
    callMacro evaluate name body args m = .error EvalError.tooManyRecursions.halt m := by
  have hr : runMacro evaluate body { m with session := macroSession m.session name args } =
      .error EvalError.tooManyRecursions.halt
        { m with session := macroSession m.session name args } := by
    unfold runMacro
    rw [bind_of_ok (show getSession { m with session := macroSession m.session name args } =
      .ok (macroSession m.session name args) _ from rfl), if_pos h]
    rfl
  rw [callMacro_apply, hr]
  rfl

/-- A macro that is not nested too deeply is its body, resumed. -/
theorem callMacro_resume (name body : String) (args : List Value)
    (h : ¬greatestDepth < (macroSession m.session name args).frames.length) :
    callMacro evaluate name body args m =
      Request.resume ⟨body, macroSession m.session name args, macroBack m.session⟩
        (evaluate body { m with session := macroSession m.session name args }) := by
  have hr := runMacro_apply evaluate
    (m := { m with session := macroSession m.session name args }) body h
  rw [callMacro_apply, hr]
  cases evaluate body { m with session := macroSession m.session name args } with
  | ok v n =>
      -- the value is resolved twice, but the first time leaves nothing to resolve
      have again : ({ n.session with result := some (n.session.resolve v) } : Session).resolve
          (n.session.resolve v) = n.session.resolve v :=
        resolve_of_name? (name?_resolve n.session v) _
      simp only [Option.map_some, Option.getD_some, again]
      rfl
  | error e n => cases e <;> rfl

/-- `test` is the source that its argument is, resumed. -/
theorem call_test_resume (v : Value) (rest : List Value) :
    Builtin.test.call evaluate (v :: rest) m =
      Request.resume ⟨m.session.toText v, m.session, id⟩ (evaluate (m.session.toText v) m) := by
  have hc : chars (v :: rest) 0 m = .ok (m.session.toText v).toList m := rfl
  have hs : Builtin.test.call evaluate (v :: rest) m =
      (aborting (evaluate (m.session.toText v)) >>= fun w =>
        getSession >>= fun s => pure (s.resolve w)) m := by
    simp only [Builtin.call]
    rw [bind_of_ok hc, String.ofList_toList]
  rw [hs, bind_apply, aborting]
  cases evaluate (m.session.toText v) m with
  | ok w n => rfl
  | error e n => cases e <;> rfl

/-- **A call that asks for a source** is the evaluation of the source, resumed. -/
theorem callValue_of_request {vs : List Value} {q : Request} (h : request? vs m.session = some q) :
    callValue evaluate vs m = q.resume (evaluate q.source { m with session := q.inner }) := by
  match vs with
  | [] => cases h
  | callee :: args =>
      unfold request? at h
      unfold callValue
      -- of functions, only `test` asks for a source
      cases hp : callee.payload with
      | function b =>
          simp only [hp] at h ⊢
          cases b <;> simp only [reduceCtorEq] at h
          cases args with
          | nil => cases h
          | cons v rest =>
              cases h
              exact call_test_resume evaluate v rest
      | name x =>
          simp only [hp] at h ⊢
          rw [bind_of_ok (show getSession m = .ok m.session m from rfl)]
          cases hb : m.session.macroBody? x with
          | none => simp [hb] at h
          | some body =>
              simp only [hb] at h ⊢
              split at h
              · cases h
              · next hd =>
                cases h
                exact callMacro_resume evaluate x body args hd
      | _ => simp [hp] at h

end

/-! ### Calls without an evaluator -/

theorem callMacro_idle (name body : String) (args : List Value) :
    callMacro idle name body args = (do
      let s ← getSession
      if greatestDepth < (macroSession s name args).frames.length then fail .tooManyRecursions
      else throw .exhausted) := by
  funext m
  rw [bind_of_ok (show getSession m = .ok m.session m from rfl)]
  split
  · next h => rw [callMacro_too_deep idle name body args h]; rfl
  · next h => rw [callMacro_resume idle name body args h]; rfl

theorem callMacro_idle_mild (name body : String) (args : List Value) :
    Mild (callMacro idle name body args) := by
  rw [callMacro_idle]
  exact .bind .getSession fun s => .ite (.fail _) .exhausted

theorem call_idle_mild (b : Builtin) (args : List Value) : Mild (b.call idle args) := by
  by_cases h : b = .test
  · subst h
    have ha (source : List Char) : aborting (idle (String.ofList source)) = throw .exhausted := rfl
    have hc : Mild (chars args 0) :=
      (simple_chars (fun _ _ _ => trivial) Nat.zero_lt_one).mild
    simp only [Builtin.call, ha]
    exact .bind hc fun _ => .bind .exhausted fun _ => .bind .getSession fun _ => .pure _
  · exact call_mild idle h args

/-- **A call that asks for no source** goes as it goes without an evaluator. -/
theorem callValue_of_none (evaluate : String → Eval Value) {vs : List Value} {m : Machine}
    (h : request? vs m.session = none) : callValue evaluate vs m = callValue idle vs m := by
  match vs with
  | [] => rfl
  | callee :: args =>
      unfold request? at h
      unfold callValue
      cases hp : callee.payload with
      | function b =>
          simp only [hp] at h ⊢
          by_cases hb : b = .test
          · subst hb
            cases args with
            | nil => rfl
            | cons v rest => cases h
          · cases b <;> first | exact absurd rfl hb | rfl
      | name x =>
          simp only [hp] at h ⊢
          rw [bind_of_ok (show getSession m = .ok m.session m from rfl),
            bind_of_ok (show getSession m = .ok m.session m from rfl)]
          cases hb : m.session.macroBody? x with
          | none => rfl
          | some body =>
              simp only [hb, ite_eq_left_iff, reduceCtorEq, imp_false, Decidable.not_not] at h ⊢
              rw [callMacro_too_deep evaluate x body args h, callMacro_too_deep idle x body args h]
      | _ => simp only [hp]

/-- A call that asks for no source is a simple step that makes data, a look at the clock, or a
command. -/
theorem callValue_of_no_request (evaluate : String → Eval Value) {may : Fault → Prop}
    {callee : Value} {args : List Value} {m : Machine}
    (h : request? (callee :: args) m.session = none)
    (hp : ∀ b, callee.payload = .function b → Provides may args b.arity.1) :
    (∃ x, Simple may Value.Made x ∧ callValue evaluate (callee :: args) m = x m) ∨
      callValue evaluate (callee :: args) m = .ok (.time m.host.clock .absolute) m ∨
      ∃ name arg, callValue evaluate (callee :: args) m = runCommand name arg m := by
  have failed {e : EvalError} (he : e.Raised) :
      Simple may Value.Made (fail e : Eval Value) := .fail he
  unfold request? at h
  unfold callValue
  cases hc : callee.payload with
  | function b =>
      simp only [hc] at h ⊢
      by_cases hb : b = .test
      · subst hb
        -- without an argument there is no source to ask for
        cases args with
        | nil => exact .inl ⟨_, .fault (hp _ hc 0 Nat.zero_lt_one (Nat.zero_le _)), rfl⟩
        | cons v rest => cases h
      · by_cases ht : b = .time
        · subst ht
          exact .inr (.inl (call_time evaluate args m))
        · exact .inl ⟨_, simple_call evaluate hb ht (hp b hc), rfl⟩
  | command c =>
      simp only [hc]
      exact .inr (.inr ⟨_, _, rfl⟩)
  | name x =>
      simp only [hc] at h ⊢
      rw [bind_of_ok (show getSession m = .ok m.session m from rfl)]
      cases hb : m.session.macroBody? x with
      | none => exact .inl ⟨_, failed (e := .noSuchFunction x) trivial, rfl⟩
      | some body =>
          simp only [hb, ite_eq_left_iff, reduceCtorEq, imp_false, Decidable.not_not] at h ⊢
          rw [callMacro_too_deep evaluate x body args h]
          exact .inl ⟨_, failed (e := .tooManyRecursions) trivial, rfl⟩
  | _ =>
      simp only [hc]
      exact .inl ⟨_, failed (e := .noSuchFunction _) trivial, rfl⟩

/-- A call that the evaluator does not help leaves the stack alone. -/
theorem idle_calm (vs : List Value) (m : Machine) : Calm m (after (callValue idle vs) m) := by
  match vs with
  | [] => exact .refl m
  | callee :: args =>
      rw [callValue]
      split
      · exact ((call_idle_mild _ args).quiet m).calm
      · exact after_bind (R := Calm) Calm.trans (x := getSession) (.refl m) fun s n =>
          runCommand_calm ..
      · refine after_bind (R := Calm) Calm.trans (x := getSession) (.refl m) fun s n => ?_
        split
        · exact ((callMacro_idle_mild _ _ args).quiet n).calm
        · exact .refl n
      · exact .refl m

/-- A call that the evaluator does not help sees the session, the random numbers and the host
only. -/
theorem idle_blind (vs : List Value) : Blind (callValue idle vs) := by
  match vs with
  | [] => exact (Mild.fault _).blind
  | callee :: args =>
      rw [callValue]
      split
      · exact (call_idle_mild _ args).blind
      · exact Mild.getSession.blind.bind fun s => runCommand_blind _ _
      · refine Mild.getSession.blind.bind fun s => ?_
        split
        · exact (callMacro_idle_mild _ _ args).blind
        · exact (Mild.fail _).blind
      · exact (Mild.fail _).blind

theorem idle_accepted (vs : List Value) : Accepted (callValue idle vs) := by
  match vs with
  | [] => exact (Mild.fault _).accepted
  | callee :: args =>
      rw [callValue]
      split
      · exact (call_idle_mild _ args).accepted
      · exact Mild.getSession.accepted.bind fun s => runCommand_accepted _ _
      · refine Mild.getSession.accepted.bind fun s => ?_
        split
        · exact (callMacro_idle_mild _ _ args).accepted
        · exact (Mild.fail _).accepted
      · exact (Mild.fail _).accepted

/-- A call does not fail because the source that it asks for is no expression: that has been
reported inside. -/
theorem callValue_accepted (evaluate : String → Eval Value) (vs : List Value) :
    Accepted (callValue evaluate vs) := by
  intro m e n he
  cases h : request? vs m.session with
  | none =>
      rw [callValue_of_none evaluate h] at he
      exact idle_accepted vs m e n he
  | some q =>
      rw [callValue_of_request evaluate h] at he
      unfold Request.resume at he
      split at he
      · cases he
      · cases he
      · next hf _ =>
        cases he
        exact hf _ rfl

end ExprEngine.Machine
