import ExprEngine.Proofs.Machine.Regimes

/-!
# Executions of compiled programs

A value is plain if it is no function.  No program makes a function out of anything: in a session
that holds plain values only, all that is stored is plain, and what is called is what the program
was compiled to call.  In a session that holds functions too, no more is lost than that a call may
come with too few arguments for a function out of the session.  A `Stock` says which values a
session may hold, so that both are followed at once, as regimes of well laid programs.

* `Stock.regime`: in each place lies a value in stock, or the function of the place.
* `compile_sound`: no program that the compiler makes goes wrong.
-/

namespace ExprEngine

/-! ### Values of sessions -/

/-- The value is no function. -/
def Value.Plain (v : Value) : Prop :=
  v.function? = none

/-- The values that a session may hold: all plain ones, and perhaps functions. -/
structure Stock where
  Has : Value → Prop
  plain : ∀ v, v.Plain → Has v

namespace Stock

/-- No function. -/
def onlyPlain : Stock :=
  ⟨Value.Plain, fun _ h => h⟩

/-- Whatever value there is. -/
def everything : Stock :=
  ⟨fun _ => True, fun _ _ => trivial⟩

/-- A function out of the session may lack an argument. -/
def May (K : Stock) (f : Fault) : Prop :=
  (∃ v, K.Has v ∧ ¬v.Plain) ∧ ∃ i n, f = .missingOperand i n

theorem not_may_onlyPlain (f : Fault) : ¬onlyPlain.May f :=
  fun ⟨⟨_, h, hn⟩, _⟩ => hn h

end Stock

/-- The parameters and the variables of a frame are in stock. -/
structure Frame.Within (K : Stock) (f : Frame) : Prop where
  params : ∀ v ∈ f.params, K.Has v
  locals : ∀ x v, f.locals.get? x = some v → K.Has v

/-- The variables, the parameters and the result of a session are in stock. -/
structure Session.Within (K : Stock) (s : Session) : Prop where
  globals : ∀ x v, s.globals.get? x = some v → K.Has v
  frames : ∀ f ∈ s.frames, f.Within K
  result : ∀ v, s.result = some v → K.Has v

/-- No variable, no parameter and no result of the session is a function. -/
abbrev Session.Plain (s : Session) : Prop :=
  s.Within .onlyPlain

theorem Session.within_everything (s : Session) : s.Within .everything :=
  ⟨fun _ _ _ => trivial, fun _ _ => ⟨fun _ _ => trivial, fun _ _ _ => trivial⟩, fun _ _ => trivial⟩

/-- The session keeps to the stock if what it holds does. -/
theorem Session.within_iff {K : Stock} {s : Session} : s.Within K ↔ s.Holds K.Has :=
  ⟨fun h => ⟨h.globals, fun f hf => ⟨(h.frames f hf).params, (h.frames f hf).locals⟩, h.result⟩,
    fun h => ⟨h.globals, fun f hf => ⟨(h.frames f hf).params, (h.frames f hf).locals⟩, h.result⟩⟩

/-- From a state that `pre` holds of, the step has no defect but those of `may`, and `post` holds of
what it comes to. -/
def Safe {σ α : Type} (may : Fault → Prop) (pre : σ → Prop) (x : EStateM Halt σ α)
    (post : α → σ → Prop) : Prop :=
  ∀ s, pre s → match x s with
    | .ok a t => post a t
    | .error h _ => ∀ f, h = .fault f → may f

/-! ### Stocks as regimes -/

/-- In a place for a function lies that function or a value in stock, and elsewhere a value in
stock; a function that lacks an argument is out of the session. -/
def Stock.regime (K : Stock) : Regime Builtin where
  calling := .functions
  Held := K.Has
  Fills x v := K.Has v ∨ v.function? = x
  May := K.May
  data h := K.plain _ h.function?
  operand := .inl
  stored h _ := h.elim id (K.plain _)
  roomy _ _ h := .inl (h.elim id (K.plain _))
  pushed _ := .inr rfl
  called {_ v b _} h hb hk := by
    rcases h with h | h
    · have hp : ¬v.Plain := fun hp => by rw [Value.Plain, hb] at hp; cases hp
      exact fun i _ _ => ⟨⟨v, h, hp⟩, i, _, rfl⟩
    · exact Builtin.provides_of_accepts (hk b (h.symm.trans hb))

namespace Machine

variable {K : Stock}

/-- The session keeps to the stock, and the stack is this one. -/
structure At (K : Stock) (stack : List Value) (m : Machine) : Prop where
  session : m.session.Within K
  stack : m.stack = stack

/-! ### Executions -/

/-- **Every evaluation** has no defect but that a function out of the session lacks an argument. -/
theorem evaluate_safe (depth : Nat) : Keeping K.regime (evaluate depth) :=
  K.regime.evaluated depth

section

variable {evaluate : String → Eval Value} {p : Program} {m n : Machine}
  (he : Keeping K.regime evaluate) (hw : p.WellLaid)

include he hw

theorem Reaches.holding (hm : m.session.Within K) {k : Nat} (hr : Reaches evaluate p m k n) :
    k ≤ p.code.size ∧ Tidy K.regime m.stack (layoutAt p.code.toList k) n :=
  hr.tidy he hw (Session.within_iff.mp hm)

/-- The execution of a well laid program. -/
theorem execute_safe (stack : List Value) :
    Safe K.May (At K stack) (execute evaluate p) fun v m => K.Has v ∧ At K stack m := by
  intro m hm
  have hx := execute_clean he hw (Session.within_iff.mp hm.session)
  cases e : execute evaluate p m with
  | ok v n =>
      rw [e] at hx
      obtain ⟨hv, hn, o, -, -, rfl⟩ := hx
      exact ⟨hv.elim id (K.plain v), Session.within_iff.mpr hn, hm.stack⟩
  | error h n =>
      rw [e] at hx
      exact hx.1

/-- The value of an execution is the one that the run left at the end. -/
theorem execute_ends (hm : m.session.Within K) {v : Value} (h : execute evaluate p m = .ok v n) :
    ∃ o, Reaches evaluate p m p.code.size o ∧ o.stack = v :: m.stack ∧
      n = { o with stack := m.stack } := by
  have hx := execute_clean he hw (Session.within_iff.mp hm)
  rw [h] at hx
  exact hx.2.2

end

/-! ### Programs that the compiler makes -/

/-- **Compiled programs do not go wrong.**  In every program that the compiler makes, jumps lead
forward and no further than its end.  Every index has one height, with which all ways through the
program come to it: one at the end, and as many as the instruction there needs; and where a function
is called, it accepts the number of arguments.  Every execution comes to every index with that
height above the stack that it found, ends with one value if it ends, and has no defect but that a
function that was found in the session lacks an argument. -/
theorem compile_sound {optimize : Bool} {commands : Grammar.Commands} {source : String}
    {p : Program} (h : (Program.compile optimize commands source).1 = .ok p) :
    (∀ k i t, p.code[k]? = some i → i.op.target? = some t → k < t ∧ t ≤ p.code.size) ∧
    ∃ height : Nat → Nat, height p.code.size = 1 ∧
      (∀ k l, p.Path k l → l.length = height k ∧
        ∀ i, p.code[k]? = some i → i.op.need ≤ height k ∧
          ∀ n, i.op = .call n → 0 < n ∧ ∀ b, l[n - 1]? = some (some b) → b.accepts (n - 1)) ∧
      ∀ depth m,
        (∀ k n, Reaches (evaluate depth) p m k n → n.stack.length = m.stack.length + height k) ∧
        (∀ v n, execute (evaluate depth) p m = .ok v n → ∃ o,
          Reaches (evaluate depth) p m p.code.size o ∧ o.stack = v :: m.stack ∧
            n = { o with stack := m.stack }) ∧
        ∀ f n, execute (evaluate depth) p m = .error (.fault f) n →
          ¬m.session.Plain ∧ ∃ i c, f = .missingOperand i c := by
  have hw := Program.wellLaid_of_compile h
  refine ⟨fun k i t hi ht => ?_, fun k => (layoutAt p.code.toList k).length, ?_, ?_, ?_⟩
  · obtain ⟨hk, hs, -⟩ := (hw.inPlace k i hi).2 t ht
    exact ⟨hk, hs⟩
  · exact congrArg List.length hw.final
  · intro k l hp
    refine ⟨hp.length_eq hw, fun i hi => ?_⟩
    obtain ⟨hn, ha⟩ := (hw.inPlace k i hi).1
    refine ⟨hn, fun n hc => ?_⟩
    rw [hc] at ha
    exact ⟨ha.1, fun b hb => ha.2.2 b ((hp.fits hw).get hb)⟩
  · intro depth m
    have hm := Session.within_everything m.session
    have he := evaluate_safe (K := .everything) depth
    refine ⟨fun k n hr => ?_, fun v n hv => execute_ends he hw hm hv, fun f n he => ?_⟩
    · exact (hr.holding (evaluate_safe depth) hw hm).2.length_eq
    -- one stock for sessions without functions, one for all the others
    · have hs {K : Stock} (hK : m.session.Within K) : K.May f := by
        have := execute_safe (evaluate_safe depth) hw m.stack m ⟨hK, rfl⟩
        rw [he] at this
        exact this f rfl
      exact ⟨fun hp => Stock.not_may_onlyPlain f (hs hp), (hs hm).2⟩

/-- The parameter, if it is false, or the length of a text. -/
def parameterOrLength : Program :=
  ⟨"\x7b1\x7d & strlen(\"ab\")", #[⟨.pushParam (.nth 1), ⟨0, 2⟩⟩, ⟨.jump .ifFalse 6, ⟨4, 5⟩⟩,
    ⟨.pop 1, ⟨4, 5⟩⟩, ⟨.push ⟨.function .strlen, false⟩, ⟨6, 12⟩⟩, ⟨.push (.text "ab"), ⟨13, 17⟩⟩,
    ⟨.call 2, ⟨12, 18⟩⟩]⟩

theorem compile_sound_parameterOrLength :
    (Program.compile false (fun _ => none) parameterOrLength.source).1 = .ok parameterOrLength ∧
      ∀ depth m, m.session.Plain →
        ∀ f n, execute (evaluate depth) parameterOrLength m ≠ .error (.fault f) n := by
  have hc : (Program.compile false (fun _ => none) parameterOrLength.source).1 =
      .ok parameterOrLength := of_toOption (by decide +kernel)
  refine ⟨hc, fun depth m hm f n he => ?_⟩
  obtain ⟨-, _, -, -, hs⟩ := compile_sound hc
  exact ((hs depth m).2.2 f n he).1 hm

/-- The call of a parameter that is a function, or else of `strlen`. -/
def callOfParameter : Program :=
  ⟨"(\x7b1\x7d & strlen)(\"x\")", #[⟨.pushParam (.nth 1), ⟨1, 3⟩⟩, ⟨.jump .ifFalse 4, ⟨5, 6⟩⟩,
    ⟨.pop 1, ⟨5, 6⟩⟩, ⟨.push ⟨.function .strlen, false⟩, ⟨7, 13⟩⟩, ⟨.push (.text "x"), ⟨15, 18⟩⟩,
    ⟨.call 2, ⟨14, 19⟩⟩]⟩

/-- A machine whose session was given the function `substr` as a parameter. -/
def givenFunction : Machine :=
  { session := { frames := [{ name := "m", params := [⟨.function .substr, false⟩] }] } }

/-- The callee that was counted for is `strlen`, but a function is false, so that what is called is
the parameter, and that wants an argument more. -/
theorem callOfParameter_lacks_argument :
    (Program.compile false (fun _ => none) callOfParameter.source).1 = .ok callOfParameter ∧
      ∃ n, execute (evaluate 0) callOfParameter givenFunction =
        .error (.fault (.missingOperand 1 1)) n :=
  ⟨of_toOption (by decide +kernel), _, rfl⟩

end Machine

end ExprEngine
