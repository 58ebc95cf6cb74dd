import ExprEngine.Proofs.Machine.Steps

/-!
# What functions and selections do

A built-in function other than `test` reads the session, the random numbers and the host, reports,
keeps a match, and may fail; selections and the output of commands do no more.  `Simple may P x`
says that `x` is made up of such steps, that no defect but those of `may` stops it, and that `P`
holds of what it comes to.  What is true of each of the steps is true of `x`, by induction on how it
is made up.

* `Builtin.simple_call`: a function that has its arguments is simple and comes to data; a time is
  never made but by `time`, which looks at the clock of the host.
* `Simple.mild`: a simple step does nothing else, and looks at nothing but the session, the random
  numbers and the host.

No simple step reports that an evaluation was given up, or fails as if one had been.
-/

namespace ExprEngine

open Machine

/-- The value is a number or a text: neither a reference nor anything to call. -/
def Value.Data (v : Value) : Prop :=
  match v.payload with
  | .name _ | .function _ | .command _ => False
  | _ => True

theorem Value.Data.name? {v : Value} (h : v.Data) : v.name? = none := by
  unfold Value.Data at h
  unfold Value.name?
  split
  · next hp => rw [hp] at h; exact h.elim
  · rfl

/-- The value is a normal pair if it is a time. -/
def Value.Normal (v : Value) : Prop :=
  match v.payload with
  | .time t _ => t.Normal
  | _ => True

/-- The value is data, and a normal pair if it is a time.  So is whatever operators and functions
make, `time` excepted. -/
def Value.Made (v : Value) : Prop :=
  match v.payload with
  | .name _ | .function _ | .command _ => False
  | .time t _ => t.Normal
  | _ => True

theorem Value.Made.data {v : Value} (h : v.Made) : v.Data := by
  unfold Value.Made at h
  unfold Value.Data
  split <;> simp_all

theorem Value.Made.normal {v : Value} (h : v.Made) : v.Normal := by
  unfold Value.Made at h
  unfold Value.Normal
  split <;> simp_all

/-- A name is resolved to data. -/
theorem Session.data_resolveName (s : Session) (x : String) : (s.resolveName x).Data := by
  unfold resolveName
  split
  · trivial
  · split <;> trivial

/-! ### Reports of views -/

/-- The report says that an evaluation was given up. -/
def Diagnostic.isAbort : Diagnostic → Bool
  | abort _ => true
  | _ => false

/-- None of the reports says that an evaluation was given up. -/
def Mute (log : List Diagnostic) : Prop :=
  ∀ d ∈ log, ¬d.isAbort

theorem Mute.nil : Mute [] :=
  fun _ hd => absurd hd List.not_mem_nil

theorem Mute.single {d : Diagnostic} (h : ¬d.isAbort) : Mute [d] := by
  rintro _ hd
  rwa [List.mem_singleton.mp hd]

theorem Mute.append {log more : List Diagnostic} (h : Mute log) (k : Mute more) :
    Mute (log ++ more) :=
  fun d hd => (List.mem_append.mp hd).elim (h d) (k d)

namespace Logged

variable {α β : Type}

theorem mute_pure (a : α) : Mute (pure a : Logged α).log :=
  .nil

theorem mute_report {d : Diagnostic} (h : ¬d.isAbort) : Mute (report d).log :=
  .single h

theorem mute_bind {x : Logged α} {f : α → Logged β} (hx : Mute x.log)
    (hf : ∀ a, Mute (f a).log) : Mute (x >>= f).log :=
  hx.append (hf x.value)

theorem mute_ite {c : Prop} [Decidable c] {x y : Logged α} (hx : Mute x.log) (hy : Mute y.log) :
    Mute (if c then x else y).log := by
  split
  · exact hx
  · exact hy

end Logged

open Logged

theorem Num.mute_toInt (n : Num) : Mute n.toInt.log := by
  cases n with
  | int n => exact mute_pure _
  | time t kind => exact mute_pure _
  | real f =>
      refine mute_ite ?_ (mute_pure _)
      exact mute_bind (mute_report (d := .realBeyondInteger) nofun) fun _ => mute_pure _

theorem Num.mute_toTime (n : Num) : Mute n.toTime.log := by
  cases n with
  | int n => exact mute_pure _
  | time t kind => exact mute_pure _
  | real f =>
      simp only [toTime]
      split
      · exact mute_pure _
      · exact mute_bind (mute_report (d := .realBeyondTime) nofun) fun _ => mute_pure _

theorem Payload.mute_number (p : Payload) : Mute p.number.log := by
  unfold number
  split
  all_goals try exact mute_pure _
  split
  · exact mute_pure _
  · next e _ => exact mute_bind (mute_report (d := .number e) nofun) fun _ => mute_pure _

namespace Session

variable (s : Session) (v : Value)

theorem mute_number : Mute (s.number v).log := by
  unfold number
  split
  · exact Payload.mute_number _
  · exact mute_pure _

theorem mute_truth : Mute (s.truth v).log :=
  mute_bind (s.mute_number v) fun _ => mute_pure _

theorem mute_toInt : Mute (s.toInt v).log := by
  refine mute_bind (s.mute_number v) fun n => ?_
  cases n with
  | none => exact mute_pure _
  | some n => exact n.mute_toInt

theorem mute_toReal : Mute (s.toReal v).log := by
  unfold toReal
  split
  · exact mute_pure _
  · exact mute_bind (Payload.mute_number _) fun _ => mute_pure _
  · exact mute_pure _

end Session

/-! ### Simple steps -/

/-- What a step gives up for on its own account: nothing inside it has failed, and the limit on
instructions is that of the run, not of a step. -/
def EvalError.Raised : EvalError → Prop
  | .aborted | .instructionLimit _ => False
  | _ => True

theorem EvalError.Raised.ne_aborted {e : EvalError} (h : e.Raised) : e ≠ .aborted := by
  rintro rfl
  exact h

namespace Machine

@[simp] theorem Mild.draw : Mild draw where
  quiet _ := ⟨rfl, List.prefix_rfl⟩
  blind := by
    intro F hF m n h
    have hr : (if n.random = 0 then Random.seeded n.host.entropy else n.random) =
        if m.random = 0 then Random.seeded m.host.entropy else m.random := by
      rw [hF.random h, hF.host h]
    refine ⟨congrArg Random.next hr.symm, ?_⟩
    rw [hr]
    exact hF.setRandom _ h
  accepted _ _ _ := nofun

/-- A match that is kept. -/
@[simp] theorem Mild.setMatch (found : Found) :
    Mild (modifySession fun s => { s with lastMatch := some found }) :=
  ⟨fun _ => ⟨rfl, List.prefix_rfl⟩, .modifySession _, .modifySession _⟩

/-- The step is made up of readings, draws, reports, matches that are kept, failures of its own and
defects of `may`, and `P` holds of what it comes to. -/
inductive Simple (may : Fault → Prop) : {α : Type} → (α → Prop) → Eval α → Prop
  | pure {α : Type} {P : α → Prop} {a : α} (h : P a) : Simple may P (pure a)
  | bind {α β : Type} {P : α → Prop} {Q : β → Prop} {x : Eval α} {f : α → Eval β}
    (hx : Simple may P x) (hf : ∀ a, Simple may Q (f a)) : Simple may Q (x >>= f)
  | session : Simple may (fun _ => True) getSession
  | host {α : Type} {P : α → Prop} {f : Host → α} (h : ∀ host, P (f host)) :
    Simple may P (get >>= fun m => Pure.pure (f m.host))
  | observe {α : Type} {view : Session → Logged α} (h : ∀ s, Mute (view s).log) :
    Simple may (fun _ => True) (observe view)
  | draw : Simple may (fun _ => True) draw
  | report {d : Diagnostic} (h : ¬d.isAbort) : Simple may (fun _ => True) (report d)
  | keep (found : Found) :
    Simple may (fun _ => True) (modifySession fun s => { s with lastMatch := some found })
  | fail {α : Type} {P : α → Prop} {e : EvalError} (h : e.Raised) : Simple may P (fail e)
  | fault {α : Type} {P : α → Prop} {f : Fault} (h : may f) : Simple may P (fault f)

namespace Simple

variable {may : Fault → Prop} {α : Type} {P : α → Prop} {x y : Eval α}

theorem ite {c : Prop} [Decidable c] (hx : Simple may P x) (hy : Simple may P y) :
    Simple may P (if c then x else y) := by
  split
  · exact hx
  · exact hy

/-- A simple step draws, reports and keeps a match only, and sees no more than a session sees. -/
theorem mild (h : Simple (fun _ => True) P x) : Mild x := by
  induction h with
  | pure => exact .pure _
  | bind _ _ hx hf => exact hx.bind hf
  | session => exact .getSession
  | host => exact .getHost _
  | observe => exact .observe _
  | draw => exact .draw
  | report => exact .report _
  | keep found => exact .setMatch found
  | fail => exact .fail _
  | fault => exact .fault _

end Simple

end Machine

/-! ### Built-in functions -/

namespace Builtin

/-- The first `n` arguments are there, or it is no matter that they are not. -/
def Provides (may : Fault → Prop) (args : List Value) (n : Nat) : Prop :=
  ∀ i, i < n → args.length ≤ i → may (.missingOperand i args.length)

variable {may : Fault → Prop} {args : List Value} {n : Nat}

theorem provides_of_le (h : n ≤ args.length) : Provides may args n :=
  fun i hi hl => absurd hl (by omega)

/-- The arguments that a function accepts are as many as it needs. -/
theorem provides_of_accepts {b : Builtin} (h : b.accepts args.length) :
    Provides may args b.arity.1 := by
  simp only [accepts, Bool.and_eq_true, decide_eq_true_eq] at h
  exact provides_of_le h.1

theorem simple_argument (h : Provides may args n) {i : Nat} (hi : i < n) :
    Simple may (fun _ => True) (argument args i) := by
  unfold argument
  split
  · exact .pure trivial
  · next hn => exact .fault (h i hi (List.getElem?_eq_none_iff.mp hn))

theorem simple_chars (h : Provides may args n) {i : Nat} (hi : i < n) :
    Simple may (fun _ => True) (chars args i) :=
  .bind (simple_argument h hi) fun _ => .bind .session fun _ => .pure trivial

theorem simple_integer (h : Provides may args n) {i : Nat} (hi : i < n) :
    Simple may (fun _ => True) (integer args i) :=
  .bind (simple_argument h hi) fun v => .observe (·.mute_toInt v)

theorem simple_real (h : Provides may args n) {i : Nat} (hi : i < n) :
    Simple may (fun _ => True) (real args i) :=
  .bind (simple_argument h hi) fun v => .observe (·.mute_toReal v)

theorem simple_positionOr (absent i last : Nat) :
    Simple may (fun _ => True) (positionOr absent args i last) := by
  unfold positionOr
  split
  · next hi =>
    exact .bind (simple_integer (provides_of_le (Nat.le_refl _)) hi) fun _ => .pure trivial
  · exact .pure trivial

theorem made_orderValue (o : Ordering) : (orderValue o).Made := by
  cases o <;> trivial

theorem simple_checkedReal (xs : List Float) (result : Float) :
    Simple may Value.Made (checkedReal xs result) :=
  .ite (.fail trivial) (.ite (.fail trivial) (.pure trivial))

theorem simple_ofReal (f : Float → Float) (h : Provides may args 1) :
    Simple may Value.Made (ofReal f args) :=
  .bind (simple_real h Nat.zero_lt_one) fun _ => simple_checkedReal _ _

theorem simple_absolute (h : Provides may args 1) : Simple may Value.Made (absolute args) := by
  refine .bind (simple_argument h Nat.zero_lt_one) fun v =>
    .bind (.observe (·.mute_number v)) fun n => ?_
  split <;> exact .pure trivial

theorem simple_remainder (h : Provides may args 2) : Simple may Value.Made (remainder args) :=
  .bind (simple_integer h Nat.one_lt_two) fun _ =>
    .ite (.fail trivial) (.bind (simple_integer h Nat.zero_lt_two) fun _ => .pure trivial)

theorem simple_between (lo hi : Int64) : Simple may Value.Made (random.between lo hi) :=
  .ite (.pure trivial) (.bind .draw fun _ => .pure trivial)

theorem simple_random (args : List Value) : Simple may Value.Made (random args) := by
  have h : Provides may args args.length := provides_of_le (Nat.le_refl _)
  unfold random
  split
  · exact .bind .draw fun _ => .pure trivial
  · next hl =>
    have hl : args.length = 1 := hl
    exact .bind (simple_integer h (by omega)) fun _ => simple_between _ _
  · next h0 h1 =>
    have h0 : args.length ≠ 0 := h0
    have h1 : args.length ≠ 1 := h1
    exact .bind (simple_integer h (by omega)) fun _ =>
      .bind (simple_integer h (by omega)) fun _ => simple_between _ _

theorem simple_padded (used : Nat) (args : List Value) :
    Simple may (fun _ => True) (padded used args) := by
  match args with
  | [] => exact .pure trivial
  | [v] => exact .bind .session fun s => .ite (.fail trivial) (.pure trivial)
  | v :: w :: rest =>
      exact .bind .session fun s => .bind (.observe (·.mute_toInt w)) fun width =>
        .ite (.fail trivial) (.bind (simple_padded _ rest) fun _ => .pure trivial)
termination_by args.length

theorem simple_searched (h : Provides may args 2) : Simple may Value.Made (searched args) := by
  refine .bind (simple_chars h Nat.zero_lt_two) fun pattern =>
    .bind (simple_chars h Nat.one_lt_two) fun subject => ?_
  split
  · exact .bind (.report nofun) fun _ => .pure trivial
  · split
    · exact .pure trivial
    · exact .bind (.keep _) fun _ => .pure trivial

theorem simple_repeated (h : Provides may args 2) : Simple may Value.Made (repeated args) :=
  .bind (simple_chars h Nat.zero_lt_two) fun _ =>
    .bind (simple_integer h Nat.one_lt_two) fun _ => .ite (.fail trivial) (.pure trivial)

theorem simple_part (h : Provides may args 2) : Simple may Value.Made (part args) :=
  .bind (simple_chars h Nat.zero_lt_two) fun _ => .bind (simple_integer h Nat.one_lt_two) fun _ =>
    .bind (simple_positionOr _ _ _) fun _ => .pure trivial

theorem simple_inCase (f : Char → Char) (h : Provides may args 1) :
    Simple may Value.Made (inCase f args) :=
  .bind (simple_chars h Nat.zero_lt_one) fun _ =>
    .bind (simple_positionOr _ _ _) fun _ => .pure trivial

theorem simple_kind (h : Provides may args 1) : Simple may Value.Made (kind args) := by
  refine .bind (simple_argument h Nat.zero_lt_one) fun v => .bind .session fun s => ?_
  split <;> exact .pure trivial

/-- **A function that has its arguments** has no defect and makes data: all but `test`, which
evaluates a source, and `time`. -/
theorem simple_call (evaluate : String → Eval Value) {b : Builtin} (hb : b ≠ .test)
    (ht : b ≠ .time) (h : Provides may args b.arity.1) :
    Simple may Value.Made (b.call evaluate args) := by
  cases b with
  | test => exact absurd rfl hb
  | time => exact absurd rfl ht
  | abs => exact simple_absolute h
  | mod => exact simple_remainder h
  | rand => exact simple_random args
  | regmatch => exact simple_searched h
  | whatis => exact simple_kind h
  | pad => exact .bind (simple_padded 0 args) fun _ => .pure trivial
  | strrep => exact simple_repeated h
  | substr => exact simple_part h
  | tolower | toupper => exact simple_inCase _ h
  | acos | asin | atan | cos | exp | ln | log10 | sin | sqrt | tan => exact simple_ofReal _ h
  | pow =>
      exact .bind (simple_real h Nat.zero_lt_two) fun _ =>
        .bind (simple_real h Nat.one_lt_two) fun _ => simple_checkedReal _ _
  | ascii | strlen => exact .bind (simple_chars h Nat.zero_lt_one) fun _ => .pure trivial
  | char | trunc => exact .bind (simple_integer h Nat.zero_lt_one) fun _ => .pure trivial
  | strcmp =>
      exact .bind (simple_chars h Nat.zero_lt_two) fun a =>
        .bind (simple_chars h Nat.one_lt_two) fun b => .pure (made_orderValue _)
  | strncmp =>
      exact .bind (simple_chars h (i := 0) (by decide)) fun a =>
        .bind (simple_chars h (i := 1) (by decide)) fun b =>
          .bind (simple_integer h (i := 2) (by decide)) fun n =>
            .ite (.pure (made_orderValue _)) (.pure (made_orderValue _))
  | replace =>
      exact .bind (simple_chars h (i := 0) (by decide)) fun _ =>
        .bind (simple_chars h (i := 1) (by decide)) fun _ =>
          .bind (simple_chars h (i := 2) (by decide)) fun _ => .pure trivial
  | strchr | strstr =>
      exact .bind (simple_chars h Nat.zero_lt_two) fun _ =>
        .bind (simple_chars h Nat.one_lt_two) fun _ =>
          .bind (simple_positionOr _ _ _) fun _ => .pure trivial
  | strrchr =>
      exact .bind (simple_chars h Nat.zero_lt_two) fun _ =>
        .bind (simple_chars h Nat.one_lt_two) fun _ =>
          .ite (.pure trivial) (.bind (simple_positionOr _ _ _) fun _ => .pure trivial)
  | strcat => exact .bind .session fun _ => .pure trivial
  | systype => exact .pure trivial
  | getpid => exact .host (f := fun host => Value.int host.processId) fun _ => trivial
  | isatty => exact .host (f := fun host => Value.bool host.terminal) fun _ => trivial

/-- What `time` comes to. -/
theorem call_time (evaluate : String → Eval Value) (args : List Value) (m : Machine) :
    Builtin.time.call evaluate args m = .ok (.time m.host.clock .absolute) m :=
  rfl

/-- Whatever arguments it has, a function other than `test` is mild. -/
theorem call_mild (evaluate : String → Eval Value) {b : Builtin} (h : b ≠ .test)
    (args : List Value) : Mild (b.call evaluate args) := by
  by_cases ht : b = .time
  · subst ht
    exact .getHost fun host => Value.time host.clock .absolute
  · exact (simple_call evaluate h ht fun _ _ _ => trivial).mild

end Builtin

namespace Machine

/-! ### Selections and commands -/

variable {may : Fault → Prop}

theorem simple_selected (selector : Selector) :
    Simple may (fun _ => True) (selected selector) := by
  refine .bind .session fun s => ?_
  split
  all_goals try exact .pure trivial
  exact .ite (.pure trivial) (.bind .draw fun _ => .pure trivial)

theorem selected_mild (selector : Selector) : Mild (selected selector) :=
  (simple_selected selector).mild

theorem simple_commandOutput (line : String) : Simple may Value.Made (commandOutput line) := by
  unfold commandOutput
  split
  exact .ite (.pure trivial) (.fail trivial)

theorem commandOutput_mild (line : String) : Mild (commandOutput line) :=
  (simple_commandOutput line).mild

theorem runCommand_calm (name arg : String) (m : Machine) :
    Calm m (after (runCommand name arg) m) := by
  unfold runCommand
  split
  · exact .ofSession List.prefix_rfl
  · exact .refl m

theorem runCommand_accepted (name arg : String) : Accepted (runCommand name arg) := by
  unfold runCommand
  split
  · exact .bind (.modifySession _) fun _ => .pure _
  · exact (Mild.fail _).accepted

theorem runCommand_blind (name arg : String) : Blind (runCommand name arg) := by
  unfold runCommand
  split
  · exact (Blind.modifySession _).bind fun _ => (Mild.pure _).blind
  · exact (Mild.fail _).blind

end Machine

end ExprEngine
