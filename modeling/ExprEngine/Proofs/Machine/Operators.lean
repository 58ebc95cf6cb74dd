import ExprEngine.Proofs.Machine.Functions
import ExprEngine.Proofs.Time.Normal

/-!
# What operators do

An operator reads its operands, which may be reported, and comes to a value, which an assignment
stores before it is done; or it fails, and then nothing is stored.  `Reduced may args s r` says so
of an outcome `r` in a session `s`, and says which values are stored (`Storable`): data that the
operator makes, operands that are no references, and values of variables.  A time that is made is a
normal pair, whatever the operands.

* `Operator.reduces`: every operator does that, and has no defect if it has the operands it needs
  (`Operator.Takes`).
* `Operator.orderly_reduce`: in particular it only adds to what has been reported.

What an operator does to the session is `inSession`, hence blind (`Blind.inSession`).
-/

namespace ExprEngine

open Machine Logged

/-- The step halts on its own account: for a failure that it raises, or for a defect of `may`. -/
inductive Halt.Own (may : Fault → Prop) : Halt → Prop
  | failure {e : EvalError} (h : e.Raised) : Own may (.failure (.eval e))
  | fault {f : Fault} (h : may f) : Own may (.fault f)

theorem Halt.Own.of_mapError {may : Fault → Prop} {α : Type} {x : Except EvalError α} {h : Halt}
    (ha : ∀ e, x = .error e → e.Raised) (hx : x.mapError EvalError.halt = .error h) :
    h.Own may := by
  cases x with
  | ok a => cases hx
  | error e =>
      cases hx
      exact .failure (ha e rfl)

namespace Logged

variable {α β : Type}

theorem value_of_bind {P : β → Prop} {x : Logged α} {f : α → Logged β} (h : ∀ a, P (f a).value) :
    P (x >>= f).value :=
  h x.value

theorem value_of_ite {P : α → Prop} {c : Prop} [Decidable c] {x y : Logged α} (hx : P x.value)
    (hy : P y.value) : P (if c then x else y).value := by
  split
  · exact hx
  · exact hy

theorem length_mapM (f : α → Logged β) (xs : List α) : (xs.mapM f).value.length = xs.length := by
  induction xs with
  | nil => rfl
  | cons x rest ih =>
      rw [List.mapM_cons]
      exact congrArg (· + 1) ih

theorem mute_mapM {f : α → Logged β} (h : ∀ a, Mute (f a).log) (xs : List α) :
    Mute (xs.mapM f).log := by
  induction xs with
  | nil => exact .nil
  | cons x rest ih =>
      rw [List.mapM_cons]
      exact mute_bind (h x) fun _ => mute_bind ih fun _ => mute_pure _

end Logged

/-! ### Arithmetic -/

namespace Operand

theorem mute_ofValue (s : Session) (v : Value) : Mute (ofValue s v).log :=
  mute_bind (s.mute_number v) fun _ => mute_pure _

theorem mute_ofVariable (s : Session) (x : String) : Mute (ofVariable s x).log := by
  unfold ofVariable
  split
  · exact mute_ofValue s _
  · exact mute_pure _

theorem mute_read (s : Session) (v : Value) : Mute (read s v).log := by
  unfold read
  split
  · exact mute_ofVariable s _
  · exact mute_ofValue s v

end Operand

/-- The number is a normal pair if it is a time. -/
def Num.Normal : Num → Prop
  | .time t _ => t.Normal
  | _ => True

namespace Operator

/-- The operator has the operands that it needs. -/
def Takes (op : Operator) (n : Nat) : Prop :=
  match op with
  | .add | .sub | .not | .increment | .decrement => 1 ≤ n
  | _ => 2 ≤ n

theorem Takes.pos {op : Operator} {n : Nat} (h : op.Takes n) : 0 < n := by
  cases op <;> simp only [Takes] at h <;> omega

/-- What arithmetic may come to: a number, a failure, or a defect where an operand is missing. -/
inductive Computed (op : Operator) (count : Nat) : Except Halt Num → Prop where
  | number {n : Num} (h : n.Normal) : Computed op count (.ok n)
  | failure {e : EvalError} (h : e.Raised) : Computed op count (.error e.halt)
  | fault (f : Fault) (h : count = 0 ∨ count = 1 ∧ (op.base = .mul ∨ op.base = .div)) :
    Computed op count (.error (.fault f))

theorem normal_product (x y : Int64) : (product x y).Normal := by
  unfold product
  dsimp only
  split <;> trivial

/-- Sums and differences of times are normalised. -/
theorem normal_onTimes (op : Operator) (kind : TimeKind) (t u : TimePair) :
    (op.onTimes kind t u).Normal := by
  unfold onTimes
  split
  · exact t.add_normal u
  · exact t.sub_normal u
  · trivial

theorem normal_onReals (op : Operator) (f g : Float) : (op.onReals f g).Normal := by
  unfold onReals
  split <;> trivial

theorem normal_onReal (op : Operator) (f : Float) : (op.onReal f).Normal := by
  unfold onReal
  split
  · trivial
  · trivial
  · exact op.normal_onReals f 0.0

theorem computed_onInts (op : Operator) (count : Nat) (sum x y : Int64) :
    Computed op count ((op.base.onInts sum x y).mapError EvalError.halt) := by
  unfold onInts
  split
  · exact .number trivial
  · exact .number trivial
  · exact .number (normal_product x y)
  · split
    · exact .failure (e := .divisionByZero) trivial
    · exact .number trivial
  · exact .number trivial

/-- What an operator makes of its operands, given the rank at which it works and their sum. -/
def outcome (op : Operator) (first : Operand) (rest : List Operand) (rank : Rank)
    (sum : Option Int64) : Logged (Except Halt Num) :=
  match rank, sum with
  | .int, some sum => do
    let x ← first.num.toInt
    let y ← match rest.head? with
      | some b => b.num.toInt
      | none => pure 0
    return (op.base.onInts sum x y).mapError EvalError.halt
  | .time kind, some _ =>
    if op.base = .mul ∨ op.base = .div then
      match rest.head? with
      | some b => return .ok (op.base.onReals first.num.toReal b.num.toReal)
      | none => return .error (.fault (.missingOperand 1 1))
    else do
      let u ← (rest.getLastD first).num.toTime
      let t ← if rest.isEmpty then pure .zero else first.num.toTime
      return .ok (op.base.onTimes kind t u)
  | _, _ =>
    match rest.head? with
    | some b => return .ok (op.base.onReals first.num.toReal b.num.toReal)
    | none => return .ok (op.base.onReal first.num.toReal)

theorem computed_outcome (op : Operator) (first : Operand) (rest : List Operand) (rank : Rank)
    (sum : Option Int64) :
    Computed op (first :: rest).length (op.outcome first rest rank sum).value := by
  unfold outcome
  split
  · refine value_of_bind fun _ => ?_
    split <;> exact computed_onInts ..
  · split
    · next h =>
      split
      · exact .number (normal_onReals ..)
      · next hr =>
        refine .fault _ (.inr ⟨?_, h⟩)
        rw [List.head?_eq_none_iff.mp hr]
        rfl
    · refine value_of_bind fun _ => ?_
      split <;> exact .number (normal_onTimes ..)
  · split
    · exact .number (normal_onReals ..)
    · exact .number (normal_onReal ..)

theorem mute_outcome (op : Operator) (first : Operand) (rest : List Operand) (rank : Rank)
    (sum : Option Int64) : Mute (op.outcome first rest rank sum).log := by
  unfold outcome
  split
  · refine mute_bind first.num.mute_toInt fun x => ?_
    split
    · exact mute_bind (Num.mute_toInt _) fun _ => mute_pure _
    · exact mute_pure _
  · split
    · split <;> exact mute_pure _
    · exact mute_bind (Num.mute_toTime _) fun u =>
        mute_ite (mute_pure _) (mute_bind first.num.mute_toTime fun _ => mute_pure _)
  · split <;> exact mute_pure _

theorem computed_arithmetic (op : Operator) (operands : List Operand) :
    Computed op operands.length (op.arithmetic operands).value := by
  match operands with
  | [] => exact .fault _ (.inl rfl)
  | first :: rest =>
      have tail := op.computed_outcome first rest
      have sums (x : Int64) := tail (op.rank (first :: rest))
        (op.base.exactSum x (rest.getLastD first).num.toInt.value)
      refine value_of_bind fun _ => value_of_bind fun _ => ?_
      exact value_of_ite (P := Computed op _)
        (value_of_ite (P := Computed op _) (sums _) (sums _)) (tail _ _)

theorem mute_warnAbsolute (op : Operator) (operands : List Operand) :
    Mute (op.warnAbsolute operands).log := by
  unfold warnAbsolute
  split
  · exact mute_ite (mute_report (d := .absoluteTimes op) nofun) (mute_pure _)
  · exact mute_ite (mute_report (d := .absoluteTimeNegated) nofun) (mute_pure _)
  · exact mute_pure _

theorem mute_warnMatchCount (op : Operator) (operands : List Operand) :
    Mute (op.warnMatchCount operands).log := by
  have isOne (counted : Bool) (n : Num) :
      Mute (if counted then do return (← n.toInt) == 1 else return false : Logged Bool).log :=
    mute_ite (mute_bind n.mute_toInt fun _ => mute_pure _) (mute_pure _)
  unfold warnMatchCount
  split
  · next a b =>
    have warned (w : Bool) : Mute (if w || (a.matchCount && b.matchCount) then
        Logged.report .matchCountCompared else pure () : Logged Unit).log :=
      mute_ite (mute_report (d := .matchCountCompared) nofun) (mute_pure _)
    refine mute_ite (mute_bind (isOne _ _) fun w => mute_ite (warned _) ?_) (mute_pure _)
    exact mute_bind (isOne _ _) warned
  · exact mute_pure _

theorem mute_arithmetic (op : Operator) (operands : List Operand) :
    Mute (op.arithmetic operands).log := by
  match operands with
  | [] => exact mute_pure _
  | first :: rest =>
      refine mute_bind (op.mute_warnAbsolute _) fun _ =>
        mute_bind (op.mute_warnMatchCount _) fun _ => ?_
      have tail := op.mute_outcome first rest (op.rank (first :: rest))
      -- integers are added before the rank decides what else is done
      have sums (x : Int64) := mute_bind (rest.getLastD first).num.mute_toInt fun y =>
        tail (op.base.exactSum x y)
      exact mute_ite (mute_ite (sums 0) (mute_bind first.num.mute_toInt sums)) (tail (some 0))

end Operator

/-! ### Readings -/

namespace Session

theorem record_nil (s : Session) : s.record [] = s := by
  simp [record]

theorem record_record (s : Session) (log more : List Diagnostic) :
    (s.record log).record more = s.record (log ++ more) := by
  simp [record, ← Array.toList_inj]

theorem report_eq_record (s : Session) (d : Diagnostic) : s.report d = s.record [d] := by
  simp [report, record]

end Session

namespace SessionM

variable {may : Fault → Prop} {α β : Type} {P : α → Prop} {Q : β → Prop}

/-- The outcome of a step that changes nothing of a session but its reports. -/
inductive Reported (may : Fault → Prop) (P : α → Prop) (s : Session) :
    EStateM.Result Halt Session α → Prop
  | ok {a : α} {log : List Diagnostic} (hl : Mute log) (h : P a) :
    Reported may P s (.ok a (s.record log))
  | error {h : Halt} {log : List Diagnostic} (hl : Mute log) (hh : h.Own may) :
    Reported may P s (.error h (s.record log))

/-- The step changes nothing of a session but its reports, and `P` holds of what it comes to. -/
def Reads (may : Fault → Prop) (P : α → Prop) (x : SessionM α) : Prop :=
  ∀ s, Reported may P s (x s)

namespace Reads

theorem pure {a : α} (h : P a) : Reads may P (pure a : SessionM α) := by
  intro s
  have hs : Reported may P s (.ok a (s.record [])) := .ok .nil h
  rwa [s.record_nil] at hs

theorem throw {h : Halt} (hh : h.Own may) : Reads may P (throw h : SessionM α) := by
  intro s
  have hs : Reported may P s (.error h (s.record [])) := .error .nil hh
  rwa [s.record_nil] at hs

theorem read : Reads may (fun _ => True) (get : SessionM Session) := by
  intro s
  have hs : Reported may (fun _ => True) s (.ok s (s.record [])) := .ok .nil trivial
  rwa [s.record_nil] at hs

theorem observe {view : Session → Logged α} (hl : ∀ s, Mute (view s).log)
    (h : ∀ s, P (view s).value) : Reads may P (observe view) :=
  fun s => .ok (hl s) (h s)

theorem report {d : Diagnostic} (h : ¬d.isAbort) :
    Reads may (fun _ => True) (modify (·.report d) : SessionM PUnit) := by
  intro s
  have hs : Reported may (fun _ => True) s (.ok PUnit.unit (s.record [d])) :=
    .ok (.single h) trivial
  rwa [← s.report_eq_record] at hs

theorem ofExcept {x : Except Halt α} (hp : ∀ a, x = .ok a → P a)
    (hh : ∀ h, x = .error h → h.Own may) : Reads may P (SessionM.ofExcept x) := by
  cases x with
  | ok a => exact .pure (hp a rfl)
  | error h => exact .throw (hh h rfl)

theorem bind {x : SessionM α} {f : α → SessionM β} (hx : Reads may P x)
    (hf : ∀ a, P a → Reads may Q (f a)) : Reads may Q (x >>= f) := by
  intro s
  have hs := hx s
  rw [bind_apply]
  generalize x s = r at hs ⊢
  cases hs with
  | error hl hh => exact .error hl hh
  | @ok a log hl ha =>
      have hr := hf a ha (s.record log)
      dsimp only
      generalize f a (s.record log) = r at hr ⊢
      cases hr with
      | ok hl' hb => exact s.record_record _ _ ▸ .ok (hl.append hl') hb
      | error hl' hh => exact s.record_record _ _ ▸ .error (hl.append hl') hh

end Reads

end SessionM

/-! ### Reductions -/

namespace Operator

open SessionM

/-- What an operator may store: data that it makes, an operand that is no reference, or the value of
a variable. -/
inductive Storable (args : List Value) (s : Session) (v : Value) : Prop
  | made (h : v.Made)
  | operand (h : v ∈ args) (hn : v.name? = none)
  | variable (x : String) (h : s.lookup x = some v)

/-- The outcome of an operator. -/
inductive Reduced (may : Fault → Prop) (args : List Value) (s : Session) :
    EStateM.Result Halt Session Value → Prop
  | computed {v : Value} {log : List Diagnostic} (hl : Mute log) (hv : v.Made) :
    Reduced may args s (.ok v (s.record log))
  | stored {x : String} {v : Value} {log : List Diagnostic} (hl : Mute log)
    (hv : Storable args s v) : Reduced may args s (.ok v ((s.record log).assign x v))
  | halted {h : Halt} {log : List Diagnostic} (hl : Mute log) (hh : h.Own may) :
    Reduced may args s (.error h (s.record log))

variable {may : Fault → Prop} {args : List Value}

theorem Reduced.of_reported {s : Session} {r : EStateM.Result Halt Session Value}
    (h : Reported may Value.Made s r) : Reduced may args s r := by
  cases h with
  | ok hl hv => exact .computed hl hv
  | error hl hh => exact .halted hl hh

/-- Behind a step that only reports. -/
theorem Reduced.bind {α : Type} {P : α → Prop} {x : SessionM α} {f : α → SessionM Value}
    (hx : Reads may P x) (hf : ∀ a, P a → ∀ s, Reduced may args s (f a s)) (s : Session) :
    Reduced may args s ((x >>= f) s) := by
  have hs := hx s
  rw [bind_apply]
  generalize x s = r at hs ⊢
  cases hs with
  | error hl hh => exact .halted hl hh
  | @ok a log hl ha =>
      have hr := hf a ha (s.record log)
      dsimp only
      generalize f a (s.record log) = r at hr ⊢
      cases hr with
      | computed hl' hv => exact s.record_record _ _ ▸ .computed (hl.append hl') hv
      | halted hl' hh => exact s.record_record _ _ ▸ .halted (hl.append hl') hh
      | stored hl' hv =>
          rw [s.record_record]
          refine .stored (hl.append hl') ?_
          cases hv with
          | made h => exact .made h
          | operand h hn => exact .operand h hn
          | «variable» y h => exact .variable y h

theorem Reduced.ite {c : Prop} [Decidable c] {x y : SessionM Value} {s : Session}
    (hx : Reduced may args s (x s)) (hy : Reduced may args s (y s)) :
    Reduced may args s ((if c then x else y) s) := by
  split
  · exact hx
  · exact hy

theorem reduced_store {x : String} {v : Value} {s : Session} (hv : Storable args s v) :
    Reduced may args s (store x v s) := by
  have hs : Reduced may args s (.ok v ((s.record []).assign x v)) := .stored .nil hv
  rwa [s.record_nil] at hs

theorem reads_operand {i : Nat} (h : args.length ≤ i → ∀ f, may f) :
    Reads may (· ∈ args) (operand args i) := by
  unfold operand
  split
  · next v hv => exact .pure (List.mem_of_getElem? hv)
  · next hn => exact .throw (.fault (h (List.getElem?_eq_none_iff.mp hn) _))

theorem reads_target (h : args.length ≤ 0 → ∀ f, may f) :
    Reads may (fun _ => True) (target args) := by
  refine .bind (reads_operand h) fun v _ => ?_
  split
  · exact .pure trivial
  · exact .throw (.failure (e := .illegalAssignment) trivial)

theorem mute_matchGlob (wanted : Bool) (subject pattern : String) :
    Mute (matchGlob wanted subject pattern).log := by
  unfold matchGlob
  split
  · exact mute_pure _
  · next e _ => exact mute_bind (mute_report (d := .pattern e) nofun) fun _ => mute_pure _

theorem made_result {op : Operator} {n : Num} {v : Value} (hn : n.Normal)
    (h : op.result n = .ok v) : v.Made := by
  unfold result at h
  split at h
  · split at h
    · cases h
    · cases h
      trivial
  · cases h
    cases n with
    | time t kind => exact hn
    | int | real => trivial

/-- Arithmetic on the operands that an operator needs. -/
theorem reads_compute {op : Operator} {operands : Session → Logged (List Operand)} {n : Nat}
    (hl : ∀ s, Mute (operands s).log) (hn : ∀ s, (operands s).value.length = n)
    (hm : n = 0 ∨ n = 1 ∧ (op.base = .mul ∨ op.base = .div) → ∀ f, may f) :
    Reads may Value.Made (op.compute operands) := by
  unfold compute
  refine .bind (P := Computed op n) (.observe (fun s => ?_) fun s => ?_) fun x hx =>
    .bind (P := Num.Normal) (.ofExcept (fun k hk => ?_) fun h he => ?_) fun k hk =>
      .ofExcept (fun v hv => ?_) fun h he => ?_
  · exact mute_bind (hl s) fun _ => op.mute_arithmetic _
  · exact hn s ▸ op.computed_arithmetic _
  · cases hk
    cases hx with
    | number h => exact h
  · cases he
    cases hx with
    | failure h => exact .failure h
    | fault f h => exact .fault (hm h f)
  · cases hr : op.result k <;> rw [hr] at hv <;> cases hv
    exact made_result hk hr
  · refine .of_mapError (fun e ha => ?_) he
    unfold result at ha
    split at ha
    · split at ha <;> cases ha
      trivial
    · cases ha

/-- An operator that assigns nothing only reads. -/
theorem reads_reduce {op : Operator} (ho : op.assigns = false)
    (h : ¬op.Takes args.length → ∀ f, may f) : Reads may Value.Made (op.reduce args) := by
  -- where the first operand is missing, and where the second is that an operator needs
  have first (hc : args.length ≤ 0) : ∀ f, may f := h fun ht => absurd ht.pos (Nat.not_lt.mpr hc)
  have second (ho : ∀ n, op.Takes n → 2 ≤ n) (hc : args.length ≤ 1) : ∀ f, may f := h fun ht => by
    have := ho _ ht
    omega
  have hl (s : Session) := mute_mapM (Operand.mute_read s) args
  have hn (s : Session) := length_mapM (Operand.read s) args
  cases op with
  | add | sub =>
      refine reads_compute hl hn fun hc => ?_
      rcases hc with hc | ⟨-, hc | hc⟩
      · exact first (Nat.le_of_eq hc)
      · cases hc
      · cases hc
  | mul | div | lt | gt | le | ge | eq | ne =>
      refine reads_compute hl hn fun hc => second (fun _ ht => ht) ?_
      omega
  | same | differ =>
      exact .bind (reads_operand first) fun a _ =>
        .bind (reads_operand (second fun _ ht => ht)) fun b _ =>
          .bind .read fun s _ => .pure trivial
  | like | unlike =>
      exact .bind (reads_operand first) fun a _ =>
        .bind (reads_operand (second fun _ ht => ht)) fun b _ =>
          .bind (P := fun _ => True) (.observe (fun s => mute_matchGlob _ _ _) fun _ => trivial)
            fun _ _ => .pure trivial
  | not =>
      exact .bind (reads_operand first) fun a _ =>
        .bind (P := fun _ => True) (.observe (·.mute_truth a) fun _ => trivial) fun _ _ =>
          .pure trivial
  | assign | addAssign | subAssign | mulAssign | divAssign | increment | decrement => cases ho

/-- **Every operator** computes a value, stores one or fails, and has no defect if it has the
operands that it needs. -/
theorem reduces {op : Operator} (h : ¬op.Takes args.length → ∀ f, may f) (s : Session) :
    Reduced may args s (op.reduce args s) := by
  have first (hc : args.length ≤ 0) : ∀ f, may f := h fun ht => absurd ht.pos (Nat.not_lt.mpr hc)
  have second (ho : ∀ n, op.Takes n → 2 ≤ n) (hc : args.length ≤ 1) : ∀ f, may f := h fun ht => by
    have := ho _ ht
    omega
  cases op with
  | addAssign | subAssign | mulAssign | divAssign =>
      refine .bind (reads_target first) (fun x _ =>
        .bind (reads_operand (second fun _ ht => ht)) fun v _ =>
          .bind (reads_compute (n := 2) (fun s => ?_) (fun s => rfl) (by simp)) fun w hw s =>
            reduced_store (.made hw)) s
      exact mute_bind (Operand.mute_ofVariable s x) fun _ =>
        mute_bind (Operand.mute_read s v) fun _ => mute_pure _
  | assign =>
      refine .bind (reads_target first) (fun x _ =>
        .bind (reads_operand (second fun _ ht => ht)) fun v hv s => ?_) s
      cases hv' : v.name? with
      | none => exact reduced_store (.operand hv hv')
      | some y =>
          refine reduced_store (v := (s.lookup y).getD .blank) ?_
          cases hs : s.lookup y with
          | none => exact .made trivial
          | some w => exact .variable y hs
  | increment | decrement =>
      refine .bind (reads_target first) (fun x _ =>
        .bind (P := fun _ => True) (.observe (fun s => ?_) fun _ => trivial) fun n _ s => ?_) s
      · split
        · exact s.mute_toInt _
        · exact mute_pure _
      · have stored (k : Int64) (s : Session) : Reduced may args s (store x (.int k) s) :=
          reduced_store (.made trivial)
        exact .ite (.bind (.report (d := .stepOverflow _ x) nofun) (fun _ _ => stored _) s)
          (stored _ s)
  | _ => exact .of_reported (reads_reduce rfl h s)

end Operator

/-! ### Reports -/

/-- The step adds reports to those there are, if it changes them at all, and is accepted. -/
structure SessionM.Orderly {α : Type} (x : SessionM α) : Prop where
  reports (s : Session) : s.diagnostics.toList <+: (after x s).diagnostics.toList
  accepted : Accepted x

theorem Session.reports_record (s : Session) (log : List Diagnostic) :
    s.diagnostics.toList <+: (s.record log).diagnostics.toList := by
  simp [record]

theorem Session.diagnostics_assign (s : Session) (x : String) (v : Value) :
    (s.assign x v).diagnostics = s.diagnostics := by
  unfold assign
  split <;> rfl

/-- An operator only adds to what has been reported. -/
theorem Operator.orderly_reduce (op : Operator) (args : List Value) :
    SessionM.Orderly (op.reduce args) := by
  have hr : ∀ s, Reduced (fun _ => True) args s (op.reduce args s) := reduces fun _ _ => trivial
  constructor
  · intro s
    have hs := hr s
    unfold after
    generalize op.reduce args s = r at hs ⊢
    cases hs with
    | computed | halted => exact s.reports_record _
    | stored =>
        rw [left, Session.diagnostics_assign]
        exact s.reports_record _
  · intro s e t he
    have hs := hr s
    rw [he] at hs
    cases hs with
    | halted _ hh => cases hh

theorem Machine.inSession_calm {α : Type} {x : SessionM α} (h : SessionM.Orderly x) (m : Machine) :
    Calm m (after (inSession x) m) := by
  have hs := h.reports m.session
  unfold after left at hs ⊢
  unfold inSession
  cases hx : x m.session <;> rw [hx] at hs <;> exact .ofSession hs

end ExprEngine
