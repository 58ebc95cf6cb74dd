import ExprEngine.Proofs.Machine.Operators
import ExprEngine.Proofs.Program.Folding

/-!
# Constants

An operator looks at the session only for what names lead to, for the text of a real, and for what
it assigns.  With operands that are neither names nor callable, and not reals where texts are
compared, it comes to the same in every session and does nothing to it but report
(`SessionM.Fixed`).

* `Operator.fixed_reduce`: that is so of every operator that may be folded.
* `Operator.reduce_of_computed?`: what is computed beforehand, in a session that holds nothing, is
  what the operator comes to in any session, and it leaves that session alone.
* `Expr.leaf_of_text`: code that is one text is the code of that text, since none is computed.
-/

namespace ExprEngine

namespace SessionM

variable {α β : Type}

/-- A result with reports on the way to it, whatever the session. -/
def emit (r : Except Halt α) (log : List Diagnostic) : SessionM α := fun s =>
  match r with
  | .ok a => .ok a (s.record log)
  | .error h => .error h (s.record log)

/-- The step comes to the same in every session, and only reports. -/
def Fixed (x : SessionM α) : Prop :=
  ∃ r log, x = emit r log

/-- Whatever the step comes to has a property. -/
def Gives (P : α → Prop) (x : SessionM α) : Prop :=
  ∀ s a t, x s = .ok a t → P a

theorem Gives.bind {P : β → Prop} {x : SessionM α} {f : α → SessionM β} (hf : ∀ a, Gives P (f a)) :
    Gives P (x >>= f) := by
  intro s b t h
  rw [Machine.bind_apply] at h
  split at h
  · exact hf _ _ b t h
  · cases h

namespace Fixed

theorem pure (a : α) : Fixed (pure a) := by
  refine ⟨.ok a, [], funext fun s => ?_⟩
  rw [emit, Session.record_nil]
  rfl

theorem throw (h : Halt) : Fixed (throw h : SessionM α) := by
  refine ⟨.error h, [], funext fun s => ?_⟩
  rw [emit, Session.record_nil]
  rfl

theorem ofExcept (x : Except Halt α) : Fixed (ofExcept x) := by
  cases x with
  | ok a => exact .pure a
  | error h => exact .throw h

theorem bind {x : SessionM α} {f : α → SessionM β} (hx : Fixed x) (hf : ∀ a, Fixed (f a)) :
    Fixed (x >>= f) := by
  obtain ⟨r, log, rfl⟩ := hx
  cases r with
  | ok a =>
      obtain ⟨t, more, ha⟩ := hf a
      refine ⟨t, log ++ more, funext fun s => ?_⟩
      rw [Machine.bind_of_ok (show emit (.ok a) log s = .ok a (s.record log) from rfl), ha]
      cases t <;> simp only [emit, Session.record_record]
  | error h => exact ⟨.error h, log, rfl⟩

/-- A reading of what does not hang on the session. -/
theorem observe {view : Session → Logged α} (h : ∀ s t, view s = view t) :
    Fixed (observe view) := by
  refine ⟨.ok (view {}).value, (view {}).log, funext fun s => ?_⟩
  simp only [SessionM.observe, emit, h s {}]

/-- The session is read, and what is made of it does not hang on it. -/
theorem read {f : Session → SessionM α} (h : ∀ s t, f s = f t) (hf : Fixed (f {})) :
    Fixed (get >>= f) := by
  have hg : (get >>= f) = f {} := funext fun s => congrFun (h s {}) s
  rwa [hg]

/-- What came to a value in a session that holds nothing, without a report, comes to it in any. -/
theorem of_empty {x : SessionM α} (hx : Fixed x) {a : α} {t : Session} (h : x {} = .ok a t)
    (ht : t.diagnostics.isEmpty) (s : Session) : x s = .ok a s := by
  obtain ⟨r, log, rfl⟩ := hx
  cases r with
  | error e => cases h
  | ok b =>
      cases h
      -- what was reported was added to no report, and nothing is there
      have hl : log = [] := by simpa [Session.record] using ht
      rw [hl]
      exact congrArg _ (Session.record_nil s)

end Fixed

end SessionM

/-! ### Readings of constants -/

/-- What refers to nothing stands for itself. -/
theorem Session.target?_of_name? {v : Value} (h : v.name? = none) (s : Session) :
    s.target? v = some v := by
  rw [target?, follow, h]

namespace Operator

variable {op : Operator} {v : Value} {vs : List Value}

theorem name?_of_folds (h : op.folds v) : v.name? = none := by
  unfold folds at h
  unfold Value.name?
  cases hp : v.payload with
  | name x => rw [hp] at h; cases h
  | _ => rfl

theorem number_of_folds (h : op.folds v) (s t : Session) : s.number v = t.number v := by
  have hv := name?_of_folds h
  rw [Session.number, Session.number, Session.target?_of_name? hv, Session.target?_of_name? hv]

theorem truth_of_folds (h : op.folds v) (s t : Session) : s.truth v = t.truth v := by
  rw [Session.truth, Session.truth, number_of_folds h s t]

theorem read_of_folds (h : op.folds v) (s t : Session) : Operand.read s v = Operand.read t v := by
  simp only [Operand.read, name?_of_folds h, Operand.ofValue, number_of_folds h s t]

theorem reads_of_folds (h : vs.all op.folds) (s t : Session) :
    vs.mapM (Operand.read s) = vs.mapM (Operand.read t) := by
  induction vs with
  | nil => rfl
  | cons v rest ih =>
      rw [List.all_cons, Bool.and_eq_true] at h
      rw [List.mapM_cons, List.mapM_cons, read_of_folds h.1 s t, ih h.2]

/-- Only the text of a real hangs on the session. -/
theorem toText_of_folds (hc : op.comparesText) (h : op.folds v) (s t : Session) :
    s.toText v = t.toText v := by
  have hv := name?_of_folds h
  rw [Session.toText, Session.toText, Session.target?_of_name? hv, Session.target?_of_name? hv]
  unfold folds at h
  dsimp only
  cases hp : v.payload with
  | real f =>
      rw [hp, hc] at h
      cases h
  | _ => rfl

/-! ### Operators on constants -/

open SessionM

/-- An operand of constants is one of them. -/
theorem fixed_operand_bind {α : Type} (h : vs.all op.folds) (i : Nat) {f : Value → SessionM α}
    (hf : ∀ v, op.folds v → Fixed (f v)) : Fixed (operand vs i >>= f) := by
  unfold operand
  split
  · next v hv =>
    rw [pure_bind]
    exact hf v (List.all_eq_true.mp h v (List.mem_of_getElem? hv))
  · exact Fixed.throw _

theorem fixed_compute {operands : Session → Logged (List Operand)}
    (h : ∀ s t, operands s = operands t) : Fixed (op.compute operands) := by
  refine .bind (.observe fun s t => ?_) fun r => .bind (.ofExcept r) fun n => .ofExcept _
  rw [h s t]

/-- **An operator on constants does not look at the session.** -/
theorem fixed_reduce (ha : ¬op.assigns) (h : vs.all op.folds) : Fixed (op.reduce vs) := by
  cases op with
  | add | sub | mul | div | lt | gt | le | ge | eq | ne => exact fixed_compute (reads_of_folds h)
  | same | differ =>
      refine fixed_operand_bind h 0 fun v hv => fixed_operand_bind h 1 fun w hw => ?_
      refine .read (fun s t => ?_) (.pure _)
      rw [toText_of_folds rfl hv s t, toText_of_folds rfl hw s t]
  | like | unlike =>
      refine fixed_operand_bind h 0 fun v hv => fixed_operand_bind h 1 fun w hw => ?_
      refine .bind (.observe fun s t => ?_) fun b => .pure _
      rw [toText_of_folds rfl hv s t, toText_of_folds rfl hw s t]
  | not =>
      refine fixed_operand_bind h 0 fun v hv => ?_
      exact .bind (.observe (truth_of_folds hv)) fun b => .pure _
  -- these assign
  | assign | addAssign | subAssign | mulAssign | divAssign | increment | decrement =>
      exact absurd rfl ha

/-- **What is computed beforehand** is what the operator comes to in every session, which it leaves
alone. -/
theorem reduce_of_computed? {u : Value} (h : op.computed? vs = some u) (s : Session) :
    op.reduce vs s = .ok u s := by
  unfold computed? at h
  by_cases hc : (op.assigns || !vs.all op.folds) = true
  · rw [if_pos hc] at h
    cases h
  · rw [if_neg hc] at h
    simp only [Bool.or_eq_true, Bool.not_eq_true', not_or, Bool.not_eq_false] at hc
    unfold reduceConstants at h
    cases hr : op.reduce vs {} with
    | error e t => simp only [hr] at h; cases h
    | ok w t =>
        simp only [hr] at h
        by_cases ht : t.diagnostics.isEmpty = true
        · rw [if_pos ht] at h
          cases h
          exact (fixed_reduce hc.1 hc.2).of_empty hr ht s
        · rw [if_neg ht] at h
          cases h

/-! ### Texts -/

/-- Operators come to numbers, unless they assign. -/
theorem gives_reduce (ha : ¬op.assigns) (args : List Value) (t : String) :
    SessionM.Gives (· ≠ .text t) (op.reduce args) := by
  have computed (operands : Session → Logged (List Operand)) :
      SessionM.Gives (· ≠ .text t) (op.compute operands) := by
    refine .bind fun x => .bind fun n => ?_
    intro s v o h
    unfold result at h
    split at h
    · split at h
      · cases h
      · cases h
        nofun
    · cases h
      cases n <;> nofun
  have truth (b : Bool) : SessionM.Gives (· ≠ .text t) (pure (Value.bool b)) := by
    intro s v o h
    cases h
    nofun
  cases op with
  | add | sub | mul | div | lt | gt | le | ge | eq | ne => exact computed _
  | same | differ => exact .bind fun a => .bind fun b => .bind fun s => truth _
  | like | unlike => exact .bind fun a => .bind fun b => .bind fun r => truth _
  | not => exact .bind fun a => .bind fun r => truth _
  | assign | addAssign | subAssign | mulAssign | divAssign | increment | decrement =>
      exact absurd rfl ha

/-- No text is computed beforehand. -/
theorem computed?_ne_text (vs : List Value) (t : String) : op.computed? vs ≠ some (.text t) := by
  intro h
  have ha : ¬op.assigns := by
    intro ha
    unfold computed? at h
    rw [ha, Bool.true_or, if_pos rfl] at h
    cases h
  exact gives_reduce ha vs t {} _ _ (reduce_of_computed? h {}) rfl

end Operator

namespace Expr

theorem eq_of_withTail {e : Expr} {u v : Value} {s span : Span} {c : Value × Span}
    (ht : e.tail? = some c) (h : e.withTail u s = .leaf (.value v) span) : u = v := by
  cases e with
  | leaf l t =>
      cases h
      rfl
  | sequence => cases h
  | _ => cases ht

/-- Folding makes no text of another expression. -/
theorem leaf_of_folded {e : Expr} {t : String} {span : Span}
    (h : e.folded = .leaf (.value (.text t)) span) : e = .leaf (.value (.text t)) span := by
  cases e with
  | leaf l s => exact h
  | unary op e s =>
      rw [folded] at h
      unfold unaryFolded at h
      split at h
      · next ht =>
        split at h
        · next u hu =>
          obtain rfl := eq_of_withTail ht h
          exact absurd hu (op.operator.computed?_ne_text _ t)
        · cases h
      · cases h
  | binary op a b s =>
      rw [folded] at h
      unfold binaryFolded at h
      split at h
      · next ht _ =>
        split at h
        · next u hu =>
          obtain rfl := eq_of_withTail ht h
          exact absurd hu (op.operator.computed?_ne_text _ t)
        · cases h
      · cases h
  | fallback | sequence | either | both | choice | orElse | call => cases h

/-- **One instruction that pushes a text** is the code of that text. -/
theorem leaf_of_text {e : Expr} {optimize : Bool} {start : Nat} {t : String} {span : Span}
    (h : e.code optimize start = [⟨.push (.text t), span⟩]) :
    e = .leaf (.value (.text t)) span := by
  have leaf {e : Expr} (h : e.code false start = [⟨.push (.text t), span⟩]) :
      e = .leaf (.value (.text t)) span := by
    have hl : (e.code false start).length ≤ 1 := Nat.le_of_eq (by rw [h]; rfl)
    obtain ⟨v, s, rfl⟩ :=
      e.leaf_of_length hl (by rw [h]; exact EndsInConstant.single_iff.mpr ⟨_, rfl⟩)
    cases h
    rfl
  cases optimize with
  | false => exact leaf h
  | true => exact leaf_of_folded (leaf (e.code_folded start ▸ h))

end Expr

end ExprEngine
