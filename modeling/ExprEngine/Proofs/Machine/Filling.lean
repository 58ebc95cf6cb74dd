import ExprEngine.Proofs.Machine.Steps
import ExprEngine.Proofs.Program.Layout

/-!
# Stacks that lie as a layout says

While a well laid program runs, the values above the stack that it found fill the layout of the
index that the run has come to: `R x v` says that the value `v` may lie in the place `x`.  A jump
may bring a value that is not there to be called to a place where one that is was expected, so what
may lie where none is expected must be welcome anywhere (`Roomy`).

* `Stacked.push`, `Stacked.popMany`, `Stacked.top`: what the operations of the stack find.
* `operands_of_call`: what a call finds.
* `Leads.next`: the layout of the index that a run goes on with behind a step.
-/

namespace ExprEngine

variable {κ : Type}

/-! ### Filled layouts -/

/-- The values lie as the layout says. -/
inductive Places.Filled (R : Option κ → Value → Prop) : Places κ → List Value → Prop
  | nil : Filled R [] []
  | cons {x : Option κ} {v : Value} {l : Places κ} {vs : List Value} (h : R x v)
    (t : Filled R l vs) : Filled R (x :: l) (v :: vs)

/-- What may lie where nothing to call is expected may lie anywhere. -/
def Roomy (R : Option κ → Value → Prop) : Prop :=
  ∀ x v, R none v → R x v

namespace Places.Filled

variable {R : Option κ → Value → Prop} {l k : Places κ} {vs : List Value}

theorem length_eq (h : Filled R l vs) : vs.length = l.length := by
  induction h with
  | nil => rfl
  | cons _ _ ih => exact congrArg (· + 1) ih

theorem fits (hr : Roomy R) (h : Filled R l vs) (hf : l.Fits k) : Filled R k vs := by
  induction h generalizing k with
  | nil =>
      cases hf
      exact .nil
  | @cons x v l vs hv _ ih =>
      cases hf with
      | cons hx t =>
          refine .cons ?_ (ih t)
          rcases hx with rfl | rfl
          · exact hr _ v hv
          · exact hv

theorem drop (h : Filled R l vs) (n : Nat) : Filled R (l.drop n) (vs.drop n) := by
  induction h generalizing n with
  | nil => cases n <;> exact .nil
  | cons hv t ih =>
      cases n with
      | zero => exact .cons hv t
      | succ n => exact ih n

theorem take (h : Filled R l vs) (n : Nat) : Filled R (l.take n) (vs.take n) := by
  induction h generalizing n with
  | nil => cases n <;> exact .nil
  | cons hv t ih =>
      cases n with
      | zero => exact .nil
      | succ n => exact .cons hv (ih n)

/-- The value in a place. -/
theorem get (h : Filled R l vs) {n : Nat} {x : Option κ} {v : Value} (hx : l[n]? = some x)
    (hv : vs[n]? = some v) : R x v := by
  induction h generalizing n with
  | nil => cases hx
  | cons hw t ih =>
      cases n with
      | zero =>
          cases hx
          cases hv
          exact hw
      | succ n => exact ih hx hv

/-- Where nothing to call is expected in any place. -/
theorem all_none (h : Filled R l vs) (hn : ∀ x ∈ l, x = none) : ∀ v ∈ vs, R none v := by
  induction h with
  | nil => exact fun v hv => absurd hv List.not_mem_nil
  | cons hw t ih =>
      intro v hv
      rcases List.mem_cons.mp hv with rfl | hv
      · exact hn _ List.mem_cons_self ▸ hw
      · exact ih (fun x hx => hn x (List.mem_cons_of_mem _ hx)) v hv

end Places.Filled

namespace Machine

variable {C : Calling κ} {R : Option κ → Value → Prop} {base : List Value} {l k : Places κ}
  {m : Machine}

/-- Above the stack `base` the values lie as the layout says. -/
def Stacked (R : Option κ → Value → Prop) (base : List Value) (l : Places κ) (stack : List Value) :
    Prop :=
  ∃ vs, stack = vs ++ base ∧ Places.Filled R l vs

namespace Stacked

variable {stack : List Value}

theorem nil (R : Option κ → Value → Prop) (base : List Value) : Stacked R base [] base :=
  ⟨[], rfl, .nil⟩

theorem length_eq (h : Stacked R base l stack) : stack.length = base.length + l.length := by
  obtain ⟨vs, hs, hv⟩ := h
  rw [hs, List.length_append, hv.length_eq, Nat.add_comm]

theorem fits (hr : Roomy R) (h : Stacked R base l stack) (hf : l.Fits k) :
    Stacked R base k stack := by
  obtain ⟨vs, hs, hv⟩ := h
  exact ⟨vs, hs, hv.fits hr hf⟩

/-- One value above the stack that was found. -/
theorem single {x : Option κ} (h : Stacked R base [x] stack) : ∃ v, stack = v :: base ∧ R x v := by
  obtain ⟨vs, hs, hv⟩ := h
  obtain _ | ⟨hv, ⟨⟩⟩ := hv
  exact ⟨_, hs, hv⟩

theorem push {x : Option κ} {v : Value} (h : Stacked R base l stack) (hv : R x v) :
    Stacked R base (x :: l) (v :: stack) := by
  obtain ⟨vs, hs, hl⟩ := h
  exact ⟨v :: vs, congrArg (v :: ·) hs, .cons hv hl⟩

theorem top {x : Option κ} (h : Stacked R base (x :: l) m.stack) :
    ∃ v, top base.length m = .ok v m ∧ R x v := by
  obtain ⟨vs, hs, hl⟩ := h
  cases hl with
  | @cons _ v _ vs hv t =>
      refine ⟨v, ?_, hv⟩
      rw [top_apply]
      simp only [hs, List.cons_append, List.length_append, Nat.le_add_left, if_true]

theorem popMany {n : Nat} (h : Stacked R base l m.stack) (hn : n ≤ l.length) :
    ∃ vs, popMany base.length n m = .ok vs { m with stack := m.stack.drop n } ∧ vs.length = n ∧
      Places.Filled R (l.take n) vs.reverse ∧ Stacked R base (l.drop n) (m.stack.drop n) := by
  have hm := h.length_eq
  obtain ⟨vs, hs, hl⟩ := h
  have hle := hl.length_eq
  have ht : m.stack.take n = vs.take n := by
    rw [hs, List.take_append_of_le_length (by omega)]
  have hd : m.stack.drop n = vs.drop n ++ base := by
    rw [hs, List.drop_append_of_le_length (by omega)]
  refine ⟨(m.stack.take n).reverse, ?_, ?_, ?_, vs.drop n, hd, hl.drop n⟩
  · rw [popMany_apply, if_neg (by rw [hm]; omega)]
  · rw [List.length_reverse, ht, List.length_take]
    omega
  · rw [List.reverse_reverse, ht]
    exact hl.take n

end Stacked

/-- The values that a call takes: a callee, which takes the number of arguments if it is what the
place is for, and arguments that are not there to be called. -/
theorem operands_of_call {n : Nat} (ha : C.Accepts (.call n) l) {vs : List Value}
    (hl : vs.length = n) (hf : Places.Filled R (l.take n) vs.reverse) :
    ∃ callee args x, vs = callee :: args ∧ R x callee ∧
      (∀ k, x = some k → C.Takes k args.length) ∧ ∀ v ∈ args, R none v := by
  obtain ⟨hn, h0, hargs, hcallee⟩ := ha
  match vs with
  | [] => exact absurd h0 (hl ▸ Nat.lt_irrefl 0)
  | callee :: args =>
      subst hl
      rw [List.length_cons, Nat.add_sub_cancel] at hargs hcallee
      rw [List.reverse_cons, List.length_cons] at hf
      have hlt : args.length < l.length := hn
      refine ⟨callee, args, l[args.length], rfl, ?_, fun k hk => hcallee k ?_, fun v hv => ?_⟩
      -- the callee lies deepest
      · have hx : (l.take (args.length + 1))[args.length]? = some l[args.length] := by
          rw [List.getElem?_take_of_lt (Nat.lt_succ_self _), List.getElem?_eq_getElem hlt]
        exact hf.get hx (v := callee) (by simp)
      · rw [List.getElem?_eq_getElem hlt, hk]
      -- the arguments lie above it, where nothing to call is expected
      · have ht := hf.take args.length
        rw [List.take_take, Nat.min_eq_left (Nat.le_succ _),
          List.take_left' List.length_reverse] at ht
        exact ht.all_none hargs v (List.mem_reverse.mpr hv)

/-! ### Behind a step -/

/-- What `H` holds of behind a step: the layout that the operation makes, or the one that it met if
it jumps to its target. -/
def Leads (C : Calling κ) (H : Places κ → Machine → Prop) (op : Op Nat) (l : Places κ) :
    Option Nat → Machine → Prop
  | none, m => H (C.effect op l) m
  | some t, m => op.target? = some t ∧ H l m

/-- Where a run of a well laid program goes on behind a step. -/
theorem Leads.next {p : Program} (hw : C.WellLaid p) {H : Places κ → Machine → Prop}
    (hf : ∀ {l k m}, H l m → l.Fits k → H k m) {k : Nat} {i : Instr Nat}
    (hi : p.code[k]? = some i) {target : Option Nat}
    (h : Leads C H i.op (C.placesAt p.code.toList k) target m) :
    target.getD (k + 1) ≤ p.code.size ∧ H (C.placesAt p.code.toList (target.getD (k + 1))) m := by
  obtain ⟨hk, -⟩ := Array.getElem?_eq_some_iff.mp hi
  cases target with
  | none => exact ⟨hk, C.placesAt_succ hi ▸ h⟩
  | some t =>
      obtain ⟨-, ht, hj⟩ := (hw.inPlace k i hi).2 t h.1
      exact ⟨ht, hf h.2 hj⟩

end Machine

end ExprEngine
