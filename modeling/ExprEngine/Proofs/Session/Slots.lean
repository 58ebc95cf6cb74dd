import ExprEngine.Session.Table

/-!
# Contents in slots

A finite map that is kept as an array, with the index of each name's content beside it.  A name
keeps its slot for good, so a slot that was looked up once can be read and written later.

* `Slots.Sound`: every name has a slot of its own that there is.
* `Slots.Sound.put`, `Slots.Sound.write`: which stays so.
* `Slots.Sound.get?_put`, `Slots.Sound.get?_write`: other names are not changed.
-/

namespace ExprEngine

/-- Contents, and the slot of each name. -/
structure Slots (α : Type) where
  index : Table Nat := ∅
  contents : Array α := #[]

namespace Slots

variable {α : Type} {t : Slots α} {x z : String} {i : Nat}

/-- The slot of a name. -/
def slot? (t : Slots α) (x : String) : Option Nat :=
  t.index.get? x

/-- The content of a name. -/
def get? (t : Slots α) (x : String) : Option α :=
  (t.slot? x).bind (t.contents[·]?)

/-- The content of a slot replaced. -/
def write (t : Slots α) (i : Nat) (a : α) : Slots α :=
  { t with contents := t.contents.setIfInBounds i a }

/-- A name with a new content, in its slot or else in a new one, and that slot. -/
def put (t : Slots α) (x : String) (a : α) : Slots α × Nat :=
  match t.slot? x with
  | some i => (t.write i a, i)
  | none => (⟨t.index.insert x t.contents.size, t.contents.push a⟩, t.contents.size)

/-- Every name has a slot of its own, and that slot is there. -/
structure Sound (t : Slots α) : Prop where
  inRange : ∀ x i, t.slot? x = some i → i < t.contents.size
  injective : ∀ x y i, t.slot? x = some i → t.slot? y = some i → x = y

theorem put_of_slot (h : t.slot? x = some i) (a : α) : t.put x a = (t.write i a, i) := by
  simp only [put, h]

theorem put_of_none (h : t.slot? x = none) (a : α) :
    t.put x a = (⟨t.index.insert x t.contents.size, t.contents.push a⟩, t.contents.size) := by
  simp only [put, h]

/-- A name that is put keeps its slot, or has a new one behind all others; so do other names. -/
theorem slot?_put (t : Slots α) (x : String) (a : α) (z : String) :
    (t.put x a).1.slot? z = if z = x then some (t.put x a).2 else t.slot? z := by
  cases h : t.slot? x with
  | some i =>
      rw [put_of_slot h]
      split
      · next hz => rw [hz]; exact h
      · rfl
  | none =>
      rw [put_of_none h]
      split
      · next hz => rw [hz]; exact t.index.get?_insert_self x _
      · next hz => exact t.index.get?_insert_ne hz _

namespace Sound

theorem empty : Sound ({} : Slots α) :=
  ⟨nofun, nofun⟩

theorem write (h : t.Sound) (i : Nat) (a : α) : (t.write i a).Sound :=
  ⟨fun x j hj => by simpa [Slots.write] using h.inRange x j hj, h.injective⟩

/-- Writing to the slot of a name changes the content of that name and of no other. -/
theorem get?_write (h : t.Sound) (hx : t.slot? x = some i) (a : α) (z : String) :
    (t.write i a).get? z = if z = x then some a else t.get? z := by
  have hi := h.inRange x i hx
  show (t.slot? z).bind ((t.contents.setIfInBounds i a)[·]?) = _
  by_cases hz : z = x
  · rw [if_pos hz, hz, hx]
    simp [hi]
  · rw [if_neg hz, get?]
    cases hj : t.slot? z with
    | none => rfl
    | some j =>
        have hne : i ≠ j := by
          rintro rfl
          exact hz (h.injective z x i hj hx)
        simp [hne]

theorem put (h : t.Sound) (x : String) (a : α) : (t.put x a).1.Sound := by
  cases hx : t.slot? x with
  | some i =>
      rw [put_of_slot hx]
      exact h.write i a
  | none =>
      have hnew : (t.put x a).2 = t.contents.size := by rw [put_of_none hx]
      have hsize : (t.put x a).1.contents.size = t.contents.size + 1 := by
        rw [put_of_none hx]
        exact Array.size_push a
      constructor
      · intro z j hj
        rw [slot?_put, hnew] at hj
        rw [hsize]
        split at hj
        · cases hj
          exact Nat.lt_succ_self _
        · exact Nat.lt_succ_of_lt (h.inRange z j hj)
      · intro y z j hy hz
        rw [slot?_put, hnew] at hy hz
        split at hy
        · next hyx =>
          cases hy
          split at hz
          · next hzx => rw [hyx, hzx]
          · exact absurd (h.inRange z _ hz) (Nat.lt_irrefl _)
        · split at hz
          · cases hz
            exact absurd (h.inRange y _ hy) (Nat.lt_irrefl _)
          · exact h.injective y z j hy hz

theorem get?_put (h : t.Sound) (x : String) (a : α) (z : String) :
    (t.put x a).1.get? z = if z = x then some a else t.get? z := by
  cases hx : t.slot? x with
  | some i =>
      rw [put_of_slot hx]
      exact h.get?_write hx a z
  | none =>
      rw [get?, slot?_put, put_of_none hx]
      dsimp only
      split
      · simp
      · rw [get?]
        cases hj : t.slot? z with
        | none => rfl
        | some j =>
            have := h.inRange z j hj
            simp [Array.getElem?_push, Nat.ne_of_lt this]

/-- A name has a content if it has a slot. -/
theorem isSome_get? (h : t.Sound) (x : String) : (t.get? x).isSome = (t.slot? x).isSome := by
  rw [get?]
  cases hx : t.slot? x with
  | none => rfl
  | some i => simp [h.inRange x i hx]

end Sound

end Slots

end ExprEngine
