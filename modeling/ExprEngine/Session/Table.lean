/-!
# Ordered tables

A finite map from names that remembers the order in which the names came: the scopes of variables
and the macros of a session.  A name keeps the place that it got first.

Main statements: a written name reads back (`get?_insert_self`), other names do not change
(`get?_insert_ne`), and the places of the names stay (`keys_insert_of_mem`,
`keys_insert_of_notMem`).
-/

namespace ExprEngine

/-- Names with their contents, each name once, in the order of their first coming. -/
structure Table (α : Type) where
  entries : List (String × α) := []
  nodup : (entries.map Prod.fst).Nodup := by simp

namespace Table

variable {α : Type}

instance : EmptyCollection (Table α) := ⟨⟨[], List.nodup_nil⟩⟩

instance : Inhabited (Table α) := ⟨∅⟩

/-- The names, the oldest first. -/
def keys (t : Table α) : List String :=
  t.entries.map Prod.fst

/-- The content of a name. -/
def get? (t : Table α) (x : String) : Option α :=
  t.entries.lookup x

/-- The name is in the table. -/
def contains (t : Table α) (x : String) : Bool :=
  (t.get? x).isSome

/-- The entries with the content of a name replaced. -/
def replace (x : String) (a : α) : List (String × α) → List (String × α)
  | [] => []
  | (y, b) :: rest => if y = x then (y, a) :: rest else (y, b) :: replace x a rest

theorem keys_replace (x : String) (a : α) (entries : List (String × α)) :
    (replace x a entries).map Prod.fst = entries.map Prod.fst := by
  induction entries with
  | nil => rfl
  | cons e rest ih =>
    obtain ⟨y, b⟩ := e
    by_cases h : y = x <;> simp [replace, h, ih]

/-- The table with `x` standing for `a`: in its old place, or in a new one at the end. -/
def insert (t : Table α) (x : String) (a : α) : Table α :=
  if h : x ∈ t.keys then
    ⟨replace x a t.entries, by rw [keys_replace]; exact t.nodup⟩
  else
    ⟨t.entries ++ [(x, a)], by
      rw [List.map_append, List.nodup_append]
      refine ⟨t.nodup, by simp, fun y hy z hz => ?_⟩
      simp only [List.map_cons, List.map_nil, List.mem_singleton] at hz
      rintro rfl
      exact h (hz ▸ hy)⟩

/-- The table of some entries, the last of a name deciding. -/
def ofList (entries : List (String × α)) : Table α :=
  entries.foldl (fun t e => t.insert e.1 e.2) ∅

theorem keys_insert_of_mem {t : Table α} {x : String} (h : x ∈ t.keys) (a : α) :
    (t.insert x a).keys = t.keys := by
  rw [insert, dif_pos h]
  exact keys_replace ..

theorem keys_insert_of_notMem {t : Table α} {x : String} (h : x ∉ t.keys) (a : α) :
    (t.insert x a).keys = t.keys ++ [x] := by
  rw [insert, dif_neg h]
  simp [keys]

theorem lookup_replace_self {x : String} {entries : List (String × α)}
    (h : x ∈ entries.map Prod.fst) (a : α) : (replace x a entries).lookup x = some a := by
  induction entries with
  | nil => simp at h
  | cons e rest ih =>
    obtain ⟨y, b⟩ := e
    by_cases hy : y = x
    · simp [replace, hy]
    · have hx : x ∈ rest.map Prod.fst := by
        rcases List.mem_cons.mp h with h | h
        · exact absurd h.symm hy
        · exact h
      have hne : (x == y) = false := by simpa using fun e => hy e.symm
      simp [replace, hy, List.lookup_cons, hne, ih hx]

theorem lookup_replace_ne {x z : String} (hz : z ≠ x) (a : α) (entries : List (String × α)) :
    (replace x a entries).lookup z = entries.lookup z := by
  induction entries with
  | nil => rfl
  | cons e rest ih =>
    obtain ⟨y, b⟩ := e
    by_cases hy : y = x
    · have hne : (z == x) = false := by simpa using hz
      subst hy
      simp [replace, List.lookup_cons, hne]
    · simp [replace, hy, List.lookup_cons, ih]

theorem lookup_eq_none_of_notMem {x : String} {entries : List (String × α)}
    (h : x ∉ entries.map Prod.fst) : entries.lookup x = none := by
  induction entries with
  | nil => rfl
  | cons e rest ih =>
    obtain ⟨y, b⟩ := e
    simp only [List.map_cons, List.mem_cons, not_or] at h
    have hne : (x == y) = false := by simpa using h.1
    simp [List.lookup_cons, hne, ih h.2]

theorem lookup_append_single (x z : String) (a : α) (entries : List (String × α)) :
    (entries ++ [(x, a)]).lookup z = (entries.lookup z).or (if z = x then some a else none) := by
  induction entries with
  | nil =>
    by_cases h : z = x
    · simp [h]
    · simp [List.lookup_cons, h, beq_eq_false_iff_ne.mpr h]
  | cons e rest ih =>
    obtain ⟨y, b⟩ := e
    by_cases h : z = y
    · simp [h]
    · simp [List.lookup_cons, beq_eq_false_iff_ne.mpr h, ih]

@[simp] theorem get?_insert_self (t : Table α) (x : String) (a : α) :
    (t.insert x a).get? x = some a := by
  by_cases h : x ∈ t.keys
  · rw [insert, dif_pos h]
    exact lookup_replace_self h a
  · rw [insert, dif_neg h]
    simp [get?, lookup_append_single, lookup_eq_none_of_notMem h]

theorem get?_insert_ne (t : Table α) {x z : String} (hz : z ≠ x) (a : α) :
    (t.insert x a).get? z = t.get? z := by
  by_cases h : x ∈ t.keys
  · rw [insert, dif_pos h]
    exact lookup_replace_ne hz a t.entries
  · rw [insert, dif_neg h]
    simp [get?, lookup_append_single, hz]

end Table

end ExprEngine
