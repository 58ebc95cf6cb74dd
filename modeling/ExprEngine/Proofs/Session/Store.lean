import ExprEngine.Proofs.Session.Maps
import ExprEngine.Proofs.Session.Slots

/-!
# Variables in cells

The variables of a session as a host keeps them: a scope is an array of values with an index of its
names, and a variable that was looked up is a cell, which says in which scope and in which slot it
is.  An assignment looks the variable up, makes a global one if there is none, writes to the cell,
and reads the cell again for its result.

A cell counts the scopes outside of its own, so that it means the same variable when scopes come and
go inside of that scope.

* `Store.Sound`: every frame has a scope, and every name of a scope a slot of its own.
* `Store.Sound.apply`: which stays so.
* `Store.Sound.get_eq`: a name reads as its innermost variable.
* `Store.Sound.valueAt_assign`: an assignment changes one variable of one scope.
* `Store.Sound.get_assign`: what it reads back is what the name stands for afterwards.
-/

namespace ExprEngine

/-- Where a variable is: the number of scopes outside of its own, and its slot. -/
structure Cell where
  scope : Nat
  slot : Nat

/-- Scopes, frames and macros, the innermost scope and frame first. -/
structure Store where
  scopes : List (Slots Value) := [{}]
  frames : List (String × List Value) := []
  macros : Slots String := {}

namespace Store

/-- The cell of the innermost variable of a name. -/
def find? (x : String) : List (Slots Value) → Option Cell
  | [] => none
  | t :: rest =>
    match t.slot? x with
    | some i => some ⟨rest.length, i⟩
    | none => find? x rest

/-- The scope that so many others are outside of. -/
def scopeAt? (k : Nat) : List (Slots Value) → Option (Slots Value)
  | [] => none
  | t :: rest => if k = rest.length then some t else scopeAt? k rest

/-- The scopes with that one changed. -/
def modifyAt (k : Nat) (f : Slots Value → Slots Value) : List (Slots Value) → List (Slots Value)
  | [] => []
  | t :: rest => if k = rest.length then f t :: rest else t :: modifyAt k f rest

/-- The cell of a variable. -/
def lookup? (s : Store) (x : String) : Option Cell :=
  find? x s.scopes

/-- A new global variable without content. -/
def createGlobal (s : Store) (x : String) : Store × Cell :=
  let slot := (((scopeAt? 0 s.scopes).getD {}).put x .blank).2
  ({ s with scopes := modifyAt 0 (fun t => (t.put x .blank).1) s.scopes }, ⟨0, slot⟩)

/-- The value of a cell; of one that is not there, a blank. -/
def read (s : Store) (c : Cell) : Value :=
  ((scopeAt? c.scope s.scopes).bind (·.contents[c.slot]?)).getD .blank

/-- The store with a cell written. -/
def write (s : Store) (c : Cell) (v : Value) : Store :=
  { s with scopes := modifyAt c.scope (·.write c.slot v) s.scopes }

/-- The value of the innermost variable of a name. -/
def get (s : Store) (x : String) : Option Value :=
  (s.lookup? x).map s.read

/-- An assignment of an expression: the variable is looked up, or made, and written, and the value
is read back. -/
def assign (s : Store) (x : String) (v : Value) : Store × Value :=
  let (s, c) := match s.lookup? x with
    | some c => (s, c)
    | none => s.createGlobal x
  let s := s.write c v
  (s, s.read c)

/-- The body of a macro. -/
def macroBody? (s : Store) (name : String) : Option String :=
  s.macros.get? name

/-- The store after an access. -/
def apply (s : Store) : Access → Store
  | .setGlobal x v => { s with scopes := modifyAt 0 (fun t => (t.put x v).1) s.scopes }
  | .setLocal x v =>
    { s with scopes := modifyAt (s.scopes.length - 1) (fun t => (t.put x v).1) s.scopes }
  | .pushFrame name params =>
    { s with scopes := {} :: s.scopes, frames := (name, params) :: s.frames }
  | .popFrame =>
    match s.frames with
    | [] => s
    | _ :: frames => { s with scopes := s.scopes.tail, frames }
  | .defineMacro name body => { s with macros := (s.macros.put name body).1 }
  | .assign x v => (s.assign x v).1

/-- What a name stands for in the scope that so many others are outside of. -/
def valueAt (s : Store) (k : Nat) (x : String) : Option Value :=
  (scopeAt? k s.scopes).bind (·.get? x)

/-! ### Scopes -/

variable {ss : List (Slots Value)} {f : Slots Value → Slots Value} {x : String} {c : Cell} {k : Nat}

theorem scopeAt?_of_le (h : ss.length ≤ k) : scopeAt? k ss = none := by
  induction ss with
  | nil => rfl
  | cons t rest ih =>
      rw [List.length_cons] at h
      rw [scopeAt?, if_neg (by omega), ih (by omega)]

theorem scopeAt?_of_lt (h : k < ss.length) : ∃ t ∈ ss, scopeAt? k ss = some t := by
  induction ss with
  | nil => cases h
  | cons t rest ih =>
      rw [scopeAt?]
      split
      · exact ⟨t, List.mem_cons_self, rfl⟩
      · rw [List.length_cons] at h
        obtain ⟨u, hu, hk⟩ := ih (by omega)
        exact ⟨u, List.mem_cons_of_mem t hu, hk⟩

@[simp] theorem length_modifyAt (k : Nat) (f : Slots Value → Slots Value)
    (ss : List (Slots Value)) : (modifyAt k f ss).length = ss.length := by
  induction ss with
  | nil => rfl
  | cons t rest ih =>
      rw [modifyAt]
      split
      · rfl
      · rw [List.length_cons, ih, List.length_cons]

/-- A scope that is changed is the only one that is. -/
theorem scopeAt?_modifyAt (k : Nat) (f : Slots Value → Slots Value) (ss : List (Slots Value))
    (j : Nat) :
    scopeAt? j (modifyAt k f ss) = if j = k then (scopeAt? k ss).map f else scopeAt? j ss := by
  induction ss with
  | nil => simp [modifyAt, scopeAt?]
  | cons t rest ih =>
      rw [modifyAt]
      split
      · next hk =>
        subst hk
        simp only [scopeAt?]
        split <;> rfl
      · next hk =>
        simp only [scopeAt?, length_modifyAt, ih, if_neg hk]
        split
        · next hj => rw [if_neg (by omega)]
        · rfl

theorem modifyAt_modifyAt (k : Nat) (f g : Slots Value → Slots Value) (ss : List (Slots Value)) :
    modifyAt k g (modifyAt k f ss) = modifyAt k (fun t => g (f t)) ss := by
  induction ss with
  | nil => rfl
  | cons t rest ih =>
      simp only [modifyAt]
      split
      · next hk => rw [modifyAt, if_pos hk]
      · next hk => rw [modifyAt, length_modifyAt, if_neg hk, ih]

theorem mem_modifyAt {u : Slots Value} (h : u ∈ modifyAt k f ss) :
    u ∈ ss ∨ ∃ t, scopeAt? k ss = some t ∧ u = f t := by
  induction ss with
  | nil => cases h
  | cons t rest ih =>
      rw [modifyAt] at h
      rw [scopeAt?]
      split at h
      · next hk =>
        rw [if_pos hk]
        rcases List.mem_cons.mp h with rfl | h
        · exact .inr ⟨t, rfl, rfl⟩
        · exact .inl (List.mem_cons_of_mem t h)
      · next hk =>
        rw [if_neg hk]
        rcases List.mem_cons.mp h with rfl | h
        · exact .inl List.mem_cons_self
        · exact (ih h).imp (List.mem_cons_of_mem t) id

/-- A cell that is found is in a scope that is there, in a slot of the name; no scope inside of it
has the name. -/
theorem find?_some (h : find? x ss = some c) :
    (∃ t, scopeAt? c.scope ss = some t ∧ t.slot? x = some c.slot) ∧
      ∀ k t, c.scope < k → scopeAt? k ss = some t → t.slot? x = none := by
  induction ss with
  | nil => cases h
  | cons u rest ih =>
      rw [find?] at h
      cases hu : u.slot? x with
      | some i =>
          rw [hu] at h
          cases h
          refine ⟨⟨u, if_pos rfl, hu⟩, fun k t hk ht => ?_⟩
          rw [scopeAt?_of_le (Nat.succ_le_of_lt hk)] at ht
          cases ht
      | none =>
          rw [hu] at h
          obtain ⟨⟨t, ht, hs⟩, hinner⟩ := ih h
          have hlt : c.scope < rest.length := by
            refine Nat.lt_of_not_le fun hle => ?_
            rw [scopeAt?_of_le hle] at ht
            cases ht
          refine ⟨⟨t, by rw [scopeAt?, if_neg (by omega), ht], hs⟩, fun k t' hk ht' => ?_⟩
          rw [scopeAt?] at ht'
          split at ht'
          · cases ht'
            exact hu
          · exact hinner k t' hk ht'

theorem scope_lt (h : find? x ss = some c) : c.scope < ss.length := by
  obtain ⟨⟨t, ht, -⟩, -⟩ := find?_some h
  refine Nat.lt_of_not_le fun hle => ?_
  rw [scopeAt?_of_le hle] at ht
  cases ht

theorem find?_none (h : find? x ss = none) {t : Slots Value} (ht : scopeAt? k ss = some t) :
    t.slot? x = none := by
  induction ss with
  | nil => cases ht
  | cons u rest ih =>
      rw [find?] at h
      cases hu : u.slot? x with
      | some i =>
          rw [hu] at h
          cases h
      | none =>
          rw [hu] at h
          rw [scopeAt?] at ht
          split at ht
          · cases ht
            exact hu
          · exact ih h ht

theorem mem_of_scopeAt? {t : Slots Value} (h : scopeAt? k ss = some t) : t ∈ ss := by
  rcases Nat.lt_or_ge k ss.length with hk | hk
  · obtain ⟨u, hu, hs⟩ := scopeAt?_of_lt hk
    cases h.symm.trans hs
    exact hu
  · rw [scopeAt?_of_le hk] at h
    cases h

/-- Writing to a slot changes no index. -/
theorem find?_write (x : String) (k i : Nat) (v : Value) (ss : List (Slots Value)) :
    find? x (modifyAt k (·.write i v) ss) = find? x ss := by
  induction ss with
  | nil => rfl
  | cons t rest ih =>
      rw [modifyAt]
      split
      · rfl
      · rw [find?, find?, ih, length_modifyAt]

/-- A name that no scope has is found where it is put. -/
theorem find?_put (h : find? x ss = none) {t : Slots Value} (ht : scopeAt? k ss = some t)
    (v : Value) : find? x (modifyAt k (fun t => (t.put x v).1) ss) = some ⟨k, (t.put x v).2⟩ := by
  induction ss with
  | nil => cases ht
  | cons u rest ih =>
      have hu : u.slot? x = none := find?_none h (if_pos rfl)
      rw [find?, hu] at h
      rw [scopeAt?] at ht
      rw [modifyAt]
      split at ht
      · next hk =>
        cases ht
        rw [if_pos hk, find?, Slots.slot?_put, if_pos rfl, hk]
      · next hk =>
        rw [if_neg hk, find?, hu]
        exact ih h ht

theorem frames_assign (s : Store) (x : String) (v : Value) :
    (s.assign x v).1.frames = s.frames := by
  rw [assign]
  cases s.lookup? x <;> rfl

theorem macros_assign (s : Store) (x : String) (v : Value) :
    (s.assign x v).1.macros = s.macros := by
  rw [assign]
  cases s.lookup? x <;> rfl

/-! ### Sound stores -/

/-- Every frame has a scope, the globals have one more, and all indices are sound. -/
structure Sound (s : Store) : Prop where
  depth : s.scopes.length = s.frames.length + 1
  scopes : ∀ t ∈ s.scopes, t.Sound
  macros : s.macros.Sound

/-- The cell is that of a variable of the name. -/
def Has (s : Store) (c : Cell) (x : String) : Prop :=
  ∃ t, scopeAt? c.scope s.scopes = some t ∧ t.slot? x = some c.slot

/-- The scope that an assignment to a name is made in. -/
def target (s : Store) (x : String) : Nat :=
  ((s.lookup? x).map Cell.scope).getD 0

variable {s : Store} {v : Value}

theorem target_of_lookup? (h : s.lookup? x = some c) : s.target x = c.scope := by
  rw [target, h]
  rfl

namespace Sound

theorem empty : Sound {} where
  depth := rfl
  scopes := by simpa using Slots.Sound.empty
  macros := .empty

theorem scopes_pos (h : s.Sound) : 0 < s.scopes.length :=
  h.depth ▸ Nat.succ_pos _

theorem modifyAt (h : s.Sound) (hf : ∀ t : Slots Value, t.Sound → (f t).Sound) (k : Nat) :
    Sound { s with scopes := Store.modifyAt k f s.scopes } := by
  refine ⟨by simpa using h.depth, fun u hu => ?_, h.macros⟩
  rcases mem_modifyAt hu with hu | ⟨t, ht, rfl⟩
  · exact h.scopes u hu
  · exact hf t (h.scopes t (mem_of_scopeAt? ht))

theorem write (h : s.Sound) (c : Cell) (v : Value) : (s.write c v).Sound :=
  h.modifyAt (fun _ ht => ht.write c.slot v) c.scope

theorem read_write (h : s.Sound) (hc : s.Has c x) (v : Value) : (s.write c v).read c = v := by
  obtain ⟨t, ht, hx⟩ := hc
  have hs := h.scopes t (mem_of_scopeAt? ht)
  rw [Store.read, Store.write, scopeAt?_modifyAt, if_pos rfl, ht]
  simp [Slots.write, hs.inRange x _ hx]

/-- The value of a name is that of the innermost variable of it. -/
theorem get_eq (h : s.Sound) (x : String) :
    match s.lookup? x with
    | some c => s.valueAt c.scope x = some (s.read c) ∧ s.get x = some (s.read c) ∧
        ∀ k, c.scope < k → s.valueAt k x = none
    | none => s.get x = none ∧ ∀ k, s.valueAt k x = none := by
  have hnone : ∀ {t : Slots Value}, t.slot? x = none → t.get? x = none := by
    intro t ht
    rw [Slots.get?, ht]
    rfl
  cases hl : s.lookup? x with
  | some c =>
      obtain ⟨⟨t, ht, hx⟩, hinner⟩ := find?_some hl
      have hi := (h.scopes t (mem_of_scopeAt? ht)).inRange x _ hx
      refine ⟨?_, by rw [get, hl]; rfl, fun k hk => ?_⟩
      · simp [valueAt, Store.read, ht, Slots.get?, hx, hi]
      · rw [valueAt]
        cases hs : scopeAt? k s.scopes with
        | none => rfl
        | some u => exact hnone (hinner k u hk hs)
  | none =>
      refine ⟨by rw [get, hl]; rfl, fun k => ?_⟩
      rw [valueAt]
      cases hs : scopeAt? k s.scopes with
      | none => rfl
      | some u => exact hnone (find?_none hl hs)

/-- A new global variable is found. -/
theorem createGlobal (h : s.Sound) (hl : s.lookup? x = none) :
    (s.createGlobal x).1.Sound ∧ (s.createGlobal x).1.lookup? x = some (s.createGlobal x).2 := by
  obtain ⟨t, hm, ht⟩ := scopeAt?_of_lt h.scopes_pos
  refine ⟨h.modifyAt (fun t ht => ht.put x .blank) 0, ?_⟩
  simp only [Store.createGlobal, ht]
  exact find?_put hl ht .blank

/-- An assignment writes to a cell of the variable, in a store where that one may be new. -/
theorem assign_eq (h : s.Sound) (x : String) (v : Value) :
    ∃ (s' : Store) (c : Cell), s.assign x v = (s'.write c v, (s'.write c v).read c) ∧ s'.Sound ∧
      s'.lookup? x = some c := by
  cases hl : s.lookup? x with
  | some c => exact ⟨s, c, by simp only [Store.assign, hl], h, hl⟩
  | none =>
      obtain ⟨hs, hc⟩ := h.createGlobal hl
      exact ⟨_, _, by simp only [Store.assign, hl], hs, hc⟩

theorem target_lt (h : s.Sound) (x : String) : s.target x < s.scopes.length := by
  cases hl : s.lookup? x with
  | some c =>
      rw [target_of_lookup? hl]
      exact scope_lt hl
  | none =>
      rw [target, hl]
      exact h.scopes_pos

/-- An assignment changes one scope, and there the variable of the name only. -/
theorem assign_scopes (h : s.Sound) (x : String) (v : Value) :
    ∃ f, (s.assign x v).1.scopes = Store.modifyAt (s.target x) f s.scopes ∧
      ∀ t, scopeAt? (s.target x) s.scopes = some t → (f t).Sound ∧
        ∀ z, (f t).get? z = if z = x then some v else t.get? z := by
  cases hl : s.lookup? x with
  | some c =>
      obtain ⟨⟨t, ht, hx⟩, -⟩ := find?_some hl
      refine ⟨(·.write c.slot v), ?_, ?_⟩
      · rw [target_of_lookup? hl]
        simp only [Store.assign, hl, Store.write]
      · rw [target_of_lookup? hl, ht]
        rintro _ ⟨⟩
        have hs := h.scopes t (mem_of_scopeAt? ht)
        exact ⟨hs.write c.slot v, hs.get?_write hx v⟩
  | none =>
      obtain ⟨t, hm, ht⟩ := scopeAt?_of_lt h.scopes_pos
      have hs := (h.scopes t hm).put x .blank
      have h0 : s.target x = 0 := by rw [target, hl]; rfl
      rw [h0]
      refine ⟨fun u => (u.put x .blank).1.write (t.put x .blank).2 v, ?_, ?_⟩
      · simp only [Store.assign, hl, Store.createGlobal, Store.write, ht, modifyAt_modifyAt]
        rfl
      · rw [ht]
        rintro _ ⟨⟩
        refine ⟨hs.write _ v, fun z => ?_⟩
        rw [hs.get?_write (by rw [Slots.slot?_put, if_pos rfl]), (h.scopes t hm).get?_put]
        split <;> rfl

/-- **An assignment changes one variable**: the innermost one of the name, or a new global one. -/
theorem valueAt_assign (h : s.Sound) (x : String) (v : Value) (k : Nat) (z : String) :
    (s.assign x v).1.valueAt k z =
      if k = s.target x ∧ z = x then some v else s.valueAt k z := by
  obtain ⟨f, hf, ht⟩ := h.assign_scopes x v
  obtain ⟨t, -, hs⟩ := scopeAt?_of_lt (h.target_lt x)
  rw [valueAt, hf, scopeAt?_modifyAt, valueAt]
  by_cases hk : k = s.target x
  · simp [hk, hs, (ht t hs).2]
  · simp [hk]

/-- What an assignment reads back is what the name stands for afterwards. -/
theorem get_assign (h : s.Sound) (x : String) (v : Value) :
    (s.assign x v).2 = v ∧ (s.assign x v).1.get x = some v := by
  obtain ⟨s', c, he, hs, hl⟩ := h.assign_eq x v
  have hread := hs.read_write (find?_some hl).1 v
  rw [he]
  refine ⟨hread, ?_⟩
  rw [get, lookup?, Store.write, find?_write]
  show ((s'.lookup? x).map _) = _
  rw [hl]
  exact congrArg some hread

theorem assign (h : s.Sound) (x : String) (v : Value) : (s.assign x v).1.Sound := by
  obtain ⟨s', c, he, hs, -⟩ := h.assign_eq x v
  rw [he]
  exact hs.write c v

/-- Soundness is kept by every access. -/
theorem apply (h : s.Sound) (a : Access) : (s.apply a).Sound := by
  cases a with
  | setGlobal x v => exact h.modifyAt (fun t ht => ht.put x v) 0
  | setLocal x v => exact h.modifyAt (fun t ht => ht.put x v) _
  | pushFrame name params =>
      refine ⟨congrArg (· + 1) h.depth, fun t ht => ?_, h.macros⟩
      rcases List.mem_cons.mp ht with rfl | ht
      · exact .empty
      · exact h.scopes t ht
  | popFrame =>
      rw [Store.apply]
      split
      · exact h
      · next f frames hf =>
        refine ⟨?_, fun t ht => h.scopes t (List.mem_of_mem_tail ht), h.macros⟩
        rw [List.length_tail, h.depth, hf]
        rfl
  | defineMacro name body => exact ⟨h.depth, h.scopes, h.macros.put name body⟩
  | assign x v => exact h.assign x v

theorem macroBody?_apply (h : s.Sound) (a : Access) (m : String) :
    (s.apply a).macroBody? m = (a.body? m).or (s.macroBody? m) := by
  cases a with
  | defineMacro name body =>
      rw [Store.apply, macroBody?, Access.body?, h.macros.get?_put]
      split <;> rfl
  | popFrame =>
      rw [Store.apply]
      split <;> rfl
  | assign x v => exact congrArg (·.get? m) (s.macros_assign x v)
  | _ => rfl

theorem macroBody?_run (h : s.Sound) (as : List Access) (m : String) :
    (as.foldl Store.apply s).macroBody? m = (lastBody? as m).or (s.macroBody? m) :=
  body_foldl Store.apply (·.macroBody? m) Sound (fun _ a h => Sound.apply h a)
    (fun _ a h => macroBody?_apply h a m) as h

end Sound

end Store

end ExprEngine
