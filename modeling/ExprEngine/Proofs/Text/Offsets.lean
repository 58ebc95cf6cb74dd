import ExprEngine.Proofs.Text.Encoding

/-!
# Searching and cutting by byte offsets

A text is held in UTF-8: to search it from a position on, or to cut out a part of it, the position
is turned into a byte offset, and the offset of what is found back into a position.  This module
writes that down and shows it to be the search and the part by characters.

* `Text.of_find?`: a search finds the first place.
* `Text.find?_bytes`: among the bytes, it finds the offset of that place; a text is never found
  inside of a character.
* `Text.cut?_eq`, `Text.search?_eq`: every cut falls between two characters, and the part and the
  index are those by characters.
* `Text.Addressable`: a text whose offsets are words.
-/

namespace ExprEngine.Text

/-! ### First places -/

theorem find?_eq_none_iff {needle cs : List Char} {i : Nat} :
    find? needle cs i = none ↔ ∀ j, ¬needle <+: cs.drop j := by
  induction cs generalizing i with
  | nil =>
      rw [find?]
      cases needle <;> simp
  | cons c cs ih =>
      rw [find?]
      split
      · next hp =>
        exact ⟨nofun, fun h => absurd (List.isPrefixOf_iff_prefix.mp hp) (h 0)⟩
      · next hp =>
        rw [ih]
        refine ⟨fun h j => ?_, fun h j => h (j + 1)⟩
        cases j with
        | zero => exact fun hn => hp (List.isPrefixOf_iff_prefix.mpr hn)
        | succ j => exact h j

/-- What a search finds is the first place. -/
theorem of_find? {needle cs : List Char} {i k : Nat} (h : find? needle cs i = some k) :
    ∃ d, k = i + d ∧ d ≤ cs.length ∧ needle <+: cs.drop d ∧
      ∀ j, j < d → ¬needle <+: cs.drop j := by
  induction cs generalizing i with
  | nil =>
      rw [find?] at h
      cases needle with
      | nil =>
          cases h
          exact ⟨0, rfl, Nat.le_refl _, List.nil_prefix, fun j hj => absurd hj (Nat.not_lt_zero j)⟩
      | cons => cases h
  | cons c cs ih =>
      rw [find?] at h
      split at h
      · next hp =>
        cases h
        exact ⟨0, rfl, Nat.zero_le _, List.isPrefixOf_iff_prefix.mp hp,
          fun j hj => absurd hj (Nat.not_lt_zero j)⟩
      · next hp =>
        obtain ⟨d, rfl, hd, hn, hmin⟩ := ih h
        refine ⟨d + 1, by omega, Nat.succ_le_succ hd, hn, fun j hj => ?_⟩
        cases j with
        | zero => exact fun hn => hp (List.isPrefixOf_iff_prefix.mpr hn)
        | succ j => exact hmin j (Nat.lt_of_succ_lt_succ hj)

/-! ### Bytes inside of a character -/

/-- The byte is not the first one of a character. -/
def isFollowing (u : Char) : Bool :=
  0x80 ≤ u.toNat && u.toNat < 0xC0

theorem isFollowing_of_mem {v k : Nat} {u : Char} (h : u ∈ following v k) :
    isFollowing u = true := by
  induction k with
  | zero => cases h
  | succ k ih =>
      rcases List.mem_cons.mp h with rfl | h
      · have hn := toNat_octet (show v / 64 ^ k % 64 + 0x80 < 256 by omega)
        rw [isFollowing, hn, Bool.and_eq_true, decide_eq_true_eq, decide_eq_true_eq]
        omega
      · exact ih h

theorem Shape.isFollowing_lead {v k mark : Nat} (h : Shape v k mark) :
    isFollowing (octet (mark + v / 64 ^ k)) = false := by
  rw [isFollowing, toNat_octet h.lead_lt, Bool.and_eq_false_iff, decide_eq_false_iff_not,
    decide_eq_false_iff_not]
  cases h <;> omega

theorem utf8Size_of_bytes {c u : Char} {k : Nat}
    (hb : bytes [c] = u :: following c.toNat k) :
    c.utf8Size = (following c.toNat k).length + 1 := by
  have h := congrArg List.length hb
  rw [length_bytes, byteSize_cons, byteSize_nil] at h
  exact h

/-- A text is not found inside of a character: it would start with the first byte of one. -/
theorem find?_following {needle us : List Char} (hn : needle ≠ [])
    (hu : ∀ u ∈ us, isFollowing u = true) (rest : List Char) (i : Nat) :
    find? (bytes needle) (us ++ rest) i = find? (bytes needle) rest (i + us.length) := by
  induction us generalizing i with
  | nil => rfl
  | cons u us ih =>
      have hp : ¬(bytes needle).isPrefixOf (u :: (us ++ rest)) = true := by
        intro hp
        obtain ⟨d, ds, rfl⟩ := List.exists_cons_of_ne_nil hn
        obtain ⟨k, mark, hs, hb⟩ := exists_shape d
        rw [bytes_cons, hb, List.cons_append, List.isPrefixOf_iff_prefix,
          List.cons_prefix_cons] at hp
        have hl := hs.isFollowing_lead
        rw [hp.1, hu u List.mem_cons_self] at hl
        cases hl
      rw [List.cons_append, find?, if_neg hp, ih fun x hx => hu x (List.mem_cons_of_mem u hx),
        List.length_cons, Nat.add_assoc, Nat.add_comm 1]

/-- Where the count starts does not matter. -/
theorem find?_shift (needle cs : List Char) (i : Nat) :
    find? needle cs i = (find? needle cs 0).map (i + ·) := by
  induction cs generalizing i with
  | nil =>
      rw [find?, find?]
      split <;> rfl
  | cons c cs ih =>
      rw [find?, find?]
      split
      · rfl
      · rw [ih, ih 1, Option.map_map]
        congr 1
        funext k
        exact Nat.add_assoc i 1 k

/-- **The first place among the bytes is the offset of the first place among the characters.** -/
theorem find?_bytes (needle cs : List Char) (i : Nat) :
    find? (bytes needle) (bytes cs) i =
      (find? needle cs 0).map fun k => i + byteSize (cs.take k) := by
  induction cs generalizing i with
  | nil =>
      rw [bytes_nil, find?, find?, isEmpty_bytes]
      split <;> rfl
  | cons c cs ih =>
      obtain ⟨k, mark, hs, hb⟩ := exists_shape c
      have hprefix : (bytes needle).isPrefixOf (bytes (c :: cs)) = needle.isPrefixOf (c :: cs) := by
        rw [Bool.eq_iff_iff, List.isPrefixOf_iff_prefix, List.isPrefixOf_iff_prefix,
          bytes_isPrefix_iff]
      rw [bytes_cons, hb, List.cons_append] at hprefix ⊢
      rw [find?, find?, hprefix]
      split
      · rfl
      · next hp =>
        have hn : needle ≠ [] := by
          rintro rfl
          exact hp rfl
        rw [find?_following hn (fun u => isFollowing_of_mem), ih, find?_shift needle cs (0 + 1),
          Option.map_map]
        congr 1
        funext j
        have hsize := utf8Size_of_bytes hb
        rw [Function.comp, Nat.zero_add, Nat.add_comm 1 j, List.take_succ_cons, byteSize_cons]
        omega

/-! ### Cutting and searching by byte offsets -/

/-- Up to `len` characters from the `start`th on, cut out between two byte offsets. -/
def cut? (cs : List Char) (start len : Nat) : Option (List Char) := do
  let rest ← between? cs (byteSize (cs.take start)) (byteSize cs)
  between? rest 0 (byteSize (rest.take len))

/-- The index of the first place from `start` on where `needle` stands: its bytes are found among
those from the offset of the start on, and the characters up to there are counted.  Nothing if a cut
does not fall between two characters. -/
def search? (needle cs : List Char) (start : Nat) : Option (Option Nat) := do
  let offset := byteSize (cs.take start)
  let rest ← between? cs offset (byteSize cs)
  match find? (bytes needle) (bytes rest) 0 with
  | none => return none
  | some b => do
    let passed ← between? cs offset (offset + b)
    return some (start + passed.length)

theorem between?_drop (cs : List Char) (n : Nat) :
    between? cs (byteSize (cs.take n)) (byteSize cs) = some (cs.drop n) := by
  have h := between?_append (cs.take n) (cs.drop n) []
  rwa [List.append_nil, ← byteSize_append, List.take_append_drop] at h

theorem cut?_eq (cs : List Char) (start len : Nat) :
    cut? cs start len = some (slice cs start len) := by
  have h := between?_append [] ((cs.drop start).take len) ((cs.drop start).drop len)
  rw [List.take_append_drop, byteSize_nil, Nat.zero_add] at h
  rw [cut?, between?_drop]
  exact h

theorem search?_eq (needle cs : List Char) (start : Nat) :
    search? needle cs start = some (find? needle (cs.drop start) start) := by
  rw [search?, between?_drop, find?_shift _ _ start]
  simp only [Option.bind_eq_bind, Option.bind_some, find?_bytes, Nat.zero_add]
  cases hf : find? needle (cs.drop start) 0 with
  | none => rfl
  | some k =>
      obtain ⟨d, rfl, hd, -, -⟩ := of_find? hf
      have hb := between?_append (cs.take start) ((cs.drop start).take (0 + d))
        ((cs.drop start).drop (0 + d))
      rw [List.take_append_drop, List.take_append_drop] at hb
      simp only [Option.map_some, hb, Option.bind_some, List.length_take, List.length_drop]
      rw [List.length_drop] at hd
      rw [Nat.min_eq_left (by omega)]
      rfl

/-! ### Texts in memory -/

/-- A text whose bytes are counted by signed words, so that it can be held in memory. -/
def Addressable (cs : List Char) : Prop :=
  byteSize cs < 2 ^ 63

instance (cs : List Char) : Decidable (Addressable cs) :=
  inferInstanceAs (Decidable (byteSize cs < 2 ^ 63))

theorem Addressable.length_lt {cs : List Char} (h : Addressable cs) :
    cs.length < 2 ^ 63 :=
  Nat.lt_of_le_of_lt (length_le_byteSize cs) h

end ExprEngine.Text
