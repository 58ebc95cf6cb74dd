import ExprEngine.Pattern.Glob.Matcher

/-!
# Glyphs and classes of globs

A backslash takes the next byte with it.  So a pattern is a row of glyphs, each of them one byte
that means itself or one byte behind a backslash; only a backslash at the very end is left over.
What searches a pattern for a byte that no backslash escapes searches its glyphs.

* `findUnescaped?_spelled`: the search, over glyphs.
* `members`, `inClass`: what the body of a class means, said apart from how it is scanned.
* `classUsed?_spelled`: a class ends at its first bare bracket and takes the bytes `inClass` says.
-/

namespace ExprEngine.Glob

/-! ### Glyphs -/

/-- A byte of a pattern, with or without a backslash in front. -/
inductive Glyph where
  | bare (b : UInt8) (unescaped : b ≠ byte '\\')
  | escaped (b : UInt8)
deriving DecidableEq

namespace Glyph

/-- The byte that is meant. -/
def val : Glyph → UInt8
  | bare b _ => b
  | escaped b => b

/-- The bytes that are written. -/
def spelling : Glyph → List UInt8
  | bare b _ => [b]
  | escaped b => [byte '\\', b]

/-- The byte `c` stands here without a backslash. -/
def isBare (c : UInt8) : Glyph → Bool
  | bare b _ => b == c
  | escaped _ => false

/-- A character that stands for itself. -/
def mark (c : Char) (h : byte c ≠ byte '\\') : Glyph :=
  bare (byte c) h

@[simp] theorem spelling_mark (c : Char) (h : byte c ≠ byte '\\') :
    (mark c h).spelling = [byte c] := rfl

theorem eq_mark {g : Glyph} {c : Char} (h : byte c ≠ byte '\\')
    (hg : g.isBare (byte c) = true) : g = mark c h := by
  cases g with
  | bare b hb =>
      obtain rfl : b = byte c := eq_of_beq hg
      rfl
  | escaped b => cases hg

theorem spelling_of_isBare {g : Glyph} {c : UInt8} (hg : g.isBare c = true) :
    g.spelling = [c] := by
  cases g with
  | bare b hb => exact congrArg ([·]) (eq_of_beq hg)
  | escaped b => cases hg

theorem spelling_ne_nil (g : Glyph) : g.spelling ≠ [] := by
  cases g <;> simp [spelling]

theorem head?_spelling {c : UInt8} (hc : c ≠ byte '\\') (g : Glyph) (cs : List UInt8) :
    (g.spelling ++ cs).head? = some c ↔ g.isBare c = true := by
  cases g with
  | bare b hb => simp [spelling, isBare]
  | escaped b => simp [spelling, isBare, hc.symm]

end Glyph

open Glyph

/-- The bytes of a row of glyphs. -/
def spelled (gs : List Glyph) : List UInt8 :=
  gs.flatMap Glyph.spelling

@[simp] theorem spelled_nil : spelled [] = [] := rfl

@[simp] theorem spelled_cons (g : Glyph) (gs : List Glyph) :
    spelled (g :: gs) = g.spelling ++ spelled gs :=
  List.flatMap_cons

@[simp] theorem spelled_append (gs hs : List Glyph) :
    spelled (gs ++ hs) = spelled gs ++ spelled hs :=
  List.flatMap_append

/-- A row of glyphs up to the first bare `c`. -/
theorem split_at_bare (c : UInt8) (gs : List Glyph) :
    (∀ g ∈ gs, g.isBare c = false) ∨
      ∃ front g rest, (∀ g ∈ front, g.isBare c = false) ∧ g.isBare c = true ∧
        gs = front ++ g :: rest := by
  cases h : gs.find? (·.isBare c) with
  | none => exact .inl (by simpa using h)
  | some g =>
      obtain ⟨hg, front, rest, hgs, hf⟩ := List.find?_eq_some_iff_append.mp h
      exact .inr ⟨front, g, rest, by simpa using hf, hg, hgs⟩

/-- The last byte of a pattern is a backslash that escapes nothing. -/
def dangles : List UInt8 → Bool
  | [] => false
  | [b] => b == byte '\\'
  | b :: c :: rest => if b = byte '\\' then dangles rest else dangles (c :: rest)

theorem dangles_spelling (g : Glyph) (cs : List UInt8) :
    dangles (g.spelling ++ cs) = dangles cs := by
  cases g with
  | bare b hb => cases cs <;> simp [spelling, dangles, hb]
  | escaped b => simp [spelling, dangles]

theorem dangles_spelled (gs : List Glyph) (cs : List UInt8) :
    dangles (spelled gs ++ cs) = dangles cs := by
  induction gs with
  | nil => rfl
  | cons g gs ih => rw [spelled_cons, List.append_assoc, dangles_spelling, ih]

theorem exists_glyph (cs : List UInt8) :
    cs = [] ∨ cs = [byte '\\'] ∨ ∃ g : Glyph, ∃ rest, cs = g.spelling ++ rest := by
  match cs with
  | [] => exact .inl rfl
  | [b] =>
      by_cases hb : b = byte '\\'
      · exact .inr (.inl (hb ▸ rfl))
      · exact .inr (.inr ⟨.bare b hb, [], rfl⟩)
  | b :: c :: rest =>
      by_cases hb : b = byte '\\'
      · exact .inr (.inr ⟨.escaped c, rest, hb ▸ rfl⟩)
      · exact .inr (.inr ⟨.bare b hb, c :: rest, rfl⟩)

/-- A pattern is read glyph by glyph, down to nothing or to a backslash at the end. -/
theorem glyph_induction {motive : List UInt8 → Prop} (nil : motive [])
    (dangling : motive [byte '\\'])
    (glyph : ∀ (g : Glyph) rest, motive rest → motive (g.spelling ++ rest)) (cs : List UInt8) :
    motive cs := by
  induction hn : cs.length using Nat.strongRecOn generalizing cs with
  | ind n ih =>
      subst hn
      obtain rfl | rfl | ⟨g, rest, rfl⟩ := exists_glyph cs
      · exact nil
      · exact dangling
      · have hlt : rest.length < (g.spelling ++ rest).length := by
          rw [List.length_append]
          exact Nat.lt_add_of_pos_left (List.length_pos_iff.mpr g.spelling_ne_nil)
        exact glyph g rest (ih _ hlt rest rfl)

/-- A pattern that does not end in the middle of an escape is a row of glyphs. -/
theorem exists_spelled {cs : List UInt8} (hd : dangles cs = false) : ∃ gs, spelled gs = cs := by
  induction cs using glyph_induction with
  | nil => exact ⟨[], rfl⟩
  | dangling => cases hd
  | glyph g rest ih =>
      obtain ⟨gs, rfl⟩ := ih ((dangles_spelling g rest).symm.trans hd)
      exact ⟨g :: gs, spelled_cons g gs⟩

theorem dangles_append {cs : List UInt8} (hd : dangles cs = false) (ds : List UInt8) :
    dangles (cs ++ ds) = dangles ds := by
  obtain ⟨gs, rfl⟩ := exists_spelled hd
  exact dangles_spelled gs ds

/-! ### Searching -/

section

variable {needle : UInt8} {gs : List Glyph} {cs : List UInt8}

theorem findUnescaped?_spelling (hn : needle ≠ byte '\\') (g : Glyph) (cs : List UInt8) :
    findUnescaped? needle (g.spelling ++ cs) =
      if g.isBare needle then some 0
      else (findUnescaped? needle cs).map (· + g.spelling.length) := by
  cases g with
  | bare b hb =>
      cases cs with
      | nil => by_cases h : b = needle <;> simp [spelling, isBare, findUnescaped?, h, hb, hn]
      | cons c cs => simp [spelling, isBare, findUnescaped?, hb]
  | escaped b => simp [spelling, isBare, findUnescaped?]

theorem findUnescaped?_spelled (hn : needle ≠ byte '\\') (h : ∀ g ∈ gs, g.isBare needle = false)
    (cs : List UInt8) :
    findUnescaped? needle (spelled gs ++ cs) =
      (findUnescaped? needle cs).map (· + (spelled gs).length) := by
  induction gs with
  | nil => simp
  | cons g gs ih =>
      rw [List.forall_mem_cons] at h
      rw [spelled_cons, List.append_assoc, findUnescaped?_spelling hn, ih h.2, h.1,
        if_neg Bool.false_ne_true, Option.map_map, List.length_append]
      congr 1
      funext n
      exact (Nat.add_right_comm ..).trans (Nat.add_assoc ..)

theorem findUnescaped?_eq_none_iff (hn : needle ≠ byte '\\') :
    findUnescaped? needle (spelled gs) = none ↔ ∀ g ∈ gs, g.isBare needle = false := by
  induction gs with
  | nil => simp [findUnescaped?]
  | cons g gs ih =>
      rw [spelled_cons, findUnescaped?_spelling hn, List.forall_mem_cons, ← ih]
      cases g.isBare needle <;> simp

theorem findUnescaped?_append (hn : needle ≠ byte '\\') (hd : dangles cs = false)
    (h : findUnescaped? needle cs = none) (ds : List UInt8) :
    findUnescaped? needle (cs ++ ds) = (findUnescaped? needle ds).map (· + cs.length) := by
  obtain ⟨gs, rfl⟩ := exists_spelled hd
  exact findUnescaped?_spelled hn ((findUnescaped?_eq_none_iff hn).mp h) ds

theorem findUnescaped?_self (hn : needle ≠ byte '\\') (cs : List UInt8) :
    findUnescaped? needle (needle :: cs) = some 0 := by
  have h := findUnescaped?_spelling hn (.bare needle hn) cs
  rwa [isBare, beq_self_eq_true, if_pos rfl] at h

theorem findUnescaped?_first (hn : needle ≠ byte '\\') (h : ∀ g ∈ gs, g.isBare needle = false)
    (cs : List UInt8) :
    findUnescaped? needle (spelled gs ++ needle :: cs) = some (spelled gs).length := by
  rw [findUnescaped?_spelled hn h, findUnescaped?_self hn, Option.map_some, Nat.zero_add]

/-- What a search passes over is a row of glyphs without the byte that is sought. -/
theorem exists_of_findUnescaped? {n : Nat} (hn : needle ≠ byte '\\')
    (h : findUnescaped? needle cs = some n) :
    ∃ gs rest, (∀ g ∈ gs, g.isBare needle = false) ∧ cs = spelled gs ++ needle :: rest := by
  fun_induction findUnescaped? needle cs generalizing n with
  | case1 => cases h
  | case2 b hb =>
      obtain ⟨-, rfl⟩ := hb
      exact ⟨[], [], nofun, rfl⟩
  | case3 => cases h
  | case4 c rest ih =>
      obtain ⟨k, hk, -⟩ := Option.map_eq_some_iff.mp h
      obtain ⟨gs, more, hg, rfl⟩ := ih hk
      exact ⟨.escaped c :: gs, more, List.forall_mem_cons.mpr ⟨rfl, hg⟩, rfl⟩
  | case5 c rest => exact ⟨[], c :: rest, nofun, rfl⟩
  | case6 b c rest hb hne ih =>
      obtain ⟨k, hk, -⟩ := Option.map_eq_some_iff.mp h
      obtain ⟨gs, more, hg, he⟩ := ih hk
      have hother : (bare b hb).isBare needle = false := beq_eq_false_iff_ne.mpr hne
      refine ⟨.bare b hb :: gs, more, List.forall_mem_cons.mpr ⟨hother, hg⟩, ?_⟩
      rw [he]
      rfl

end

/-! ### Classes -/

/-- A member of a class. -/
inductive Member where
  | one (b : UInt8)
  | range (lo hi : UInt8)
deriving DecidableEq

/-- The byte is the member or lies in the range, all folded to lower case. -/
def Member.holds (b : UInt8) : Member → Bool
  | .one c => Ascii.lower c == Ascii.lower b
  | .range lo hi => Ascii.lower lo ≤ Ascii.lower b && Ascii.lower b ≤ Ascii.lower hi

/-- The members that stand in a row of glyphs.  A bare dash between two glyphs makes a range. -/
def members : List Glyph → List Member
  | lo :: dash :: hi :: rest =>
    if dash.isBare (byte '-') then .range lo.val hi.val :: members rest
    else .one lo.val :: members (dash :: hi :: rest)
  | lo :: rest => .one lo.val :: members rest
  | [] => []

/-- The byte is in the class with this body: a member holds it, or none after a bare `^`. -/
def inClass (body : List Glyph) (b : UInt8) : Bool :=
  match body with
  | [] => false
  | g :: rest =>
    if g.isBare (byte '^') then !(members rest).any (·.holds b)
    else (members (g :: rest)).any (·.holds b)

section

variable {body : List Glyph} {b : UInt8} {cs rest : List UInt8}

theorem classByte_spelling (g : Glyph) (cs : List UInt8) :
    classByte (g.spelling ++ cs) = some (g.val, cs) := by
  cases g with
  | bare b hb => cases cs <;> simp [spelling, val, classByte, hb]
  | escaped b => simp [spelling, val, classByte]

theorem rangeEnd_of_head (h : cs.head? ≠ some (byte '-')) : rangeEnd cs = some (none, cs) := by
  unfold rangeEnd
  split
  · rw [if_neg]
    rintro ⟨rfl, -⟩
    exact h rfl
  · rfl

theorem rangeEnd_dash (cs : List UInt8) :
    rangeEnd (byte '-' :: byte ']' :: cs) = some (none, byte '-' :: byte ']' :: cs) := by
  simp [rangeEnd]

theorem rangeEnd_range {dash hi : Glyph} (hd : dash.isBare (byte '-') = true)
    (hh : hi.isBare (byte ']') = false) (cs : List UInt8) :
    rangeEnd (dash.spelling ++ (hi.spelling ++ cs)) = some (some hi.val, cs) := by
  have hb := classByte_spelling hi cs
  have hne : (hi.spelling ++ cs).head? ≠ some (byte ']') := by
    rw [Ne, head?_spelling (by decide), hh]
    nofun
  rw [spelling_of_isBare hd]
  cases hcs : hi.spelling ++ cs with
  | nil => exact absurd (List.append_eq_nil_iff.mp hcs).1 hi.spelling_ne_nil
  | cons e rest =>
      rw [hcs] at hb hne
      rw [List.singleton_append, rangeEnd, if_pos ⟨rfl, fun he => hne (congrArg some he)⟩, hb]
      rfl

theorem classItems_end (b : UInt8) (cs : List UInt8) :
    classItems b (byte ']' :: cs) = some (false, cs) := by
  rw [classItems, if_pos rfl]

theorem classItems_cons {c : UInt8} (hc : c ≠ byte ']') (cs : List UInt8) :
    classItems b (c :: cs) =
      (classByte (c :: cs)).bind fun (lo, more) => (rangeEnd more).bind fun (hi, more) =>
        (classItems b more).map fun (hit, rest) => (inItem b lo hi || hit, rest) := by
  rw [classItems, if_neg hc]
  split
  · next h => rw [h]; rfl
  · next lo more h =>
    rw [h, Option.bind_some]
    dsimp only
    split
    · next h => rw [h]; rfl
    · next h => rw [h]; rfl

theorem classItems_member {g : Glyph} {hi : Option UInt8} (hg : g.isBare (byte ']') = false)
    (hr : rangeEnd cs = some (hi, rest)) :
    classItems b (g.spelling ++ cs) =
      (classItems b rest).map fun (hit, more) => (inItem b g.val hi || hit, more) := by
  have hb := classByte_spelling g cs
  have hne : (g.spelling ++ cs).head? ≠ some (byte ']') := by
    rw [Ne, head?_spelling (by decide), hg]
    nofun
  cases hcs : g.spelling ++ cs with
  | nil => exact absurd (List.append_eq_nil_iff.mp hcs).1 g.spelling_ne_nil
  | cons e more =>
      rw [hcs] at hb hne
      rw [classItems_cons fun he => hne (congrArg some he), hb, Option.bind_some]
      dsimp only
      rw [hr, Option.bind_some]

theorem classItems_spelled (b : UInt8) (closed : ∀ g ∈ body, g.isBare (byte ']') = false)
    (cs : List UInt8) :
    classItems b (spelled body ++ byte ']' :: cs) =
      some ((members body).any (·.holds b), cs) := by
  fun_induction members body with
  | case1 lo dash hi rest hd ih =>
      simp only [List.forall_mem_cons] at closed
      obtain ⟨hlo, -, hhi, hrest⟩ := closed
      simp only [spelled_cons, List.append_assoc]
      rw [classItems_member hlo (rangeEnd_range hd hhi _), ih hrest]
      rfl
  | case2 lo dash hi rest hd ih =>
      rw [List.forall_mem_cons] at closed
      have hr : rangeEnd (spelled (dash :: hi :: rest) ++ byte ']' :: cs) =
          some (none, spelled (dash :: hi :: rest) ++ byte ']' :: cs) := by
        refine rangeEnd_of_head fun h => hd ?_
        rwa [spelled_cons, List.append_assoc, head?_spelling (by decide)] at h
      rw [spelled_cons, List.append_assoc, classItems_member closed.1 hr, ih closed.2]
      rfl
  | case3 lo rest hrest ih =>
      rw [List.forall_mem_cons] at closed
      have hr : rangeEnd (spelled rest ++ byte ']' :: cs) =
          some (none, spelled rest ++ byte ']' :: cs) := by
        match rest, hrest with
        | [], _ => exact rangeEnd_of_head (by rw [spelled_nil]; exact fun h => by cases h)
        | [g], _ =>
          by_cases hg : g.isBare (byte '-') = true
          · -- A dash before the closing bracket is a member like others.
            rw [eq_mark (by decide) hg]
            exact rangeEnd_dash cs
          · refine rangeEnd_of_head fun h => hg ?_
            rwa [spelled_cons, List.append_assoc, head?_spelling (by decide)] at h
        | dash :: hi :: rest, h => exact absurd rfl (h dash hi rest)
      rw [spelled_cons, List.append_assoc, classItems_member closed.1 hr, ih closed.2]
      rfl
  | case4 => exact classItems_end b cs

theorem classRest?_caret {hit : Bool} (h : classItems b cs = some (hit, rest)) :
    classRest? b (byte '^' :: cs) = if hit then none else some rest := by
  cases hit <;> simp [classRest?, h]

theorem classRest?_of_head {hit : Bool} (hc : cs.head? ≠ some (byte '^'))
    (h : classItems b cs = some (hit, rest)) :
    classRest? b cs = if hit then some rest else none := by
  cases cs with
  | nil => rw [classItems] at h; cases h
  | cons c cs =>
      have hne : c ≠ byte '^' := fun he => hc (he ▸ rfl)
      simp [classRest?, h, hne]

theorem classRest?_spelled (b : UInt8) (closed : ∀ g ∈ body, g.isBare (byte ']') = false)
    (cs : List UInt8) :
    classRest? b (spelled body ++ byte ']' :: cs) =
      if inClass body b then some cs else none := by
  have hb := classItems_spelled b closed cs
  cases body with
  | nil => exact classRest?_of_head (fun h => by cases h) hb
  | cons g rest =>
      by_cases hg : g.isBare (byte '^') = true
      · rw [List.forall_mem_cons] at closed
        rw [inClass, if_pos hg, spelled_cons, spelling_of_isBare hg, List.append_assoc,
          List.singleton_append, classRest?_caret (classItems_spelled b closed.2 cs)]
        cases (members rest).any (·.holds b) <;> rfl
      · rw [inClass, if_neg hg]
        refine classRest?_of_head (fun h => hg ?_) hb
        rwa [spelled_cons, List.append_assoc, head?_spelling (by decide)] at h

theorem classUsed?_spelled (b : UInt8) (closed : ∀ g ∈ body, g.isBare (byte ']') = false)
    (cs : List UInt8) :
    classUsed? b (spelled body ++ byte ']' :: cs) =
      if inClass body b then some ((spelled body).length + 1) else none := by
  rw [classUsed?, classRest?_spelled b closed]
  split
  · rw [Option.map_some, List.length_append, List.length_cons]
    congr 1
    omega
  · rfl

end

end ExprEngine.Glob
