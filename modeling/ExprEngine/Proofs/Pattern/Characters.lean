import ExprEngine.Pattern.Basic
import ExprEngine.Proofs.Pattern.Case
import ExprEngine.Proofs.Pattern.Splits

/-!
# Wildcards and characters

The matcher walks the UTF-8 bytes of pattern and text, so a question mark and a class take one byte
each.  That is one character where the text is ASCII, and only there: a character outside ASCII
takes as many question marks as it has bytes, and no class matches it.

* `isMatch_spelling`: a row of tokens without alternations, on bytes.
* `matchesText_iff_bytes`: question marks count bytes.
* `wildcards_take_bytes`: which texts question marks measure in characters, and which characters a
  negated class matches.
-/

namespace ExprEngine.Glob

open Glyph

/-! ### Bytes of a text -/

section

variable {text : String}

theorem length_bytes (text : String) : (bytes text).length = Text.byteSize text.toList := by
  rw [bytes_eq, ← Text.length_bytes, Text.bytes, List.length_flatMap, List.length_flatMap]
  simp

/-- The bytes of an ASCII text are its characters. -/
theorem bytes_of_ascii (h : ∀ c ∈ text.toList, Text.isAscii c = true) :
    bytes text = text.toList.map byte := by
  rw [bytes_eq, List.map_eq_flatMap]
  refine List.flatMap_congr fun c hc => ?_
  rw [Text.utf8EncodeChar_ascii (of_decide_eq_true (h c hc))]
  rfl

/-- A text of one byte is one character of ASCII. -/
theorem bytes_eq_singleton_iff {b : UInt8} :
    bytes text = [b] ↔ ∃ c, text.toList = [c] ∧ Text.isAscii c = true ∧ byte c = b := by
  constructor
  · intro h
    have hsize : Text.byteSize text.toList = 1 := by rw [← length_bytes, h, List.length_singleton]
    have hle := Text.length_le_byteSize text.toList
    have hne : text.toList.length ≠ 0 := by
      rintro hn
      rw [List.eq_nil_of_length_eq_zero hn] at hsize
      cases hsize
    have hone : text.toList.length = 1 := by omega
    have hascii := Text.byteSize_eq_length_iff.mp (hsize.trans hone.symm)
    obtain ⟨c, hc⟩ := List.length_eq_one_iff.mp hone
    rw [bytes_of_ascii hascii, hc, List.map_singleton, List.cons.injEq] at h
    exact ⟨c, hc, hascii c (hc ▸ List.mem_singleton_self c), h.1⟩
  · rintro ⟨c, hc, ha, rfl⟩
    rw [bytes_of_ascii (by rw [hc]; exact List.forall_mem_singleton.mpr ha), hc,
      List.map_singleton]

end

/-! ### Tokens without alternations -/

section

variable {ts : List Token} {text : List UInt8}

/-- What a row of tokens matches: the texts that fall into parts they take. -/
theorem isMatch_spelling (ho : ∀ t ∈ ts, t.isBare (byte '{') = false)
    (hc : ts.count .star ≤ 255) : isMatch (spelling ts) text = true ↔ Splits false ts text :=
  (agrees_outside.mp (agrees (Nat.lt_succ_of_le hc) fun _ => ⟨rfl, ho⟩) ⟨none, text⟩).trans
    spans_to_end

/-- Question marks take as many bytes. -/
theorem splits_any {n : Nat} :
    Splits false (List.replicate n .any) text ↔ text.length = n := by
  induction n generalizing text with
  | zero => rw [List.replicate_zero, splits_nil, List.length_eq_zero_iff]
  | succ n ih =>
      rw [List.replicate_succ, splits_byte (t := .any) nofun]
      simp only [ih, Token.takesByte, Bool.false_and, Bool.not_false, true_and]
      constructor
      · rintro ⟨c, left, rfl, hl⟩
        rw [List.length_cons, hl]
      · intro h
        obtain ⟨c, left, rfl⟩ := List.exists_cons_of_length_eq_add_one h
        exact ⟨c, left, rfl, Nat.succ.inj h⟩

/-- One class takes one byte. -/
theorem splits_class {body : List Glyph} {closed : ∀ g ∈ body, g.isBare (byte ']') = false} :
    Splits false [.ofClass body closed] text ↔ ∃ b, text = [b] ∧ inClass body b = true := by
  rw [splits_byte (t := .ofClass body closed) nofun]
  simp only [splits_nil, Token.takesByte, Bool.false_and, Bool.not_false, Bool.true_and]
  constructor
  · rintro ⟨b, _, rfl, hb, rfl⟩
    exact ⟨b, rfl, hb⟩
  · rintro ⟨b, rfl, hb⟩
    exact ⟨b, [], rfl, hb, rfl⟩

end

/-! ### Texts -/

/-- The pattern of `n` question marks. -/
def questionMarks (n : Nat) : String :=
  String.ofList (List.replicate n '?')

theorem bytes_questionMarks (n : Nat) :
    bytes (questionMarks n) = spelling (List.replicate n .any) := by
  have h : String.utf8EncodeChar '?' = Token.any.spelling := by decide
  rw [bytes_eq, questionMarks, String.toList_ofList]
  induction n with
  | zero => rfl
  | succ n ih =>
      rw [List.replicate_succ, List.replicate_succ, List.flatMap_cons, ih, spelling_cons, h]

/-- Question marks count the bytes of a text. -/
theorem matchesText_iff_bytes {n : Nat} {text : String} :
    matchesText (questionMarks n) text = true ↔ Text.byteSize text.toList = n := by
  have ho : ∀ t ∈ List.replicate n Token.any, t.isBare (byte '{') = false := fun t ht => by
    rw [List.eq_of_mem_replicate ht]
    rfl
  have hc : (List.replicate n Token.any).count .star ≤ 255 := by
    rw [List.count_replicate, if_neg (by decide)]
    exact Nat.zero_le _
  rw [matchesText, bytes_questionMarks, isMatch_spelling ho hc, splits_any, length_bytes]

/-- A class matches texts of one character of ASCII only. -/
theorem matchesText_class {body : List Glyph} (closed : ∀ g ∈ body, g.isBare (byte ']') = false)
    {pattern text : String} (h : bytes pattern = byte '[' :: (spelled body ++ [byte ']'])) :
    matchesText pattern text = true ↔
      ∃ c, text.toList = [c] ∧ Text.isAscii c = true ∧ inClass body (byte c) = true := by
  have hs : bytes pattern = spelling [.ofClass body closed] := by
    rw [h, spelling_cons, Token.spelling_ofClass, spelling_nil, List.append_nil]
  rw [matchesText, hs, isMatch_spelling (by simp [Token.isBare]) (by simp), splits_class]
  simp only [bytes_eq_singleton_iff]
  constructor
  · rintro ⟨_, ⟨c, hc, ha, rfl⟩, hb⟩
    exact ⟨c, hc, ha, hb⟩
  · rintro ⟨c, hc, ha, hb⟩
    exact ⟨byte c, ⟨c, hc, ha, rfl⟩, hb⟩

/-- **Wildcards take bytes.**  Question marks match the texts of so many bytes, which are the texts
of so many characters for ASCII and for no other text; and a negated class matches one character
that is not in it if that is ASCII, and nothing else. -/
theorem wildcards_take_bytes (text : String) :
    (∀ n, matchesText (questionMarks n) text = true ↔ Text.byteSize text.toList = n) ∧
      ((∀ n, matchesText (questionMarks n) text = true ↔ text.length = n) ↔
        ∀ c ∈ text.toList, Text.isAscii c = true) ∧
      ∀ (pattern : String) (body : List Glyph), (∀ g ∈ body, g.isBare (byte ']') = false) →
        bytes pattern = byte '[' :: byte '^' :: (spelled body ++ [byte ']']) →
        (matchesText pattern text = true ↔
          ∃ c, text.toList = [c] ∧ Text.isAscii c = true ∧
            (members body).any (·.holds (byte c)) = false) := by
  refine ⟨fun n => matchesText_iff_bytes, ?_, fun pattern body closed h => ?_⟩
  · simp only [matchesText_iff_bytes, ← Text.byteSize_eq_length_iff, String.length_toList]
    exact ⟨fun h => (h text.length).mpr rfl, fun h n => by rw [h]⟩
  · have hclosed : ∀ g ∈ mark '^' (by decide) :: body, g.isBare (byte ']') = false :=
      List.forall_mem_cons.mpr ⟨by decide, closed⟩
    have hin (b : UInt8) : inClass (mark '^' (by decide) :: body) b =
        !(members body).any (·.holds b) := by rw [inClass, if_pos (by decide)]
    rw [matchesText_class hclosed h]
    simp only [hin, Bool.not_eq_true']

/-- The class `[^a]` on a letter. -/
theorem wildcards_take_bytes_of_letter :
    ((∀ g ∈ [mark 'a' (by decide)], g.isBare (byte ']') = false) ∧
      bytes "[^a]" = byte '[' :: byte '^' :: (spelled [mark 'a' (by decide)] ++ [byte ']'])) ∧
      (matchesText "[^a]" "b" = true ↔ ∃ c, "b".toList = [c] ∧ Text.isAscii c = true ∧
        (members [mark 'a' (by decide)]).any (·.holds (byte c)) = false) := by
  have closed : ∀ g ∈ [mark 'a' (by decide)], g.isBare (byte ']') = false := by decide
  have hb : bytes "[^a]" =
      byte '[' :: byte '^' :: (spelled [mark 'a' (by decide)] ++ [byte ']']) := by decide +kernel
  exact ⟨⟨closed, hb⟩, (wildcards_take_bytes "b").2.2 _ _ closed hb⟩

/-- One character of two bytes is no single wildcard's. -/
theorem wildcards_on_two_bytes :
    "é".length = 1 ∧ matchesText "?" "é" = false ∧ matchesText "??" "é" = true ∧
      matchesText "[^a]" "é" = false := by
  decide +kernel

end ExprEngine.Glob
