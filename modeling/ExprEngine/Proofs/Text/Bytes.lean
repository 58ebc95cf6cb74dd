import ExprEngine.Text.Ascii
import ExprEngine.Text.Blank
import ExprEngine.Text.Position

/-!
# Texts and their bytes

A source is scanned byte by byte, and what is found is cut out of its text.  This module says when
the two agree: a scan that stops at ASCII characters only stops between characters.

* `Text.bytes`: the bytes of a text, each as the character of its number, so that what is ASCII
  stands for itself and no other byte does.
* `Text.between?_append`: what lies between two parts of a text can be cut out of it.
* `Text.takeWhile_bytes`: scanning the bytes is scanning the characters, if characters outside ASCII
  are all alike.
* `Text.AsciiOnly`: what is read depends on the characters up to the first one outside ASCII.
* `Text.MarksOnly`: it depends on those up to the first blank.
-/

namespace ExprEngine.Text

/-! ### Bytes -/

/-- The character of a byte's number. -/
def ofByte (b : UInt8) : Char :=
  Char.ofNat b.toNat

/-- The bytes of a text, each as the character of its number. -/
def bytes (cs : List Char) : List Char :=
  cs.flatMap fun c => (String.utf8EncodeChar c).map ofByte

/-- The character is its own byte. -/
def isAscii (c : Char) : Bool :=
  c.toNat < 128

@[simp] theorem bytes_nil : bytes [] = [] := rfl

@[simp] theorem bytes_append (a b : List Char) : bytes (a ++ b) = bytes a ++ bytes b :=
  List.flatMap_append

theorem bytes_cons (c : Char) (cs : List Char) : bytes (c :: cs) = bytes [c] ++ bytes cs :=
  bytes_append [c] cs

@[simp] theorem length_bytes (cs : List Char) : (bytes cs).length = byteSize cs := by
  induction cs with
  | nil => rfl
  | cons c cs ih =>
      rw [bytes_cons, List.length_append, ih, byteSize_cons]
      simp [bytes]

theorem toNat_ofByte (b : UInt8) : (ofByte b).toNat = b.toNat := by
  have hv : b.toNat.isValidChar := .inl (Nat.lt_trans b.toNat_lt (by decide))
  rw [ofByte, Char.ofNat, dif_pos hv]
  rfl

theorem utf8EncodeChar_ascii {c : Char} (h : c.toNat < 128) :
    String.utf8EncodeChar c = [UInt8.ofNat c.toNat] := by
  simp [String.utf8EncodeChar, Nat.le_of_lt_succ h]

theorem bytes_cons_ascii {c : Char} (h : isAscii c = true) (cs : List Char) :
    bytes (c :: cs) = c :: bytes cs := by
  replace h : c.toNat < 128 := of_decide_eq_true h
  have he := utf8EncodeChar_ascii h
  have hc : ofByte (UInt8.ofNat c.toNat) = c := by
    rw [ofByte, UInt8.toNat_ofNat', Nat.mod_eq_of_lt (by omega), Char.ofNat_toNat]
  rw [bytes_cons, bytes]
  simp [he, hc]

/-- No byte of a character outside ASCII is ASCII. -/
theorem isAscii_of_mem_bytes {c u : Char} (h : isAscii c = false) (hu : u ∈ bytes [c]) :
    isAscii u = false := by
  simp only [bytes, List.flatMap_cons, List.flatMap_nil, List.append_nil, List.mem_map] at hu
  obtain ⟨b, hb, rfl⟩ := hu
  have hv : ¬c.val.toNat ≤ 127 := by
    have hn : ¬c.val.toNat < 128 := of_decide_eq_false h
    omega
  have hb : 128 ≤ b.toNat := by
    simp only [String.utf8EncodeChar, hv, if_false] at hb
    split at hb
    · simp only [List.mem_cons, List.not_mem_nil, or_false] at hb
      rcases hb with rfl | rfl <;> rw [UInt8.toNat_ofNat'] <;> omega
    split at hb
    · simp only [List.mem_cons, List.not_mem_nil, or_false] at hb
      rcases hb with rfl | rfl | rfl <;> rw [UInt8.toNat_ofNat'] <;> omega
    · simp only [List.mem_cons, List.not_mem_nil, or_false] at hb
      rcases hb with rfl | rfl | rfl | rfl <;> rw [UInt8.toNat_ofNat'] <;> omega
  rw [isAscii, toNat_ofByte]
  exact decide_eq_false (Nat.not_lt.mpr hb)

/-- A character outside ASCII starts with a byte that is not. -/
theorem bytes_cons_other {c : Char} (h : isAscii c = false) (cs : List Char) :
    ∃ u us, isAscii u = false ∧ (∀ v ∈ us, isAscii v = false) ∧
      bytes (c :: cs) = u :: (us ++ bytes cs) := by
  have hne : bytes [c] ≠ [] := by
    intro hn
    have hl := length_bytes [c]
    rw [hn, byteSize_cons] at hl
    have := c.utf8Size_pos
    simp at hl
    omega
  obtain ⟨u, us, hu⟩ := List.exists_cons_of_ne_nil hne
  have hall : ∀ v ∈ u :: us, isAscii v = false := fun v hv => isAscii_of_mem_bytes h (hu ▸ hv)
  refine ⟨u, us, hall u List.mem_cons_self, fun v hv => hall v (List.mem_cons_of_mem u hv), ?_⟩
  rw [bytes_cons, hu, List.cons_append]

@[simp] theorem isEmpty_bytes (cs : List Char) : (bytes cs).isEmpty = cs.isEmpty := by
  cases cs with
  | nil => rfl
  | cons c cs =>
      cases hc : isAscii c with
      | true => rw [bytes_cons_ascii hc]; rfl
      | false =>
          obtain ⟨u, us, -, -, hb⟩ := bytes_cons_other hc cs
          rw [hb]
          rfl

/-- An ASCII character among the bytes stands for itself. -/
theorem cons_of_bytes {x : Char} {cs us : List Char} (hx : isAscii x = true)
    (h : bytes cs = x :: us) : ∃ rest, cs = x :: rest ∧ bytes rest = us := by
  cases cs with
  | nil => cases h
  | cons c cs =>
      cases hc : isAscii c with
      | true =>
          rw [bytes_cons_ascii hc] at h
          obtain ⟨rfl, rfl⟩ := List.cons.inj h
          exact ⟨cs, rfl, rfl⟩
      | false =>
          obtain ⟨u, us, hu, -, hb⟩ := bytes_cons_other hc cs
          obtain ⟨rfl, -⟩ := List.cons.inj (hb.symm.trans h)
          cases hx.symm.trans hu

/-- Characters of ASCII are one byte each. -/
theorem byteSize_of_ascii {cs : List Char} (h : ∀ c ∈ cs, isAscii c = true) :
    byteSize cs = cs.length := by
  induction cs with
  | nil => rfl
  | cons c cs ih =>
      have hc := congrArg List.length (bytes_cons_ascii (h c List.mem_cons_self) [])
      rw [length_bytes] at hc
      rw [byteSize_cons, ih fun d hd => h d (List.mem_cons_of_mem c hd), List.length_cons]
      simp at hc
      omega

theorem length_le_byteSize (cs : List Char) : cs.length ≤ byteSize cs := by
  induction cs with
  | nil => exact Nat.le_refl _
  | cons c cs ih =>
      have := c.utf8Size_pos
      rw [byteSize_cons, List.length_cons]
      omega

/-- Only characters of ASCII are one byte each. -/
theorem byteSize_eq_length_iff {cs : List Char} :
    byteSize cs = cs.length ↔ ∀ c ∈ cs, isAscii c = true := by
  refine ⟨fun h => ?_, byteSize_of_ascii⟩
  induction cs with
  | nil => nofun
  | cons c cs ih =>
      have hpos := c.utf8Size_pos
      have hle := length_le_byteSize cs
      rw [byteSize_cons, List.length_cons] at h
      have hone : c.utf8Size = 1 := by omega
      rw [Char.utf8Size_eq_one_iff] at hone
      have hc : isAscii c = true := decide_eq_true (Nat.lt_succ_of_le (UInt32.le_iff_toNat_le.mp hone))
      exact List.forall_mem_cons.mpr ⟨hc, ih (by omega)⟩

/-! ### Cutting -/

theorem dropBytes?_append (a b : List Char) :
    between?.dropBytes? (a ++ b) (byteSize a) = some b := by
  induction a with
  | nil => cases b <;> rfl
  | cons c a ih =>
      obtain ⟨n, hn⟩ : ∃ n, byteSize (c :: a) = n + 1 := by
        have := c.utf8Size_pos
        exact ⟨c.utf8Size + byteSize a - 1, by rw [byteSize_cons]; omega⟩
      rw [hn, List.cons_append, between?.dropBytes?, ← hn, byteSize_cons,
        if_pos (Nat.le_add_right _ _), Nat.add_sub_cancel_left, ih]

theorem takeBytes?_append (a b : List Char) :
    between?.takeBytes? (a ++ b) (byteSize a) = some a := by
  induction a with
  | nil => cases b <;> rfl
  | cons c a ih =>
      obtain ⟨n, hn⟩ : ∃ n, byteSize (c :: a) = n + 1 := by
        have := c.utf8Size_pos
        exact ⟨c.utf8Size + byteSize a - 1, by rw [byteSize_cons]; omega⟩
      rw [hn, List.cons_append, between?.takeBytes?, ← hn, byteSize_cons,
        if_pos (Nat.le_add_right _ _), Nat.add_sub_cancel_left, ih]
      rfl

/-- What lies between two parts of a text can be cut out of it. -/
theorem between?_append (a b c : List Char) :
    between? (a ++ (b ++ c)) (byteSize a) (byteSize a + byteSize b) = some b := by
  rw [between?, if_neg (Nat.not_lt.mpr (Nat.le_add_right _ _)), dropBytes?_append,
    Nat.add_sub_cancel_left]
  exact takeBytes?_append b c

/-! ### Classes of characters -/

variable {p : Char → Bool} {cs t : List Char} {x : Char}

/-- A predicate of ASCII characters. -/
def OfAscii (p : Char → Bool) : Prop :=
  ∀ c, p c = true → isAscii c = true

theorem isAlphanum_ofAscii : OfAscii Char.isAlphanum := by
  intro c h
  rw [Char.isAlphanum, Bool.or_eq_true] at h
  rw [isAscii, decide_eq_true_eq]
  rcases h with h | h
  · exact Nat.lt_of_le_of_lt (Ascii.toNat_of_isAlpha h).2 (by decide)
  · exact Nat.lt_of_le_of_lt (Ascii.toNat_of_isDigit h).2 (by decide)

theorem isDigit_ofAscii : OfAscii Char.isDigit := fun c h =>
  isAlphanum_ofAscii c (by simp [Char.isAlphanum, h])

theorem isWord_ofAscii : OfAscii Ascii.isWord := by
  intro c h
  simp only [Ascii.isWord, Bool.or_eq_true, beq_iff_eq] at h
  rcases h with h | rfl
  · exact isAlphanum_ofAscii c h
  · rfl

theorem isBlank_ofAscii : OfAscii Ascii.isBlank := by
  intro c h
  simp only [Ascii.isBlank, Bool.or_eq_true, beq_iff_eq] at h
  rcases h with (((rfl | rfl) | rfl) | rfl) | rfl <;> rfl

theorem isWordStart_ofAscii : OfAscii Ascii.isWordStart := fun c h =>
  isWord_ofAscii c (Ascii.isWord_of_isWordStart h)

theorem isQuote_ofAscii : OfAscii Ascii.isQuote := by
  intro c h
  simp only [Ascii.isQuote, Bool.or_eq_true, beq_iff_eq] at h
  rcases h with (rfl | rfl) | rfl <;> rfl

/-- The predicate does not tell characters outside ASCII apart. -/
def Coarse (p : Char → Bool) : Prop :=
  ∀ c d, isAscii c = false → isAscii d = false → p c = p d

theorem OfAscii.eq_false (h : OfAscii p) {c : Char} (hc : isAscii c = false) : p c = false := by
  cases hp : p c with
  | false => rfl
  | true => cases hc.symm.trans (h c hp)

theorem OfAscii.coarse (h : OfAscii p) : Coarse p := by
  intro c d hc hd
  rw [h.eq_false hc, h.eq_false hd]

theorem Coarse.of_true (h : ∀ c, p c = false → isAscii c = true) : Coarse p := by
  have ht : ∀ c, isAscii c = false → p c = true := by
    intro c hc
    cases hp : p c with
    | true => rfl
    | false => cases hc.symm.trans (h c hp)
  intro c d hc hd
  rw [ht c hc, ht d hd]

/-! ### Scanning -/

/-- Scanning the bytes of a text is scanning its characters. -/
theorem takeWhile_bytes (hp : Coarse p) (cs : List Char) :
    (bytes cs).takeWhile p = bytes (cs.takeWhile p) ∧
      (bytes cs).dropWhile p = bytes (cs.dropWhile p) := by
  induction cs with
  | nil => exact ⟨rfl, rfl⟩
  | cons c cs ih =>
      cases hc : isAscii c with
      | true =>
          rw [bytes_cons_ascii hc]
          cases hpc : p c with
          | true => simp [hpc, ih, bytes_cons_ascii hc]
          | false => simp [hpc, bytes_cons_ascii hc]
      | false =>
          have hall : ∀ u ∈ bytes [c], p u = p c := fun u hu =>
            hp u c (isAscii_of_mem_bytes hc hu) hc
          cases hpc : p c with
          | true =>
              have hall : ∀ u ∈ bytes [c], p u = true := fun u hu => (hall u hu).trans hpc
              rw [bytes_cons, List.takeWhile_append_of_pos hall, List.dropWhile_append_of_pos hall]
              simp [hpc, ih, ← bytes_cons]
          | false =>
              obtain ⟨u, us, hu, -, hb⟩ := bytes_cons_other hc cs
              have hpu : p u = false := (hp u c hu hc).trans hpc
              simp [hb, hpc, hpu]

/-! ### Reading ASCII -/

theorem cons_of_takeWhile (h : cs.takeWhile p = x :: t) : ∃ r, cs = x :: r ∧ r.takeWhile p = t := by
  cases cs with
  | nil => cases h
  | cons c cs =>
      cases hc : p c with
      | true =>
          simp only [List.takeWhile_cons, hc, if_true, List.cons.injEq] at h
          exact ⟨cs, by rw [h.1], h.2⟩
      | false => simp [hc] at h

theorem bytes_of_ascii (h : ∀ c ∈ cs, isAscii c = true) : bytes cs = cs := by
  induction cs with
  | nil => rfl
  | cons c cs ih =>
      rw [bytes_cons_ascii (h c List.mem_cons_self), ih fun d hd => h d (List.mem_cons_of_mem c hd)]

/-- What is read depends on the characters up to the first one outside ASCII. -/
def AsciiOnly {α : Type} (read : List Char → α) : Prop :=
  ∀ cs, read (cs.takeWhile isAscii) = read cs

namespace AsciiOnly

variable {α : Type} {read : List Char → α}

theorem bytes (h : AsciiOnly read) (cs : List Char) : read (bytes cs) = read cs := by
  have hp : Coarse isAscii := OfAscii.coarse fun _ hc => hc
  have hall : ∀ c ∈ cs.takeWhile isAscii, isAscii c = true := fun c hc =>
    List.all_eq_true.mp List.all_takeWhile c hc
  rw [← h, (takeWhile_bytes hp cs).1, bytes_of_ascii hall, h]

/-- What does not look behind ASCII reads ASCII only. -/
theorem of_append
    (h : ∀ cs post, (∀ c, post.head? = some c → isAscii c = false) → read (cs ++ post) = read cs) :
    AsciiOnly read := by
  intro cs
  have hp : ∀ c, (cs.dropWhile isAscii).head? = some c → isAscii c = false := by
    intro c hc
    have hn := List.head?_dropWhile_not isAscii cs
    rwa [hc] at hn
  calc read (cs.takeWhile isAscii)
      = read (cs.takeWhile isAscii ++ cs.dropWhile isAscii) := (h _ _ hp).symm
    _ = read cs := by rw [List.takeWhile_append_dropWhile]

end AsciiOnly

/-- So many characters of a text are ASCII. -/
theorem isAscii_of_mem_take {n : Nat} (hn : n ≤ (cs.takeWhile isAscii).length) :
    ∀ c ∈ cs.take n, isAscii c = true := by
  intro c hc
  obtain ⟨more, hm⟩ := List.takeWhile_prefix (l := cs) isAscii
  rw [← hm, List.take_append_of_le_length hn] at hc
  exact List.all_eq_true.mp List.all_takeWhile c (List.mem_of_mem_take hc)

/-! ### Reading up to a blank -/

/-- The character is one of ASCII and no blank. -/
def isMark (c : Char) : Bool :=
  isAscii c && !Ascii.isBlank c

/-- A predicate of ASCII characters that are no blanks. -/
def OfMarks (p : Char → Bool) : Prop :=
  ∀ c, p c = true → isMark c = true

theorem isAscii_of_isMark (h : isMark x = true) : isAscii x = true :=
  (Bool.and_eq_true_iff.mp h).1

theorem isMark_of_isBlank (h : Ascii.isBlank x = true) : isMark x = false := by
  simp [isMark, h]

theorem ne_of_isBlank {c : Char} (h : Ascii.isBlank c = true) (hx : isMark x = true) : c ≠ x := by
  rintro rfl
  cases hx.symm.trans (isMark_of_isBlank h)

/-- Characters of ASCII from the exclamation mark on are no blanks. -/
theorem isMark_of_toNat (h : 33 ≤ x.toNat) (ha : isAscii x = true) : isMark x = true := by
  refine Bool.and_eq_true_iff.mpr ⟨ha, ?_⟩
  rw [Bool.not_eq_true', Bool.eq_false_iff]
  intro hb
  simp only [Ascii.isBlank, Bool.or_eq_true, beq_iff_eq] at hb
  rcases hb with (((rfl | rfl) | rfl) | rfl) | rfl <;> exact absurd h (by decide)

theorem isAlphanum_ofMarks : OfMarks Char.isAlphanum := by
  intro c h
  refine isMark_of_toNat ?_ (isAlphanum_ofAscii c h)
  rw [Char.isAlphanum, Bool.or_eq_true] at h
  rcases h with h | h
  · exact Nat.le_trans (by decide) (Ascii.toNat_of_isAlpha h).1
  · exact Nat.le_trans (by decide) (Ascii.toNat_of_isDigit h).1

theorem isDigit_ofMarks : OfMarks Char.isDigit := fun c h =>
  isAlphanum_ofMarks c (by simp [Char.isAlphanum, h])

theorem isWord_ofMarks : OfMarks Ascii.isWord := by
  intro c h
  simp only [Ascii.isWord, Bool.or_eq_true, beq_iff_eq] at h
  rcases h with h | rfl
  · exact isAlphanum_ofMarks c h
  · rfl

theorem isQuote_ofMarks : OfMarks Ascii.isQuote := by
  intro c h
  simp only [Ascii.isQuote, Bool.or_eq_true, beq_iff_eq] at h
  rcases h with (rfl | rfl) | rfl <;> rfl

theorem OfMarks.eq_false (h : OfMarks p) (hx : isMark x = false) : p x = false :=
  Bool.eq_false_iff.mpr fun hp => by cases hx.symm.trans (h x hp)

/-- White space is blank or not ASCII, but for the vertical tab. -/
theorem isMark_of_isSpace (h : isSpace x = true) (hx : x ≠ '\x0b') : isMark x = false := by
  cases hb : Ascii.isBlank x with
  | true => exact isMark_of_isBlank hb
  | false =>
      have ha : isAscii x = false := by
        simp only [isAscii, isSpace, Ascii.isBlank, Bool.or_eq_true, Bool.or_eq_false_iff,
          Bool.and_eq_true, decide_eq_true_eq, decide_eq_false_iff_not, beq_iff_eq,
          beq_eq_false_iff_ne, ne_eq, ← Char.toNat_inj, Char.reduceToNat] at h hb hx ⊢
        omega
      rw [isMark, ha]
      rfl

/-- The text is empty, or goes on with a blank or a character outside ASCII. -/
def Ends (cs : List Char) : Prop :=
  ∀ c, cs.head? = some c → isMark c = false

theorem Ends.of_blanks (h : ∀ c ∈ cs, Ascii.isBlank c = true) : Ends cs := fun c hc =>
  isMark_of_isBlank (h c (List.mem_of_head? hc))

theorem Ends.ne {post t : List Char} (h : Ends post) (hx : isMark x = true) : post ≠ x :: t := by
  rintro rfl
  cases hx.symm.trans (h x rfl)

theorem Ends.cons_of_append {post t : List Char} (h : Ends post) (hx : isMark x = true)
    (ht : cs ++ post = x :: t) : ∃ r, cs = x :: r ∧ t = r ++ post := by
  cases cs with
  | nil => exact absurd ht (h.ne hx)
  | cons c cs =>
      obtain ⟨rfl, rfl⟩ := List.cons.inj ht
      exact ⟨cs, rfl, rfl⟩

/-- Such a character comes next, or does not, whatever stands behind the text. -/
theorem Ends.head?_eq {post : List Char} (h : Ends post) (hx : isMark x = true) (cs : List Char) :
    (cs ++ post).head? = some x ↔ cs.head? = some x := by
  cases cs with
  | nil =>
      refine ⟨fun hp => ?_, nofun⟩
      cases hx.symm.trans (h x hp)
  | cons c cs => exact Iff.rfl

theorem Ends.head?_beq {post : List Char} (h : Ends post) (hx : isMark x = true) :
    ((cs ++ post).head? == some x) = (cs.head? == some x) := by
  rw [Bool.eq_iff_iff, beq_iff_eq, beq_iff_eq, h.head?_eq hx]

/-- A scan stops where the predicate does not hold any more. -/
theorem takeWhile_append_of_head {post : List Char} (h : ∀ c, post.head? = some c → p c = false)
    (cs : List Char) :
    (cs ++ post).takeWhile p = cs.takeWhile p ∧
      (cs ++ post).dropWhile p = cs.dropWhile p ++ post := by
  induction cs with
  | nil =>
      cases post with
      | nil => exact ⟨rfl, rfl⟩
      | cons c post => simp [h c rfl]
  | cons c cs ih => cases hc : p c <;> simp [hc, ih]

theorem OfMarks.takeWhile_append (hp : OfMarks p) {post : List Char} (h : Ends post)
    (cs : List Char) :
    (cs ++ post).takeWhile p = cs.takeWhile p ∧
      (cs ++ post).dropWhile p = cs.dropWhile p ++ post :=
  takeWhile_append_of_head (fun c hc => hp.eq_false (h c hc)) cs

/-- What is read depends on the characters up to the first blank or character outside ASCII. -/
def MarksOnly {α : Type} (read : List Char → α) : Prop :=
  ∀ cs, read (cs.takeWhile isMark) = read cs

theorem ends_dropWhile (cs : List Char) : Ends (cs.dropWhile isMark) := by
  intro c hc
  have hn := List.head?_dropWhile_not isMark cs
  rwa [hc] at hn

namespace MarksOnly

variable {α : Type} {read : List Char → α}

/-- What does not look behind such a character reads no further. -/
theorem of_append (h : ∀ cs post, Ends post → read (cs ++ post) = read cs) : MarksOnly read := by
  intro cs
  calc read (cs.takeWhile isMark)
      = read (cs.takeWhile isMark ++ cs.dropWhile isMark) := (h _ _ (ends_dropWhile cs)).symm
    _ = read cs := by rw [List.takeWhile_append_dropWhile]

theorem append (h : MarksOnly read) {post : List Char} (hp : Ends post) (cs : List Char) :
    read (cs ++ post) = read cs := by
  rw [← h, (OfMarks.takeWhile_append (fun _ hc => hc) hp cs).1, h]

theorem asciiOnly (h : MarksOnly read) : AsciiOnly read :=
  .of_append fun _ _ hp => h.append (fun c hc => by simp [isMark, hp c hc]) _

end MarksOnly

end ExprEngine.Text
