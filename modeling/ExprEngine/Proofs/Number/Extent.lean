import ExprEngine.Proofs.Number.Parts

/-!
# What a number takes of its text

A number is one of three things: a clock time, the integer or the decimal of its digits, or a real.
Which one it is depends on the character behind its digits.  A colon is taken then, and so is the
letter of an exponent with the exponent; but a letter that no exponent follows is left where it is,
though the number is a real for it.  In all other cases the number is read alike from the part that
it takes.

* `Declined`: the letter of an exponent alone stands behind an integer or a decimal.
* `unsigned_timed`, `unsigned_short`, `unsigned_long`: the three things.
* `taken_of_not_declined`, `taken_of_declined`: what each takes.
* `parse_take`: all of it together, behind blanks and signs.
-/

namespace ExprEngine.Literal

open Decimal

/-! ### The character behind the digits -/

variable {cs ds tail rest : List Char} {point : Option (List Char)}

/-- The real of digits with an exponent. -/
def realOf (ds : List Char) (point : Option (List Char)) (exponent : Int) : Float :=
  let e := exponent - (point.getD []).length
  Float.ofScientific (value (ds ++ point.getD [])) (e < 0) e.natAbs

/-- The number of digits without an exponent: an integer, or a decimal if they have a point. -/
def plain (negative : Bool) (ds : List Char) : Option (List Char) → Number
  | none => .int (if negative then -Int64.ofInt (value ds) else Int64.ofInt (value ds))
  | some fraction => pair negative (Int64.ofInt (value ds)) (microseconds fraction)

/-- Digits of an integer or a decimal, unless an exponent follows. -/
def Short (ds : List Char) (point : Option (List Char)) : Prop :=
  Word.Fits (value ds) ∧ (point.getD []).length ≤ 6

/-- A colon stands behind digits. -/
def Timed (point : Option (List Char)) (tail : List Char) : Prop :=
  point = none ∧ tail.head? = some ':'

theorem Timed.of_isPrefix {more : List Char} (h : Timed point more) (hm : more <+: tail) :
    Timed point tail :=
  ⟨h.1, head?_of_isPrefix hm h.2⟩

theorem Lettered.not_timed (h : Lettered tail) : ¬Timed point tail := by
  rintro ⟨-, hc⟩
  rw [Lettered, hc] at h
  simp at h

theorem spanReal_of_mantissa (h : mantissa cs = ((ds, point), tail)) :
    spanReal cs = (realOf ds point (spanExponent tail).1, (spanExponent tail).2) := by
  simp only [mantissa, Prod.mk.injEq] at h
  obtain ⟨⟨rfl, rfl⟩, rfl⟩ := h
  simp only [spanReal, spanFraction_eq, realOf]

theorem mantissa_taken (h : mantissa cs = ((ds, point), tail)) :
    ∃ digits, cs = digits ++ tail ∧ (∀ c ∈ digits, Text.isAscii c = true) ∧
      ∀ more, more <+: tail → mantissa (digits ++ more) = ((ds, point), more) := by
  have hk := Settled.mantissa.total cs
  rwa [h] at hk

theorem mantissa_none (h : mantissa cs = ((ds, none), tail)) :
    spanDigits cs = (ds, tail) ∧ tail.head? ≠ some '.' := by
  simp only [mantissa, Prod.mk.injEq] at h
  obtain ⟨⟨rfl, hp⟩, ht⟩ := h
  by_cases hh : (spanDigits cs).2.head? = some '.'
  · obtain ⟨after, ha⟩ := List.head?_eq_some_iff.mp hh
    rw [ha] at hp
    cases hp
  · rw [spanPoint_other hh] at ht
    subst ht
    exact ⟨rfl, hh⟩

theorem mantissa_some {fraction : List Char} (h : mantissa cs = ((ds, some fraction), tail)) :
    ∃ after, spanDigits cs = (ds, '.' :: after) ∧ spanDigits after = (fraction, tail) := by
  simp only [mantissa, Prod.mk.injEq] at h
  obtain ⟨⟨rfl, hp⟩, ht⟩ := h
  by_cases hh : (spanDigits cs).2.head? = some '.'
  · obtain ⟨after, ha⟩ := List.head?_eq_some_iff.mp hh
    rw [ha] at hp ht
    exact ⟨after, Prod.ext rfl ha, Prod.ext (Option.some.inj hp) ht⟩
  · rw [spanPoint_other hh] at hp
    cases hp

theorem unsigned_timed (negative : Bool) (h : mantissa cs = ((ds, none), ':' :: tail)) :
    unsigned negative cs = clock negative ds tail := by
  obtain ⟨hs, -⟩ := mantissa_none h
  simp only [unsigned, hs]

/-- Digits with neither a point nor a colon behind them. -/
theorem unsigned_none (negative : Bool) (h : mantissa cs = ((ds, none), tail))
    (ht : ¬Timed none tail) (hl : ¬Lettered tail) :
    unsigned negative cs =
      match Word.checked (value ds) with
      | some n => .ok (.int (if negative then -n else n), tail)
      | none => real negative cs := by
  obtain ⟨hs, hp⟩ := mantissa_none h
  have hn : ∀ c, (spanDigits cs).2.head? = some c → c ∉ [':', '.', 'e', 'E'] := by
    rw [hs]
    intro c hc hm
    simp only [List.mem_cons, List.not_mem_nil, or_false] at hm
    rcases hm with rfl | rfl | rfl | rfl
    · exact ht ⟨rfl, hc⟩
    · exact hp hc
    · exact hl (.inl hc)
    · exact hl (.inr hc)
  have hw := unsigned_whole cs negative hn
  rw [hs] at hw
  exact hw

/-- Too many digits, or a letter behind them. -/
theorem long_iff {places : Nat} :
    (6 < places || tail.head? == some 'e' || tail.head? == some 'E') = true ↔
      6 < places ∨ Lettered tail := by
  simp only [Lettered, Bool.or_eq_true, decide_eq_true_eq, beq_iff_eq, or_assoc]

/-- Digits of an integer or a decimal, with no exponent behind them. -/
theorem unsigned_short (negative : Bool) (h : mantissa cs = ((ds, point), tail))
    (hs : Short ds point) (ht : ¬Timed point tail) (hl : ¬Lettered tail) :
    unsigned negative cs = .ok (plain negative ds point, tail) := by
  cases point with
  | none =>
      rw [unsigned_none negative h ht hl, Word.checked_of_fits hs.1]
      rfl
  | some fraction =>
      obtain ⟨after, hd, hf⟩ := mantissa_some h
      rw [unsigned_point cs negative (congrArg Prod.snd hd), hd, hf, Word.checked_of_fits hs.1]
      exact if_neg (mt long_iff.mp (not_or.mpr ⟨Nat.not_lt.mpr hs.2, hl⟩))

/-- Digits that are too many, or an exponent's letter behind them. -/
theorem unsigned_long (negative : Bool) (h : mantissa cs = ((ds, point), tail))
    (ht : ¬Timed point tail) (hl : Short ds point → Lettered tail) :
    unsigned negative cs = (asReal negative (realOf ds point (spanExponent tail).1)).map fun n =>
      (n, (spanExponent tail).2) := by
  suffices hr : unsigned negative cs = real negative cs by
    rw [hr, real_eq, spanReal_of_mantissa h]
  cases point with
  | none =>
      by_cases hl' : Lettered tail
      · obtain ⟨hs, -⟩ := mantissa_none h
        obtain ⟨c, tail, rfl, hc⟩ := hl'.exists_cons
        rcases hc with rfl | rfl <;> simp only [unsigned, hs]
      · have hf : ¬Word.Fits (value ds) := fun hf => hl' (hl ⟨hf, Nat.zero_le 6⟩)
        rw [unsigned_none negative h ht hl', Word.checked_of_not_fits hf]
  | some fraction =>
      obtain ⟨after, hd, hf⟩ := mantissa_some h
      rw [unsigned_point cs negative (congrArg Prod.snd hd), hd, hf]
      by_cases hw : Word.Fits (value ds)
      · rw [Word.checked_of_fits hw]
        refine if_pos (long_iff.mpr ?_)
        exact (Nat.lt_or_ge 6 fraction.length).imp_right fun hle => hl ⟨hw, hle⟩
      · rw [Word.checked_of_not_fits hw]

/-- The letter of an exponent alone stands behind the digits of an integer or a decimal. -/
def Declined (cs : List Char) : Prop :=
  Short (mantissa cs).1.1 (mantissa cs).1.2 ∧ LetterAlone (mantissa cs).2

theorem ok_of_map {α β ε : Type} {f : α → β} {x : Except ε α} {b : β} (h : x.map f = .ok b) :
    ∃ a, x = .ok a ∧ f a = b := by
  cases x with
  | error e => cases h
  | ok a => exact ⟨a, rfl, Except.ok.inj h⟩

/-! ### The part that is taken -/

variable {negative : Bool} {n : Number}

/-- A clock time. -/
theorem taken_timed (hm : mantissa cs = ((ds, none), ':' :: tail))
    (h : unsigned negative cs = .ok (n, rest)) :
    ∃ taken, cs = taken ++ rest ∧ Taken (unsigned negative) taken n rest := by
  obtain ⟨digits, rfl, ha, hd⟩ := mantissa_taken hm
  rw [unsigned_timed negative hm] at h
  obtain ⟨time, rfl, ht⟩ := Settled.clock negative ds h
  refine ⟨digits ++ ':' :: time, by rw [List.append_assoc, List.cons_append], ?_, fun more hp => ?_⟩
  · exact List.forall_mem_append.mpr ⟨ha, List.forall_mem_cons.mpr ⟨rfl, ht.ascii⟩⟩
  · have hp' : ':' :: (time ++ more) <+: ':' :: (time ++ rest) :=
      (List.prefix_append_right_inj (':' :: time)).mpr hp
    rw [List.append_assoc, List.cons_append, unsigned_timed negative (hd _ hp')]
    exact ht.alike more hp

/-- An integer or a decimal. -/
theorem taken_short (hm : mantissa cs = ((ds, point), tail)) (hs : Short ds point)
    (ht : ¬Timed point tail) (hl : ¬Lettered tail) (h : unsigned negative cs = .ok (n, rest)) :
    ∃ taken, cs = taken ++ rest ∧ Taken (unsigned negative) taken n rest := by
  obtain ⟨digits, rfl, ha, hd⟩ := mantissa_taken hm
  rw [unsigned_short negative hm hs ht hl] at h
  cases h
  exact ⟨digits, rfl, ha, fun more hp => unsigned_short negative (hd more hp) hs
    (fun ht' => ht (ht'.of_isPrefix hp)) fun hl' => hl (hl'.of_isPrefix hp)⟩

/-- A real that is none for a letter alone. -/
theorem taken_long (hm : mantissa cs = ((ds, point), tail)) (ht : ¬Timed point tail)
    (hl : Short ds point → Lettered tail) (hd : ¬Declined cs)
    (h : unsigned negative cs = .ok (n, rest)) :
    ∃ taken, cs = taken ++ rest ∧ Taken (unsigned negative) taken n rest := by
  rw [Declined, hm] at hd
  rw [unsigned_long negative hm ht hl] at h
  obtain ⟨digits, rfl, ha, hm'⟩ := mantissa_taken hm
  obtain ⟨expo, he, hax, hx⟩ := Settled.exponent.total tail
  obtain ⟨r, hr, hrest⟩ := ok_of_map h
  cases hrest
  refine ⟨digits ++ expo, by rw [List.append_assoc, ← he], ?_, fun more hp => ?_⟩
  · exact List.forall_mem_append.mpr ⟨ha, hax⟩
  have hp' : expo ++ more <+: tail := he ▸ (List.prefix_append_right_inj expo).mpr hp
  -- the letter of the exponent is taken with it, so it stands there still
  have hl' : Short ds point → Lettered (expo ++ more) := by
    intro hs
    cases expo with
    | nil => exact absurd ⟨hs, letterAlone_of_spanExponent (hl hs) he.symm⟩ hd
    | cons c expo =>
        have hh : tail.head? = some c := congrArg List.head? he
        have hc := hl hs
        rwa [Lettered, hh] at hc
  rw [List.append_assoc, unsigned_long negative (hm' _ hp')
    (fun ht' => ht (ht'.of_isPrefix hp')) hl', hx more hp, hr]
  rfl

/-- A number is read alike from the part it takes, with less of the rest behind it. -/
theorem taken_of_not_declined (hd : ¬Declined cs) (h : unsigned negative cs = .ok (n, rest)) :
    ∃ taken, cs = taken ++ rest ∧ Taken (unsigned negative) taken n rest := by
  rcases hm : mantissa cs with ⟨⟨ds, point⟩, tail⟩
  by_cases ht : Timed point tail
  · obtain ⟨rfl, hc⟩ := ht
    obtain ⟨tail, rfl⟩ := List.head?_eq_some_iff.mp hc
    exact taken_timed hm h
  by_cases hs : Short ds point ∧ ¬Lettered tail
  · exact taken_short hm hs.1 ht hs.2 h
  · exact taken_long hm ht (fun h' => Classical.not_not.mp fun hl => hs ⟨h', hl⟩) hd h

/-- With a letter alone behind it an integer or a decimal is read as a real, and from the part it
takes as what it is. -/
theorem taken_of_declined (hd : Declined cs) (h : unsigned negative cs = .ok (n, rest)) :
    ∃ taken, cs = taken ++ rest ∧ (∀ c ∈ taken, Text.isAscii c = true) ∧ Lettered rest ∧
      asReal negative (realOf (mantissa cs).1.1 (mantissa cs).1.2 0) = .ok n ∧
      unsigned negative taken = .ok (plain negative (mantissa cs).1.1 (mantissa cs).1.2, []) := by
  rcases hm : mantissa cs with ⟨⟨ds, point⟩, tail⟩
  rw [Declined, hm] at hd
  obtain ⟨hs, hl⟩ := hd
  rw [unsigned_long negative hm hl.lettered.not_timed fun _ => hl.lettered,
    hl.spanExponent_eq] at h
  obtain ⟨r, hr, hrest⟩ := ok_of_map h
  cases hrest
  obtain ⟨digits, rfl, ha, hm'⟩ := mantissa_taken hm
  have hnil := hm' [] List.nil_prefix
  rw [List.append_nil] at hnil
  exact ⟨digits, rfl, ha, hl.lettered, hr, unsigned_short negative hnil hs nofun nofun⟩

/-- What a number without a sign takes. -/
theorem unsigned_taken (h : unsigned negative cs = .ok (n, rest)) :
    ∃ taken, cs = taken ++ rest ∧ (∀ c ∈ taken, Text.isAscii c = true) ∧
      (¬Declined cs → Taken (unsigned negative) taken n rest) ∧
      (Declined cs → Lettered rest ∧
        asReal negative (realOf (mantissa cs).1.1 (mantissa cs).1.2 0) = .ok n ∧
        unsigned negative taken =
          .ok (plain negative (mantissa cs).1.1 (mantissa cs).1.2, [])) := by
  by_cases hd : Declined cs
  · obtain ⟨taken, hcs, ha, hread⟩ := taken_of_declined hd h
    exact ⟨taken, hcs, ha, absurd hd, fun _ => hread⟩
  · obtain ⟨taken, hcs, ht⟩ := taken_of_not_declined hd h
    exact ⟨taken, hcs, ht.ascii, fun _ => ht, fun h => absurd h hd⟩

/-! ### Blanks and signs in front -/

/-- What is read without a sign is read behind the blanks and signs in front, with less of the rest
behind it. -/
theorem parse_taken {taken more : List Char} (hb : behind cs = taken ++ rest)
    (hm : more <+: rest)
    (h : unsigned (negated (signsOf cs)) (taken ++ more) = .ok (n, more)) :
    parse (inFront cs ++ taken ++ more) = .ok (n, (inFront cs ++ taken).length) := by
  have hblank : ∀ c ∈ cs.takeWhile Ascii.isBlank, Ascii.isBlank c = true :=
    fun _ => isBlank_of_mem_takeWhile
  have hsign : ∀ c ∈ signsOf cs, isSign c = true := fun _ => isSign_of_mem_signsOf
  have ho : Opens (signsOf cs) (taken ++ more) := fun c hc =>
    opens_behind cs c (head?_of_isPrefix (hb ▸ (List.prefix_append_right_inj taken).mpr hm) hc)
  have hu : unsigned (negated (signsOf cs)) (taken ++ more) =
      (Except.ok n : Except NumberError Number).map fun n => (n, more) := h
  have hp := parse_behind hblank hsign ho hu
  rw [inFront, List.append_assoc, List.append_assoc]
  rwa [← List.append_assoc _ (signsOf cs) taken] at hp

/-- **A number is decided by the text it takes**, to the byte and wherever the text behind is cut,
unless the letter of an exponent alone stands behind an integer or a decimal: then it is the real of
the same digits, while the text it takes is read as the integer or the decimal. -/
theorem parse_take (cs : List Char) (n : Number) (used : Nat) (h : parse cs = .ok (n, used)) :
    used ≤ Text.byteSize cs ∧ (Text.bytes cs).take used = cs.take used ∧
      (¬Declined (behind cs) → ∀ k, used ≤ k → parse (cs.take k) = .ok (n, used)) ∧
      (Declined (behind cs) → Lettered (cs.drop used) ∧
        ∃ ds point, (mantissa (behind cs)).1 = (ds, point) ∧
          asReal (negated (signsOf cs)) (realOf ds point 0) = .ok n ∧
          parse (cs.take used) = .ok (plain (negated (signsOf cs)) ds point, used)) := by
  have hle := Nat.le_trans (length_of_parse h) (Text.length_le_byteSize cs)
  rw [parse_eq] at h
  obtain ⟨⟨n, rest⟩, hu, he⟩ := ok_of_map h
  cases he
  obtain ⟨taken, hb, ha, hn, hd⟩ := unsigned_taken hu
  have hcs : cs = inFront cs ++ taken ++ rest := by
    rw [List.append_assoc, ← hb, append_behind]
  have hf : ∀ c ∈ inFront cs ++ taken, Text.isAscii c = true :=
    List.forall_mem_append.mpr ⟨ascii_inFront cs, ha⟩
  have hp := fun m more (hm : more <+: rest) => parse_taken (n := m) hb hm
  generalize inFront cs ++ taken = front at hcs hf hp
  have hl : cs.length - rest.length = front.length := by
    rw [hcs, List.length_append, Nat.add_sub_cancel]
  have ht : cs.take front.length = front := by rw [hcs, List.take_left]
  have hr : cs.drop front.length = rest := by rw [hcs, List.drop_left]
  have hbytes : (Text.bytes cs).take front.length = front := by
    rw [hcs, Text.bytes_append, Text.bytes_of_ascii hf, List.take_left]
  simp only [hl] at hle ⊢
  rw [ht, hr]
  refine ⟨hle, hbytes, fun hnd k hk => ?_, fun hdec => ?_⟩
  · have hk' : cs.take k = front ++ rest.take (k - front.length) := by
      rw [hcs, List.take_append, List.take_of_length_le hk]
    have hm := List.take_prefix (k - front.length) rest
    rw [hk']
    exact hp n _ hm ((hn hnd).alike _ hm)
  · obtain ⟨hlet, hreal, hplain⟩ := hd hdec
    have hfront := hp _ [] List.nil_prefix (by rw [List.append_nil]; exact hplain)
    rw [List.append_nil] at hfront
    exact ⟨hlet, _, _, rfl, hreal, hfront⟩

/-- A sum, and five with a word behind it. -/
theorem parse_take_atALetter :
    parse "12".toList = .ok (.int 12, 2) ∧ parse "12+".toList = .ok (.int 12, 2) ∧
      parse "5".toList = .ok (.int 5, 1) ∧
      asReal false (realOf ['5'] none 0) = .ok (.real 5.0) := by
  obtain ⟨-, -, hsum, -⟩ := parse_take "12+3".toList (.int 12) 2 (by with_unfolding_all rfl)
  obtain ⟨-, -, -, hword⟩ := parse_take "5east".toList (.real 5.0) 1 (by with_unfolding_all rfl)
  have hd : Declined (behind "5east".toList) :=
    ⟨⟨by decide, by decide⟩, 'e', "ast".toList, rfl, .inl rfl, halts_iff.mp rfl⟩
  obtain ⟨-, ds, point, hm, hreal, hplain⟩ := hword hd
  obtain ⟨rfl, rfl⟩ : ['5'] = ds ∧ none = point := Prod.mk.inj hm
  have hs : ¬Declined (behind "12+3".toList) := fun h => h.2.lettered.elim nofun nofun
  exact ⟨hsum hs 2 (by decide), hsum hs 3 (by decide), hplain, hreal⟩

/-- A word that starts with the letter of an exponent makes an integer in front of it a real. -/
theorem digits_read_as_real :
    parse "5east".toList = .ok (.real 5.0, 1) ∧ parse ("5east".toList.take 1) = .ok (.int 5, 1) ∧
      Number.real 5.0 ≠ .int 5 :=
  ⟨by with_unfolding_all rfl, by with_unfolding_all rfl, nofun⟩

end ExprEngine.Literal
