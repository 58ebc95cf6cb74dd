import ExprEngine.Proofs.Number.Reading

/-!
# What the parts of a number take

A reader that never looks at what it leaves reads the part it takes alike, whatever is cut away
behind it (`Settled`).  Such readers come one behind another: digits, a point with more of them, the
parts of a clock time, the sign and the digits of an exponent.  An exponent is the one part that may
be given up after more than one character; its letter is left then, and no cut behind it makes an
exponent of it (`exponentDigits_nil_of_isPrefix`).
-/

namespace ExprEngine.Literal

open Decimal

/-- A part of a text is taken for `a`: it is ASCII, and it is taken so whatever is left of the rest
behind it. -/
structure Taken {α : Type} (read : List Char → Except NumberError (α × List Char))
    (taken : List Char) (a : α) (rest : List Char) : Prop where
  ascii : ∀ c ∈ taken, Text.isAscii c = true
  alike : ∀ more, more <+: rest → read (taken ++ more) = .ok (a, more)

/-- What is read depends on no more of the text than is taken for it. -/
def Settled {α : Type} (read : List Char → Except NumberError (α × List Char)) : Prop :=
  ∀ ⦃cs a rest⦄, read cs = .ok (a, rest) → ∃ taken, cs = taken ++ rest ∧ Taken read taken a rest

/-- A prefix starts as the text does, unless it is empty. -/
theorem head?_of_isPrefix {more rest : List Char} {c : Char} (h : more <+: rest)
    (hc : more.head? = some c) : rest.head? = some c := by
  obtain ⟨tail, rfl⟩ := h
  cases more with
  | nil => cases hc
  | cons d more => exact hc

theorem halts_iff {cs : List Char} : (spanDigits cs).1 = [] ↔ Halts cs := by
  cases cs with
  | nil => simp [Halts, spanDigits]
  | cons c cs => simp [Halts, spanDigits, List.takeWhile_cons]

theorem Halts.mono {more rest : List Char} (h : Halts rest) (hm : more <+: rest) : Halts more :=
  fun c hc => h c (head?_of_isPrefix hm hc)

/-! ### Readers one behind another -/

namespace Settled

variable {α β : Type} {read : List Char → Except NumberError (α × List Char)}

/-- Nothing is taken. -/
theorem stay (a : α) : Settled fun cs => .ok (a, cs) := by
  intro cs b rest h
  cases h
  exact ⟨[], rfl, nofun, fun _ _ => rfl⟩

/-- What a reader without errors takes. -/
theorem total {f : List Char → α × List Char} (h : Settled fun cs => .ok (f cs)) (cs : List Char) :
    ∃ taken, cs = taken ++ (f cs).2 ∧ (∀ c ∈ taken, Text.isAscii c = true) ∧
      ∀ more, more <+: (f cs).2 → f (taken ++ more) = ((f cs).1, more) := by
  have hf : (Except.ok (f cs) : Except NumberError _) = .ok ((f cs).1, (f cs).2) := rfl
  obtain ⟨taken, hcs, ht⟩ := h hf
  exact ⟨taken, hcs, ht.ascii, fun more hp => Except.ok.inj (ht.alike more hp)⟩

theorem fail (e : NumberError) :
    Settled fun _ => (.error e : Except NumberError (α × List Char)) :=
  nofun

/-- What is read behind something else. -/
theorem bind {next : α → List Char → Except NumberError (β × List Char)} (h : Settled read)
    (hn : ∀ a, Settled (next a)) : Settled fun cs => read cs >>= fun r => next r.1 r.2 := by
  intro cs b rest hb
  cases hr : read cs with
  | error e =>
      simp only [hr] at hb
      cases hb
  | ok r =>
      obtain ⟨a, mid⟩ := r
      simp only [hr] at hb
      obtain ⟨first, rfl, hf⟩ := h hr
      obtain ⟨last, rfl, hl⟩ := hn a hb
      refine ⟨first ++ last, (List.append_assoc ..).symm, ?_, fun more hm => ?_⟩
      · exact List.forall_mem_append.mpr ⟨hf.ascii, hl.ascii⟩
      · -- to the first, the part that the second takes is rest, cut or not
        have hm' := (List.prefix_append_right_inj last).mpr hm
        simp only [List.append_assoc, hf.alike _ hm']
        exact hl.alike more hm

/-- What is read from something that no text is read for. -/
theorem since {x : Except NumberError β} {next : β → List Char → Except NumberError (α × List Char)}
    (h : ∀ b, Settled (next b)) : Settled fun cs => x >>= fun b => next b cs := by
  cases x with
  | error e => exact fail e
  | ok b => exact h b

/-- What is read behind a mark, and what nothing is taken for where the mark does not stand. -/
theorem ofMark (mark : Char) (a : α) {next : List Char → Except NumberError (α × List Char)}
    (hm : Text.isAscii mark = true) (hn : Settled next)
    (hmark : ∀ cs, read (mark :: cs) = next cs)
    (hother : ∀ cs, cs.head? ≠ some mark → read cs = .ok (a, cs)) : Settled read := by
  intro cs b rest h
  by_cases hc : cs.head? = some mark
  · obtain ⟨cs, rfl⟩ := List.head?_eq_some_iff.mp hc
    rw [hmark] at h
    obtain ⟨taken, rfl, ht⟩ := hn h
    exact ⟨mark :: taken, rfl, List.forall_mem_cons.mpr ⟨hm, ht.ascii⟩,
      fun more hp => (hmark _).trans (ht.alike more hp)⟩
  · rw [hother cs hc] at h
    cases h
    exact ⟨[], rfl, nofun, fun more hp => hother more fun hh => hc (head?_of_isPrefix hp hh)⟩

theorem digits : Settled fun cs => .ok (spanDigits cs) := by
  intro cs ds rest h
  obtain ⟨rfl, rfl⟩ : cs.takeWhile Char.isDigit = ds ∧ cs.dropWhile Char.isDigit = rest :=
    Prod.mk.inj (Except.ok.inj h)
  have hd : AllDigits (cs.takeWhile Char.isDigit) := fun c hc =>
    List.all_eq_true.mp List.all_takeWhile c hc
  have hr : Halts (cs.dropWhile Char.isDigit) := by
    intro c hc
    have hn := List.head?_dropWhile_not Char.isDigit cs
    rwa [hc] at hn
  exact ⟨_, List.takeWhile_append_dropWhile.symm, ascii_digits hd,
    fun more hm => congrArg Except.ok (spanDigits_append_of_halts hd (hr.mono hm))⟩

end Settled

/-! ### The digits of a number -/

/-- The digits behind a point, if one stands here, and what follows. -/
def spanPoint : List Char → Option (List Char) × List Char
  | '.' :: rest => (some (spanDigits rest).1, (spanDigits rest).2)
  | rest => (none, rest)

/-- The digits of a number, those behind its point, if it has one, and what follows. -/
def mantissa (cs : List Char) : (List Char × Option (List Char)) × List Char :=
  (((spanDigits cs).1, (spanPoint (spanDigits cs).2).1), (spanPoint (spanDigits cs).2).2)

theorem spanPoint_other {cs : List Char} (h : cs.head? ≠ some '.') : spanPoint cs = (none, cs) :=
  spanPoint.eq_2 cs fun _ he => h (he ▸ rfl)

theorem spanFraction_eq (cs : List Char) :
    spanFraction cs = ((spanPoint cs).1.getD [], (spanPoint cs).2) := by
  by_cases h : cs.head? = some '.'
  · obtain ⟨cs, rfl⟩ := List.head?_eq_some_iff.mp h
    rfl
  · rw [spanPoint_other h]
    exact spanFraction.eq_2 cs fun _ he => h (he ▸ rfl)

namespace Settled

theorem point : Settled fun cs => .ok (spanPoint cs) := by
  have hn : Settled fun cs => .ok (some (spanDigits cs).1, (spanDigits cs).2) :=
    digits.bind fun ds => stay (some ds)
  exact ofMark '.' none rfl hn (fun _ => rfl) fun cs h => congrArg Except.ok (spanPoint_other h)

theorem mantissa : Settled fun cs => .ok (mantissa cs) :=
  digits.bind fun ds => point.bind fun fraction => stay (ds, fraction)

theorem fraction : Settled fun cs => .ok (spanFraction cs) := by
  have h : Settled fun cs => .ok ((spanPoint cs).1.getD [], (spanPoint cs).2) :=
    point.bind fun fraction => stay (fraction.getD [])
  simpa only [← spanFraction_eq] using h

end Settled

/-! ### Clock times -/

theorem clockMinutes_eq (sec : Int64) (cs : List Char) :
    clockMinutes sec cs =
      if (spanDigits cs).1 = [] then .ok (sec, (spanDigits cs).2)
      else clockPart 60 (spanDigits cs).1 >>= fun n =>
        clockSum sec n >>= fun k => clockSeconds k (spanDigits cs).2 := by
  have hcs : (spanDigits cs).1 ++ (spanDigits cs).2 = cs := List.takeWhile_append_dropWhile
  unfold clockMinutes
  generalize spanDigits cs = r at hcs ⊢
  obtain ⟨_ | ⟨d, ds⟩, rest⟩ := r
  · exact congrArg (fun cs => Except.ok (sec, cs)) hcs.symm
  · rfl

namespace Settled

theorem clockSeconds (sec : Int64) : Settled (clockSeconds sec) := by
  have hn : ∀ ds, Settled fun cs =>
      clockPart 1 ds >>= fun n => clockSum sec n >>= fun k => .ok (k, cs) := fun ds =>
    since fun n => since fun k => stay k
  exact ofMark ':' sec rfl (digits.bind hn) (fun _ => rfl) fun cs h =>
    clockSeconds.eq_2 sec cs fun _ he => h (he ▸ rfl)

theorem clockMinutes (sec : Int64) : Settled (clockMinutes sec) := by
  have hn : ∀ ds, Settled fun cs =>
      if ds = [] then .ok (sec, cs)
      else clockPart 60 ds >>= fun n => clockSum sec n >>= fun k => Literal.clockSeconds k cs := by
    intro ds
    split
    · exact stay sec
    · exact since fun n => since fun k => clockSeconds k
  exact funext (clockMinutes_eq sec) ▸ digits.bind hn

theorem clock (negative : Bool) (hours : List Char) : Settled (clock negative hours) :=
  since fun n => (clockMinutes n).bind fun sec => fraction.bind fun fr =>
    stay (pair negative sec (microseconds fr))

end Settled

/-! ### Exponents -/

theorem exponentSign_isSuffix (cs : List Char) : (exponentSign cs).2 <:+ cs := by
  cases cs with
  | nil => exact List.suffix_rfl
  | cons c cs =>
      rw [exponentSign_cons]
      split
      · exact List.suffix_cons c cs
      · exact List.suffix_rfl

/-- The letter of an exponent stands in front of the text. -/
def Lettered (cs : List Char) : Prop :=
  cs.head? = some 'e' ∨ cs.head? = some 'E'

theorem Lettered.of_isPrefix {more rest : List Char} (h : Lettered more) (hm : more <+: rest) :
    Lettered rest :=
  h.imp (head?_of_isPrefix hm) (head?_of_isPrefix hm)

theorem Lettered.exists_cons {cs : List Char} (h : Lettered cs) :
    ∃ c tail, cs = c :: tail ∧ (c = 'e' ∨ c = 'E') := by
  rcases h with h | h <;> obtain ⟨tail, rfl⟩ := List.head?_eq_some_iff.mp h
  · exact ⟨'e', tail, rfl, .inl rfl⟩
  · exact ⟨'E', tail, rfl, .inr rfl⟩

theorem spanExponent_of_not_lettered {cs : List Char} (h : ¬Lettered cs) :
    spanExponent cs = (0, cs) := by
  refine spanExponent_other cs fun c hc hh => h ?_
  rcases hc with rfl | rfl
  · exact .inl hh
  · exact .inr hh

/-- The sign of an exponent and its digits. -/
def exponentDigits (cs : List Char) : (Bool × List Char) × List Char :=
  (((exponentSign cs).1, (spanDigits (exponentSign cs).2).1), (spanDigits (exponentSign cs).2).2)

/-- Behind its letter an exponent stands if there are digits for it. -/
theorem spanExponent_cons_eq {c : Char} (hc : c = 'e' ∨ c = 'E') (cs : List Char) :
    spanExponent (c :: cs) =
      if (exponentDigits cs).1.2 = [] then (0, c :: cs)
      else (Binary.signed (exponentDigits cs).1.1 (value (exponentDigits cs).1.2),
        (exponentDigits cs).2) := by
  rw [spanExponent_cons cs hc, exponentDigits]
  rcases spanDigits (exponentSign cs).2 with ⟨_ | ⟨d, ds⟩, rest⟩ <;> rfl

/-- The letter of an exponent stands in front of the text, with no digits behind it or its sign. -/
def LetterAlone (cs : List Char) : Prop :=
  ∃ c tail, cs = c :: tail ∧ (c = 'e' ∨ c = 'E') ∧ Halts (exponentSign tail).2

theorem LetterAlone.lettered {cs : List Char} (h : LetterAlone cs) : Lettered cs := by
  obtain ⟨c, tail, rfl, rfl | rfl, -⟩ := h
  · exact .inl rfl
  · exact .inr rfl

theorem LetterAlone.spanExponent_eq {cs : List Char} (h : LetterAlone cs) :
    spanExponent cs = (0, cs) := by
  obtain ⟨c, tail, rfl, hc, hh⟩ := h
  exact (spanExponent_cons_eq hc tail).trans (if_pos (halts_iff.mpr hh))

/-- No exponent comes to stand where less of the text is left. -/
theorem exponentDigits_nil_of_isPrefix {more cs : List Char} (hm : more <+: cs)
    (h : (exponentDigits cs).1.2 = []) : (exponentDigits more).1.2 = [] := by
  have hs : (exponentSign more).2 <+: (exponentSign cs).2 := by
    cases more with
    | nil => exact List.nil_prefix
    | cons d more =>
        obtain ⟨tail, rfl⟩ := hm
        rw [List.cons_append, exponentSign_cons, exponentSign_cons]
        split
        · exact List.prefix_append more tail
        · exact List.prefix_append (d :: more) tail
  exact halts_iff.mpr ((halts_iff.mp h).mono hs)

namespace Settled

theorem exponentSign : Settled fun cs => .ok (exponentSign cs) := by
  intro cs negative rest h
  replace h : Literal.exponentSign cs = (negative, rest) := Except.ok.inj h
  cases cs with
  | nil =>
      cases h
      exact ⟨[], rfl, nofun, fun more hm => by rw [List.prefix_nil.mp hm]; rfl⟩
  | cons c cs =>
      rw [exponentSign_cons] at h
      split at h
      · next hc =>
          cases h
          refine ⟨[c], rfl, ?_, fun more _ => ?_⟩
          · exact List.forall_mem_singleton.mpr (isSign_ofAscii c hc)
          · rw [List.singleton_append, exponentSign_cons, if_pos hc]
      · next hc =>
          cases h
          refine ⟨[], rfl, nofun, fun more hm => ?_⟩
          cases more with
          | nil => rfl
          | cons d more =>
              obtain ⟨tail, ht⟩ := hm
              obtain ⟨rfl, -⟩ := List.cons.inj ht
              rw [List.nil_append, exponentSign_cons, if_neg hc]

theorem exponentDigits : Settled fun cs => .ok (exponentDigits cs) :=
  exponentSign.bind fun negative => digits.bind fun ds => stay (negative, ds)

theorem exponent : Settled fun cs => .ok (spanExponent cs) := by
  intro cs x rest h
  replace h : spanExponent cs = (x, rest) := Except.ok.inj h
  by_cases hl : Lettered cs
  · obtain ⟨c, cs, rfl, hc⟩ := hl.exists_cons
    rw [spanExponent_cons_eq hc] at h
    split at h
    · -- the letter is left as well, so the text may be cut before or behind it
      next hn =>
        cases h
        refine ⟨[], rfl, nofun, fun more hm => ?_⟩
        cases more with
        | nil => rfl
        | cons d more =>
            obtain ⟨rfl, hp⟩ := List.cons_prefix_cons.mp hm
            rw [List.nil_append, spanExponent_cons_eq hc,
              if_pos (exponentDigits_nil_of_isPrefix hp hn)]
    · next hn =>
        cases h
        obtain ⟨taken, hcs, ha, ht⟩ := exponentDigits.total cs
        refine ⟨c :: taken, congrArg (c :: ·) hcs, ?_, fun more hm => ?_⟩
        · exact List.forall_mem_cons.mpr ⟨by rcases hc with rfl | rfl <;> rfl, ha⟩
        · rw [List.cons_append, spanExponent_cons_eq hc, ht more hm, if_neg hn]
  · rw [spanExponent_of_not_lettered hl] at h
    cases h
    exact ⟨[], rfl, nofun, fun more hm =>
      congrArg Except.ok (spanExponent_of_not_lettered fun hl' => hl (hl'.of_isPrefix hm))⟩

end Settled

/-- An exponent takes its letter and more, unless the letter is alone. -/
theorem letterAlone_of_spanExponent {cs : List Char} (hl : Lettered cs)
    (h : (spanExponent cs).2 = cs) : LetterAlone cs := by
  obtain ⟨c, tail, rfl, hc⟩ := hl.exists_cons
  rw [spanExponent_cons_eq hc] at h
  split at h
  · next hn => exact ⟨c, tail, rfl, hc, halts_iff.mp hn⟩
  · obtain ⟨taken, ht, -, -⟩ := Settled.exponentDigits.total tail
    have hlen := congrArg List.length ht
    simp only [show (exponentDigits tail).2 = c :: tail from h, List.length_append,
      List.length_cons] at hlen
    omega

end ExprEngine.Literal
