import ExprEngine.Proofs.Time.Normal

/-!
# Canonical time pairs

A normal pair is the only one of its exact value: its members are the whole seconds of that value,
toward zero, and the microseconds that are left (`ofTotal`).  So normalising depends on the exact
value alone, and sums of normal pairs are the pairs of the exact sums, whenever the whole seconds of
these are words.

Differences are so too, with one exception.  A negative pair of less than a second, less a pair of
the least seconds that there are, has whole seconds that are a word, but only just: one second is
borrowed of a number of seconds that is none.  The seconds have wrapped around before the borrow is
looked for, so that the difference has lost all the seconds that words count (`Overdrawn`).

* `eq_ofTotal`: a normal pair is the pair of its exact value.
* `normalize_eq`, `add_eq`, `sub_eq`, `sub_overdrawn`: what normalising, adding and subtracting come
  to.
* `normalize_canonical`: all of it together.
-/

namespace ExprEngine.TimePair

open Word

/-- The pair of an exact value: its whole seconds, toward zero, and the microseconds that are
left. -/
def ofTotal (total : Int) : TimePair :=
  ⟨Int64.ofInt (total.tdiv second), Int64.ofInt (total.tmod second)⟩

/-- A subtraction that borrows a second of the greatest word and one more: from a negative pair of
less than a second, of one with the least seconds that there are. -/
def Overdrawn (a b : TimePair) : Prop :=
  a.sec = 0 ∧ a.usec.toInt < 0 ∧ b.sec.toInt = least

instance (a b : TimePair) : Decidable (Overdrawn a b) :=
  inferInstanceAs (Decidable (_ ∧ _ ∧ _))

variable {t u a b : TimePair}

/-! ### Pairs of exact values -/

/-- A normal pair divides its exact value into seconds and what is left. -/
theorem Normal.divides (h : t.Normal) :
    t.total.tdiv second = t.sec.toInt ∧ t.total.tmod second = t.usec.toInt := by
  obtain ⟨hl, hu, hp, hm⟩ := h
  obtain ⟨hd, rl, ru, rp, rm⟩ := tdiv_second t.total
  have ht : t.total = t.sec.toInt * second + t.usec.toInt := rfl
  generalize t.total.tdiv second = q at *
  generalize t.total.tmod second = r at *
  simp only [second] at *
  omega

/-- **A normal pair is the pair of its exact value.** -/
theorem eq_ofTotal (h : t.Normal) : t = ofTotal t.total := by
  obtain ⟨hq, hr⟩ := h.divides
  rw [ofTotal, hq, hr, Int64.ofInt_toInt, Int64.ofInt_toInt]

theorem Normal.fits (h : t.Normal) : Fits t.total := by
  rw [Fits, h.divides.1]
  exact fits_toInt t.sec

/-! ### Normalising -/

theorem normalize_eq (h : Fits t.total) : t.normalize = ofTotal t.total := by
  have hv : t.normalize.total = t.total := total_normal_of_fits h
  rw [eq_ofTotal (normalize_normal t), hv]

theorem normalize_of_normal (h : t.Normal) : t.normalize = t :=
  (normalize_eq h.fits).trans (eq_ofTotal h).symm

/-! ### Sums and differences -/

/-- An exact sum in reach has been added of seconds whose sum is a word. -/
theorem fits_add (ha : a.Normal) (hb : b.Normal) (h : Fits (a.total + b.total)) :
    Word.Fits (a.sec.toInt + b.sec.toInt) := by
  obtain ⟨al, au, ap, am⟩ := ha
  obtain ⟨bl, bu, bp, bm⟩ := hb
  have hi := fits_toInt a.sec
  have hj := fits_toInt b.sec
  rw [fits_iff] at h
  simp only [total, second, Word.Fits, least, greatest] at *
  omega

theorem add_eq (ha : a.Normal) (hb : b.Normal) (h : Fits (a.total + b.total)) :
    a.add b = ofTotal (a.total + b.total) := by
  have hv : (a.add b).total = a.total + b.total :=
    (total_add ha hb (fits_add ha hb h)).trans (wrapped_of_fits h)
  rw [eq_ofTotal (add_normal a b), hv]

/-- An exact difference in reach has been taken of seconds whose difference is a word, unless it is
overdrawn. -/
theorem fits_sub (ha : a.Normal) (hb : b.Normal) (h : Fits (a.total - b.total))
    (ho : ¬Overdrawn a b) : Word.Fits (a.sec.toInt - b.sec.toInt) := by
  obtain ⟨al, au, ap, am⟩ := ha
  obtain ⟨bl, bu, bp, bm⟩ := hb
  have hi := fits_toInt a.sec
  have hj := fits_toInt b.sec
  have hz : a.sec = 0 ↔ a.sec.toInt = 0 := Int64.toInt_inj.symm
  rw [fits_iff] at h
  rw [Overdrawn, hz] at ho
  simp only [total, second, Word.Fits, least, greatest] at *
  omega

theorem sub_eq (ha : a.Normal) (hb : b.Normal) (h : Fits (a.total - b.total))
    (ho : ¬Overdrawn a b) : a.sub b = ofTotal (a.total - b.total) := by
  have hv : (a.sub b).total = a.total - b.total :=
    (total_sub ha hb (fits_sub ha hb h ho)).trans (wrapped_of_fits h)
  rw [eq_ofTotal (sub_normal a b), hv]

/-- The seconds of an overdrawn difference are the least there are. -/
theorem toInt_sub_overdrawn (ho : Overdrawn a b) : (a.sec - b.sec).toInt = least := by
  obtain ⟨ha, -, hb⟩ := ho
  rw [ha, Int64.toInt_sub, hb, Int64.toInt_zero]
  rfl

theorem sub_overdrawn (ha : a.Normal) (hb : b.Normal) (ho : Overdrawn a b) :
    a.sub b = ofTotal (a.total - b.total - count * second) := by
  have hs := toInt_sub_overdrawn ho
  obtain ⟨hz, hn, hm⟩ := ho
  have al := ha.1
  obtain ⟨bl, -, -, bm⟩ := hb
  have hf : Fits ((a.sec - b.sec).toInt * second + (a.usec.toInt - b.usec.toInt)) := by
    rw [hs, fits_iff]
    simp only [second, least, greatest] at *
    omega
  have hv : (a.sub b).total = a.total - b.total - count * second := by
    rw [sub, total_normal_of_fits hf, hs]
    simp only [total, hz, hm, Int64.toInt_zero, second, least, count]
    omega
  rw [eq_ofTotal (sub_normal a b), hv]

/-- What has been added is taken away again. -/
theorem sub_add_cancel (ha : a.Normal) (hb : b.Normal) (h : Fits (a.total + b.total))
    (ho : ¬Overdrawn (a.add b) b) : (a.add b).sub b = a := by
  have hv : (a.add b).total = a.total + b.total :=
    (total_add ha hb (fits_add ha hb h)).trans (wrapped_of_fits h)
  have hd : (a.add b).total - b.total = a.total := by
    rw [hv, Int.add_sub_cancel]
  rw [sub_eq (add_normal a b) hb (hd ▸ ha.fits) ho, hd, ← eq_ofTotal ha]

/-- **Normalising is canonical**: it comes to the seconds of the exact value, toward zero, and what
is left of it, and to nothing else when it is done again.  Sums and differences of normal pairs are
the pairs of the exact ones, but for overdrawn differences, which are less by all that words
count. -/
theorem normalize_canonical (t u : TimePair) (ha : a.Normal) (hb : b.Normal) :
    (Fits t.total → t.normalize.sec.toInt = t.total.tdiv second ∧
        t.normalize.usec.toInt = t.total.tmod second) ∧
      (Fits t.total → t.total = u.total → t.normalize = u.normalize) ∧
      t.normalize.normalize = t.normalize ∧
      (Fits (a.total + b.total) → a.add b = ofTotal (a.total + b.total)) ∧
      (Fits (a.total - b.total) → a.sub b = ofTotal (if Overdrawn a b then
        a.total - b.total - count * second else a.total - b.total)) ∧
      (Fits (a.total + b.total) → ¬Overdrawn (a.add b) b → (a.add b).sub b = a) := by
  refine ⟨fun h => ?_, fun h he => ?_, normalize_of_normal (normalize_normal t), add_eq ha hb,
    fun h => ?_, sub_add_cancel ha hb⟩
  · have hv : t.normalize.total = t.total := total_normal_of_fits h
    obtain ⟨hq, hr⟩ := (normalize_normal t).divides
    rw [← hv]
    exact ⟨hq.symm, hr.symm⟩
  · rw [normalize_eq h, normalize_eq (he ▸ h), he]
  · split
    · next ho => exact sub_overdrawn ha hb ho
    · next ho => exact sub_eq ha hb h ho

/-- Two seconds less two and a half of them, and two and a half seconds with three of them added and
taken away. -/
theorem normalize_canonical_lessThanNothing :
    (Fits (total ⟨2, -2500000⟩) ∧ (normalize ⟨2, -2500000⟩).sec.toInt = 0 ∧
        (normalize ⟨2, -2500000⟩).usec.toInt = -500000) ∧
      normalize ⟨2, -2500000⟩ = normalize ⟨-3, 2500000⟩ ∧
      (normalize ⟨2, -2500000⟩).normalize = normalize ⟨2, -2500000⟩ ∧
      add ⟨2, 500000⟩ ⟨-3, 0⟩ = ⟨0, -500000⟩ ∧ sub ⟨2, 500000⟩ ⟨-3, 0⟩ = ⟨5, 500000⟩ ∧
      (add ⟨2, 500000⟩ ⟨-3, 0⟩).sub ⟨-3, 0⟩ = ⟨2, 500000⟩ := by
  have ha : Normal ⟨2, 500000⟩ := by decide
  have hb : Normal ⟨-3, 0⟩ := by decide
  obtain ⟨hn, he, hi, hs, hd, hc⟩ := normalize_canonical ⟨2, -2500000⟩ ⟨-3, 2500000⟩ ha hb
  obtain ⟨hq, hr⟩ := hn (by decide)
  refine ⟨⟨by decide, hq.trans (by decide), hr.trans (by decide)⟩, he (by decide) (by decide), hi,
    (hs (by decide)).trans (by decide), (hd (by decide)).trans (by decide),
    hc (by decide) fun h => ?_⟩
  exact absurd h.2.2 (by decide)

/-- Half a second below zero, less the least seconds, is half a second below the greatest and one
more; what is given out lies below the least instead. -/
theorem half_second_overdrawn :
    Normal ⟨0, -500000⟩ ∧ Normal ⟨-9223372036854775808, 0⟩ ∧
      Fits (total ⟨0, -500000⟩ - total ⟨-9223372036854775808, 0⟩) ∧
      sub ⟨0, -500000⟩ ⟨-9223372036854775808, 0⟩ = ⟨-9223372036854775808, -500000⟩ ∧
      ofTotal (total ⟨0, -500000⟩ - total ⟨-9223372036854775808, 0⟩) =
        ⟨9223372036854775807, 500000⟩ :=
  ⟨by decide, by decide, by decide, by with_unfolding_all rfl, by decide⟩

end ExprEngine.TimePair
