import ExprEngine.Proofs.Bytewise.Compiler
import ExprEngine.Proofs.Grammar.Reading
import ExprEngine.Proofs.Grammar.Signs
import ExprEngine.Proofs.Number.Bytes

/-!
# Places between characters

A cursor stands in a source if the text before it takes as many bytes as the cursor says
(`Cursor.In`); then what the compiler of bytes does at that index is what the grammar does at that
cursor.

* `Span.Cuts`: a span lies in a source and does not start or stop inside a character.
* `Bytewise.progress`: where the compiler of bytes is when the grammar is at a cursor.
* `Bytewise.advance_at`, `Bytewise.skipWhile_at`, `Bytewise.cut_at`: its steps, as moves of a
  cursor.
* `Bytewise.Agrees`: both read the same and stop at the same place, or refuse the source alike.
* `Bytewise.Agrees.bind`, `Bytewise.Agrees.step`: what is agreed on can be put together.
-/

namespace ExprEngine

open Grammar

/-! ### Places in a source -/

/-- The span lies in the text, and starts and ends between characters. -/
def Span.Cuts (source : List Char) (s : Span) : Prop :=
  ∃ before text rest, source = before ++ (text ++ rest) ∧
    s.start = Text.byteSize before ∧ s.stop = Text.byteSize before + Text.byteSize text

/-- The cursor stands in the source. -/
def Cursor.In (source : List Char) (c : Cursor) : Prop :=
  ∃ before, source = before ++ c.rest ∧ c.pos = Text.byteSize before

namespace Cursor

variable {source : List Char} {c d : Cursor}

theorem ofString_in (source : String) : (ofString source).In source.toList :=
  ⟨[], rfl, rfl⟩

theorem In.advance (h : c.In source) (n : Nat) : (c.advance n).In source := by
  obtain ⟨before, hs, hp⟩ := h
  refine ⟨before ++ c.rest.take n, ?_, ?_⟩
  · rw [hs, List.append_assoc]
    exact congrArg (before ++ ·) (List.take_append_drop n c.rest).symm
  · rw [Text.byteSize_append, ← hp]
    rfl

theorem In.pastBlanks (h : c.In source) : c.pastBlanks.val.In source :=
  h.advance _

theorem In.atEnd (h : c.In source) : c.atEnd.In source :=
  h.advance _

/-- Between two places in a source stands a text. -/
theorem In.between (hc : c.In source) (hd : d.In source) (h : d.rest.length ≤ c.rest.length) :
    ∃ before text, source = before ++ (text ++ d.rest) ∧ c.rest = text ++ d.rest ∧
      c.pos = Text.byteSize before ∧ d.pos = Text.byteSize before + Text.byteSize text := by
  obtain ⟨before, hs, hp⟩ := hc
  obtain ⟨before', hs', hp'⟩ := hd
  have hleft : c.rest <:+ source := ⟨before, hs.symm⟩
  have hright : d.rest <:+ source := ⟨before', hs'.symm⟩
  obtain ⟨text, ht⟩ := List.suffix_of_suffix_length_le hright hleft h
  refine ⟨before, text, by rw [hs, ht], ht.symm, hp, ?_⟩
  have happ : before' ++ d.rest = before ++ text ++ d.rest := by
    rw [← hs', hs, ← ht, List.append_assoc]
  have hb : before' = before ++ text := List.append_cancel_right happ
  rw [hp', hb, Text.byteSize_append]

theorem In.spanTo_cuts (hc : c.In source) (hd : d.In source) (h : d.rest.length ≤ c.rest.length) :
    (c.spanTo d).Cuts source := by
  obtain ⟨before, text, hs, -, hp, hq⟩ := hc.between hd h
  exact ⟨before, text, d.rest, hs, hp, hq⟩

end Cursor

/-- The machine after remarks, of which the latest stands first. -/
def Machine.told (m : Machine) (notes : List Note) : Machine :=
  notes.foldr (fun n m => m.remark n) m

theorem Machine.told_findCommand? (m : Machine) (notes : List Note) :
    (m.told notes).session.findCommand? = m.session.findCommand? := by
  induction notes with
  | nil => rfl
  | cons n notes ih =>
      rw [← ih]
      show ((m.told notes).remark n).session.findCommand? = _
      unfold Machine.remark
      split <;> rfl

namespace Bytewise

/-- Where the compiler of bytes stands when the other one is at a cursor. -/
def progress (m : Machine) (c : Cursor) : Progress :=
  ⟨c.pos, m.told c.notes⟩

section

variable {α β : Type} {source : List Char} {m : Machine} {c d : Cursor} {s : Progress}

theorem bind_apply (x : Scan α) (f : α → Scan β) (source : List Char) (s : Progress) :
    (x >>= f) source s =
      match x source s with
      | .ok a s => f a source s
      | .error e s => .error e s := by
  show EStateM.bind (x source) (fun a => f a source) s = _
  unfold EStateM.bind
  cases x source s <;> rfl

/-! ### Steps -/

/-- The bytes from a place on are those of the text from there on. -/
theorem drop_bytes (hc : c.In source) : (Text.bytes source).drop c.pos = Text.bytes c.rest := by
  obtain ⟨before, hs, hp⟩ := hc
  rw [hs, hp, Text.bytes_append, ← Text.length_bytes, List.drop_left]

theorem ahead_at (hc : c.In source) :
    ahead source (progress m c) = .ok (Text.bytes c.rest) (progress m c) := by
  rw [← drop_bytes hc]
  rfl

theorem peek?_at (hc : c.In source) :
    peek? source (progress m c) = .ok (Text.bytes c.rest).head? (progress m c) := by
  rw [peek?, bind_apply, ahead_at hc]
  rfl

/-- Passing ASCII characters is passing as many bytes. -/
theorem advance_at {n : Nat} (h : ∀ ch ∈ c.rest.take n, Text.isAscii ch = true)
    (hn : n ≤ c.rest.length) :
    advance n source (progress m c) = .ok () (progress m (c.advance n)) := by
  have hb := Text.byteSize_of_ascii h
  rw [List.length_take_of_le hn] at hb
  show EStateM.Result.ok () (⟨c.pos + n, m.told c.notes⟩ : Progress) =
    .ok () ⟨c.pos + Text.byteSize (c.rest.take n), m.told c.notes⟩
  rw [hb]

/-- What comes next is an ASCII character or is not, whether characters are looked at or bytes. -/
theorem head?_bytes {ch : Char} (ha : Text.isAscii ch = true) (cs : List Char) :
    (Text.bytes cs).head? = some ch ↔ cs.head? = some ch := by
  cases cs with
  | nil => simp
  | cons d cs =>
      cases hd : Text.isAscii d with
      | true => simp [Text.bytes_cons_ascii hd]
      | false =>
          obtain ⟨u, us, hu, -, hb⟩ := Text.bytes_cons_other hd cs
          have hne : ∀ e, Text.isAscii e = false → e ≠ ch := by
            rintro e he rfl
            cases ha.symm.trans he
          simp [hb, hne u hu, hne d hd]

theorem advance_one {ch : Char} (h : c.rest.head? = some ch) (ha : Text.isAscii ch = true) :
    advance 1 source (progress m c) = .ok () (progress m (c.advance 1)) := by
  cases hr : c.rest with
  | nil =>
      rw [hr] at h
      cases h
  | cons d cs =>
      rw [hr] at h
      cases h
      exact advance_at (by simp [hr, ha]) (by simp [hr])

theorem eat_some {ch : Char} (hc : c.In source) (ha : Text.isAscii ch = true) {hd}
    (h : c.eat? ch = some ⟨d, hd⟩) :
    eat ch source (progress m c) = .ok true (progress m d) ∧ d.In source ∧ d = c.advance 1 ∧
      c.rest.head? = some ch := by
  obtain ⟨rfl, hh⟩ := Cursor.eq_advance_of_eat? h
  refine ⟨?_, hc.advance 1, rfl, hh⟩
  rw [eat, bind_apply, peek?_at hc]
  dsimp only
  rw [if_pos ((head?_bytes ha _).mpr hh), bind_apply, advance_one hh ha]
  rfl

theorem eat_none {ch : Char} (hc : c.In source) (ha : Text.isAscii ch = true)
    (h : c.eat? ch = none) : eat ch source (progress m c) = .ok false (progress m c) := by
  have hp : (Text.bytes c.rest).head? ≠ some ch := by
    rw [ne_eq, head?_bytes ha]
    exact Cursor.head?_of_eat?_none h
  rw [eat, bind_apply, peek?_at hc]
  dsimp only
  rw [if_neg hp]
  rfl

/-- A reader of ASCII that takes no more than there is. -/
structure Reader {α : Type} (reader : List Char → Option (α × Nat)) : Prop where
  asciiOnly : Text.AsciiOnly reader
  length : ∀ cs a n, reader cs = some (a, n) → 0 < n ∧ n ≤ cs.length

theorem read?_some {reader : List Char → Option (α × Nat)} (hr : Reader reader) {a : α} {hd}
    (hc : c.In source) (h : c.read? reader = some (a, ⟨d, hd⟩)) :
    read? reader source (progress m c) = .ok (some a) (progress m d) ∧ d.In source := by
  unfold Cursor.read? at h
  split at h
  · cases h
  · next b n hb =>
    split at h
    · next hn =>
      cases h
      refine ⟨?_, hc.advance n⟩
      have hl := hr.length _ _ _ ((hr.asciiOnly c.rest).trans hb)
      rw [read?, bind_apply, ahead_at hc]
      dsimp only
      rw [hr.asciiOnly.bytes, hb]
      dsimp only
      rw [bind_apply, advance_at (Text.isAscii_of_mem_take hl.2) hn.2]
      rfl
    · cases h

theorem read?_none {reader : List Char → Option (α × Nat)} (hr : Reader reader)
    (hc : c.In source) (h : c.read? reader = none) :
    read? reader source (progress m c) = .ok none (progress m c) := by
  have hn : reader c.rest = none := by
    unfold Cursor.read? at h
    split at h
    · assumption
    · next a n ha =>
      rw [dif_pos (hr.length _ _ _ ha)] at h
      cases h
  rw [read?, bind_apply, ahead_at hc]
  dsimp only
  rw [hr.asciiOnly.bytes, hn]
  rfl

theorem skipWhile_at {p : Char → Bool} (hp : Text.Coarse p) (hc : c.In source) :
    skipWhile p source (progress m c) = .ok () (progress m (c.skipWhile p)) := by
  rw [skipWhile, bind_apply, ahead_at hc]
  dsimp only
  rw [(Text.takeWhile_bytes hp c.rest).1, Text.length_bytes]
  have ht : c.rest.take (c.rest.takeWhile p).length = c.rest.takeWhile p :=
    List.prefix_iff_eq_take.mp (List.takeWhile_prefix p) |>.symm
  show EStateM.Result.ok () (⟨c.pos + _, m.told c.notes⟩ : Progress) =
    .ok () ⟨c.pos + Text.byteSize (c.rest.take (c.rest.takeWhile p).length), m.told c.notes⟩
  rw [ht]

/-- The text between two places can be cut out, and is what the other compiler takes. -/
theorem cut_at (hc : c.In source) (hd : d.In source) (h : d.rest.length ≤ c.rest.length) :
    cut c.pos d.pos source s = .ok (c.rest.take (c.rest.length - d.rest.length)) s := by
  obtain ⟨before, text, hs, hr, hp, hq⟩ := hc.between hd h
  have ht : c.rest.take (c.rest.length - d.rest.length) = text := by
    rw [hr, List.length_append, Nat.add_sub_cancel, List.take_left]
  rw [cut, hp, hq, hs, Text.between?_append, ht]

theorem cut_advance {n : Nat} (hc : c.In source) (hn : n ≤ c.rest.length) :
    cut c.pos (c.advance n).pos source s = .ok (c.rest.take n) s := by
  rw [cut_at hc (hc.advance n) (by simp), Cursor.length_advance, Nat.sub_sub_self hn]

theorem cut_skipWhile (p : Char → Bool) (hc : c.In source) :
    cut c.pos (c.skipWhile p).pos source s = .ok (c.takeWhile p) s := by
  have hprefix : c.takeWhile p <+: c.rest := List.takeWhile_prefix p
  rw [Cursor.skipWhile, cut_advance hc hprefix.length_le]
  exact congrArg (EStateM.Result.ok · s) (List.prefix_iff_eq_take.mp hprefix).symm

/-- The end of the source is the place behind all bytes. -/
theorem pos_atEnd (hc : c.In source) : c.atEnd.pos = (Text.bytes source).length := by
  obtain ⟨before, hs, hp⟩ := hc
  rw [hs, Text.length_bytes, Text.byteSize_append, ← hp, Cursor.atEnd, Cursor.advance]
  simp

theorem cut_rest (hc : c.In source) :
    cut c.pos (Text.bytes source).length source s = .ok c.rest s := by
  have hcut := cut_advance (s := s) hc (Nat.le_refl c.rest.length)
  rw [List.take_length] at hcut
  rw [← pos_atEnd hc]
  exact hcut

/-! ### Agreement -/

variable (source m)

/-- What one compiler reads from a cursor on, the other reads from the same place, and with the
cursor behind it has the property; or both refuse the source alike, with a complaint about some text
of it. -/
def Agrees (P : α → Cursor → Prop) (x : Except Rejection (Parsed α c)) (y : Scan α)
    (s : Progress) : Prop :=
  match x with
  | .ok p => y source s = .ok p.value (progress m p.next) ∧ p.next.In source ∧ P p.value p.next
  | .error r =>
    (∃ pos, y source s = .error (.refused r.error) ⟨pos, m.told r.notes⟩) ∧
      r.error.span.Cuts source

variable {source m} {P : α → Cursor → Prop} {Q : β → Cursor → Prop}
  {x : Except Rejection (Parsed α c)} {y : Scan α}

namespace Agrees

theorem bind {f : Parsed α c → Except Rejection (Parsed β d)} {g : α → Scan β}
    (hx : Agrees source m P x y s)
    (hf : ∀ p : Parsed α c, p.next.In source → P p.value p.next →
      Agrees source m Q (f p) (g p.value) (progress m p.next)) :
    Agrees source m Q (x >>= f) (y >>= g) s := by
  cases x with
  | error r =>
      obtain ⟨⟨pos, hy⟩, hs⟩ := hx
      exact ⟨⟨pos, by rw [bind_apply, hy]⟩, hs⟩
  | ok p =>
      obtain ⟨hy, hn, hp⟩ := hx
      have hg : (y >>= g) source s = g p.value source (progress m p.next) := by
        rw [bind_apply, hy]
      have hp := hf p hn hp
      show Agrees source m Q (f p) (y >>= g) s
      unfold Agrees at hp ⊢
      rwa [hg]

/-- A step of the compiler of bytes that the other one need not take. -/
theorem step {z : Scan β} {g : β → Scan α} {b : β} {t : Progress} (hz : z source s = .ok b t)
    (hx : Agrees source m P x (g b) t) : Agrees source m P x (z >>= g) s := by
  have hg : (z >>= g) source s = g b source t := by rw [bind_apply, hz]
  unfold Agrees at hx ⊢
  rwa [hg]

theorem mono {P' : α → Cursor → Prop} (h : ∀ a d, P a d → P' a d) (hx : Agrees source m P x y s) :
    Agrees source m P' x y s := by
  cases x with
  | error r => exact hx
  | ok p => exact ⟨hx.1, hx.2.1, h _ _ hx.2.2⟩

theorem since {e : Cursor} {x : Except Rejection (Parsed α e)} {y : Scan α}
    (h : e.rest.length ≤ c.rest.length) (hx : Agrees source m P x y s) :
    Agrees source m P (x >>= fun p => pure (p.since h) : Except Rejection (Parsed α c)) y s := by
  cases x <;> exact hx

theorem ok {p : Parsed α c} (hy : y source s = .ok p.value (progress m p.next))
    (hn : p.next.In source) (hp : P p.value p.next) : Agrees source m P (.ok p) y s :=
  ⟨hy, hn, hp⟩

/-- The compiler of bytes refuses the source in a step that the other one need not take. -/
theorem failed {r : Rejection} {z : Scan β} {g : β → Scan α} {pos : Nat}
    (hz : z source s = .error (.refused r.error) ⟨pos, m.told r.notes⟩)
    (hs : r.error.span.Cuts source) :
    Agrees source m P (.error r : Except Rejection (Parsed α c)) (z >>= g) s :=
  ⟨⟨pos, by rw [bind_apply, hz]⟩, hs⟩

/-- Both refuse the source, whichever place they have come to. -/
theorem refuse_from {e : Cursor} (hn : e.notes = d.notes) {cause : CompileCause} {span : Span}
    (hs : span.Cuts source) :
    Agrees source m P (d.refuse cause span : Except Rejection (Parsed α c))
      (Bytewise.refuse cause span) (progress m e) :=
  ⟨⟨e.pos, by rw [progress, hn]; rfl⟩, hs⟩

theorem refuse {cause : CompileCause} {span : Span} (hs : span.Cuts source) :
    Agrees source m P (d.refuse cause span : Except Rejection (Parsed α c))
      (Bytewise.refuse cause span) (progress m d) :=
  refuse_from rfl hs

end Agrees

/-- A complaint ends where the other compiler ends it. -/
theorem complaintEnd_at {first : Char} {rest : List Char} (hc : c.rest = first :: rest)
    (hi : c.In source) :
    complaintEnd c.pos first source s =
      .ok (c.advance (Cursor.offendingLength c.rest)).pos s := by
  have hone : (c.advance 1).pos = c.pos + first.utf8Size := by simp [Cursor.advance, hc]
  have hrest : (c.advance 1).rest = rest := by simp [Cursor.advance, hc]
  unfold complaintEnd
  dsimp only
  rw [← hone, drop_bytes (hi.advance 1), hrest, hc, Cursor.offendingLength]
  split
  · have hword := (Text.takeWhile_bytes Text.isAlphanum_ofAscii.coarse rest).1
    have htake :
        rest.take (rest.takeWhile Char.isAlphanum).length = rest.takeWhile Char.isAlphanum :=
      (List.prefix_iff_eq_take.mp (List.takeWhile_prefix _)).symm
    rw [hword, Text.length_bytes, Nat.add_comm 1, hone]
    simp only [Cursor.advance, hc, List.take_succ_cons, htake, Text.byteSize_cons, Nat.add_assoc]
  · rfl

theorem unexpected_agrees (hd : d.In source) (what : Expected) :
    Agrees source m P (d.unexpected what : Except Rejection (Parsed α c)) (unexpected what)
      (progress m d) := by
  have hi := hd.advance (Cursor.offendingLength d.rest)
  have hspan := hd.spanTo_cuts hi (by simp)
  unfold Cursor.unexpected unexpected
  refine .step (b := d.pos) rfl
    (.step (b := (Text.bytes source).length) rfl (.step (cut_rest hd) ?_))
  simp only [Cursor.textTo]
  cases hr : d.rest with
  | nil =>
      rw [hr] at hspan
      have hs : d.spanTo (d.advance (Cursor.offendingLength [])) = ⟨d.pos, d.pos⟩ := by
        simp [Cursor.spanTo, Cursor.advance, Cursor.offendingLength]
      rw [hs] at hspan ⊢
      exact .refuse hspan
  | cons first rest =>
      refine .step (complaintEnd_at hr hd) (.step (cut_at hd hi (by simp)) ?_)
      rw [hr] at hspan ⊢
      exact .refuse hspan

end

end Bytewise

end ExprEngine
