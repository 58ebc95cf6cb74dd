import ExprEngine.Proofs.Bytewise.Agreement

/-!
# Quoted texts byte by byte

A quoted text is read in runs: what stands between two escapes is cut out at once, and an escape
that need not be there is remarked on at once.  The grammar reads the same text character by
character and tells afterwards which escapes were needless.

* `Bytewise.quotedEnd`: what the runs come to, said with what the grammar reads.
* `Bytewise.quotedText_at`: by induction over the text behind the start of the present run.
-/

namespace ExprEngine

open Grammar

namespace Bytewise

variable {source : List Char} {m : Machine} {c : Cursor}

/-! ### Quoted texts -/

section

variable {quote : Char} {start run : Nat} {s : Progress}

theorem quotedText_nil :
    quotedText quote start run [] source s =
      .error (.refused ⟨.unclosedQuote quote, start, s.pos⟩) s :=
  rfl

theorem quotedText_other {u : Char} {us : List Char} (hq : u ≠ quote) (hb : u = '\\' → us = []) :
    quotedText quote start run (u :: us) source s =
      quotedText quote start run us source { s with pos := s.pos + 1 } := by
  cases us with
  | nil =>
      unfold quotedText
      rw [if_neg hq]
      rfl
  | cons e rest =>
      have hb : u ≠ '\\' := fun h => by cases hb h
      rw [quotedText.eq_3, if_neg hq, if_neg fun h => hb h.1, if_neg hb]
      rfl

theorem quotedText_bytes {us : List Char} (hq : Text.isAscii quote = true)
    (hu : ∀ u ∈ us, Text.isAscii u = false) (rest : List Char) :
    quotedText quote start run (us ++ rest) source s =
      quotedText quote start run rest source { s with pos := s.pos + us.length } := by
  induction us generalizing s with
  | nil => rfl
  | cons u us ih =>
      have hne : ∀ ch, Text.isAscii ch = true → u ≠ ch := by
        rintro ch hch rfl
        cases hch.symm.trans (hu u List.mem_cons_self)
      rw [List.cons_append, quotedText_other (hne quote hq) fun h => absurd h (hne '\\' rfl),
        ih fun v hv => hu v (List.mem_cons_of_mem u hv), List.length_cons, Nat.add_assoc,
        Nat.add_comm 1]

/-- A character that is neither the quote nor a backslash is passed, byte by byte. -/
theorem quotedText_pass {ch : Char} {cs : List Char} (ha : Text.isAscii quote = true)
    (hq : ch ≠ quote) (hb : ch = '\\' → cs = []) :
    quotedText quote start run (Text.bytes (ch :: cs)) source s =
      quotedText quote start run (Text.bytes cs) source
        { s with pos := s.pos + ch.utf8Size } := by
  cases hc : Text.isAscii ch with
  | true =>
      have hone : Text.byteSize [ch] = 1 := Text.byteSize_of_ascii (by simpa using hc)
      rw [Text.byteSize_cons, Text.byteSize_nil, Nat.add_zero] at hone
      rw [Text.bytes_cons_ascii hc, hone,
        quotedText_other hq fun h => by rw [hb h, Text.bytes_nil]]
  | false =>
      rw [Text.bytes_cons, quotedText_bytes ha fun u hu => Text.isAscii_of_mem_bytes hc hu,
        Text.length_bytes]
      simp

theorem quotedText_needless {e : Char} (hq : quote ≠ '\\') (he : e ≠ quote) (hb : e ≠ '\\')
    (us : List Char) :
    quotedText quote start run ('\\' :: e :: us) source s =
      quotedText quote start run (e :: us) source
        ⟨s.pos + 1, s.machine.remark (.needlessEscape quote e)⟩ := by
  rw [quotedText.eq_3, if_neg hq.symm, if_neg (by simp [he, hb]), if_pos rfl]
  rfl

theorem quotedText_end (us : List Char) {text : List Char}
    (hc : Text.between? source run s.pos = some text) :
    quotedText quote start run (quote :: us) source s = .ok text { s with pos := s.pos + 1 } := by
  cases us <;>
  · unfold quotedText
    rw [if_pos rfl, bind_apply]
    simp only [here, bind_apply, cut, hc]
    rfl

theorem quotedText_escape {e : Char} (hq : quote ≠ '\\') (he : e = quote ∨ e = '\\')
    (us : List Char) {text : List Char} (hc : Text.between? source run s.pos = some text) :
    quotedText quote start run ('\\' :: e :: us) source s =
      match quotedText quote start (s.pos + 1) us source { s with pos := s.pos + 1 + 1 } with
      | .ok t s => .ok (text ++ t) s
      | .error e s => .error e s := by
  rw [quotedText.eq_3, if_neg hq.symm, if_pos ⟨rfl, he⟩, bind_apply]
  simp only [here, bind_apply, cut, hc, advance]
  cases quotedText quote start (s.pos + 1) us source { s with pos := s.pos + 1 + 1 } <;> rfl

/-- A remark shows the byte that comes first. -/
theorem bytes_cons_leading (ch : Char) (cs : List Char) :
    ∃ us, Text.bytes (ch :: cs) = leadingByte ch :: us := by
  unfold leadingByte
  split
  · next b bs hb =>
    refine ⟨bs.map Text.ofByte ++ Text.bytes cs, ?_⟩
    rw [Text.bytes_cons, Text.bytes]
    simp [hb, Text.ofByte]
  · next hb =>
    have hl := congrArg List.length hb
    have hpos := ch.utf8Size_pos
    rw [String.length_utf8EncodeChar] at hl
    simp only [List.length_nil] at hl
    omega

theorem leadingByte_ascii {ch : Char} (h : Text.isAscii ch = true) : leadingByte ch = ch := by
  obtain ⟨us, hu⟩ := bytes_cons_leading ch []
  rw [Text.bytes_cons_ascii h] at hu
  exact (List.cons.inj hu).1.symm

/-- The first byte of a character is an ASCII character where the character is. -/
theorem leadingByte_eq {ch d : Char} (hd : Text.isAscii d = true) :
    leadingByte ch = d ↔ ch = d := by
  cases h : Text.isAscii ch with
  | true => rw [leadingByte_ascii h]
  | false =>
      obtain ⟨u, us, hu, -, hb⟩ := Text.bytes_cons_other h []
      obtain ⟨us', hb'⟩ := bytes_cons_leading ch []
      rw [hb', List.cons.injEq] at hb
      constructor
      · rintro rfl
        cases hu.symm.trans (hb.1 ▸ hd)
      · rintro rfl
        cases h.symm.trans hd

/-- The machine after the remarks on needless escapes. -/
def spoken (m : Machine) (quote : Char) (needless : List Char) : Machine :=
  needless.foldl (fun m e => m.remark (.needlessEscape quote e)) m

/-- What a quoted text is that goes on with `cs` behind `text`, at the end of `before`. -/
def quotedEnd (quote : Char) (start pos : Nat) (m : Machine) (text cs : List Char) :
    EStateM.Result Stop Progress (List Char) :=
  let q := Grammar.quotedText quote cs
  match q.length? with
  | some n => .ok (text ++ q.text) ⟨pos + Text.byteSize (cs.take n), spoken m quote q.needless⟩
  | none =>
    .error (.refused ⟨.unclosedQuote quote, start, pos + Text.byteSize cs⟩)
      ⟨pos + Text.byteSize cs, spoken m quote q.needless⟩

theorem quotedEnd_cons {pos : Nat} {text cs : List Char} {ch : Char} (hq : ch ≠ quote)
    (hb : ch = '\\' → cs = []) :
    quotedEnd quote start pos m text (ch :: cs) =
      quotedEnd quote start (pos + ch.utf8Size) m (text ++ [ch]) cs := by
  cases cs with
  | nil => simp [quotedEnd, Grammar.quotedText, hq]
  | cons d rest =>
      have hb : ch ≠ '\\' := fun h => by cases hb h
      rw [quotedEnd, quotedEnd, Grammar.quotedText.eq_3, if_neg hq, if_neg fun h => hb h.1,
        if_neg hb]
      cases hl : (Grammar.quotedText quote (d :: rest)).length? <;>
        simp [QuotedText.cons, hl, Nat.add_assoc]

theorem quotedEnd_needless {pos : Nat} {text cs : List Char} {d : Char} (hb : quote ≠ '\\')
    (hd : d ≠ quote) (hd' : d ≠ '\\') :
    quotedEnd quote start pos m text ('\\' :: d :: cs) =
      quotedEnd quote start (pos + 1) (m.remark (.needlessEscape quote (leadingByte d)))
        (text ++ ['\\']) (d :: cs) := by
  have hone : '\\'.utf8Size = 1 := rfl
  rw [quotedEnd, quotedEnd, Grammar.quotedText.eq_3, if_neg hb.symm, if_neg (by simp [hd, hd']),
    if_pos rfl]
  cases hl : (Grammar.quotedText quote (d :: cs)).length? <;>
    simp [QuotedText.cons, hl, Nat.add_assoc, spoken, hone]

theorem quotedEnd_escape {pos : Nat} {text cs : List Char} {d : Char} (hb : quote ≠ '\\')
    (hd : d = quote ∨ d = '\\') (ha : Text.isAscii d = true) :
    quotedEnd quote start pos m text ('\\' :: d :: cs) =
      match quotedEnd quote start (pos + 1 + 1) m [d] cs with
      | .ok t s => .ok (text ++ t) s
      | .error e s => .error e s := by
  have hone : '\\'.utf8Size = 1 := rfl
  have hone' : Text.byteSize [d] = 1 := Text.byteSize_of_ascii (by simpa using ha)
  rw [Text.byteSize_cons, Text.byteSize_nil, Nat.add_zero] at hone'
  rw [quotedEnd, quotedEnd, Grammar.quotedText.eq_3, if_neg hb.symm, if_pos ⟨rfl, hd⟩]
  cases hl : (Grammar.quotedText quote cs).length? <;>
    simp [QuotedText.cons, hl, hone, hone', ← Nat.add_assoc]

theorem quotedText_at (hq : Text.isAscii quote = true) (hb : quote ≠ '\\')
    (before text cs : List Char) (m : Machine) :
    quotedText quote start (Text.byteSize before) (Text.bytes cs) (before ++ (text ++ cs))
        ⟨Text.byteSize before + Text.byteSize text, m⟩ =
      quotedEnd quote start (Text.byteSize before + Text.byteSize text) m text cs := by
  have hcut := Text.between?_append before text cs
  have hslash : Text.isAscii '\\' = true := rfl
  -- the longer text in front of what follows, and the place behind it
  have hmore : ∀ ch rest, before ++ (text ++ ch :: rest) = before ++ ((text ++ [ch]) ++ rest) := by
    simp
  have hpos : ∀ ch : Char, Text.byteSize before + Text.byteSize text + ch.utf8Size =
      Text.byteSize before + Text.byteSize (text ++ [ch]) := by simp [Nat.add_assoc]
  match cs with
  | [] => simp [quotedText_nil, quotedEnd, Grammar.quotedText, spoken]
  | ch :: cs =>
      by_cases hquote : ch = quote
      · subst hquote
        rw [Text.bytes_cons_ascii hq, quotedText_end _ hcut]
        have hone : Text.byteSize [ch] = 1 := Text.byteSize_of_ascii (by simpa using hq)
        cases cs <;> simp [quotedEnd, Grammar.quotedText, spoken] at hone ⊢ <;> omega
      by_cases hsl : ch = '\\' ∧ cs ≠ []
      · obtain ⟨rfl, hne⟩ := hsl
        obtain ⟨d, cs, rfl⟩ := List.exists_cons_of_ne_nil hne
        by_cases hd : d = quote ∨ d = '\\'
        · have ha : Text.isAscii d = true := by rcases hd with rfl | rfl <;> assumption
          have ih := quotedText_at hq hb (before ++ (text ++ ['\\'])) [d] cs m
          rw [quotedEnd_escape hb hd ha, Text.bytes_cons_ascii hslash, Text.bytes_cons_ascii ha,
            quotedText_escape hb hd _ hcut]
          have hone : Text.byteSize ['\\'] = 1 := rfl
          have hone' : Text.byteSize [d] = 1 := Text.byteSize_of_ascii (by simpa using ha)
          simp only [List.append_assoc, Text.byteSize_append, hone, hone', List.singleton_append,
            ← Nat.add_assoc] at ih
          rw [ih]
        · have hd := not_or.mp hd
          have ih := quotedText_at hq hb before (text ++ ['\\']) (d :: cs)
            (m.remark (.needlessEscape quote (leadingByte d)))
          obtain ⟨us, hu⟩ := bytes_cons_leading d cs
          rw [hu] at ih
          rw [quotedEnd_needless hb hd.1 hd.2, Text.bytes_cons_ascii hslash, hu,
            quotedText_needless hb (mt (leadingByte_eq hq).mp hd.1)
              (mt (leadingByte_eq hslash).mp hd.2), hmore]
          exact hpos '\\' ▸ ih
      · have hsl : ch = '\\' → cs = [] := fun h => Classical.byContradiction fun hn => hsl ⟨h, hn⟩
        have ih := quotedText_at hq hb before (text ++ [ch]) cs m
        rw [quotedEnd_cons hquote hsl, hmore, quotedText_pass hq hquote hsl]
        exact hpos ch ▸ ih
termination_by cs.length

theorem spoken_told (m : Machine) (quote : Char) (needless : List Char) (c : Cursor) :
    spoken (m.told c.notes) quote needless =
      m.told
        (needless.foldl (fun c escaped => c.note (.needlessEscape quote escaped)) c).notes := by
  induction needless generalizing c with
  | nil => rfl
  | cons e needless ih => exact ih (c.note (.needlessEscape quote e))

end

end Bytewise

end ExprEngine
