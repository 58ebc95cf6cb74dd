import ExprEngine.Proofs.Number.Extent
import ExprEngine.Proofs.Operator.Compound
import ExprEngine.Proofs.Operator.Integers

/-!
# Text without digits

Text without a digit is read as zero, of which the blanks and signs in front are taken.  It is the
integer zero unless a mark of a number stands behind them: a point or a colon, which are taken, make
it a decimal, and the letter of an exponent makes it a real.  Operators compute with a word that has
no such mark in front as with the integer zero.

* `unsigned_digitless`: the zero that is read.
* `Operator.compute_congr`: operators look at what their operands are read as.
* `digitless_zero`: all of it together.
-/

namespace ExprEngine

namespace Literal

variable {cs rest : List Char}

/-- There are no digits in the text. -/
def Digitless (cs : List Char) : Prop :=
  ∀ c ∈ cs, c.isDigit = false

instance : DecidablePred Digitless :=
  fun cs => List.decidableBAll (fun c : Char => c.isDigit = false) cs

instance : DecidablePred Lettered :=
  fun cs => inferInstanceAs (Decidable (cs.head? = some 'e' ∨ cs.head? = some 'E'))

/-- A mark of a number stands in front of the text: a colon, a point or an exponent's letter. -/
def Marked (cs : List Char) : Prop :=
  cs.head? = some ':' ∨ cs.head? = some '.' ∨ Lettered cs

instance : DecidablePred Marked :=
  fun cs => inferInstanceAs (Decidable (cs.head? = some ':' ∨ cs.head? = some '.' ∨ Lettered cs))

/-- The zero of the reals under a sign. -/
def realZero (negative : Bool) : Number :=
  .real (if negative then -0.0 else 0.0)

/-- The zero that text without digits is read as, and how much of it is taken. -/
def zeroOf (negative : Bool) : List Char → Number × Nat
  | ':' :: '.' :: _ => (.decimal .zero, 2)
  | ':' :: _ => (.decimal .zero, 1)
  | '.' :: rest => (if Lettered rest then realZero negative else .decimal .zero, 1)
  | rest => (if Lettered rest then realZero negative else .int 0, 0)

theorem Digitless.halts (h : Digitless cs) : Halts cs := fun c hc =>
  h c (List.mem_of_mem_head? hc)

theorem Digitless.of_isSuffix (h : Digitless cs) (hs : rest <:+ cs) : Digitless rest :=
  fun c hc => h c (hs.mem hc)

theorem Digitless.tail {c : Char} (h : Digitless (c :: cs)) : Digitless cs :=
  h.of_isSuffix (List.suffix_cons c cs)

theorem Digitless.spanDigits_eq (h : Digitless cs) : spanDigits cs = ([], cs) := by
  have hd : Decimal.AllDigits [] := fun _ hc => absurd hc List.not_mem_nil
  exact spanDigits_append_of_halts hd h.halts

theorem zeroOf_le (negative : Bool) (cs : List Char) : (zeroOf negative cs).2 ≤ cs.length := by
  unfold zeroOf
  split <;> simp

theorem Digitless.letterAlone (h : Digitless cs) (hl : Lettered cs) : LetterAlone cs := by
  obtain ⟨c, tail, rfl, hc⟩ := hl.exists_cons
  exact ⟨c, tail, rfl, hc, (h.tail.of_isSuffix (exponentSign_isSuffix tail)).halts⟩

theorem Digitless.spanFraction_eq (h : Digitless cs) :
    spanFraction cs = ([], if cs.head? = some '.' then cs.tail else cs) := by
  split
  · next hp =>
    obtain ⟨cs, rfl⟩ := List.head?_eq_some_iff.mp hp
    exact h.tail.spanDigits_eq
  · next hp => rw [Literal.spanFraction_eq, spanPoint_other hp, Option.getD_none]

variable {negative : Bool} {point : Option (List Char)}

/-- An exponent's letter without digits in front of it. -/
theorem unsigned_lettered (hm : mantissa cs = (([], point), rest)) (hp : point.getD [] = [])
    (hd : Digitless rest) (hl : Lettered rest) :
    unsigned negative cs = .ok (realZero negative, rest) := by
  have hz : realOf [] point 0 = realOf [] none 0 := by simp only [realOf, hp, Option.getD_none]
  rw [unsigned_long negative hm hl.not_timed fun _ => hl, (hd.letterAlone hl).spanExponent_eq, hz]
  cases negative <;> with_unfolding_all rfl

/-- A colon without digits in front of it. -/
theorem unsigned_colon (h : Digitless cs) :
    unsigned negative (':' :: cs) = .ok (.decimal .zero, (spanFraction cs).2) := by
  have hours : clockPart 3600 [] = .ok 0 := rfl
  have minutes : clockMinutes 0 cs = .ok (0, cs) := by
    rw [clockMinutes_eq, h.spanDigits_eq]
    rfl
  have zero : pair negative 0 (microseconds []) = .decimal .zero := by cases negative <;> decide
  rw [unsigned_timed negative (show mantissa (':' :: cs) = (([], none), ':' :: cs) from rfl), clock,
    hours]
  dsimp only [bind, Except.bind]
  rw [minutes]
  dsimp only
  rw [h.spanFraction_eq, zero]
  rfl

theorem Digitless.mantissa_point (h : Digitless cs) :
    mantissa ('.' :: cs) = (([], some []), cs) := by
  have hs : spanDigits ('.' :: cs) = ([], '.' :: cs) := rfl
  simp only [mantissa, hs, spanPoint, h.spanDigits_eq]

theorem Digitless.mantissa_other (h : Digitless cs) (hp : cs.head? ≠ some '.') :
    mantissa cs = (([], none), cs) := by
  simp only [mantissa, h.spanDigits_eq, spanPoint_other hp]

theorem unsigned_digitless (negative : Bool) (h : Digitless cs) :
    unsigned negative cs = .ok ((zeroOf negative cs).1, cs.drop (zeroOf negative cs).2) := by
  -- one case a row of the table: two of colons, one of points, and one of letters and words
  unfold zeroOf
  split
  · rw [unsigned_colon h.tail, h.tail.spanFraction_eq]
    rfl
  · next rest hn =>
    have hp : rest.head? ≠ some '.' := fun hp => by
      obtain ⟨rest, rfl⟩ := List.head?_eq_some_iff.mp hp
      exact hn rest rfl
    rw [unsigned_colon h.tail, h.tail.spanFraction_eq, if_neg hp]
    rfl
  · next rest =>
    split
    · next hl => exact unsigned_lettered h.tail.mantissa_point rfl h.tail hl
    · next hl =>
      rw [unsigned_short negative h.tail.mantissa_point ⟨by decide, by decide⟩ nofun hl]
      cases negative <;> rfl
  · next hcp hc hp =>
    have hp' : cs.head? ≠ some '.' := fun h' => by
      obtain ⟨rest, rfl⟩ := List.head?_eq_some_iff.mp h'
      exact hp rest rfl
    split
    · next hl => exact unsigned_lettered (h.mantissa_other hp') rfl h hl
    · next hl =>
      have ht : ¬Timed none cs := by
        rintro ⟨-, h'⟩
        obtain ⟨rest, rfl⟩ := List.head?_eq_some_iff.mp h'
        exact hc rest rfl
      rw [unsigned_short negative (h.mantissa_other hp') ⟨by decide, by decide⟩ ht hl]
      cases negative <;> rfl

theorem Digitless.behind (h : Digitless cs) : Digitless (behind cs) :=
  h.of_isSuffix ((List.dropWhile_suffix _).trans (List.dropWhile_suffix _))

theorem parse_digitless (h : Digitless cs) :
    parse cs = .ok ((zeroOf (negated (signsOf cs)) (Literal.behind cs)).1,
      (inFront cs).length + (zeroOf (negated (signsOf cs)) (Literal.behind cs)).2) := by
  have hle := zeroOf_le (negated (signsOf cs)) (Literal.behind cs)
  have hl : cs.length = (inFront cs).length + (Literal.behind cs).length := by
    rw [← List.length_append, append_behind]
  rw [parse_eq, unsigned_digitless _ h.behind]
  refine congrArg Except.ok (Prod.ext rfl ?_)
  show cs.length - (List.drop _ _).length = _
  rw [List.length_drop]
  omega

theorem zeroOf_of_not_marked (h : ¬Marked cs) : zeroOf negative cs = (.int 0, 0) := by
  unfold zeroOf
  split
  · exact absurd (.inl rfl) h
  · exact absurd (.inl rfl) h
  · exact absurd (.inr (.inl rfl)) h
  · rw [if_neg fun hl => h (.inr (.inr hl))]

end Literal

/-- The value is the text, or names a variable that holds it. -/
inductive Worded (s : Session) (t : String) : Value → Prop
  | text : Worded s t (.text t)
  | name {x : String} (h : s.lookup x = some (.text t)) : Worded s t (.name x)

/-- A text that is read as an integer is an operand as the integer is. -/
theorem Operand.read_of_worded {s : Session} {t : String} {v : Value} {n : Int64} {used : Nat}
    (hv : Worded s t v) (h : Literal.parse t.toList = .ok (.int n, used)) :
    read s v = read s (.int n) := by
  have hi : (Value.text t).payload.integer? = some n := by
    simp only [Value.text, Payload.integer?, h]
  have ht : ofValue s (.text t) = read s (.int n) := ofValue_of_integer? hi
  cases hv with
  | text => exact ht
  | name hx =>
      rw [← ht]
      show ofVariable s _ = _
      rw [ofVariable, hx]

namespace Operator

variable {op : Operator} {s : Session} {v w : Value}

/-- The operators that compute with numbers and store nothing. -/
def numeric : List Operator :=
  [.add, .sub, .mul, .div, .lt, .gt, .le, .ge, .eq, .ne]

theorem reduce_numeric (ho : op ∈ numeric) (args : List Value) :
    op.reduce args = op.compute fun s => args.mapM (Operand.read s) := by
  simp only [numeric, List.mem_cons, List.not_mem_nil, or_false] at ho
  rcases ho with rfl | rfl | rfl | rfl | rfl | rfl | rfl | rfl | rfl | rfl <;> rfl

theorem reduce_compound (ho : op ∈ compounds) (a v : Value) (after : List Value) :
    op.reduce (a :: v :: after) = (do
      let x ← target [a]
      store x (← op.compute fun s => do
        return [← Operand.ofVariable s x, ← Operand.read s v])) := by
  simp only [compounds, List.mem_cons, List.not_mem_nil, or_false] at ho
  rcases ho with rfl | rfl | rfl | rfl <;> rfl

theorem bind_congr_of_eq {α β : Type} {f g : SessionM α} (h : f s = g s) (next : α → SessionM β) :
    (f >>= next) s = (g >>= next) s := by
  show EStateM.bind f next s = EStateM.bind g next s
  rw [EStateM.bind, EStateM.bind, h]

theorem throw_bind_eq {α β : Type} (e : Halt) (next next' : α → SessionM β) :
    ((throw e : SessionM α) >>= next) s = (throw e >>= next') s :=
  rfl

theorem target_singleton (a : Value) : target [a] =
    match a.name? with
    | some x => pure x
    | none => throw EvalError.illegalAssignment.halt := by
  show (pure a >>= fun v : Value => _) = _
  exact pure_bind a _

/-- Operators look at what their operands are read as. -/
theorem compute_congr {f g : Session → Logged (List Operand)} (h : f s = g s) :
    op.compute f s = op.compute g s := by
  rw [compute_apply, h, ← compute_apply]

theorem reduce_numeric_congr (ho : op ∈ numeric) (h : Operand.read s v = Operand.read s w)
    (before after : List Value) :
    op.reduce (before ++ v :: after) s = op.reduce (before ++ w :: after) s := by
  rw [reduce_numeric ho, reduce_numeric ho]
  refine compute_congr ?_
  simp only [List.mapM_append, List.mapM_cons, h]

theorem reduce_compound_congr (ho : op ∈ compounds) (h : Operand.read s v = Operand.read s w)
    (a : Value) (after : List Value) :
    op.reduce (a :: v :: after) s = op.reduce (a :: w :: after) s := by
  have hc (x : String) : op.compute (fun s => do
      return [← Operand.ofVariable s x, ← Operand.read s v]) s = op.compute (fun s => do
      return [← Operand.ofVariable s x, ← Operand.read s w]) s :=
    compute_congr (by simp only [h])
  rw [reduce_compound ho, reduce_compound ho, target_singleton]
  cases a.name? with
  | none => exact throw_bind_eq _ _ _
  | some x =>
      simp only [pure_bind]
      exact bind_congr_of_eq (hc x) (store x)

/-- A compound assignment computes with what its variable is read as. -/
theorem reduce_compound_target (ho : op ∈ compounds) {x : String}
    (h : Operand.read s (.name x) = Operand.read s w) (u : Value) (after : List Value) :
    op.reduce (.name x :: u :: after) s =
      ((op.compute fun s => [w, u].mapM (Operand.read s)) >>= store x) s := by
  have hc : op.compute (fun s => do
      return [← Operand.ofVariable s x, ← Operand.read s u]) s =
        op.compute (fun s => [w, u].mapM (Operand.read s)) s := by
    refine compute_congr ?_
    rw [← operands_expansion]
    simp only [List.mapM_cons, h]
  rw [reduce_compound ho, target_singleton]
  exact bind_congr_of_eq hc (store x)

end Operator

open Literal

/-- **Text without digits is read as zero**, behind its blanks and signs.  Unless a mark of a number
stands there it is the integer zero, of which nothing else is taken, and operators compute with it
as with the integer zero. -/
theorem digitless_zero (t : String) (h : Digitless t.toList) :
    Text.byteSize (inFront t.toList) = (inFront t.toList).length ∧
      parse t.toList = .ok
        ((zeroOf (negated (signsOf t.toList)) (behind t.toList)).1,
          (inFront t.toList).length +
            (zeroOf (negated (signsOf t.toList)) (behind t.toList)).2) ∧
      (¬Marked (behind t.toList) →
        parse t.toList = .ok (.int 0, (inFront t.toList).length) ∧
          ∀ (s : Session) (v : Value), Worded s t v →
            (∀ op ∈ Operator.numeric, ∀ before after,
              op.reduce (before ++ v :: after) s = op.reduce (before ++ .int 0 :: after) s) ∧
            (∀ op ∈ Operator.compounds, ∀ target after,
              op.reduce (target :: v :: after) s = op.reduce (target :: .int 0 :: after) s) ∧
            ∀ op ∈ Operator.compounds, ∀ x u after, v = .name x →
              op.reduce (v :: u :: after) s =
                ((op.compute fun s => [.int 0, u].mapM (Operand.read s)) >>=
                  Operator.store x) s) := by
  have hp := parse_digitless h
  refine ⟨Text.byteSize_of_ascii (ascii_inFront t.toList), hp, fun hm => ?_⟩
  rw [zeroOf_of_not_marked hm] at hp
  refine ⟨hp, fun s v hv => ?_⟩
  have hr : Operand.read s v = Operand.read s (.int 0) := Operand.read_of_worded hv hp
  refine ⟨fun op ho before after => Operator.reduce_numeric_congr ho hr before after,
    fun op ho target after => Operator.reduce_compound_congr ho hr target after, ?_⟩
  rintro op ho x u after rfl
  exact Operator.reduce_compound_target ho hr u after

/-- A word behind a blank and two signs, alone and in a variable; a letter, a point and a colon. -/
theorem digitless_zero_atWords :
    parse " +-north".toList = .ok (.int 0, 3) ∧
      Operator.mul.reduce [.int 7, .name "x"]
          (({} : Session).setGlobal "x" (.text " +-north")) =
        Operator.mul.reduce [.int 7, .int 0] (({} : Session).setGlobal "x" (.text " +-north")) ∧
      parse "-east".toList = .ok (.real (-0.0), 1) ∧
      parse ".north".toList = .ok (.decimal .zero, 1) ∧
      parse ":.".toList = .ok (.decimal .zero, 2) := by
  obtain ⟨-, -, hw⟩ := digitless_zero " +-north" (by decide)
  obtain ⟨hp, hr⟩ := hw (by decide)
  obtain ⟨-, heast, -⟩ := digitless_zero "-east" (by decide)
  obtain ⟨-, hpoint, -⟩ := digitless_zero ".north" (by decide)
  obtain ⟨-, hcolon, -⟩ := digitless_zero ":." (by decide)
  have hx : (({} : Session).setGlobal "x" (.text " +-north")).lookup "x" =
      some (.text " +-north") := by decide
  obtain ⟨hmul, -⟩ := hr _ _ (.name hx)
  exact ⟨hp, hmul .mul (by decide) [.int 7] [], heast, hpoint, hcolon⟩

/-- A word that starts with the letter of an exponent is a real, and so is what it is added to. -/
theorem digitless_read_as_real :
    Digitless "east".toList ∧ parse "east".toList = .ok (.real 0.0, 0) ∧
      Operator.add.reduce [.int 1, .text "east"] {} = .ok (.real 1.0) {} :=
  ⟨by decide, by with_unfolding_all rfl, by with_unfolding_all rfl⟩

end ExprEngine
