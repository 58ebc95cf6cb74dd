import ExprEngine.Program.Instruction
import ExprEngine.Session.Diagnostic

/-!
# Putting programs together by hand

An assembler appends instructions.  A jump is appended open and patched once its target is known;
the assembler remembers every index that some jump was pointed to.  A program is finished when no
jump is open and all targets lie in the program or right behind it.

Main statement: what is finished has the instructions that were appended, and all its targets are in
range (`target_le_of_finish`).
-/

namespace ExprEngine

/-- A program under construction. -/
structure Assembler where
  code : Array (Instr (Option Nat)) := #[]
  targets : List Nat := []

namespace Assembler

/-- Index of the next instruction. -/
def here (a : Assembler) : Nat :=
  a.code.size

/-- The assembler with an instruction more. -/
def emit (a : Assembler) (op : Op (Option Nat)) (span : Span) : Assembler :=
  { a with code := a.code.push ⟨op, span⟩ }

/-- The assembler with an open jump more. -/
def emitJump (a : Assembler) (kind : JumpKind) (span : Span) : Assembler :=
  a.emit (.jump kind none) span

/-- The assembler with the jump at `slot` pointed to `target`. -/
def patch (a : Assembler) (slot target : Nat) : Except Fault Assembler :=
  match a.code[slot]? with
  | none => .error (.missingOperand slot a.code.size)
  | some ⟨.jump kind _, span⟩ =>
    .ok ⟨a.code.set! slot ⟨.jump kind (some target), span⟩, target :: a.targets⟩
  | some _ => .error (.notAJump slot)

/-- Some jump was pointed behind `start` and before `stop`. -/
def targetsWithin (a : Assembler) (start stop : Nat) : Bool :=
  a.targets.any fun t => start < t && t < stop

/-- The assembler without its instructions from `start` on, at which no jump points but perhaps the
first. -/
def truncate (a : Assembler) (start : Nat) : Except Fault Assembler :=
  if a.targets.any (start < ·) then .error .truncatedTarget
  else .ok { a with code := a.code.extract 0 start }

/-- An operation with its target checked against the size of the program. -/
def closeOp (size index : Nat) : Op (Option Nat) → Except Fault (Op Nat)
  | .jump kind (some t) => if t ≤ size then .ok (.jump kind t) else .error (.jumpOutOfRange index)
  | .jump _ none => .error (.unpatchedJump index)
  | .push v => .ok (.push v)
  | .pop n => .ok (.pop n)
  | .dup => .ok .dup
  | .pushVariable x => .ok (.pushVariable x)
  | .pushParam s => .ok (.pushParam s)
  | .pushBody name => .ok (.pushBody name)
  | .pushOutput line => .ok (.pushOutput line)
  | .call n => .ok (.call n)
  | .reduce op n => .ok (.reduce op n)

/-- Instructions from an index on with their targets checked. -/
def closeFrom (size : Nat) : (index : Nat) → List (Instr (Option Nat)) → Except Fault (List (Instr Nat))
  | _, [] => .ok []
  | index, i :: rest => do
    let op ← closeOp size index i.op
    return ⟨op, i.span⟩ :: (← closeFrom size (index + 1) rest)

/-- The finished program, with the text that it is listed with. -/
def finish (a : Assembler) (source : String) : Except Fault Program := do
  return ⟨source, (← closeFrom a.code.size 0 a.code.toList).toArray⟩

theorem target_le_of_closeFrom {size index : Nat} {code : List (Instr (Option Nat))}
    {closed : List (Instr Nat)} (h : closeFrom size index code = .ok closed) :
    ∀ i ∈ closed, ∀ t, i.op.target? = some t → t ≤ size := by
  induction code generalizing index closed with
  | nil =>
    simp only [closeFrom, Except.ok.injEq] at h
    simp [← h]
  | cons i rest ih =>
    simp only [closeFrom, bind, Except.bind] at h
    split at h
    · simp at h
    · next op hop =>
      split at h
      · simp at h
      · next more hmore =>
        simp only [pure, Except.pure, Except.ok.injEq] at h
        subst h
        intro j hj t ht
        rcases List.mem_cons.mp hj with rfl | hj
        · unfold closeOp at hop
          split at hop <;> (try split at hop) <;> simp only [Except.ok.injEq, reduceCtorEq] at hop <;>
            subst hop <;> simp_all [Op.target?]
        · exact ih hmore j hj t ht

/-- Every jump of a finished program points into the program or right behind it. -/
theorem target_le_of_finish {a : Assembler} {source : String} {p : Program}
    (h : a.finish source = .ok p) :
    ∀ i ∈ p.code, ∀ t, i.op.target? = some t → t ≤ a.code.size := by
  simp only [finish, bind, Except.bind] at h
  split at h
  · simp at h
  · next closed hc =>
    simp only [pure, Except.pure, Except.ok.injEq] at h
    subst h
    intro i hi
    exact target_le_of_closeFrom hc i (by simpa using hi)

end Assembler

end ExprEngine
