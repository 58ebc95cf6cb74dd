import ExprEngine.Proofs.Machine.Effects
import ExprEngine.Proofs.Program.Layout

/-!
# How often instructions run

In a program that the compiler made jumps lead forward, so a run comes to every instruction once at
most.  The limit on instructions is therefore never reached by programs that are no longer than the
limit.

* `traced`: a run, with the indices of the instructions that it goes through.
* `forward_of_step`: one step of a run leads forward.
* `not_limit_of_step`: no step halts for the limit, not even if an evaluation inside does.
* `each_at_most_once`: the indices of an execution, and when it halts for the limit.
-/

namespace ExprEngine.Machine

/-! ### Runs with their indices -/

/-- The run from index `pc` on, with the indices of the instructions that it executes, in order. -/
def traced (evaluate : String → Eval Value) (base : Nat) (p : Program) (spent : Halt) :
    (budget pc : Nat) → Machine → List Nat × EStateM.Result Halt Machine Unit
  | 0, pc, m => ([], if pc < p.code.size then .error spent m else .ok () m)
  | budget + 1, pc, m =>
    match p.code[pc]? with
    | none => ([], .ok () m)
    | some i =>
      match step evaluate base i.op m with
      | .error h n => ([pc], .error h n)
      | .ok target n =>
        let (ks, r) := traced evaluate base p spent budget (target.getD (pc + 1)) n
        (pc :: ks, r)

section

variable {evaluate : String → Eval Value} {base budget pc : Nat} {p : Program} {spent : Halt}
  {m n : Machine} {i : Instr Nat}

theorem traced_zero : traced evaluate base p spent 0 pc m =
    ([], if pc < p.code.size then .error spent m else .ok () m) := rfl

theorem traced_of_none (hi : p.code[pc]? = none) :
    traced evaluate base p spent (budget + 1) pc m = ([], .ok () m) := by
  rw [traced, hi]

theorem traced_of_error {h : Halt} (hi : p.code[pc]? = some i)
    (hs : step evaluate base i.op m = .error h n) :
    traced evaluate base p spent (budget + 1) pc m = ([pc], .error h n) := by
  rw [traced, hi]
  dsimp only
  rw [hs]

theorem traced_of_ok {target : Option Nat} (hi : p.code[pc]? = some i)
    (hs : step evaluate base i.op m = .ok target n) :
    traced evaluate base p spent (budget + 1) pc m =
      (pc :: (traced evaluate base p spent budget (target.getD (pc + 1)) n).1,
        (traced evaluate base p spent budget (target.getD (pc + 1)) n).2) := by
  rw [traced, hi]
  dsimp only
  rw [hs]

end

/-- The run ends as it does without the indices. -/
theorem traced_snd (evaluate : String → Eval Value) (base : Nat) (p : Program) (spent : Halt)
    (budget pc : Nat) (m : Machine) :
    (traced evaluate base p spent budget pc m).2 =
      runFrom evaluate base p spent budget pc m := by
  induction budget generalizing pc m with
  | zero =>
      rw [traced_zero, runFrom]
      split <;> rfl
  | succ budget ih =>
      cases hi : p.code[pc]? with
      | none =>
          rw [traced_of_none hi, runFrom, hi]
          rfl
      | some i =>
          cases hs : step evaluate base i.op m with
          | error h n => rw [traced_of_error hi hs, runFrom_of_error hi hs]
          | ok target n => rw [traced_of_ok hi hs, runFrom_of_ok hi hs, ih]

/-! ### Steps -/

/-- The step never jumps. -/
def Straight (x : Eval (Option Nat)) : Prop :=
  ∀ m t n, x m ≠ .ok (some t) n

namespace Straight

theorem none : Straight (pure none) := by
  intro m t n h
  cases h

theorem bind {α : Type} {x : Eval α} {f : α → Eval (Option Nat)} (hf : ∀ a, Straight (f a)) :
    Straight (x >>= f) := by
  intro m t n h
  rw [bind_apply] at h
  split at h
  · exact hf _ _ t n h
  · cases h

theorem pushed (v : Value) : Straight (push v >>= fun _ => pure Option.none) :=
  bind fun _ => none

end Straight

section

variable {evaluate : String → Eval Value} {base : Nat} {m n : Machine}

/-- A step that jumps leads to the target of its operation. -/
theorem target_of_step {op : Op Nat} {t : Nat} (h : step evaluate base op m = .ok (some t) n) :
    op.target? = some t := by
  have straight (hx : Straight (step evaluate base op)) : op.target? = some t :=
    absurd h (hx m t n)
  cases op with
  | jump kind u =>
      have hj : (jumps kind base >>= fun b => pure (if b then some u else none)) m =
        .ok (some t) n := h
      rw [bind_apply] at hj
      split at hj
      · next b o hb =>
        injection hj with hj _
        cases b with
        | true => exact hj
        | false => cases hj
      · cases hj
  | push v => exact straight (.pushed v)
  | pop n => exact straight (.bind fun _ => .none)
  | dup => exact straight (.bind .pushed)
  | pushVariable x => exact straight (.bind fun s => .pushed _)
  | pushParam s => exact straight (.bind .pushed)
  | pushBody name =>
      refine straight (.bind fun s => ?_)
      split
      · exact .pushed _
      · exact .bind fun _ => .pushed _
  | pushOutput line => exact straight (.bind .pushed)
  | call n => exact straight (.bind fun vs => .bind .pushed)
  | reduce op n => exact straight (.bind fun vs => .bind .pushed)

/-- **One step** of a program that the compiler made leads forward, and not beyond the end. -/
theorem forward_of_step {p : Program} (hw : p.WellLaid) {pc : Nat}
    {i : Instr Nat} {target : Option Nat} (hi : p.code[pc]? = some i)
    (hs : step evaluate base i.op m = .ok target n) :
    pc < target.getD (pc + 1) ∧ target.getD (pc + 1) ≤ p.code.size := by
  cases target with
  | none =>
      obtain ⟨hk, -⟩ := Array.getElem?_eq_some_iff.mp hi
      exact ⟨Nat.lt_succ_self pc, hk⟩
  | some t =>
      obtain ⟨hk, ht, -⟩ := (hw.inPlace pc i hi).2 t (target_of_step hs)
      exact ⟨hk, ht⟩

theorem Own.ne_limit {α : Type} {r : EStateM.Result Halt Machine α} (ho : Own m r) (limit : Nat) :
    r ≠ .error (EvalError.instructionLimit limit).halt n := by
  rintro rfl
  cases ho with
  | error _ he =>
      cases he with
      | failure hr => exact hr

/-- **No step halts for the limit**: that of an evaluation inside has been reported there, and the
step gives up for that. -/
theorem not_limit_of_step (evaluate : String → Eval Value) (base : Nat) (op : Op Nat) (m : Machine)
    (limit : Nat) (n : Machine) :
    step evaluate base op m ≠ .error (EvalError.instructionLimit limit).halt n := by
  have hs := stepped evaluate base op m
  generalize step evaluate base op m = r at hs
  cases hs with
  | own h => exact h.ne_limit limit
  | answered _ _ h => exact h.ne_limit limit
  | @halted o u q e _ _ => cases e <;> exact nofun

end

/-! ### Runs -/

section

variable (evaluate : String → Eval Value) {p : Program} (hw : p.WellLaid)

include hw

/-- **The indices of a run** come in order, from where it starts on, and are no more than there are
instructions from there on. -/
theorem traced_forward (base : Nat) (spent : Halt) (budget pc : Nat) (m : Machine) :
    (traced evaluate base p spent budget pc m).1.Pairwise (· < ·) ∧
      (∀ k ∈ (traced evaluate base p spent budget pc m).1, pc ≤ k ∧ k < p.code.size) ∧
      (traced evaluate base p spent budget pc m).1.length ≤ p.code.size - pc := by
  induction budget generalizing pc m with
  | zero => exact ⟨.nil, nofun, Nat.zero_le _⟩
  | succ budget ih =>
      cases hi : p.code[pc]? with
      | none =>
          rw [traced_of_none hi]
          exact ⟨.nil, nofun, Nat.zero_le _⟩
      | some i =>
          obtain ⟨hpc, -⟩ := Array.getElem?_eq_some_iff.mp hi
          cases hs : step evaluate base i.op m with
          | error h n =>
              rw [traced_of_error hi hs]
              refine ⟨List.pairwise_singleton _ _, by simpa using hpc, ?_⟩
              exact Nat.sub_pos_of_lt hpc
          | ok target n =>
              obtain ⟨hlt, -⟩ := forward_of_step hw hi hs
              obtain ⟨hp, hall, hlen⟩ := ih (target.getD (pc + 1)) n
              rw [traced_of_ok hi hs]
              refine ⟨.cons (fun k hk => Nat.lt_of_lt_of_le hlt (hall k hk).1) hp, ?_, ?_⟩
              · intro k hk
                rcases List.mem_cons.mp hk with rfl | hk
                · exact ⟨Nat.le_refl _, hpc⟩
                · exact ⟨Nat.le_trans (Nat.le_of_lt hlt) (hall k hk).1, (hall k hk).2⟩
              · rw [List.length_cons]
                omega

/-- A run that halts for a limit had fewer instructions to go than there are. -/
theorem lt_of_runFrom_limit {base limit : Nat} {spent : Halt} {budget pc : Nat} {m n : Machine}
    (h : runFrom evaluate base p spent budget pc m =
      .error (EvalError.instructionLimit limit).halt n) :
    spent = (EvalError.instructionLimit limit).halt ∧ pc + budget < p.code.size := by
  induction budget generalizing pc m with
  | zero =>
      unfold runFrom at h
      split at h
      · next hk =>
        injection h with hh
        exact ⟨hh, hk⟩
      · cases h
  | succ budget ih =>
      cases hi : p.code[pc]? with
      | none =>
          rw [runFrom, hi] at h
          cases h
      | some i =>
          cases hs : step evaluate base i.op m with
          | error e o =>
              rw [runFrom_of_error hi hs] at h
              cases h
              exact absurd hs (not_limit_of_step evaluate base i.op m limit n)
          | ok target o =>
              rw [runFrom_of_ok hi hs] at h
              obtain ⟨hlt, -⟩ := forward_of_step hw hi hs
              obtain ⟨he, hb⟩ := ih h
              exact ⟨he, by omega⟩

end

/-! ### Executions -/

theorem limit_of_finished {base limit : Nat} {n : Machine} {r : EStateM.Result Halt Machine Unit}
    (h : finished base r = .error (EvalError.instructionLimit limit).halt n) :
    ∃ o, r = .error (EvalError.instructionLimit limit).halt o := by
  unfold finished at h
  split at h
  · next e o =>
    injection h with he _
    exact ⟨o, congrArg (EStateM.Result.error · o) he⟩
  · next k o _ =>
    injection h with hk _
    exact ⟨o, congrArg (EStateM.Result.error · o) hk⟩
  · split at h <;> cases h

/-- The limit that a run halts for is the one of the settings. -/
theorem budget_of_limit {s : Settings} {limit : Nat}
    (h : (budget s).2 = (EvalError.instructionLimit limit).halt) :
    s.maxInstr = limit ∧ 0 < limit ∧ (budget s).1 = limit := by
  unfold budget at h ⊢
  split at h
  · cases h
  · next hne =>
    cases h
    rw [if_neg hne]
    exact ⟨rfl, Nat.pos_of_ne_zero hne, rfl⟩

/-- **Every instruction runs once at most.**  An execution of a program that the compiler made goes
through indices of it in increasing order, hence through no more than it has, whatever the
evaluations inside do.  It halts for the limit on instructions only if there is one, which is less
than the length of the program. -/
theorem each_at_most_once {optimize : Bool} {commands : Grammar.Commands} {source : String}
    {p : Program} (h : (Program.compile optimize commands source).1 = .ok p)
    (evaluate : String → Eval Value) (m : Machine) :
    ∃ ks r, traced evaluate m.stack.length p (budget m.settings).2 (budget m.settings).1 0 m =
        (ks, r) ∧
      execute evaluate p m = finished m.stack.length r ∧
      ks.Pairwise (· < ·) ∧ (∀ k ∈ ks, k < p.code.size) ∧ ks.length ≤ p.code.size ∧
      (∀ limit n, execute evaluate p m = .error (EvalError.instructionLimit limit).halt n →
        limit = m.settings.maxInstr ∧ 0 < limit ∧ limit < p.code.size) ∧
      (m.settings.maxInstr = 0 → ∀ limit n,
        execute evaluate p m ≠ .error (EvalError.instructionLimit limit).halt n) := by
  have hw := Program.wellLaid_of_compile h
  have hr := traced_snd evaluate m.stack.length p (budget m.settings).2 (budget m.settings).1 0 m
  obtain ⟨hp, hall, hlen⟩ := traced_forward evaluate hw m.stack.length
    (budget m.settings).2 (budget m.settings).1 0 m
  have hx := execute_apply evaluate p m
  have hlimit (limit : Nat) (n : Machine)
      (he : execute evaluate p m = .error (EvalError.instructionLimit limit).halt n) :
      limit = m.settings.maxInstr ∧ 0 < limit ∧ limit < p.code.size := by
    obtain ⟨o, ho⟩ := limit_of_finished (hx.symm.trans he)
    obtain ⟨hs, hlt⟩ := lt_of_runFrom_limit evaluate hw ho
    obtain ⟨hm, hpos, hb⟩ := budget_of_limit hs
    exact ⟨hm.symm, hpos, by rwa [hb, Nat.zero_add] at hlt⟩
  refine ⟨_, _, rfl, hr ▸ hx, hp, fun k hk => (hall k hk).2, hlen, hlimit, ?_⟩
  intro h0 limit n he
  obtain ⟨rfl, hpos, -⟩ := hlimit limit n he
  omega

/-- The first of two numbers that is true. -/
def oneOrTwo : Program :=
  ⟨"1 | 2", #[⟨.push (.int 1), ⟨0, 1⟩⟩, ⟨.jump .ifTrue 4, ⟨2, 3⟩⟩, ⟨.pop 1, ⟨2, 3⟩⟩,
    ⟨.push (.int 2), ⟨4, 5⟩⟩]⟩

/-- A machine that runs one instruction of a program. -/
def runningOne : Machine :=
  { settings := { maxInstr := 1 } }

theorem each_at_most_once_either :
    (Program.compile true (fun _ => none) oneOrTwo.source).1 = .ok oneOrTwo ∧
      (∃ ks r, traced (evaluate 0) 0 oneOrTwo (budget runningOne.settings).2
        (budget runningOne.settings).1 0 runningOne = (ks, r) ∧
          ks.Pairwise (· < ·) ∧ ks.length ≤ 4) ∧
      ∃ n, execute (evaluate 0) oneOrTwo runningOne =
        .error (EvalError.instructionLimit 1).halt n ∧ 0 < 1 ∧ 1 < oneOrTwo.code.size := by
  have hc : (Program.compile true (fun _ => none) oneOrTwo.source).1 = .ok oneOrTwo :=
    of_toOption (by decide +kernel)
  obtain ⟨ks, r, ht, -, hp, -, hl, hlimit, -⟩ := each_at_most_once hc (evaluate 0) runningOne
  have hx : ∃ n, execute (evaluate 0) oneOrTwo runningOne =
      .error (EvalError.instructionLimit 1).halt n := ⟨_, rfl⟩
  obtain ⟨n, hn⟩ := hx
  exact ⟨hc, ⟨ks, r, ht, hp, hl⟩, n, hn, (hlimit 1 n hn).2⟩

end ExprEngine.Machine
