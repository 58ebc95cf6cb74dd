import ExprEngine.Proofs.Machine.Effects

/-!
# Draws

Each number that is drawn is the next state of the generator.  A shift combined with what it shifts
by exclusive or is zero for zero only, so no state but zero leads to zero; and zero is the one state
in which the system is asked for a seed.  A generator that was seeded is therefore never seeded
again, and what it draws depends on its seed alone.

* `Random.next_ne_zero`: no state but zero leads to zero.
* `Machine.drawMany_apply`: the numbers that are drawn one after the other.
* `Machine.evaluate_draws`: an evaluation draws, and does nothing else to the generator.
-/

namespace ExprEngine

/-! ### States of the generator -/

namespace Random

section

variable {x : BitVec 64} {k : Nat}

-- A word that equals its own shift equals its shift by any multiple, and in the end nothing is left.
theorem eq_zero_of_xor_shiftLeft (hk : 0 < k) (h : x ^^^ x <<< k = 0) : x = 0 := by
  have hx : x <<< k = x := (BitVec.xor_eq_zero_iff.mp h).symm
  have hn (n : Nat) : x <<< (k * n) = x := by
    induction n with
    | zero => exact BitVec.shiftLeft_zero x
    | succ n ih => rw [Nat.mul_succ, BitVec.shiftLeft_add, ih, hx]
  rw [← hn 64]
  exact BitVec.shiftLeft_eq_zero (by omega)

theorem eq_zero_of_xor_shiftRight (hk : 0 < k) (h : x ^^^ x >>> k = 0) : x = 0 := by
  have hx : x >>> k = x := (BitVec.xor_eq_zero_iff.mp h).symm
  have hn (n : Nat) : x >>> (k * n) = x := by
    induction n with
    | zero => exact BitVec.ushiftRight_zero x
    | succ n ih => rw [Nat.mul_succ, BitVec.shiftRight_add, ih, hx]
  rw [← hn 64]
  exact BitVec.ushiftRight_eq_zero (by omega)

end

/-- The next state, bit by bit. -/
theorem toBitVec_next (x : UInt64) :
    (next x).toBitVec =
      let a := x.toBitVec ^^^ x.toBitVec <<< 13
      let b := a ^^^ a >>> 7
      b ^^^ b <<< 17 :=
  rfl

/-- No state but zero leads to zero. -/
theorem next_ne_zero {x : UInt64} (h : x ≠ 0) : next x ≠ 0 := by
  intro hn
  have hb : (next x).toBitVec = 0 := congrArg UInt64.toBitVec hn
  rw [toBitVec_next] at hb
  have h₂ := eq_zero_of_xor_shiftLeft (k := 17) (by decide) hb
  have h₁ := eq_zero_of_xor_shiftRight (k := 7) (by decide) h₂
  have h₀ := eq_zero_of_xor_shiftLeft (k := 13) (by decide) h₁
  exact h (UInt64.toBitVec_inj.mp h₀)

theorem seeded_ne_zero (seed : UInt64) : seeded seed ≠ 0 := by
  unfold seeded
  split
  · decide
  · assumption

/-- The state that so many draws lead to. -/
def state (x : UInt64) : Nat → UInt64
  | 0 => x
  | k + 1 => next (state x k)

theorem state_ne_zero {x : UInt64} (h : x ≠ 0) (k : Nat) : state x k ≠ 0 := by
  induction k with
  | zero => exact h
  | succ k ih => exact next_ne_zero ih

theorem state_state (x : UInt64) (k l : Nat) : state (state x k) l = state x (k + l) := by
  induction l with
  | zero => rfl
  | succ l ih => exact congrArg next ih

theorem state_next (x : UInt64) (k : Nat) : state (next x) k = state x (k + 1) := by
  rw [Nat.add_comm]
  exact state_state x 1 k

end Random

open ExprEngine.Random

namespace Machine

variable {α β : Type}

/-! ### Drawing -/

/-- The machine behind a draw, if its generator was seeded. -/
def drawn (m : Machine) : Machine :=
  { m with random := next m.random }

theorem draw_apply {m : Machine} (h : m.random ≠ 0) : draw m = .ok (next m.random) m.drawn := by
  unfold draw
  rw [bind_of_ok (show (get : Eval Machine) m = .ok m m from rfl)]
  simp only [if_neg h]
  rfl

/-- So many numbers, in the order in which they are drawn. -/
def drawMany : Nat → Eval (List UInt64)
  | 0 => return []
  | k + 1 => do
    let x ← draw
    return x :: (← drawMany k)

theorem drawMany_apply {m : Machine} (h : m.random ≠ 0) (k : Nat) :
    drawMany k m = .ok ((List.range k).map fun i => state m.random (i + 1))
      { m with random := state m.random k } := by
  induction k generalizing m with
  | zero => rfl
  | succ k ih =>
      have hk := ih (m := m.drawn) (next_ne_zero h)
      rw [drawMany, bind_of_ok (draw_apply h), bind_of_ok hk, List.range_succ_eq_map]
      simp only [drawn, state_next, List.map_cons, List.map_map]
      rfl

/-! ### Steps that draw -/

/-- If the generator of the first machine was seeded, that of the second is some draws further. -/
def Drew (m n : Machine) : Prop :=
  m.random ≠ 0 → ∃ k, n.random = state m.random k

theorem Drew.of_eq {m n : Machine} (h : n.random = m.random) : Drew m n :=
  fun _ => ⟨0, h⟩

theorem Drew.trans {m n o : Machine} (h : Drew m n) (k : Drew n o) : Drew m o := by
  intro hm
  obtain ⟨i, hi⟩ := h hm
  obtain ⟨j, hj⟩ := k (hi ▸ state_ne_zero hm i)
  exact ⟨i + j, by rw [hj, hi, state_state]⟩

/-- The step draws, and does nothing else to the generator. -/
def Draws (x : Eval α) : Prop :=
  ∀ m, Drew m (after x m)

namespace Draws

theorem pure (a : α) : Draws (pure a : Eval α) :=
  fun _ => .of_eq rfl

theorem bind {x : Eval α} {f : α → Eval β} (hx : Draws x) (hf : ∀ a, Draws (f a)) :
    Draws (x >>= f) :=
  fun m => after_bind (R := Drew) Drew.trans (hx m) hf

theorem draw : Draws draw :=
  fun m hm => ⟨1, by rw [after_of_ok (draw_apply hm)]; rfl⟩

theorem push (v : Value) : Draws (push v) := by
  intro m
  rw [after, push_apply]
  split <;> exact .of_eq rfl

/-- What most steps end with. -/
theorem pushed (v : Value) : Draws (Machine.push v >>= fun _ => Pure.pure (none : Option Nat)) :=
  (push v).bind fun _ => pure _

theorem popMany (base n : Nat) : Draws (popMany base n) := by
  intro m
  rw [after, popMany_apply]
  split <;> exact .of_eq rfl

theorem top (base : Nat) : Draws (top base) := by
  intro m
  rw [after, top_apply]
  split
  · split <;> exact .of_eq rfl
  · exact .of_eq rfl

theorem inSession (x : SessionM α) : Draws (inSession x) := by
  intro m
  unfold after Machine.inSession
  split <;> exact .of_eq rfl

theorem runCommand (name arg : String) : Draws (runCommand name arg) := by
  unfold Machine.runCommand
  split <;> exact fun m => .of_eq rfl

end Draws

theorem Simple.draws {P : α → Prop} {x : Eval α} (h : Simple (fun _ => True) P x) : Draws x := by
  induction h with
  | pure => exact .pure _
  | bind _ _ hx hf => exact hx.bind hf
  | observe => exact .inSession _
  | draw => exact .draw
  | session | host | report | keep | fail | fault => exact fun m => .of_eq rfl

/-! ### Evaluations -/

/-- At its end an execution draws no more. -/
theorem finished_random (base : Nat) (r : EStateM.Result Halt Machine Unit) :
    (left (finished base r)).random = (left r).random := by
  unfold finished
  split
  · rfl
  · rfl
  · split <;> rfl

section

variable {evaluate : String → Eval Value} (he : ∀ source, Draws (evaluate source))

include he

/-- The session that a call changes around an evaluation has no part in the random numbers. -/
theorem callValue_draws (vs : List Value) : Draws (callValue evaluate vs) := by
  intro m
  match vs with
  | [] => exact .of_eq rfl
  | callee :: args =>
      cases hq : request? (callee :: args) m.session with
      | none =>
          have provided (b : Builtin) (_ : callee.payload = .function b) :
              Builtin.Provides (fun _ => True) args b.arity.1 := fun _ _ _ => trivial
          rcases callValue_of_no_request evaluate hq provided with
            ⟨x, hx, hc⟩ | hc | ⟨name, arg, hc⟩
          · rw [after, hc]
            exact hx.draws m
          · rw [after_of_ok hc]
            exact .of_eq rfl
          · rw [after, hc]
            exact Draws.runCommand name arg m
      | some q =>
          have hs := he q.source { m with session := q.inner }
          rw [after, callValue_of_request evaluate hq]
          unfold after at hs
          generalize evaluate q.source { m with session := q.inner } = r at hs ⊢
          unfold Request.resume
          split <;> exact hs

/-- **One step** draws. -/
theorem step_draws (base : Nat) (op : Op Nat) : Draws (step evaluate base op) := by
  have session : Draws getSession := fun m => .of_eq rfl
  cases op with
  | jump kind target =>
      refine Draws.bind ?_ fun b => by split <;> exact .pure _
      cases kind with
      | always => exact .pure _
      | ifFalse => exact (Draws.top base).bind fun v => (Draws.inSession _).bind fun b => .pure _
      | ifTrue => exact (Draws.top base).bind fun v => .inSession _
      | ifNonEmpty => exact (Draws.top base).bind fun v => .pure _
  | push v => exact .pushed v
  | pop n => exact (Draws.popMany base n).bind fun _ => .pure _
  | dup => exact (Draws.top base).bind .pushed
  | pushVariable x => exact session.bind fun s => .pushed _
  | pushParam s => exact (simple_selected s).draws.bind .pushed
  | pushBody name =>
      refine session.bind fun s => ?_
      split
      · exact .pushed _
      · exact Draws.bind (fun m => .of_eq rfl) fun _ => .pushed _
  | pushOutput line => exact (simple_commandOutput line).draws.bind .pushed
  | call n => exact (Draws.popMany base n).bind fun vs => (callValue_draws he vs).bind .pushed
  | reduce op n => exact (Draws.popMany base n).bind fun vs => (Draws.inSession _).bind .pushed

/-- So does a run, by induction on the instructions that are left. -/
theorem runFrom_draws (base : Nat) (p : Program) (spent : Halt) (budget pc : Nat) :
    Draws (runFrom evaluate base p spent budget pc) := by
  induction budget generalizing pc with
  | zero =>
      unfold runFrom
      split <;> exact fun m => .of_eq rfl
  | succ budget ih =>
      unfold runFrom
      split
      · exact .pure _
      · exact (step_draws he base _).bind fun target => ih _

theorem execute_draws (p : Program) : Draws (execute evaluate p) := by
  intro m
  have hr := runFrom_draws he m.stack.length p (budget m.settings).2 (budget m.settings).1 0 m
  rw [after, execute_apply]
  exact hr.trans (.of_eq (finished_random _ _))

end

theorem random_remarked (source : String) (m : Machine) :
    (remarked source m).random = m.random := by
  obtain ⟨bracketed, percent, session, h⟩ := remarks_apply m
    (Program.compile m.settings.optimize m.session.findCommand? source).2
  have hm : remarked source m = _ := h m.settings m.stack rfl
  rw [hm]

/-- **Every evaluation** draws, whether it succeeds or fails, and does nothing else to the
generator. -/
theorem evaluate_draws (depth : Nat) (source : String) : Draws (evaluate depth source) := by
  induction depth generalizing source with
  | zero => exact fun m => .of_eq rfl
  | succ depth ih =>
      intro m
      refine Drew.trans (.of_eq (random_remarked source m)) ?_
      rw [after, evaluate, evaluateWith_apply]
      cases (Program.compile m.settings.optimize m.session.findCommand? source).1 with
      | ok p => exact execute_draws ih p _
      | error e => exact .of_eq rfl

end Machine

end ExprEngine
