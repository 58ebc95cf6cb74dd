import ExprEngine.Proofs.Machine.Effects
import ExprEngine.Proofs.Machine.Operands
import ExprEngine.Proofs.Operator.Refusals
import ExprEngine.Proofs.Session.Refinement

/-!
# Chains of assignments

Assignments whose values are assigned again, `x := y += z`, are worked on from the last one on.
When one of them fails, those behind it have been made and no other: the scopes of variables are as
the operators that have come to a value left them, and these have changed nothing but the variables
that they name.

* `Expr.chain`: assignments of an operand, one of what the other comes to.
* `Machine.Unfinished`: how such a chain may fail, and what it leaves.
* `Expr.run_chain`: it fails in no other way.
* `Machine.failure_assigns_nothing`: a failing operator changes no variable, alone or in a chain.
-/

namespace ExprEngine

/-! ### Chains -/

/-- One of a chain of assignments, with the places that its parts are listed with. -/
structure Link where
  op : Binary
  target : String
  targetSpan : Span
  span : Span
  assigns : op.operator.assigns = true

/-- Assignments of an operand, each of what the next one comes to. -/
def Expr.chain (operand : Expr) : List Link → Expr
  | [] => operand
  | l :: rest =>
    .binary l.op (.leaf (.value (.name l.target)) l.targetSpan) (operand.chain rest) l.span

/-- The variables that a chain assigns to. -/
def targets (links : List Link) : List String :=
  links.map Link.target

/-- What the operators of a chain do with a value, from the last one on. -/
def assignAll : List Link → Value → SessionM Value
  | [], w => return w
  | l :: rest, w => do l.op.operator.reduce [.name l.target, ← assignAll rest w]

/-- What each of the scopes has under a name, the innermost first. -/
def Session.inScopes (s : Session) (z : String) : List (Option Value) :=
  s.scopes.map (·.get? z)

variable {links : List Link} {s t : Session} {v w : Value} {x z : String}

/-! ### Variables that stay -/

theorem Maps.map_get?_assign {ts : Maps} (h : z ≠ x) (v : Value) :
    (ts.assign x v).map (·.get? z) = ts.map (·.get? z) := by
  refine List.ext_getElem? fun i => ?_
  rw [assign, List.getElem?_map, List.getElem?_map, List.getElem?_modify]
  split
  · cases ts[i]? with
    | none => rfl
    | some u => exact congrArg some (Table.get?_insert_ne u h v)
  · cases ts[i]? <;> rfl

theorem Session.inScopes_assign (s : Session) (h : z ≠ x) (v : Value) :
    (s.assign x v).inScopes z = s.inScopes z := by
  have hs : (s.assign x v).scopes = s.scopes.assign x v := s.scopes_access (.assign x v)
  rw [inScopes, hs, Maps.map_get?_assign h, inScopes]

/-- Assignments change nothing but the variables that they name. -/
theorem inScopes_assignAll (h : assignAll links v s = .ok w t) (hz : z ∉ targets links) :
    t.inScopes z = s.inScopes z := by
  induction links generalizing w t with
  | nil =>
      cases h
      rfl
  | cons l rest ih =>
      obtain ⟨hl, hz⟩ : z ≠ l.target ∧ z ∉ targets rest :=
        ⟨List.ne_of_not_mem_cons hz, List.not_mem_of_not_mem_cons hz⟩
      rw [assignAll, Machine.bind_apply] at h
      split at h
      · next u k hk =>
        obtain ⟨x, log, hx, rfl⟩ := Operator.stores_reduce l.assigns _ k w t h
        cases hx
        exact ((k.record log).inScopes_assign hl w).trans (ih (t := k) hk hz)
      · cases h

namespace Machine

/-! ### Runs along chains -/

/-- The machine with the names of a chain on its stack. -/
def holding (m : Machine) : List Link → Machine
  | [] => m
  | l :: rest => holding { m with stack := .name l.target :: m.stack } rest

variable {run : Nat → Eval Nat} {spent h : Halt} {m n : Machine} {l : Link}

/-- From a machine that holds the names of a chain, the operand has come to a value and some of the
assignments to another. -/
inductive Assigned (run : Nat → Eval Nat) (m : Machine) (inner : List Link) :
    Value → Session → Prop
  | intro {budget budget' : Nat} {k : Machine} {v w : Value} {t : Session}
    (operand : run budget m = .ok budget' k) (stack : k.stack = v :: m.stack)
    (assigned : assignAll inner v k.session = .ok w t) : Assigned run m inner w t

/-- Nothing has changed since the operand was evaluated but the variables that are assigned to. -/
theorem Assigned.kept {inner : List Link} (hi : Assigned run m inner w t) :
    ∃ budget, ∀ z, z ∉ targets inner →
      t.inScopes z = (after (run budget) m).session.inScopes z := by
  cases hi with
  | @intro budget _ _ _ _ _ hk _ hw =>
      refine ⟨budget, fun z hz => ?_⟩
      rw [after_of_ok hk]
      exact inScopes_assignAll hw hz

/-- How a chain of assignments fails, and the session that it leaves; `run` is the run along its
operand. -/
inductive Unfinished (run : Nat → Eval Nat) (spent : Halt) (links : List Link) (m : Machine) :
    Halt → Session → Prop
  /-- There is no room for the names, or no instruction is left for them. -/
  | names {h : Halt} (hh : h = spent ∨ h = EvalError.stackOverflow.halt) :
    Unfinished run spent links m h m.session
  | operand {budget : Nat} {h : Halt} {n : Machine} (hn : run budget (m.holding links) = .error h n) :
    Unfinished run spent links m h n.session
  /-- An operator fails, of what the assignments behind it have come to. -/
  | refused {outer inner : List Link} {l : Link} {w : Value} {s t : Session} {h : Halt}
    (hl : links = outer ++ l :: inner) (hi : Assigned run (m.holding links) inner w s)
    (ht : l.op.operator.reduce [.name l.target, w] s = .error h t) :
    Unfinished run spent links m h t
  /-- No instruction is left for an operator. -/
  | spent {outer inner : List Link} {l : Link} {w : Value} {s : Session}
    (hl : links = outer ++ l :: inner) (hi : Assigned run (m.holding links) inner w s) :
    Unfinished run spent links m spent s

namespace Unfinished

/-- Behind a name more. -/
theorem cons (hu : Unfinished run spent links { m with stack := .name l.target :: m.stack } h t) :
    Unfinished run spent (l :: links) m h t := by
  cases hu with
  | names hh => exact .names hh
  | operand hn => exact .operand hn
  | @refused outer inner l' _ _ _ _ hl hi ht =>
      have hc : l :: links = (l :: outer) ++ l' :: inner := congrArg (l :: ·) hl
      exact .refused hc hi ht
  | @spent outer inner l' _ _ hl hi =>
      have hc : l :: links = (l :: outer) ++ l' :: inner := congrArg (l :: ·) hl
      exact .spent hc hi

/-- **What a chain leaves that fails**: an assignment at least has not been made, and nothing has
changed since the operand was evaluated but the variables of those that have. -/
theorem kept (hu : Unfinished run spent links m h t) :
    ∃ outer inner s, links = outer ++ inner ∧ (links ≠ [] → outer ≠ []) ∧
      (s = m.session ∨ ∃ budget, s = (after (run budget) (m.holding links)).session) ∧
      ∀ z, z ∉ targets inner → t.inScopes z = s.inScopes z := by
  have behind (outer : List Link) (l : Link) (inner : List Link) :
      outer ++ l :: inner = (outer ++ [l]) ++ inner ∧ outer ++ [l] ≠ [] := by simp
  cases hu with
  | names => exact ⟨links, [], _, (List.append_nil links).symm, id, .inl rfl, fun _ _ => rfl⟩
  | @operand budget _ _ hn =>
      refine ⟨links, [], _, (List.append_nil links).symm, id, .inr ⟨budget, ?_⟩, fun _ _ => rfl⟩
      rw [after_of_error hn]
  | @refused outer inner l _ _ _ _ hl hi ht =>
      obtain ⟨budget, hs⟩ := hi.kept
      obtain ⟨log, rfl⟩ := Operator.record_of_error ht
      obtain ⟨ho, hn⟩ := behind outer l inner
      exact ⟨outer ++ [l], inner, _, hl.trans ho, fun _ => hn, .inr ⟨budget, rfl⟩, hs⟩
  | @spent outer inner l _ _ hl hi =>
      obtain ⟨budget, hs⟩ := hi.kept
      obtain ⟨ho, hn⟩ := behind outer l inner
      exact ⟨outer ++ [l], inner, _, hl.trans ho, fun _ => hn, .inr ⟨budget, rfl⟩, hs⟩

end Unfinished

end Machine

open Machine

section

variable {evaluate : String → Eval Value} {base : Nat} {m : Machine}

/-- One operator of a chain, once those behind it have made their assignments. -/
theorem Machine.run_link {run : Nat → Eval Nat} {l : Link} {rest : List Link} {w : Value}
    {n : Machine} (hi : Assigned run (m.holding (l :: rest)) rest w n.session)
    (hw : n.stack = [.name l.target, w].reverse ++ m.stack) (hb : base ≤ m.stack.length)
    (hr : n.stack.length ≤ n.settings.stackSize) (spent : Halt) (budget : Nat) :
    match runOp evaluate base spent (.reduce l.op.operator 2) budget n with
    | .ok _ o => ∃ u, o.stack = u :: m.stack ∧
        Assigned run (m.holding (l :: rest)) (l :: rest) u o.session
    | .error h o => Unfinished run spent (l :: rest) m h o.session := by
  have hl : l :: rest = [] ++ l :: rest := rfl
  cases budget with
  | zero => exact .spent hl hi
  | succ budget =>
      have hs : m.stack.length < n.settings.stackSize := by
        rw [hw] at hr
        exact Nat.lt_of_succ_lt hr
      rw [runOp_reduce_succ (n := 2) hw rfl hb hs]
      cases ht : l.op.operator.reduce [.name l.target, w] n.session with
      | error h t => exact .refused hl hi ht
      | ok u t =>
          obtain ⟨ho, hk, ha⟩ := hi
          refine ⟨u, rfl, .intro ho hk ?_⟩
          rw [assignAll, bind_of_ok ha]
          exact ht

/-- **A run along a chain** makes all its assignments or is unfinished. -/
theorem Expr.run_chain (he : ∀ source, Disciplined (evaluate source)) (operand : Expr)
    (links : List Link) (spent : Halt) (hb : base ≤ m.stack.length)
    (hr : m.stack.length ≤ m.settings.stackSize) (budget : Nat) :
    match (operand.chain links).run evaluate base spent budget m with
    | .ok _ n => ∃ w, n.stack = w :: m.stack ∧
        Assigned (operand.run evaluate base spent) (m.holding links) links w n.session
    | .error h n => Unfinished (operand.run evaluate base spent) spent links m h n.session := by
  induction links generalizing m budget with
  | nil =>
      rw [chain]
      split
      · next hn =>
        obtain ⟨w, hw, -⟩ := operand.run_leaves he hr hn
        exact ⟨w, hw, .intro hn hw rfl⟩
      · next hn => exact .operand hn
  | cons l rest ih =>
      -- the name is pushed, the rest of the chain is worked on, and the operator takes both
      have hc : (operand.chain (l :: rest)).run evaluate base spent budget =
          runOp evaluate base spent (.push (.name l.target)) budget >>= fun budget =>
            (operand.chain rest).run evaluate base spent budget >>=
              runOp evaluate base spent (.reduce l.op.operator 2) := rfl
      rw [hc, bind_apply]
      cases budget with
      | zero => exact .names (.inl rfl)
      | succ budget =>
          rw [runOp_push_succ]
          by_cases hs : m.settings.stackSize ≤ m.stack.length
          · rw [if_pos hs]
            exact .names (.inr rfl)
          · rw [if_neg hs]
            have hr' : (Value.name l.target :: m.stack).length ≤ m.settings.stackSize :=
              Nat.lt_of_not_le hs
            have hk := ih (m := { m with stack := .name l.target :: m.stack })
              (Nat.le_succ_of_le hb) hr' budget
            dsimp only
            rw [bind_apply]
            cases hn : (operand.chain rest).run evaluate base spent budget
                { m with stack := .name l.target :: m.stack } with
            | error h n =>
                rw [hn] at hk
                exact hk.cons
            | ok budget n =>
                rw [hn] at hk
                obtain ⟨w, hw, hi⟩ := hk
                obtain ⟨-, -, hs'⟩ := (operand.chain rest).run_leaves he hr' hn
                exact run_link hi hw hb hs' spent budget

/-! ### Chains as programs -/

/-- No assignment is computed beforehand. -/
theorem Expr.folded_chain (operand : Expr) (links : List Link) :
    (operand.chain links).folded = operand.folded.chain links := by
  induction links with
  | nil => rfl
  | cons l rest ih =>
      have hn (vs : List Value) : l.op.operator.computed? vs = none := by
        rw [Operator.computed?, l.assigns, Bool.true_or, if_pos rfl]
      rw [chain, folded, ih, chain, folded]
      unfold binaryFolded
      split
      · rw [hn]
      · rfl

namespace Machine

/-- An execution fails as its run does. -/
theorem eq_of_finished_error {k h : Halt} {o n : Machine}
    (hn : finished base (.error k o) = .error h n) :
    h = k ∧ (n.session = o.session ∨ ∃ d, n.session = o.session.report d) := by
  have hs := finished_session base (.error k o)
  rw [hn] at hs
  refine ⟨?_, hs⟩
  unfold finished at hn
  split at hn
  · next he =>
    cases he
    cases hn
    rfl
  · next he =>
    cases he
    cases hn
    rfl
  · next he => cases he

/-- The execution of a chain that fails has left it unfinished. -/
theorem execute_chain (he : ∀ source, Disciplined (evaluate source)) {operand : Expr}
    {links : List Link} {p : Program} (hp : p.code = ((operand.chain links).code false 0).toArray)
    {m n : Machine} {h : Halt} (hr : m.stack.length ≤ m.settings.stackSize)
    (hn : execute evaluate p m = .error h n) :
    ∃ t, (n.session = t ∨ ∃ d, n.session = t.report d) ∧
      Unfinished (operand.run evaluate m.stack.length (budget m.settings).2)
        (budget m.settings).2 links m h t := by
  rw [execute_apply, Expr.runFrom_program _ hp, bind_apply] at hn
  have hc := operand.run_chain he links (budget m.settings).2 (Nat.le_refl m.stack.length) hr
    (budget m.settings).1
  split at hn
  · next ho =>
    rw [ho] at hc
    obtain ⟨w, hw, -⟩ := hc
    rw [show (pure () : Eval Unit) _ = .ok () _ from rfl, finished_of_single hw] at hn
    cases hn
  · next ho =>
    rw [ho] at hc
    obtain ⟨rfl, hs⟩ := eq_of_finished_error hn
    exact ⟨_, hs, hc⟩

end Machine

end

namespace Machine

/-- **A failing operator changes no variable.**  With the operands that it needs it fails for one of
three reasons, and it has only reported.  A chain of assignments that fails is unfinished, and then
it has changed none of the variables that are assigned to in front of the operator that failed. -/
theorem failure_assigns_nothing :
    (∀ (op : Operator) (args : List Value) (s t : Session) (h : Halt),
      op.reduce args s = .error h t →
        (op.Takes args.length → op.Refusal h) ∧ (∃ log, t = s.record log) ∧
          t.scopes = s.scopes ∧ ∀ x, t.lookup x = s.lookup x) ∧
    (∀ (depth : Nat) (fold : Bool) (operand : Expr) (links : List Link) (p : Program)
        (m n : Machine) (h : Halt),
      m.stack.length ≤ m.settings.stackSize →
      p.code = ((operand.chain links).code fold 0).toArray →
      execute (evaluate depth) p m = .error h n →
        ∃ t, (n.session = t ∨ ∃ d, n.session = t.report d) ∧ n.session.scopes = t.scopes ∧
          Unfinished ((if fold then operand.folded else operand).run (evaluate depth)
            m.stack.length (budget m.settings).2) (budget m.settings).2 links m h t) ∧
    ∀ (run : Nat → Eval Nat) (spent : Halt) (links : List Link) (m : Machine) (h : Halt)
        (t : Session),
      Unfinished run spent links m h t →
        ∃ outer inner s, links = outer ++ inner ∧ (links ≠ [] → outer ≠ []) ∧
          (s = m.session ∨ ∃ budget, s = (after (run budget) (m.holding links)).session) ∧
          ∀ z, z ∉ targets inner → t.inScopes z = s.inScopes z := by
  refine ⟨fun op args s t h ht => ?_, fun depth fold operand links p m n h hr hp hn => ?_,
    fun _ _ _ _ _ _ hu => hu.kept⟩
  · obtain ⟨log, rfl⟩ := Operator.record_of_error ht
    exact ⟨fun hc => Operator.refuses_reduce hc s h _ ht, ⟨log, rfl⟩, rfl, fun _ => rfl⟩
  · have hf : p.code =
        (((if fold then operand.folded else operand).chain links).code false 0).toArray := by
      cases fold with
      | false => exact hp
      | true => rw [hp, Expr.code_folded, Expr.folded_chain, if_pos rfl]
    obtain ⟨t, hs, hu⟩ := execute_chain (evaluate_disciplined depth) hf hr hn
    refine ⟨t, hs, ?_, hu⟩
    obtain hs | ⟨d, hs⟩ := hs <;> rw [hs]
    rfl

/-- What a division by nothing comes to is assigned. -/
def dividing : Program :=
  ⟨"x := y /= 0", #[⟨.push (.name "x"), ⟨0, 1⟩⟩, ⟨.push (.name "y"), ⟨5, 6⟩⟩,
    ⟨.push (.int 0), ⟨10, 11⟩⟩, ⟨.reduce .divAssign 2, ⟨7, 9⟩⟩, ⟨.reduce .assign 2, ⟨2, 4⟩⟩]⟩

/-- The assignments of that program. -/
def dividingLinks : List Link :=
  [⟨.assign, "x", ⟨0, 1⟩, ⟨2, 4⟩, rfl⟩, ⟨.divAssign, "y", ⟨5, 6⟩, ⟨7, 9⟩, rfl⟩]

/-- The number that it divides by. -/
def nought : Expr :=
  .leaf (.value (.int 0)) ⟨10, 11⟩

/-- A machine whose session knows the first variable and not the second. -/
def knowingFirst : Machine :=
  { session := ({} : Session).setGlobal "x" (.int 1) }

theorem failure_assigns_nothing_divided :
    (∃ t : Session, Operator.divAssign.reduce [.name "y", .int 0] knowingFirst.session =
        .error EvalError.divisionByZero.halt t ∧ t.scopes = knowingFirst.session.scopes) ∧
      (Program.compile true (fun _ => none) dividing.source).1 = .ok dividing ∧
      ∃ (n : Machine) (t : Session), execute (evaluate 0) dividing knowingFirst =
          .error EvalError.divisionByZero.halt n ∧
        n.session.scopes = knowingFirst.session.scopes ∧ n.session.scopes = t.scopes ∧
        Unfinished (nought.folded.run (evaluate 0) 0 (budget {}).2) (budget {}).2 dividingLinks
          knowingFirst EvalError.divisionByZero.halt t ∧
        ∃ (outer inner : List Link), dividingLinks = outer ++ inner ∧ outer ≠ [] := by
  obtain ⟨hop, hrun, hkept⟩ := failure_assigns_nothing
  refine ⟨?_, of_toOption (by decide +kernel), ?_⟩
  · obtain ⟨t, ht⟩ : ∃ t, Operator.divAssign.reduce [.name "y", .int 0] knowingFirst.session =
        .error EvalError.divisionByZero.halt t := ⟨_, rfl⟩
    exact ⟨t, ht, (hop _ _ _ _ _ ht).2.2.1⟩
  · obtain ⟨n, hn, hs⟩ : ∃ n, execute (evaluate 0) dividing knowingFirst =
        .error EvalError.divisionByZero.halt n ∧ n.session.scopes = knowingFirst.session.scopes :=
      ⟨_, rfl, rfl⟩
    obtain ⟨t, -, ht, hu⟩ := hrun 0 true nought dividingLinks dividing knowingFirst n _ (by decide)
      rfl hn
    obtain ⟨outer, inner, -, hl, ho, -⟩ := hkept _ _ _ _ _ _ hu
    exact ⟨n, t, hn, hs, ht, hu, outer, inner, hl, ho nofun⟩

end Machine

end ExprEngine
