import ExprEngine.Machine.Run

/-!
# What steps change

A step of the machine is a function of its whole state, but most steps look only at the session, the
random numbers and the host.  Three notions say so, each closed under sequencing:

* `Calm m n`: between `m` and `n` the stack, the settings and the host stay, and reports are only
  added.
* `Quiet m n`: moreover nothing of the session changes but its reports and its last match.
* `Blind x`: from machines that differ in nothing that a session sees, `x` comes to the same result
  and to machines that differ as before.

A step is `Accepted` if it does not fail for a source that is no expression; one that is quiet,
blind and accepted is `Mild`.
-/

namespace ExprEngine.Machine

variable {σ α β : Type}

/-- The state that a step leaves, whether it has a value or halts. -/
def left : EStateM.Result Halt σ α → σ
  | .ok _ n | .error _ n => n

/-- The state that a step leaves if it starts from another. -/
def after (x : EStateM Halt σ α) (m : σ) : σ :=
  left (x m)

theorem bind_apply (x : EStateM Halt σ α) (f : α → EStateM Halt σ β) (m : σ) :
    (x >>= f) m = match x m with
      | .ok a n => f a n
      | .error h n => .error h n := by
  cases h : x m <;> simp [bind, EStateM.bind, h]

theorem bind_of_ok {x : EStateM Halt σ α} {m n : σ} {a : α} (h : x m = .ok a n)
    (f : α → EStateM Halt σ β) : (x >>= f) m = f a n := by
  rw [bind_apply, h]

theorem bind_of_error {x : EStateM Halt σ α} {m n : σ} {h : Halt} (e : x m = .error h n)
    (f : α → EStateM Halt σ β) : (x >>= f) m = .error h n := by
  rw [bind_apply, e]

theorem after_of_ok {x : EStateM Halt σ α} {m n : σ} {a : α} (h : x m = .ok a n) :
    after x m = n := by
  rw [after, h, left]

theorem after_of_error {x : EStateM Halt σ α} {m n : σ} {h : Halt} (e : x m = .error h n) :
    after x m = n := by
  rw [after, e, left]

/-- What holds between a state and what each of two steps leaves holds of the steps in a row. -/
theorem after_bind {R : σ → σ → Prop} (trans : ∀ {m n o}, R m n → R n o → R m o)
    {x : EStateM Halt σ α} {f : α → EStateM Halt σ β} {m : σ} (hx : R m (after x m))
    (hf : ∀ a n, R n (after (f a) n)) : R m (after (x >>= f) m) := by
  cases e : x m with
  | ok a n =>
      rw [after_of_ok e] at hx
      have hn := trans hx (hf a n)
      rwa [after, ← bind_of_ok e f, ← after] at hn
  | error h n =>
      rw [after_of_error e] at hx
      rwa [after_of_error (bind_of_error e f)]

/-! ### The stack -/

theorem push_apply (v : Value) (m : Machine) :
    push v m = if m.settings.stackSize ≤ m.stack.length then .error EvalError.stackOverflow.halt m
      else .ok () { m with stack := v :: m.stack } := by
  unfold push
  rw [bind_of_ok (show (get : Eval Machine) m = .ok m m from rfl)]
  split <;> rfl

theorem popMany_apply (base n : Nat) (m : Machine) :
    popMany base n m = if m.stack.length - base < n then
        .error (.fault (.stackUnderflow n (m.stack.length - base))) m
      else .ok (m.stack.take n).reverse { m with stack := m.stack.drop n } := by
  unfold popMany
  rw [bind_of_ok (show (get : Eval Machine) m = .ok m m from rfl)]
  split <;> rfl

theorem top_apply (base : Nat) (m : Machine) :
    top base m = match m.stack with
      | v :: rest => if base ≤ rest.length then .ok v m else .error (.fault .emptyStack) m
      | [] => .error (.fault .emptyStack) m := by
  unfold top
  rw [bind_of_ok (show (get : Eval Machine) m = .ok m m from rfl)]
  cases m.stack with
  | nil => rfl
  | cons v rest =>
      dsimp only
      split <;> rfl

/-- How an execution that found a height ends, from how its run ends. -/
def finished (base : Nat) :
    EStateM.Result Halt Machine Unit → EStateM.Result Halt Machine Value
  | .error (.failure (.eval e)) m => .error e.halt (m.unwind base e)
  | .error h m => .error h m
  | .ok () m =>
    match m.stack.length - base, m.stack with
    | 0, _ => .ok .blank m
    | 1, v :: rest => .ok v { m with stack := rest }
    | n, _ => .error (.fault (.valuesLeft n)) m

theorem execute_apply (evaluate : String → Eval Value) (p : Program) (m : Machine) :
    execute evaluate p m = finished m.stack.length (runFrom evaluate m.stack.length p
      (budget m.settings).2 (budget m.settings).1 0 m) := by
  unfold execute finished
  rfl

/-- A run that leaves one value on the stack that was found. -/
theorem finished_of_single {stack : List Value} {n : Machine} {v : Value}
    (hs : n.stack = v :: stack) :
    finished stack.length (.ok () n) = .ok v { n with stack } := by
  have hl : n.stack.length - stack.length = 1 := by
    rw [hs, List.length_cons, Nat.add_sub_cancel_left]
  unfold finished
  simp only [hl]
  rw [hs]
  rfl

/-- The step does not fail because some source is no expression. -/
def Accepted (x : EStateM Halt σ α) : Prop :=
  ∀ m e n, x m ≠ .error (.failure (.compile e)) n

theorem Accepted.pure (a : α) : Accepted (pure a : EStateM Halt σ α) :=
  fun _ _ _ => nofun

theorem Accepted.throw {h : Halt} (hh : ∀ e, h ≠ .failure (.compile e)) :
    Accepted (throw h : EStateM Halt σ α) := by
  intro m e n he
  cases he
  exact hh e rfl

theorem Accepted.bind {x : EStateM Halt σ α} {f : α → EStateM Halt σ β} (hx : Accepted x)
    (hf : ∀ a, Accepted (f a)) : Accepted (x >>= f) := by
  intro m e n he
  rw [bind_apply] at he
  cases h : x m with
  | ok a o =>
      rw [h] at he
      exact hf a o e n he
  | error k o =>
      rw [h] at he
      cases he
      exact hx m e n h

/-! ### Changes -/

/-- The stack, the settings and the host stay, and reports are only added. -/
structure Calm (m n : Machine) : Prop where
  settings : n.settings = m.settings
  host : n.host = m.host
  stack : n.stack = m.stack
  reports : m.session.diagnostics.toList <+: n.session.diagnostics.toList

/-- Only the random numbers and the last match change, and reports are added. -/
structure Quiet (m n : Machine) : Prop where
  eq : n = { m with random := n.random, session := { m.session with
    diagnostics := n.session.diagnostics, lastMatch := n.session.lastMatch } }
  reports : m.session.diagnostics.toList <+: n.session.diagnostics.toList

theorem Calm.refl (m : Machine) : Calm m m :=
  ⟨rfl, rfl, rfl, List.prefix_rfl⟩

theorem Calm.trans {m n o : Machine} (h : Calm m n) (k : Calm n o) : Calm m o :=
  ⟨k.settings.trans h.settings, k.host.trans h.host, k.stack.trans h.stack,
    h.reports.trans k.reports⟩

/-- A change of the session that only adds reports. -/
theorem Calm.ofSession {m : Machine} {s : Session}
    (h : m.session.diagnostics.toList <+: s.diagnostics.toList) : Calm m { m with session := s } :=
  ⟨rfl, rfl, rfl, h⟩

theorem Quiet.refl (m : Machine) : Quiet m m :=
  ⟨rfl, List.prefix_rfl⟩

theorem Quiet.trans {m n o : Machine} (h : Quiet m n) (k : Quiet n o) : Quiet m o := by
  refine ⟨?_, h.reports.trans k.reports⟩
  rw [k.eq, h.eq]

theorem Quiet.calm {m n : Machine} (h : Quiet m n) : Calm m n := by
  refine ⟨?_, ?_, ?_, h.reports⟩ <;> rw [h.eq]

/-! ### Steps that see the session only -/

/-- Two machines that agree on all that a session sees, whatever changes in it. -/
structure Reframes (F : Machine → Machine → Prop) : Prop where
  session {m n : Machine} : F m n → n.session = m.session
  host {m n : Machine} : F m n → n.host = m.host
  random {m n : Machine} : F m n → n.random = m.random
  setSession {m n : Machine} (s : Session) :
    F m n → F { m with session := s } { n with session := s }
  setRandom {m n : Machine} (r : UInt64) :
    F m n → F { m with random := r } { n with random := r }

/-- The same value or the same halt, at related machines. -/
def Alike (F : Machine → Machine → Prop) :
    EStateM.Result Halt Machine α → EStateM.Result Halt Machine α → Prop
  | .ok a m, .ok b n => a = b ∧ F m n
  | .error h m, .error k n => h = k ∧ F m n
  | _, _ => False

/-- The step goes alike from machines that agree on all that a session sees. -/
def Blind (x : Eval α) : Prop :=
  ∀ F : Machine → Machine → Prop, Reframes F → ∀ m n : Machine, F m n → Alike F (x m) (x n)

theorem Blind.bind {x : Eval α} {f : α → Eval β} (hx : Blind x) (hf : ∀ a, Blind (f a)) :
    Blind (x >>= f) := by
  intro F hF m n h
  have hmn := hx F hF m n h
  rw [bind_apply, bind_apply]
  cases hm : x m <;> cases hn : x n <;> rw [hm, hn] at hmn <;> simp only [Alike] at hmn
  · obtain ⟨rfl, hmn⟩ := hmn
    exact hf _ F hF _ _ hmn
  · obtain ⟨rfl, hmn⟩ := hmn
    exact ⟨rfl, hmn⟩

theorem Blind.inSession (x : SessionM α) : Blind (inSession x) := by
  intro F hF m n h
  simp only [Machine.inSession, hF.session h]
  cases x m.session with
  | ok a s => exact ⟨rfl, hF.setSession s h⟩
  | error e s => exact ⟨rfl, hF.setSession s h⟩

theorem modifySession_apply (f : Session → Session) (m : Machine) :
    modifySession f m = .ok () { m with session := f m.session } := rfl

theorem Blind.modifySession (f : Session → Session) : Blind (modifySession f) := by
  intro F hF m n h
  rw [modifySession_apply, modifySession_apply, hF.session h]
  exact ⟨rfl, hF.setSession _ h⟩

theorem Accepted.inSession {x : SessionM α} (h : Accepted x) : Accepted (inSession x) := by
  intro m e n he
  unfold Machine.inSession at he
  cases hx : x m.session with
  | ok a s =>
      rw [hx] at he
      cases he
  | error k s =>
      rw [hx] at he
      cases he
      exact h m.session e s hx

theorem Accepted.modifySession (f : Session → Session) : Accepted (modifySession f) :=
  fun _ _ _ => nofun

/-- A quiet, blind and accepted step. -/
structure Mild (x : Eval α) : Prop where
  quiet (m : Machine) : Quiet m (after x m)
  blind : Blind x
  accepted : Accepted x

namespace Mild

@[simp] theorem pure (a : α) : Mild (pure a : Eval α) :=
  ⟨fun m => .refl m, fun _ _ _ _ h => ⟨rfl, h⟩, .pure a⟩

theorem throw {h : Halt} (hh : ∀ e, h ≠ .failure (.compile e)) : Mild (throw h : Eval α) :=
  ⟨fun m => .refl m, fun _ _ _ _ h => ⟨rfl, h⟩, .throw hh⟩

@[simp] theorem bind {x : Eval α} {f : α → Eval β} (hx : Mild x) (hf : ∀ a, Mild (f a)) :
    Mild (x >>= f) :=
  ⟨fun m => after_bind (R := Quiet) Quiet.trans (hx.quiet m) fun a n => (hf a).quiet n,
    hx.blind.bind fun a => (hf a).blind, hx.accepted.bind fun a => (hf a).accepted⟩

@[simp] theorem map {x : Eval α} (f : α → β) (hx : Mild x) : Mild (f <$> x) := by
  rw [map_eq_pure_bind]
  exact hx.bind fun a => .pure (f a)

@[simp] theorem ite {c : Prop} [Decidable c] {x y : Eval α} (hx : Mild x) (hy : Mild y) :
    Mild (if c then x else y) := by
  split
  · exact hx
  · exact hy

@[simp] theorem getSession : Mild getSession :=
  ⟨fun m => .refl m, fun _ hF _ _ h => ⟨(hF.session h).symm, h⟩, fun _ _ _ => nofun⟩

/-- A reading of the host. -/
@[simp] theorem getHost (f : Host → α) : Mild (get >>= fun m => Pure.pure (f m.host) : Eval α) :=
  ⟨fun m => .refl m, fun _ hF _ _ h => ⟨congrArg f (hF.host h).symm, h⟩, fun _ _ _ => nofun⟩

@[simp] theorem observe (view : Session → Logged α) : Mild (observe view) :=
  ⟨fun m => ⟨rfl, by
    simp [after, left, Machine.observe, inSession, SessionM.observe, Session.record]⟩,
    .inSession _, .inSession fun _ _ _ => nofun⟩

@[simp] theorem fail (e : EvalError) : Mild (fail e : Eval α) :=
  .throw fun _ => nofun

@[simp] theorem fault (f : Fault) : Mild (fault f : Eval α) :=
  .throw fun _ => nofun

theorem exhausted : Mild (MonadExcept.throw .exhausted : Eval α) :=
  .throw fun _ => nofun

@[simp] theorem report (d : Diagnostic) : Mild (report d) where
  quiet m := ⟨rfl, by simp [after, left, Machine.report, modifySession_apply, Session.report]⟩
  blind := .modifySession _
  accepted := .modifySession _

end Mild

/-! ### Compilation -/

theorem of_toOption {x : Except CompileError Program} {p : Program} (h : x.toOption = some p) :
    x = .ok p := by
  cases x with
  | error e => cases h
  | ok q => exact congrArg Except.ok (Option.some.inj h)

/-- The machine after the remarks on a source. -/
def remarked (source : String) (m : Machine) : Machine :=
  (Program.compile m.settings.optimize m.session.findCommand? source).2.foldl remark m

theorem compile_apply (source : String) (m : Machine) :
    compile source m =
      .ok (Program.compile m.settings.optimize m.session.findCommand? source).1
        (remarked source m) :=
  rfl

/-- An evaluation compiles its source, reports if that fails, and executes the program else. -/
theorem evaluateWith_apply (evaluate : String → Eval Value) (source : String) (m : Machine) :
    evaluateWith evaluate source m =
      match (Program.compile m.settings.optimize m.session.findCommand? source).1 with
      | .ok p => execute evaluate p (remarked source m)
      | .error e => .error (.failure (.compile e)) { remarked source m with
          session := (remarked source m).session.report (.abort (.compile e)) } := by
  unfold evaluateWith
  rw [bind_of_ok (compile_apply source m)]
  cases (Program.compile m.settings.optimize m.session.findCommand? source).1 <;> rfl

theorem remark_calm (m : Machine) (n : Note) : Calm m (m.remark n) := by
  unfold remark
  split
  · exact ⟨rfl, rfl, rfl, by simp [Session.report]⟩
  · exact .refl m

/-- What a remark changes hangs on no stack and on no setting but pedantry. -/
theorem remark_apply (m : Machine) (n : Note) :
    ∃ bracketed percent session, ∀ settings stack, settings.pedantic = m.settings.pedantic →
      remark { m with settings, stack } n =
        { m with
          settings, stack, saidBracketed := bracketed, saidPercent := percent, session } := by
  refine ⟨(m.remark n).saidBracketed, (m.remark n).saidPercent, (m.remark n).session, ?_⟩
  intro settings stack hs
  have hw : ({ m with settings, stack } : Machine).wants n = m.wants n := by
    cases n <;> simp only [Machine.wants, hs]
  unfold remark
  rw [hw]
  split <;> rfl

theorem remarks_apply (m : Machine) (notes : List Note) :
    ∃ bracketed percent session, ∀ settings stack, settings.pedantic = m.settings.pedantic →
      notes.foldl remark { m with settings, stack } =
        { m with
          settings, stack, saidBracketed := bracketed, saidPercent := percent, session } := by
  induction notes generalizing m with
  | nil => exact ⟨_, _, _, fun _ _ _ => rfl⟩
  | cons n rest ih =>
      obtain ⟨b, p, s, hn⟩ := remark_apply m n
      obtain ⟨b', p', s', hr⟩ :=
        ih { m with saidBracketed := b, saidPercent := p, session := s }
      refine ⟨b', p', s', fun settings stack hs => ?_⟩
      rw [List.foldl_cons, hn settings stack hs]
      exact hr settings stack hs

theorem remarked_calm (source : String) (m : Machine) : Calm m (remarked source m) := by
  unfold remarked
  generalize (Program.compile m.settings.optimize m.session.findCommand? source).2 = notes
  induction notes generalizing m with
  | nil => exact .refl m
  | cons n rest ih => exact (remark_calm m n).trans (ih (m.remark n))

end ExprEngine.Machine
