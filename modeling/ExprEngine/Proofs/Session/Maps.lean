import ExprEngine.Session.Basic

/-!
# Variables as a stack of finite maps

What the variables of a session mean: a stack of finite maps, one a scope, in which a name stands
for what the innermost map that has it says.  The frames of a session and its global variables are
such a stack, and whatever is done to them is done to the stack.

* `Access`: what is done to the variables, frames and macros of a session.
* `Maps.get`, `Maps.assign`: look-up and assignment in a stack.
* `Session.lookup_eq`, `Session.scopes_access`: a session looks up and changes as its stack does.
* `body_foldl`: a macro has the body that it was last given.
-/

namespace ExprEngine

/-- What is done to variables, frames and macros. -/
inductive Access where
  | setGlobal (x : String) (v : Value)
  | setLocal (x : String) (v : Value)
  | pushFrame (name : String) (params : List Value)
  | popFrame
  | defineMacro (name body : String)
  | assign (x : String) (v : Value)

/-- The body that an access gives to a macro. -/
def Access.body? (m : String) : Access → Option String
  | .defineMacro name body => if m = name then some body else none
  | _ => none

/-- The body that a macro was last given. -/
def lastBody? (as : List Access) (m : String) : Option String :=
  as.reverse.findSome? (·.body? m)

/-- What every access keeps unless it gives a body, and then replaces by that body, is in the end
the last of these bodies; `ok` is what the accesses keep of the states. -/
theorem body_foldl {σ : Type} (step : σ → Access → σ) (body? : σ → Option String) (ok : σ → Prop)
    {m : String} (hok : ∀ s a, ok s → ok (step s a))
    (hbody : ∀ s a, ok s → body? (step s a) = (a.body? m).or (body? s)) (as : List Access) {s : σ}
    (h : ok s) : body? (as.foldl step s) = (lastBody? as m).or (body? s) := by
  induction as generalizing s with
  | nil => rfl
  | cons a as ih =>
      rw [List.foldl_cons, ih (hok s a h), hbody s a h, ← Option.or_assoc]
      congr 1
      simp only [lastBody?, List.reverse_cons, List.findSome?_append, List.findSome?_cons,
        List.findSome?_nil]
      cases a.body? m <;> rfl

/-! ### Stacks of maps -/

/-- Variables as a stack of finite maps, the innermost first and the global one last. -/
abbrev Maps := List (Table Value)

namespace Maps

/-- The value of a name in the innermost map that has it. -/
def get (ts : Maps) (x : String) : Option Value :=
  ts.findSome? (·.get? x)

/-- The place of the innermost map that has a name, or of the global one. -/
def target (ts : Maps) (x : String) : Nat :=
  min (ts.findIdx (·.contains x)) (ts.length - 1)

/-- The innermost variable of a name with a new value, or a new global one. -/
def assign (ts : Maps) (x : String) (v : Value) : Maps :=
  ts.modify (ts.target x) (·.insert x v)

/-- The maps after an access. -/
def apply (ts : Maps) : Access → Maps
  | .setGlobal x v => ts.modify (ts.length - 1) (·.insert x v)
  | .setLocal x v => ts.modify 0 (·.insert x v)
  | .pushFrame .. => ∅ :: ts
  | .popFrame => if ts.length ≤ 1 then ts else ts.tail
  | .defineMacro .. => ts
  | .assign x v => ts.assign x v

variable {ts : Maps} {t : Table Value} {x : String}

theorem get_cons (t : Table Value) (ts : Maps) (x : String) :
    get (t :: ts) x = (t.get? x).or (ts.get x) := by
  simp only [get, List.findSome?_cons]
  cases t.get? x <;> rfl

theorem assign_singleton (t : Table Value) (x : String) (v : Value) :
    assign [t] x v = [t.insert x v] := by
  simp [assign, target]

theorem assign_cons_of_contains (h : t.contains x = true) (v : Value) :
    assign (t :: ts) x v = t.insert x v :: ts := by
  simp [assign, target, List.findIdx_cons, h]

theorem assign_cons_of_not (h : t.contains x = false) (hn : ts ≠ []) (v : Value) :
    assign (t :: ts) x v = t :: ts.assign x v := by
  have hl : 0 < ts.length := List.length_pos_iff.mpr hn
  have ht : target (t :: ts) x = target ts x + 1 := by
    simp [target, List.findIdx_cons, h]
    omega
  rw [assign, ht, List.modify_succ_cons, assign]

/-- The global variables are the last map. -/
theorem modify_last (ts : Maps) (t : Table Value) (f : Table Value → Table Value) :
    (ts ++ [t]).modify ((ts ++ [t]).length - 1) f = ts ++ [f t] := by
  induction ts with
  | nil => rfl
  | cons u ts ih =>
      rw [List.length_append, List.length_singleton, Nat.add_sub_cancel] at ih ⊢
      rw [List.cons_append, List.length_cons, List.modify_succ_cons, ih, List.cons_append]

end Maps

/-! ### Sessions -/

namespace Session

/-- The scopes of a session. -/
def scopes (s : Session) : Maps :=
  s.frames.map (·.locals) ++ [s.globals]

/-- The session after an access. -/
def access (s : Session) : Access → Session
  | .setGlobal x v => s.setGlobal x v
  | .setLocal x v => s.setLocal x v
  | .pushFrame name params => s.pushFrame name params
  | .popFrame => s.popFrame
  | .defineMacro name body => s.defineMacro name body
  | .assign x v => s.assign x v

theorem lookup_eq (s : Session) (x : String) : s.lookup x = s.scopes.get x := by
  have go (frames : List Frame) :
      (lookupLocal x frames).or (s.globals.get? x) =
        Maps.get (frames.map (·.locals) ++ [s.globals]) x := by
    induction frames with
    | nil => rw [List.map_nil, List.nil_append, Maps.get_cons]; exact Option.or_none.symm
    | cons f rest ih =>
        rw [lookupLocal, Option.or_assoc, ih, List.map_cons, List.cons_append, Maps.get_cons]
  exact go s.frames

/-- Assignment to the variable of a frame, or else to a global one. -/
theorem assign_locals (g : Table Value) (x : String) (v : Value) (frames : List Frame) :
    Maps.assign (frames.map (·.locals) ++ [g]) x v =
      match assignLocal x v frames with
      | some frames => frames.map (·.locals) ++ [g]
      | none => frames.map (·.locals) ++ [g.insert x v] := by
  induction frames with
  | nil => exact Maps.assign_singleton g x v
  | cons f rest ih =>
      rw [assignLocal, List.map_cons, List.cons_append]
      by_cases h : f.locals.contains x = true
      · rw [if_pos h, Maps.assign_cons_of_contains h]
        rfl
      · have hn : rest.map (·.locals) ++ [g] ≠ [] := by simp
        rw [if_neg h, Maps.assign_cons_of_not (by simpa using h) hn, ih]
        cases assignLocal x v rest <;> rfl

/-- What is done to a session is done to its scopes. -/
theorem scopes_access (s : Session) (a : Access) : (s.access a).scopes = s.scopes.apply a := by
  cases a with
  | setGlobal x v => exact (Maps.modify_last _ s.globals (·.insert x v)).symm
  | setLocal x v =>
      rw [access, setLocal, scopes, Maps.apply]
      split
      · next h => simp [setGlobal, scopes, h]
      · next f rest h => simp [scopes, h]
  | pushFrame name params => rfl
  | popFrame =>
      rw [access, popFrame, scopes, scopes]
      cases s.frames with
      | nil => rfl
      | cons f rest => simp [Maps.apply]
  | defineMacro name body => rfl
  | assign x v =>
      refine Eq.trans ?_ (assign_locals s.globals x v s.frames).symm
      rw [access, assign]
      cases assignLocal x v s.frames <;> rfl

theorem macroBody?_access (s : Session) (a : Access) (m : String) :
    (s.access a).macroBody? m = (a.body? m).or (s.macroBody? m) := by
  cases a with
  | defineMacro name body =>
      rw [access, defineMacro, macroBody?, Access.body?]
      split
      · next h => rw [h]; exact Table.get?_insert_self ..
      · next h => exact Table.get?_insert_ne _ h _
  | assign x v =>
      rw [access, assign]
      split <;> rfl
  | setLocal x v =>
      rw [access, setLocal]
      split <;> rfl
  | _ => rfl

theorem scopes_run (s : Session) (as : List Access) :
    (as.foldl access s).scopes = as.foldl Maps.apply s.scopes := by
  induction as generalizing s with
  | nil => rfl
  | cons a as ih => rw [List.foldl_cons, List.foldl_cons, ih, s.scopes_access]

theorem macroBody?_run (s : Session) (as : List Access) (m : String) :
    (as.foldl access s).macroBody? m = (lastBody? as m).or (s.macroBody? m) :=
  body_foldl access (·.macroBody? m) (fun _ => True) (fun _ _ _ => trivial)
    (fun s a _ => s.macroBody?_access a m) as trivial

end Session

end ExprEngine
