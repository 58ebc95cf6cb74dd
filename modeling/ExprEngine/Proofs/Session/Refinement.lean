import ExprEngine.Proofs.Machine.Operators
import ExprEngine.Proofs.Session.Store

/-!
# Stores keep variables as sessions do

A store keeps in its slots and a session in its frames what a stack of finite maps says, whatever is
done to them: `Hold ss ts` says that each scope is sound and holds what the map in its place holds,
and every access keeps that (`Joined.apply`), so that it holds after any number of them.

* `Hold.get`, `Hold.target`: the innermost variable of a name is the one that the maps say.
* `Store.Refines`: what holds of a store and a session after some accesses.
* `Store.run_refines`: **it does**, of a new store and a new session.
* `Operator.stores_reduce`: an operator that assigns does so last of all, and comes to what it has
  stored.
-/

namespace ExprEngine

/-! ### Scopes and maps -/

namespace Store

variable {ss : List (Slots Value)} {ts : Maps} {f : Slots Value → Slots Value} {k : Nat}
  {s : Store}

/-- The scopes are sound and hold what the maps hold. -/
inductive Hold : List (Slots Value) → Maps → Prop
  | nil : Hold [] []
  | cons {u : Slots Value} {t : Table Value} {ss : List (Slots Value)} {ts : Maps} (hu : u.Sound)
    (ht : ∀ x, u.get? x = t.get? x) (h : Hold ss ts) : Hold (u :: ss) (t :: ts)

namespace Hold

theorem length (h : Hold ss ts) : ss.length = ts.length := by
  induction h with
  | nil => rfl
  | cons _ _ _ ih => exact congrArg (· + 1) ih

theorem tail (h : Hold ss ts) : Hold ss.tail ts.tail := by
  cases h with
  | nil => exact .nil
  | cons _ _ h => exact h

/-- The scope that so many others are outside of is changed as the map in its place is. -/
theorem modify (h : Hold ss ts) (hk : k < ss.length) {g : Table Value → Table Value}
    (hf : ∀ u t, scopeAt? k ss = some u → u.Sound → (∀ x, u.get? x = t.get? x) →
      (f u).Sound ∧ ∀ x, (f u).get? x = (g t).get? x) :
    Hold (modifyAt k f ss) (ts.modify (ts.length - 1 - k) g) := by
  induction h with
  | nil => cases hk
  | @cons u t ss ts hu ht h ih =>
      have hl := h.length
      rw [modifyAt, List.length_cons]
      split
      · next hk =>
        obtain ⟨hu', ht'⟩ := hf u t (if_pos hk) hu ht
        rw [show ts.length + 1 - 1 - k = 0 by omega]
        exact .cons hu' ht' h
      · next hne =>
        rw [List.length_cons] at hk
        rw [show ts.length + 1 - 1 - k = (ts.length - 1 - k) + 1 by omega]
        exact .cons hu ht
          (ih (by omega) fun u t hu => hf u t (by rw [scopeAt?, if_neg hne, hu]))

/-- The innermost variable of a name is in the map that an assignment goes to. -/
theorem target (h : Hold ss ts) (x : String) :
    ts.target x = ts.length - 1 - ((find? x ss).map Cell.scope).getD 0 := by
  induction h with
  | nil => rfl
  | @cons u t ss ts hu ht h ih =>
      have hl := h.length
      have hc : t.contains x = (u.slot? x).isSome := by
        rw [Table.contains, ← ht, hu.isSome_get?]
      rw [Store.find?]
      cases hx : u.slot? x with
      | some i =>
          rw [hx] at hc
          simp [Maps.target, List.findIdx_cons, hc, hl]
      | none =>
          rw [hx] at hc
          have hlt : ((find? x ss).map Cell.scope).getD 0 ≤ ss.length - 1 := by
            cases hf : find? x ss with
            | none => exact Nat.zero_le _
            | some c => exact Nat.le_sub_one_of_lt (scope_lt hf)
          simp only [Maps.target] at ih
          simp only [Maps.target, List.findIdx_cons, hc, List.length_cons, cond_false,
            Option.isSome_none]
          omega

theorem get (h : Hold ss ts) (x : String) :
    ((find? x ss).map fun c => ((scopeAt? c.scope ss).bind (·.contents[c.slot]?)).getD .blank) =
      ts.get x := by
  induction h with
  | nil => rfl
  | @cons u t ss ts hu ht h ih =>
      rw [Store.find?, Maps.get_cons, ← ht, Slots.get?]
      cases hx : u.slot? x with
      | some i => simp [scopeAt?, hu.inRange x i hx]
      | none =>
          rw [← ih]
          refine Option.map_congr fun c hc => ?_
          rw [scopeAt?, if_neg (Nat.ne_of_lt (scope_lt hc))]

/-- Putting a name into a scope is inserting it into the map in its place. -/
theorem put (h : Hold ss ts) (hk : k < ss.length) (x : String) (v : Value) :
    Hold (modifyAt k (fun u => (u.put x v).1) ss)
      (ts.modify (ts.length - 1 - k) (·.insert x v)) := by
  refine h.modify hk fun u t _ hu ht => ⟨hu.put x v, fun z => ?_⟩
  rw [hu.get?_put]
  split
  · next hz => rw [hz, Table.get?_insert_self]
  · next hz => rw [ht, Table.get?_insert_ne _ hz]

end Hold

/-- Every access does to the scopes what it does to the maps. -/
theorem Sound.hold_apply {s : Store} (hs : s.Sound) (h : Hold s.scopes ts) (a : Access) :
    Hold (s.apply a).scopes (ts.apply a) := by
  have hlen := h.length
  have hdepth := hs.depth
  cases a with
  | setGlobal x v => exact h.put (by omega) x v
  | setLocal x v =>
      have hput := h.put (k := s.scopes.length - 1) (by omega) x v
      rwa [hlen, Nat.sub_self, ← hlen] at hput
  | pushFrame name params => exact .cons .empty (fun _ => rfl) h
  | popFrame =>
      simp only [Store.apply, Maps.apply]
      split
      · next hf =>
        rw [hf] at hdepth
        rwa [if_pos (by simp at hdepth; omega)]
      · next hf =>
        rw [hf, List.length_cons] at hdepth
        rw [if_neg (by omega)]
        exact h.tail
  | defineMacro name body => exact h
  | assign x v =>
      obtain ⟨f, hf, ht⟩ := hs.assign_scopes x v
      rw [Store.apply, hf, Maps.apply, Maps.assign, h.target]
      refine h.modify (hs.target_lt x) fun u t hu _ hut => ⟨(ht u hu).1, fun z => ?_⟩
      rw [(ht u hu).2]
      split
      · next hz => rw [hz, Table.get?_insert_self]
      · next hz => rw [hut, Table.get?_insert_ne _ hz]

end Store

/-! ### Frames -/

/-- Names and parameters of the frames of a session. -/
def Session.entered (t : Session) : List (String × List Value) :=
  t.frames.map fun f => (f.name, f.params)

theorem Session.entered_assignLocal {x : String} {v : Value} {frames frames' : List Frame}
    (h : assignLocal x v frames = some frames') :
    (frames'.map fun f => (f.name, f.params)) = frames.map fun f => (f.name, f.params) := by
  induction frames generalizing frames' with
  | nil => cases h
  | cons f rest ih =>
      rw [assignLocal] at h
      split at h
      · cases h
        rfl
      · obtain ⟨rest', hr, rfl⟩ := Option.map_eq_some_iff.mp h
        simp only [List.map_cons, ih hr]

theorem Session.entered_assign (t : Session) (x : String) (v : Value) :
    (t.assign x v).entered = t.entered := by
  rw [assign]
  split
  · next h => exact entered_assignLocal h
  · rfl

/-- The frames are the same ones after an access, if they were before. -/
theorem Store.frames_apply {s : Store} {t : Session} (h : s.frames = t.entered) (a : Access) :
    (s.apply a).frames = (t.access a).entered := by
  cases a with
  | setGlobal x v => exact h
  | setLocal x v =>
      refine h.trans ?_
      rw [Session.access, Session.setLocal, Session.entered]
      split
      · next hf => simp [Session.setGlobal, Session.entered, hf]
      · next hf => simp [Session.entered, hf]
  | pushFrame name params => exact congrArg ((name, params) :: ·) h
  | popFrame =>
      have hp : (t.popFrame).entered = t.entered.tail := by simp [Session.popFrame, Session.entered]
      rw [Session.access, hp, ← h, Store.apply]
      split
      · next hf => rw [hf]; rfl
      · next hf => rw [hf]; rfl
  | defineMacro name body => exact h
  | assign x v => exact (s.frames_assign x v).trans (h.trans (t.entered_assign x v).symm)

/-! ### Assignments of operators -/

namespace Operator

open Logged SessionM

/-- What the step comes to is what it has stored last of all, in a variable of `X`. -/
def Stores (X : String → Prop) (c : SessionM Value) : Prop :=
  ∀ s r u, c s = .ok r u → ∃ x log, X x ∧ u = (s.record log).assign x r

variable {X : String → Prop}

theorem stores_store {x : String} (hx : X x) (v : Value) : Stores X (store x v) := by
  intro s r u h
  cases h
  exact ⟨x, [], hx, by rw [s.record_nil]⟩

theorem Stores.bind {α : Type} {P : α → Prop} {y : SessionM α} {f : α → SessionM Value}
    (hy : Reads (fun _ => True) P y) (hf : ∀ a, P a → Stores X (f a)) : Stores X (y >>= f) := by
  intro s r u h
  have hs := hy s
  rw [Machine.bind_apply] at h
  generalize y s = o at h hs
  cases hs with
  | error => cases h
  | @ok a log hl ha =>
      obtain ⟨x, more, hx, rfl⟩ := hf a ha _ r u h
      exact ⟨x, log ++ more, hx, by rw [s.record_record]⟩

theorem Stores.ite {c : Prop} [Decidable c] {y z : SessionM Value} (hy : Stores X y)
    (hz : Stores X z) : Stores X (if c then y else z) := by
  split
  · exact hy
  · exact hz

/-- The variable that the first operand names. -/
def Named (args : List Value) (x : String) : Prop :=
  args[0]?.bind Value.name? = some x

theorem reads_named (args : List Value) : Reads (fun _ => True) (Named args) (target args) := by
  unfold target operand
  cases h : args[0]? with
  | none => exact .bind (P := fun _ => False) (.throw (.fault trivial)) nofun
  | some v =>
      refine .bind (.pure (P := (· = v)) rfl) fun w hw => ?_
      subst hw
      split
      · next x hx => exact .pure (by rw [Named, h]; exact hx)
      · exact .throw (.failure (e := .illegalAssignment) trivial)

/-- **An operator that assigns** does so last of all, to the variable that its first operand names,
and comes to what it has stored. -/
theorem stores_reduce {op : Operator} (h : op.assigns = true) (args : List Value) :
    Stores (Named args) (op.reduce args) := by
  have second : Reads (fun _ => True) (· ∈ args) (operand args 1) :=
    reads_operand fun _ _ => trivial
  cases op with
  | addAssign | subAssign | mulAssign | divAssign =>
      refine .bind (reads_named args) fun x hx => .bind second fun v _ =>
        .bind (reads_compute (n := 2) (fun s => ?_) (fun s => rfl) (by simp)) fun w _ =>
          stores_store hx w
      exact mute_bind (Operand.mute_ofVariable s x) fun _ =>
        mute_bind (Operand.mute_read s v) fun _ => mute_pure _
  | assign =>
      refine .bind (reads_named args) fun x hx => .bind second fun v _ => ?_
      cases v.name? with
      | none => exact stores_store hx v
      | some y => exact .bind .read fun s _ => stores_store hx _
  | increment | decrement =>
      refine .bind (reads_named args) fun x hx =>
        .bind (P := fun _ => True) (.observe (fun s => ?_) fun _ => trivial) fun n _ => ?_
      · split
        · exact s.mute_toInt _
        · exact mute_pure _
      · exact .ite (.bind (.report (d := .stepOverflow _ x) nofun) fun _ _ => stores_store hx _)
          (stores_store hx _)
  | _ => cases h

end Operator

/-! ### Runs -/

namespace Store

/-- What holds of a store and a session after some accesses. -/
structure Refines (as : List Access) (s : Store) (t : Session) : Prop where
  /-- There is a scope for each frame, and one for the global variables. -/
  depth : s.scopes.length = s.frames.length + 1
  /-- In every scope, each name has a slot of its own that is there. -/
  slots : ∀ u ∈ s.scopes, u.Sound
  /-- Each macro has a slot of its own that is there. -/
  macros : s.macros.Sound
  /-- The scopes of the session are what the accesses make of a single empty map. -/
  maps : t.scopes = as.foldl Maps.apply [∅]
  /-- The scopes of the store hold the same. -/
  hold : Hold s.scopes t.scopes
  /-- The frames are the same ones. -/
  frames : s.frames = t.entered
  /-- A name that is found reads as its variable in the scope of its cell, and no scope inside of
  that one has the name; a name that is not found is in no scope. -/
  innermost : ∀ x, match s.lookup? x with
    | some c => s.valueAt c.scope x = some (s.read c) ∧ s.get x = some (s.read c) ∧
        ∀ k, c.scope < k → s.valueAt k x = none
    | none => s.get x = none ∧ ∀ k, s.valueAt k x = none
  /-- Store, session and maps give a name the same value. -/
  get : ∀ x, s.get x = t.lookup x ∧ t.lookup x = t.scopes.get x
  /-- An assignment changes the innermost variable of the name, or a global one, and no other. -/
  assign : ∀ x v k z, (s.assign x v).1.valueAt k z =
    if k = s.target x ∧ z = x then some v else s.valueAt k z
  /-- What an assignment comes to is what the name stands for afterwards. -/
  assigned : ∀ x v, (s.assign x v).1.get x = some (s.assign x v).2 ∧ (s.assign x v).2 = v
  /-- So it is with the operators that assign. -/
  operators : ∀ (op : Operator) (args : List Value) (r : Value) (u : Session), op.assigns = true →
    op.reduce args t = .ok r u → ∃ x, args[0]?.bind Value.name? = some x ∧
      u.scopes = t.scopes.assign x r ∧ u.lookup x = some r
  /-- A macro has the body that it was last given. -/
  bodies : ∀ m, s.macroBody? m = lastBody? as m ∧ t.macroBody? m = lastBody? as m

/-- The store is sound and has the scopes and frames of the session. -/
structure Joined (s : Store) (t : Session) : Prop where
  sound : s.Sound
  hold : Hold s.scopes t.scopes
  frames : s.frames = t.entered

namespace Joined

variable {s : Store} {t : Session}

theorem empty : Joined {} {} where
  sound := .empty
  hold := .cons .empty (fun _ => rfl) .nil
  frames := rfl

theorem apply (h : Joined s t) (a : Access) : Joined (s.apply a) (t.access a) where
  sound := h.sound.apply a
  hold := t.scopes_access a ▸ h.sound.hold_apply h.hold a
  frames := frames_apply h.frames a

theorem run (h : Joined s t) (as : List Access) :
    Joined (as.foldl Store.apply s) (as.foldl Session.access t) := by
  induction as generalizing s t with
  | nil => exact h
  | cons a as ih => exact ih (h.apply a)

end Joined

/-- **A store is a stack of finite maps**, and the variables of a session are that same stack: from
a new store and a new session on, whatever is done to both. -/
theorem run_refines (as : List Access) :
    Refines as (as.foldl Store.apply {}) (as.foldl Session.access {}) := by
  have h := Joined.empty.run as
  generalize hs : as.foldl Store.apply {} = s at h
  generalize ht : as.foldl Session.access {} = t at h
  refine
    { depth := h.sound.depth
      slots := h.sound.scopes
      macros := h.sound.macros
      maps := ht ▸ Session.scopes_run {} as
      hold := h.hold
      frames := h.frames
      innermost := h.sound.get_eq
      get := fun x => ⟨(h.hold.get x).trans (t.lookup_eq x).symm, t.lookup_eq x⟩
      assign := h.sound.valueAt_assign
      assigned := fun x v => ?_
      operators := fun op args r u ho hr => ?_
      bodies := fun m => ?_ }
  · obtain ⟨hv, hg⟩ := h.sound.get_assign x v
    exact ⟨hg.trans (congrArg some hv.symm), hv⟩
  · obtain ⟨x, log, hx, rfl⟩ := Operator.stores_reduce ho args t r u hr
    exact ⟨x, hx, (t.record log).scopes_access (.assign x r), Session.lookup_assign_self ..⟩
  · have hstore := Sound.empty.macroBody?_run as m
    have hsession := Session.macroBody?_run {} as m
    rw [hs] at hstore
    rw [ht] at hsession
    exact ⟨hstore.trans Option.or_none, hsession.trans Option.or_none⟩

/-- An assignment inside a frame is made to the variable of the frame and is gone with it. -/
example :
    (([.setGlobal "x" (.text "outer"), .pushFrame "f" [], .setLocal "x" (.text "inner"),
        .assign "x" (.text "new"), .popFrame] : List Access).foldl Store.apply {}).get "x" =
      some (.text "outer") :=
  rfl

end Store

end ExprEngine
