import ExprEngine.Proofs.Machine.Functions

/-!
# Contents of sessions

What holds of every value that a session holds: of its variables in all scopes, of the parameters of
its frames, and of its result (`Session.Holds`).

* `Session.Holds.lookup`, `Session.Holds.assign`: a look-up finds such a value, and a session to
  which such a value is assigned holds nothing else.
* `selected_holds`: what a program selects is such a value, if all is that operators make.
-/

namespace ExprEngine

/-- `P` holds of the parameters and the variables of a frame. -/
structure Frame.Holds (P : Value → Prop) (f : Frame) : Prop where
  params : ∀ v ∈ f.params, P v
  locals : ∀ x v, f.locals.get? x = some v → P v

/-- `P` holds of the variables, of the parameters and of the result of a session. -/
structure Session.Holds (P : Value → Prop) (s : Session) : Prop where
  globals : ∀ x v, s.globals.get? x = some v → P v
  frames : ∀ f ∈ s.frames, f.Holds P
  result : ∀ v, s.result = some v → P v

variable {P : Value → Prop}

theorem Table.holds_insert {t : Table Value} (h : ∀ x v, t.get? x = some v → P v) (x : String)
    {v : Value} (hv : P v) : ∀ y w, (t.insert x v).get? y = some w → P w := by
  intro y w hw
  by_cases hy : y = x
  · rw [hy, Table.get?_insert_self] at hw
    cases hw
    exact hv
  · rw [Table.get?_insert_ne t hy] at hw
    exact h y w hw

namespace Session.Holds

variable {s : Session}

theorem empty : ({} : Session).Holds P :=
  ⟨fun _ _ => nofun, fun _ hf => absurd hf List.not_mem_nil, fun _ => nofun⟩

theorem lookupLocal {x : String} {v : Value} {frames : List Frame} (h : ∀ f ∈ frames, f.Holds P)
    (hv : Session.lookupLocal x frames = some v) : P v := by
  induction frames with
  | nil => cases hv
  | cons f rest ih =>
      rcases Option.or_eq_some_iff.mp hv with hv | ⟨-, hv⟩
      · exact (h f List.mem_cons_self).locals x v hv
      · exact ih (fun g hg => h g (List.mem_cons_of_mem f hg)) hv

theorem lookup (h : s.Holds P) {x : String} {v : Value} (hv : s.lookup x = some v) : P v := by
  rcases Option.or_eq_some_iff.mp hv with hv | ⟨-, hv⟩
  · exact lookupLocal h.frames hv
  · exact h.globals x v hv

theorem assignLocal {x : String} {v : Value} {frames frames' : List Frame} (hv : P v)
    (h : ∀ f ∈ frames, f.Holds P) (ha : Session.assignLocal x v frames = some frames') :
    ∀ f ∈ frames', f.Holds P := by
  induction frames generalizing frames' with
  | nil => cases ha
  | cons f rest ih =>
      have hf := h f List.mem_cons_self
      have hr (g : Frame) (hg : g ∈ rest) := h g (List.mem_cons_of_mem f hg)
      simp only [Session.assignLocal] at ha
      split at ha
      · cases ha
        intro g hg
        rcases List.mem_cons.mp hg with rfl | hg
        · exact ⟨hf.params, Table.holds_insert hf.locals x hv⟩
        · exact hr g hg
      · obtain ⟨rest', hr', rfl⟩ := Option.map_eq_some_iff.mp ha
        intro g hg
        rcases List.mem_cons.mp hg with rfl | hg
        · exact hf
        · exact ih hr hr' g hg

theorem assign (h : s.Holds P) (x : String) {v : Value} (hv : P v) : (s.assign x v).Holds P := by
  unfold Session.assign
  split
  · next frames ha => exact ⟨h.globals, assignLocal hv h.frames ha, h.result⟩
  · exact ⟨Table.holds_insert h.globals x hv, h.frames, h.result⟩

theorem record (h : s.Holds P) (log : List Diagnostic) : (s.record log).Holds P :=
  ⟨h.globals, h.frames, h.result⟩

theorem report (h : s.Holds P) (d : Diagnostic) : (s.report d).Holds P :=
  ⟨h.globals, h.frames, h.result⟩

theorem params (h : s.Holds P) : ∀ v ∈ s.params, P v := by
  unfold Session.params
  split
  · exact fun v hv => absurd hv List.not_mem_nil
  · next f rest hf => exact (h.frames f (hf ▸ List.mem_cons_self)).params

end Session.Holds

/-! ### Remarks and selections -/

namespace Machine

/-- The remarks on a source leave what the session holds. -/
theorem holds_remarked {m : Machine} (h : m.session.Holds P) (source : String) :
    (remarked source m).session.Holds P := by
  unfold remarked
  generalize (Program.compile m.settings.optimize m.session.findCommand? source).2 = notes
  induction notes generalizing m with
  | nil => exact h
  | cons n rest ih =>
      refine ih (m := m.remark n) ?_
      unfold remark
      split
      · exact h.report _
      · exact h

variable {s : Session} (hp : ∀ v : Value, v.Made → P v)

include hp

theorem holds_getD {o : Option Value} (h : ∀ v, o = some v → P v) : P (o.getD .blank) := by
  cases o with
  | none => exact hp .blank trivial
  | some v => exact h v rfl

/-- What is made of some values is one of them, or a text. -/
theorem holds_joined {vs : List Value} (h : ∀ v ∈ vs, P v) : P (joined s vs) := by
  match vs with
  | [] => exact hp .blank trivial
  | [v] => exact h v List.mem_cons_self
  | _ :: _ :: _ => exact hp (.text _) trivial

theorem holds_ofMatch (part : Found → Option String) : P (ofMatch s part) := by
  unfold ofMatch
  cases s.lastMatch.bind part <;> exact hp (.text _) trivial

/-- A reference among the arguments of a macro becomes a text. -/
theorem holds_parameter {v : Value} (h : v.name? = none → P v) : P (parameter s v) := by
  unfold parameter
  split
  · exact hp (.text _) trivial
  · next hn => exact h (by simpa using hn)

/-- **What is selected** is what the session holds, or a number or a text. -/
theorem selected_holds {selector : Selector} {m n : Machine} {v : Value} (hs : m.session.Holds P)
    (h : selected selector m = .ok v n) : P v := by
  have nth (ps : List Value) (hps : ∀ v ∈ ps, P v) (n : Nat) : P (ps[n]?.getD .blank) :=
    holds_getD hp fun v hv => hps v (List.mem_of_getElem? hv)
  have ps := hs.params
  unfold selected at h
  rw [bind_of_ok (show getSession m = .ok m.session m from rfl)] at h
  cases selector with
  | count | frameName => cases h; exact hp _ trivial
  | result => cases h; exact holds_getD hp hs.result
  | nth n =>
      cases n with
      | zero => cases h; exact hp .blank trivial
      | succ n => cases h; exact nth _ ps n
  | fromLast n =>
      cases n with
      | zero => cases h; exact hp .blank trivial
      | succ n => cases h; exact nth _ (fun v hv => ps v (List.mem_reverse.mp hv)) n
  | allButFirst n => cases h; exact holds_joined hp fun v hv => ps v (List.mem_of_mem_drop hv)
  | allButLast n => cases h; exact holds_joined hp fun v hv => ps v (List.mem_of_mem_take hv)
  | all => cases h; exact holds_joined hp ps
  | random =>
      dsimp only at h
      split at h
      · cases h; exact hp .blank trivial
      · cases h; exact nth _ ps _
  | capture | captureLeft | captureRight => cases h; exact holds_ofMatch hp _

end Machine

end ExprEngine
