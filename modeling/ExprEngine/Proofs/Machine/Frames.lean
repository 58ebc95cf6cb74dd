import ExprEngine.Proofs.Machine.Effects

/-!
# What evaluations leave as it was

An evaluation may set variables, report, write and keep a match.  All else of the session is the
same when it is over, however it ends: the frames with their parameters, the result, the macros, the
commands and the number of digits.  No scope loses a variable, and only the global one gets new ones
(`Session.Framed`).

Inside the call of a macro there is a frame more and another result.  Since the evaluation inside
leaves its own session framed, the caller finds its frames below that one and takes its result back
(`Session.Framed.called`).

* `evaluate_framed`: every evaluation leaves the session framed, whatever its nesting depth.
-/

namespace ExprEngine

open Machine

/-- What no evaluation changes of a frame: its name, its parameters, and the names of its variables
in their places. -/
def Frame.outline (f : Frame) : String × List Value × List String :=
  (f.name, f.params, f.locals.keys)

theorem Table.keys_prefix_insert {α : Type} (t : Table α) (x : String) (a : α) :
    t.keys <+: (t.insert x a).keys := by
  by_cases h : x ∈ t.keys
  · exact ⟨[], by rw [keys_insert_of_mem h, List.append_nil]⟩
  · rw [keys_insert_of_notMem h]
    exact List.prefix_append ..

theorem Table.keys_insert_of_contains {α : Type} {t : Table α} {x : String}
    (h : t.contains x = true) (a : α) : (t.insert x a).keys = t.keys := by
  refine keys_insert_of_mem (Decidable.byContradiction fun hx => ?_) a
  rw [contains, get?, lookup_eq_none_of_notMem hx] at h
  cases h

namespace Session

/-- From the first session to the second, variables have got values, and new ones have been added
to the global scope; of frames, result, macros, commands and digits nothing has changed. -/
structure Framed (s t : Session) : Prop where
  frames : t.frames.map Frame.outline = s.frames.map Frame.outline
  globals : s.globals.keys <+: t.globals.keys
  result : t.result = s.result
  macros : t.macros = s.macros
  commands : t.commands = s.commands
  sigfigs : t.sigfigs = s.sigfigs

/-- An assignment to a local variable changes its value only. -/
theorem outline_assignLocal {x : String} {v : Value} {frames frames' : List Frame}
    (h : assignLocal x v frames = some frames') :
    frames'.map Frame.outline = frames.map Frame.outline := by
  induction frames generalizing frames' with
  | nil => cases h
  | cons f rest ih =>
      simp only [assignLocal] at h
      split at h
      · next hc =>
        cases h
        simp only [List.map_cons, Frame.outline, Table.keys_insert_of_contains hc]
      · obtain ⟨rest', hr, rfl⟩ := Option.map_eq_some_iff.mp h
        simp only [List.map_cons, ih hr]

namespace Framed

variable {s t u : Session}

theorem refl (s : Session) : s.Framed s :=
  ⟨rfl, List.prefix_rfl, rfl, rfl, rfl, rfl⟩

theorem trans (h : s.Framed t) (k : t.Framed u) : s.Framed u where
  frames := k.frames.trans h.frames
  globals := h.globals.trans k.globals
  result := k.result.trans h.result
  macros := k.macros.trans h.macros
  commands := k.commands.trans h.commands
  sigfigs := k.sigfigs.trans h.sigfigs

theorem assign (s : Session) (x : String) (v : Value) : s.Framed (s.assign x v) := by
  unfold Session.assign
  split
  · next frames ha => exact { refl s with frames := outline_assignLocal ha }
  · exact { refl s with globals := s.globals.keys_prefix_insert x v }

/-- A call that leaves its own session framed leaves that of the caller framed: the frame of a macro
is gone behind it. -/
theorem called {vs : List Value} {q : Request} (hq : request? vs s = some q)
    (h : q.inner.Framed u) : s.Framed (q.back u) := by
  cases requested_of_request? hq with
  | test => exact h
  | body =>
      refine ⟨?_, h.globals, rfl, h.macros, h.commands, h.sigfigs⟩
      have hf := congrArg List.tail h.frames
      rwa [← List.map_tail, ← List.map_tail] at hf

end Framed

/-- Whatever evaluations bring about leaves the session framed. -/
theorem Evolves.framed {s t : Session} (h : s.Evolves t) : s.Framed t := by
  induction h with
  | refl s => exact .refl s
  | noted _ _ _ _ ih => exact ⟨ih.frames, ih.globals, ih.result, ih.macros, ih.commands, ih.sigfigs⟩
  | assigned _ x _ ih => exact ih.trans (.assign _ x _)
  | called _ hq _ ih ihu => exact ih.trans (.called hq ihu)

end Session

/-- **The frame of an evaluation.**  Whether it succeeds or fails, and wherever, an evaluation
leaves the frames with their names and parameters, the result, the macros, the commands and the
digits as they were.  Each frame has the variables that it had; the global scope keeps those that it
had, in their places, and new ones come behind them. -/
theorem Machine.evaluate_framed (depth : Nat) (source : String) (m : Machine) :
    m.session.Framed (after (evaluate depth source) m).session :=
  (evaluate_develops depth source m).session.framed

end ExprEngine
