import ExprEngine.Settings.Basic

/-!
# Changes of the settings

Whether a setting is accepted depends on its name and its value alone; what the settings are does
not matter to it.

* `Settings.set_eq_none_iff`: the names of the settings.
* `Settings.verdict`: a setting is refused, unknown or accepted whatever the settings are.
* `Settings.Applied`: the settings that some accepted settings, one after the other, lead to.
-/

namespace ExprEngine.Settings

variable {s t : Settings} {name value : String}

/-- The names of the settings. -/
def names : List String :=
  ["sigfigs", "optimize", "pedantic", "stack_size", "max_instr"]

/-- What becomes of a setting, whatever the settings are. -/
inductive Verdict (name value : String) : Prop where
  | refused (e : SettingError) (h : ∀ s : Settings, s.set name value = .error e)
  | unknown (hn : name ∉ names) (h : ∀ s : Settings, s.set name value = .ok none)
  | accepted (f : Settings → Settings) (h : ∀ s : Settings, s.set name value = .ok (some (f s)))

/-- A setting that comes to reading its value and storing what was read. -/
theorem Verdict.of_read {α : Type} {x : Except SettingError α} {f : α → Settings → Settings}
    (h : ∀ s : Settings, s.set name value = do return some (f (← x) s)) :
    Verdict name value := by
  cases x with
  | error e => exact .refused e h
  | ok a => exact .accepted (f a) h

theorem set_of_notMem (h : name ∉ names) (s : Settings) (value : String) :
    s.set name value = .ok none := by
  unfold set
  split
  case h_6 => rfl
  all_goals exact absurd (by decide) h

/-- A setting is refused, unknown or accepted whatever the settings are. -/
theorem verdict (name value : String) : Verdict name value := by
  by_cases hn : name ∈ names
  · simp only [names, List.mem_cons, List.not_mem_nil, or_false] at hn
    rcases hn with rfl | rfl | rfl | rfl | rfl
    · exact .of_read fun s => set.eq_1 s value
    · exact .of_read fun s => set.eq_2 s value
    · exact .of_read fun s => set.eq_3 s value
    · have hset (s : Settings) := set.eq_4 s value
      cases hx : number "stack_size" value with
      | error e => exact .refused e fun s => by rw [hset, hx]; rfl
      | ok n =>
          by_cases h0 : n = 0
          · exact .refused .noStack fun s => by rw [hset, hx, h0]; rfl
          · exact .accepted (fun s => { s with stackSize := n }) fun s => by
              rw [hset, hx]
              exact if_neg h0
    · exact .of_read fun s => set.eq_5 s value
  · exact .unknown hn fun s => set_of_notMem hn s value

/-- The names that are unknown are those that no setting has. -/
theorem set_eq_none_iff : s.set name value = .ok none ↔ name ∉ names := by
  refine ⟨fun h => ?_, fun h => set_of_notMem h s value⟩
  cases verdict name value with
  | refused e he =>
      rw [he s] at h
      cases h
  | unknown hn _ => exact hn
  | accepted f hf =>
      rw [hf s] at h
      cases h

/-- The settings `t` that some settings, each of them accepted, lead to from `s`. -/
inductive Applied : Settings → List (String × String) → Settings → Prop
  | nil {s : Settings} : Applied s [] s
  | cons {s t u : Settings} {name value : String} {rest : List (String × String)}
      (first : s.set name value = .ok (some t)) (more : Applied t rest u) :
      Applied s ((name, value) :: rest) u

theorem Applied.unique {changes : List (String × String)} {u : Settings}
    (h : Applied s changes t) (k : Applied s changes u) : t = u := by
  induction h with
  | nil =>
      cases k
      rfl
  | cons first _ ih =>
      cases k with
      | cons first' more' =>
          rw [first] at first'
          cases first'
          exact ih more'

/-- Settings that are accepted leave the numbers in their ranges. -/
theorem Applied.inRange {changes : List (String × String)} (h : Applied s changes t)
    (hs : s.InRange) : t.InRange := by
  induction h with
  | nil => exact hs
  | cons first _ ih => exact ih (inRange_of_set hs first)

end ExprEngine.Settings
