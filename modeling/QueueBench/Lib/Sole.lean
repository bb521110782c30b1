import Mathlib.Logic.Function.Basic

/-! A role that at most one thread plays at a time, such as the only producer or the only
consumer, and where the one that plays it stands. -/

namespace QueueBench

variable {ι ℓ β : Type*}

/-- `part` is what a program point means for the role, `current` what it means at present. -/
structure Sole (part : ℓ → Option β) (place : ι → Option ℓ) (current : Option β) : Prop where
  shown : ∀ thread pc played, place thread = some pc → part pc = some played →
    current = some played
  alone : ∀ left right pc other, place left = some pc → place right = some other →
    part pc ≠ none → part other ≠ none → left = right
  played : current ≠ none → ∃ thread pc, place thread = some pc ∧ part pc = current

namespace Sole

variable {part : ℓ → Option β} {place : ι → Option ℓ} {current : Option β}

theorem start : Sole part (fun _ : ι => none) none :=
  { shown := by intro thread pc played impossible; cases impossible
    alone := by intro left right pc other impossible; cases impossible
    played := by intro impossible; exact absurd rfl impossible }

theorem none_of_nobody (sole : Sole part place current)
    (nobody : ∀ thread pc, place thread = some pc → part pc = none) : current = none := by
  by_contra someone
  obtain ⟨thread, pc, standing, same⟩ := sole.played someone
  rw [nobody thread pc standing] at same
  exact someone same.symm

section Update
variable [DecidableEq ι] {thread : ι} {pc : ℓ} {target : Option ℓ}

private theorem settle
    (others : ∀ other place', other ≠ thread → place other = some place' → part place' = none) :
    Sole part (Function.update place thread target) (target.bind part) := by
  have mine : ∀ other pc, Function.update place thread target other = some pc →
      part pc ≠ none → other = thread ∧ target = some pc := by
    intro other pc standing plays
    by_cases same : other = thread
    · rw [same, Function.update_self] at standing
      exact ⟨same, standing⟩
    · rw [Function.update_of_ne same] at standing
      exact absurd (others other pc same standing) plays
  refine
    { shown := ?_
      alone := ?_
      played := ?_ }
  · intro other pc played standing plays
    obtain ⟨_, same⟩ := mine other pc standing (by rw [plays]; exact Option.some_ne_none played)
    rw [same]
    exact plays
  · intro left right pc other leftAt rightAt leftPlays rightPlays
    rw [(mine left pc leftAt leftPlays).1, (mine right other rightAt rightPlays).1]
  · intro someone
    cases target with
    | none => exact absurd rfl someone
    | some pc => exact ⟨thread, pc, Function.update_self thread _ place, rfl⟩

theorem move (sole : Sole part place current) (at_ : place thread = some pc)
    (plays : part pc ≠ none) (target : Option ℓ) :
    Sole part (Function.update place thread target) (target.bind part) := by
  apply settle
  intro other place' different standing
  by_contra both
  exact different (sole.alone other thread place' pc standing at_ both plays)

theorem enter (nobody : ∀ thread pc, place thread = some pc → part pc = none) (thread : ι)
    (target : Option ℓ) :
    Sole part (Function.update place thread target) (target.bind part) :=
  settle (fun other place' _ standing => nobody other place' standing)

theorem outside (sole : Sole part place current)
    (was : ∀ pc, place thread = some pc → part pc = none)
    (stays : ∀ pc, target = some pc → part pc = none) :
    Sole part (Function.update place thread target) current := by
  have other_at : ∀ other pc, Function.update place thread target other = some pc →
      part pc ≠ none → other ≠ thread ∧ place other = some pc := by
    intro other pc standing plays
    by_cases same : other = thread
    · rw [same, Function.update_self] at standing
      exact absurd (stays pc standing) plays
    · rw [Function.update_of_ne same] at standing
      exact ⟨same, standing⟩
  refine
    { shown := ?_
      alone := ?_
      played := ?_ }
  · intro other pc played standing plays
    obtain ⟨_, before⟩ := other_at other pc standing (by rw [plays]; exact Option.some_ne_none played)
    exact sole.shown other pc played before plays
  · intro left right pc other leftAt rightAt leftPlays rightPlays
    exact sole.alone left right pc other (other_at left pc leftAt leftPlays).2
      (other_at right other rightAt rightPlays).2 leftPlays rightPlays
  · intro someone
    obtain ⟨other, pc, standing, same⟩ := sole.played someone
    have different : other ≠ thread := by
      rintro rfl
      rw [was pc standing] at same
      exact someone same.symm
    exact ⟨other, pc, by rw [Function.update_of_ne different]; exact standing, same⟩

end Update

end Sole

end QueueBench
