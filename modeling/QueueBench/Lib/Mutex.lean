import Mathlib.Logic.Function.Basic

/-! A lock and the program points between its acquisition and its release. -/

namespace QueueBench

variable {ι ℓ : Type*}

/-- At most one thread stands inside, and one does exactly while the lock is taken. -/
structure Mutex (inside : ℓ → Prop) (locked : Bool) (place : ι → Option ℓ) : Prop where
  free : locked = false → ∀ thread pc, place thread = some pc → ¬ inside pc
  owned : locked = true → ∃ thread pc, place thread = some pc ∧ inside pc
  alone : ∀ left right pc other, place left = some pc → place right = some other →
    inside pc → inside other → left = right

namespace Mutex

variable {inside : ℓ → Prop} {locked : Bool} {place : ι → Option ℓ}

theorem start : Mutex (ι := ι) inside false (fun _ => none) :=
  { free := by intro _ thread pc impossible; cases impossible
    owned := by intro impossible; cases impossible
    alone := by intro left right pc other impossible; cases impossible }

theorem held (mutex : Mutex inside locked place) {thread : ι} {pc : ℓ}
    (at_ : place thread = some pc) (holds : inside pc) : locked = true := by
  cases locked with
  | true => rfl
  | false => exact absurd holds (mutex.free rfl thread pc at_)

theorem other_outside (mutex : Mutex inside locked place) {thread other : ι} {pc place' : ℓ}
    (at_ : place thread = some pc) (holds : inside pc) (different : other ≠ thread)
    (standing : place other = some place') : ¬ inside place' := by
  intro both
  exact different (mutex.alone other thread place' pc standing at_ both holds)

theorem unlocked_of_quiet (mutex : Mutex inside locked place)
    (quiet : ∀ thread, place thread = none) : locked = false := by
  cases locked with
  | false => rfl
  | true =>
      obtain ⟨thread, pc, standing, _⟩ := mutex.owned rfl
      rw [quiet thread] at standing
      cases standing

section Operations

variable [DecidableEq ι]

theorem cases_update {thread other : ι} {target : Option ℓ} {pc : ℓ}
    (at_ : Function.update place thread target other = some pc) :
    (other = thread ∧ target = some pc) ∨ (other ≠ thread ∧ place other = some pc) := by
  by_cases same : other = thread
  · subst other
    rw [Function.update_self] at at_
    exact Or.inl ⟨rfl, at_⟩
  · rw [Function.update_of_ne same] at at_
    exact Or.inr ⟨same, at_⟩

theorem outside (mutex : Mutex inside locked place) (thread : ι) {target : Option ℓ}
    (was : ∀ pc, place thread = some pc → ¬ inside pc)
    (leaves : ∀ pc, target = some pc → ¬ inside pc) :
    Mutex inside locked (Function.update place thread target) := by
  refine
    { free := ?_
      owned := ?_
      alone := ?_ }
  · intro unlocked other pc at_
    rcases cases_update at_ with ⟨_, mine⟩ | ⟨_, standing⟩
    · exact leaves pc mine
    · exact mutex.free unlocked other pc standing
  · intro taken
    obtain ⟨owner, pc, standing, holds⟩ := mutex.owned taken
    have different : owner ≠ thread := by
      intro same
      exact was pc (same ▸ standing) holds
    exact ⟨owner, pc, by rw [Function.update_of_ne different]; exact standing, holds⟩
  · intro left right pc other leftAt rightAt leftIn rightIn
    rcases cases_update leftAt with ⟨_, mine⟩ | ⟨_, leftStanding⟩
    · exact absurd leftIn (leaves pc mine)
    · rcases cases_update rightAt with ⟨_, mine⟩ | ⟨_, rightStanding⟩
      · exact absurd rightIn (leaves other mine)
      · exact mutex.alone left right pc other leftStanding rightStanding leftIn rightIn

theorem enter (mutex : Mutex inside locked place) {thread : ι} {entry : ℓ}
    (idle : place thread = none) (outside : ¬ inside entry) :
    Mutex inside locked (Function.update place thread (some entry)) := by
  apply mutex.outside thread
  · intro pc impossible
    rw [idle] at impossible
    cases impossible
  · intro pc same
    cases same
    exact outside

/-- Once nobody else is inside, the thread that is may be moved anywhere inside. -/
private theorem settle {thread : ι} {next : ℓ}
    (others : ∀ other pc, other ≠ thread → place other = some pc → ¬ inside pc)
    (enters : inside next) :
    Mutex inside true (Function.update place thread (some next)) := by
  refine
    { free := ?_
      owned := fun _ => ⟨thread, next, Function.update_self thread _ place, enters⟩
      alone := ?_ }
  · intro impossible
    cases impossible
  · intro left right pc other leftAt rightAt leftIn rightIn
    rcases cases_update leftAt with ⟨leftSame, _⟩ | ⟨leftOther, leftStanding⟩
    · rcases cases_update rightAt with ⟨rightSame, _⟩ | ⟨rightOther, rightStanding⟩
      · rw [leftSame, rightSame]
      · exact absurd rightIn (others right other rightOther rightStanding)
    · exact absurd leftIn (others left pc leftOther leftStanding)

theorem stay (mutex : Mutex inside locked place) {thread : ι} {pc next : ℓ}
    (at_ : place thread = some pc) (holds : inside pc) (stays : inside next) :
    Mutex inside locked (Function.update place thread (some next)) := by
  rw [mutex.held at_ holds]
  exact settle (fun _ _ => mutex.other_outside at_ holds) stays

theorem acquire (mutex : Mutex inside false place) (thread : ι) {next : ℓ}
    (enters : inside next) :
    Mutex inside true (Function.update place thread (some next)) :=
  settle (fun other pc _ standing => mutex.free rfl other pc standing) enters

theorem release (mutex : Mutex inside locked place) {thread : ι} {pc : ℓ}
    (at_ : place thread = some pc) (holds : inside pc) {target : Option ℓ}
    (leaves : ∀ pc, target = some pc → ¬ inside pc) :
    Mutex inside false (Function.update place thread target) := by
  have empty : ∀ other pc', Function.update place thread target other = some pc' →
      ¬ inside pc' := by
    intro other pc' standing
    rcases cases_update standing with ⟨_, mine⟩ | ⟨different, before⟩
    · exact leaves pc' mine
    · exact mutex.other_outside at_ holds different before
  refine
    { free := fun _ => empty
      owned := ?_
      alone := ?_ }
  · intro impossible
    cases impossible
  · intro left right pc' other leftAt rightAt leftIn
    exact absurd leftIn (empty left pc' leftAt)

end Operations

end Mutex

end QueueBench
