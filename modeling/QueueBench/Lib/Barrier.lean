import QueueBench.Lib.Machine

/-! A barrier that opens whenever a fixed number of threads has arrived. -/

namespace QueueBench
open Machine (Outcome)

/-- The arrivals since the barrier last opened, and how often it has opened. -/
structure Barrier where
  arrived : ℕ
  generation : ℕ
deriving DecidableEq, Repr

namespace Barrier

inductive Pc where
  | arrive
  | waiting (generation : ℕ)
deriving DecidableEq, Repr

/-- The last thread to arrive opens the barrier and goes on at once. -/
def step (count : ℕ) (pc : Pc) (barrier : Barrier) : Option (Barrier × Outcome Pc Unit) :=
  match pc with
  | .arrive =>
      if barrier.arrived + 1 = count then
        some ({ arrived := 0, generation := barrier.generation + 1 }, .ret ())
      else
        some ({ barrier with arrived := barrier.arrived + 1 },
          .goto (.waiting barrier.generation))
  | .waiting generation =>
      if barrier.generation = generation then none else some (barrier, .ret ())

def start : Barrier :=
  { arrived := 0
    generation := 0 }

def arrivals (count : ℕ) (barrier : Barrier) : ℕ := barrier.arrived + count * barrier.generation

def arrives : Pc → ℕ
  | .arrive => 1
  | .waiting _ => 0

variable {count : ℕ} {pc : Pc} {barrier after : Barrier} {outcome : Outcome Pc Unit}

theorem step_arrivals (stepped : step count pc barrier = some (after, outcome)) :
    after.arrivals count + outcome.pc?.elim 0 arrives = barrier.arrivals count + arrives pc := by
  cases pc with
  | arrive =>
      simp only [step] at stepped
      split at stepped
      · rename_i last
        cases stepped
        change 0 + count * (barrier.generation + 1) + 0 =
          barrier.arrived + count * barrier.generation + 1
        rw [Nat.mul_succ]
        omega
      · cases stepped
        change barrier.arrived + 1 + count * barrier.generation + 0 =
          barrier.arrived + count * barrier.generation + 1
        omega
  | waiting generation =>
      simp only [step] at stepped
      split at stepped <;> cases stepped
      rfl

theorem step_arrived_lt (below : barrier.arrived < count)
    (stepped : step count pc barrier = some (after, outcome)) : after.arrived < count := by
  cases pc with
  | arrive =>
      simp only [step] at stepped
      split at stepped
      · cases stepped
        change 0 < count
        omega
      · cases stepped
        change barrier.arrived + 1 < count
        omega
  | waiting generation =>
      simp only [step] at stepped
      split at stepped <;> cases stepped
      exact below

theorem closed_of_lt (few : barrier.arrivals count < count) : barrier.generation = 0 := by
  by_contra opened
  have once : count * 1 ≤ count * barrier.generation :=
    Nat.mul_le_mul_left count (Nat.one_le_iff_ne_zero.mpr opened)
  unfold arrivals at few
  omega

/-- With as many arrivals as it waits for it has opened once, and nobody has come since. -/
theorem opened_of_eq (below : barrier.arrived < count) (all : barrier.arrivals count = count) :
    barrier.generation = 1 := by
  have some_ : barrier.generation ≠ 0 := by
    intro closed
    rw [arrivals, closed, Nat.mul_zero] at all
    omega
  by_contra other
  have twice : count * 2 ≤ count * barrier.generation :=
    Nat.mul_le_mul_left count (by omega)
  unfold arrivals at all
  omega

theorem step_generation_le (stepped : step count pc barrier = some (after, outcome)) :
    barrier.generation ≤ after.generation := by
  cases pc with
  | arrive =>
      simp only [step] at stepped
      split at stepped <;> cases stepped
      · exact Nat.le_succ _
      · exact Nat.le_refl _
  | waiting generation =>
      simp only [step] at stepped
      split at stepped <;> cases stepped
      exact Nat.le_refl _

/-- Who goes on past the barrier finds it opened since its arrival. -/
theorem step_ret (stepped : step count pc barrier = some (after, .ret ()))
    (first : ∀ generation, pc = .waiting generation → generation = 0) : after.generation ≠ 0 := by
  cases pc with
  | arrive =>
      simp only [step] at stepped
      split at stepped <;> cases stepped
      exact Nat.succ_ne_zero _
  | waiting generation =>
      simp only [step] at stepped
      split at stepped
      · cases stepped
      · rename_i released
        cases stepped
        rw [first generation rfl] at released
        exact released

theorem step_goto {next : Pc} (stepped : step count pc barrier = some (after, .goto next)) :
    pc = .arrive ∧ next = .waiting barrier.generation ∧ after.generation = barrier.generation := by
  cases pc with
  | arrive =>
      simp only [step] at stepped
      split at stepped <;> cases stepped
      exact ⟨rfl, rfl, rfl⟩
  | waiting generation =>
      simp only [step] at stepped
      split at stepped <;> cases stepped

theorem step_not_retry {next : Pc} :
    step count pc barrier ≠ some (after, .retry next) := by
  intro stepped
  cases pc with
  | arrive => simp only [step] at stepped; split at stepped <;> cases stepped
  | waiting generation => simp only [step] at stepped; split at stepped <;> cases stepped

end Barrier

end QueueBench
