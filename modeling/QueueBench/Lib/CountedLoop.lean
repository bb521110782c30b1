import Mathlib.Data.Option.Basic
import Mathlib.Data.Nat.Notation

/-! C's counting loop over a state that a step may fail to reach, and its rule of invariants,
which is one of total correctness. -/

namespace QueueBench.CountedLoop

variable {σ : Type*}

/-- `for (int count = first; count < bound; count++) state = body(count, state);` -/
def forLoop (bound : ℕ) (body : ℕ → σ → Option σ) (first : ℕ) (state : σ) : Option σ :=
  if first < bound then (body first state).bind (forLoop bound body (first + 1)) else some state
termination_by bound - first

variable {bound first : ℕ} {body : ℕ → σ → Option σ} {state : σ}

theorem forLoop_stop (done : bound ≤ first) : forLoop bound body first state = some state := by
  rw [forLoop, if_neg (by omega)]

theorem forLoop_turn {next : σ} (runs : first < bound) (reached : body first state = some next) :
    forLoop bound body first state = forLoop bound body (first + 1) next := by
  rw [forLoop, if_pos runs, reached, Option.bind_some]

theorem forLoop_invariant {holds : ℕ → σ → Prop}
    (step : ∀ count state, first ≤ count → count < bound → holds count state →
      ∃ next, body count state = some next ∧ holds (count + 1) next)
    (within : first ≤ bound) (initial : holds first state) :
    ∃ final, forLoop bound body first state = some final ∧ holds bound final := by
  induction remaining : bound - first generalizing first state with
  | zero => exact ⟨state, forLoop_stop (by omega), (by omega : first = bound) ▸ initial⟩
  | succ turns ih =>
      obtain ⟨next, reached, kept⟩ := step first state (Nat.le_refl first) (by omega) initial
      obtain ⟨final, ended, holdsFinal⟩ := ih
        (fun count state later => step count state (by omega)) (by omega) kept (by omega)
      exact ⟨final, (forLoop_turn (by omega) reached).trans ended, holdsFinal⟩

end QueueBench.CountedLoop
