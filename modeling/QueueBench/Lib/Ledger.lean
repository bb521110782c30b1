import Mathlib.Algebra.BigOperators.Group.Finset.Piecewise
import Mathlib.Algebra.Order.BigOperators.Group.Finset
import Mathlib.Data.Fintype.BigOperators
import QueueBench.Lib.Machine

/-! Conserved quantities of a pool: what the shared state holds plus what every
thread carries. A step touches one thread, so a local balance is a global one. A thread
with a fixed list of calls carries what these calls are still to bring. -/

namespace QueueBench.Machine

open scoped BigOperators

variable {ι σ ℓ ρ κ γ M α : Type*} [Fintype ι] [DecidableEq ι] [AddCommMonoid M]

theorem exists_rest (carry : α → M) (owned : ι → α) (owner : ι) :
    ∃ rest, ∀ value,
      ∑ other, carry (Function.update owned owner value other) = carry value + rest := by
  refine ⟨∑ other ∈ Finset.univ \ {owner}, carry (owned other), ?_⟩
  intro value
  have pushed : (fun other => carry (Function.update owned owner value other)) =
      Function.update (fun other => carry (owned other)) owner (carry value) := by
    funext other
    by_cases same : other = owner
    · subst other
      rw [Function.update_self, Function.update_self]
    · rw [Function.update_of_ne same, Function.update_of_ne same]
  rw [pushed, Finset.sum_update_of_mem (Finset.mem_univ owner)]

theorem sum_exchange (carry : α → M) (owned : ι → α) (owner : ι) (value : α) {before after : M}
    (balanced : after + carry value = before + carry (owned owner)) :
    after + ∑ other, carry (Function.update owned owner value other) =
      before + ∑ other, carry (owned other) := by
  obtain ⟨rest, split⟩ := exists_rest carry owned owner
  have whole := split (owned owner)
  rw [Function.update_eq_self] at whole
  rw [split value, whole, ← add_assoc, ← add_assoc, balanced]

theorem sum_change {f g : ι → M} (owner : ι)
    (others : ∀ other, other ≠ owner → g other = f other) {before after : M}
    (balanced : after + g owner = before + f owner) :
    after + ∑ other, g other = before + ∑ other, f other := by
  have rest : ∑ other ∈ Finset.univ.erase owner, g other =
      ∑ other ∈ Finset.univ.erase owner, f other :=
    Finset.sum_congr rfl (fun other member => others other (Finset.ne_of_mem_erase member))
  rw [← Finset.add_sum_erase Finset.univ g (Finset.mem_univ owner),
    ← Finset.add_sum_erase Finset.univ f (Finset.mem_univ owner), rest, ← add_assoc,
    ← add_assoc, balanced]

def Pool.total (weigh : σ → γ → M) (carry : Thread ℓ κ → M) (state : Pool ι σ ℓ κ γ) : M :=
  weigh state.mem state.hist + ∑ thread, carry (state.thread thread)

def Thread.weight (weigh : ℓ → M) (standing : Thread ℓ κ) : M := standing.pc?.elim 0 weigh

theorem Thread.weight_nonneg [Preorder M] {weigh : ℓ → M} (nonneg : ∀ pc, 0 ≤ weigh pc)
    (standing : Thread ℓ κ) : 0 ≤ standing.weight weigh := by
  cases standing with
  | idle script => exact le_refl 0
  | busy pc script => exact nonneg pc

variable {program : Program ι σ ℓ ρ κ γ} {state next : Pool ι σ ℓ κ γ} {act : Act ι ℓ}
variable {weigh : σ → γ → M} {carry : Thread ℓ κ → M}

/-- A total no step changes locally is kept by every step. -/
theorem Program.total_next (moved : program.next state act = some next)
    (call : ∀ thread script entry left, state.thread thread = .idle script →
      program.call script entry = some left →
      carry (.busy entry left) = carry (.idle script))
    (quit : ∀ thread script left, state.thread thread = .idle script →
      program.quit script = some left → carry (.idle left) = carry (.idle script))
    (move : ∀ thread pc script mem outcome, act = .move thread →
      state.thread thread = .busy pc script →
      program.step pc state.mem = some (mem, outcome) →
      weigh mem (program.record thread pc state.mem state.hist) +
          carry (program.resume script outcome) =
        weigh state.mem state.hist + carry (.busy pc script)) :
    next.total weigh carry = state.total weigh carry := by
  rcases Program.next_cases moved with
    ⟨thread, entry, script, left, rfl, standing, called, rfl⟩ |
    ⟨thread, script, left, rfl, standing, left?, rfl⟩ |
    ⟨thread, pc, script, mem, outcome, rfl, standing, stepped, rfl⟩
  · refine sum_exchange carry state.thread thread _ ?_
    rw [standing, call thread script entry left standing called]
  · refine sum_exchange carry state.thread thread _ ?_
    rw [standing, quit thread script left standing left?]
  · refine sum_exchange carry state.thread thread _ ?_
    rw [standing]
    exact move thread pc script mem outcome rfl standing stepped

omit [DecidableEq ι] in
theorem Pool.carry_le_total [PartialOrder M] [IsOrderedAddMonoid M] (weigh : σ → γ → M)
    (state : Pool ι σ ℓ κ γ) (nonneg : ∀ standing, 0 ≤ carry standing) (thread : ι) :
    weigh state.mem state.hist + carry (state.thread thread) ≤ state.total weigh carry :=
  add_le_add_right
    (Finset.single_le_sum (fun other _ => nonneg (state.thread other)) (Finset.mem_univ thread))
    (weigh state.mem state.hist)

section Scripts

variable [DecidableEq ℓ] {step : ℓ → σ → Option (σ × Outcome ℓ ρ)} {recording : ι → ℓ → σ → γ → γ}
variable {before after : Pool ι σ ℓ (List ℓ) γ}

def Thread.due (weight : ℓ → M) (standing : Thread ℓ (List ℓ)) : M :=
  (standing.calls.map weight).sum

omit [DecidableEq ℓ] in
theorem Thread.due_eq_zero {weight : ℓ → M} {standing : Thread ℓ (List ℓ)}
    (nothing : ∀ pc ∈ standing.calls, weight pc = 0) : Thread.due weight standing = 0 := by
  apply List.sum_eq_zero
  intro owed member
  obtain ⟨pc, inside, rfl⟩ := List.mem_map.mp member
  exact nothing pc inside

omit [DecidableEq ℓ] in
theorem Thread.due_nonneg [PartialOrder M] [IsOrderedAddMonoid M] {weight : ℓ → M}
    (nonneg : ∀ pc, 0 ≤ weight pc) (standing : Thread ℓ (List ℓ)) :
    0 ≤ Thread.due weight standing := by
  apply List.sum_nonneg
  intro owed member
  obtain ⟨pc, _, rfl⟩ := List.mem_map.mp member
  exact nonneg pc

omit [DecidableEq ι] [DecidableEq ℓ] in
theorem Pool.due_le_total [PartialOrder M] [IsOrderedAddMonoid M] (weigh : σ → γ → M)
    {weight : ℓ → M} (nonneg : ∀ pc, 0 ≤ weight pc) {thread : ι} {pc : ℓ}
    (at_ : before.at thread = some pc) :
    weigh before.mem before.hist + weight pc ≤ before.total weigh (Thread.due weight) := by
  have part := Pool.carry_le_total weigh before (Thread.due_nonneg nonneg) thread
  have mine : weight pc ≤ Thread.due weight (before.thread thread) := by
    have later := Thread.due_nonneg nonneg (.idle (before.thread thread).script)
    rw [Pool.at_eq_some at_]
    unfold Thread.due Thread.calls at later ⊢
    rw [List.map_cons, List.sum_cons]
    exact le_add_of_nonneg_right later
  exact (add_le_add_right mine _).trans part

/-- Making a call brings nothing, so only the steps inside calls have to balance. -/
theorem script_total_next {weight : ℓ → M}
    (moved : (scriptProgram step recording).next before act = some after)
    (move : ∀ thread pc mem outcome, act = .move thread → before.at thread = some pc →
      step pc before.mem = some (mem, outcome) →
      weigh mem (recording thread pc before.mem before.hist) + outcome.pc?.elim 0 weight =
        weigh before.mem before.hist + weight pc) :
    after.total weigh (Thread.due weight) = before.total weigh (Thread.due weight) := by
  apply Program.total_next moved
  · intro thread script entry left idle called
    rw [scriptClient_call called]
    rfl
  · intro thread script left idle impossible
    cases impossible
  · intro thread pc script mem outcome same busy stepped
    have at_ : before.at thread = some pc := Pool.at_busy busy
    have balance := move thread pc mem outcome same at_ stepped
    have pays : (outcome.pc?.toList.map weight).sum = outcome.pc?.elim 0 weight := by
      cases outcome <;> simp only [Outcome.pc?, Option.toList, Option.elim, List.map_cons,
        List.map_nil, List.sum_cons, List.sum_nil, add_zero]
    unfold Thread.due
    rw [resume_calls, List.map_append, List.sum_append, pays, ← add_assoc]
    change weigh mem (recording thread pc before.mem before.hist) + _ + _ =
      _ + (weight pc :: script.map weight).sum
    rw [List.sum_cons, ← add_assoc, ← balance]

theorem script_total_run (weigh : σ → γ → M) (weight : ℓ → M)
    {trace : List (Pool ι σ ℓ (List ℓ) γ × Act ι ℓ)}
    (balance : ∀ thread pc mem entered hist outcome, step pc mem = some (entered, outcome) →
      weigh entered (recording thread pc mem hist) + outcome.pc?.elim 0 weight =
        weigh mem hist + weight pc)
    (run : Transition.Run (scriptProgram step recording).next before trace after) :
    after.total weigh (Thread.due weight) = before.total weigh (Thread.due weight) := by
  induction run with
  | nil => rfl
  | snoc _ moved ih =>
      rw [← ih]
      apply script_total_next moved
      intro thread pc mem outcome _ _ stepped
      exact balance thread pc _ mem _ outcome stepped

omit [DecidableEq ι] [DecidableEq ℓ] in
theorem total_done (weigh : σ → γ → M) (weight : ℓ → M)
    (done : ∀ thread, after.thread thread = .idle []) :
    after.total weigh (Thread.due weight) = weigh after.mem after.hist := by
  have nothing : ∀ thread, Thread.due weight (after.thread thread) = 0 := by
    intro thread
    rw [done thread]
    rfl
  unfold Pool.total
  rw [Finset.sum_congr rfl (fun thread _ => nothing thread), Finset.sum_const_zero, add_zero]

end Scripts

end QueueBench.Machine
