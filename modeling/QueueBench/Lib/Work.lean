import Mathlib.Algebra.GroupWithZero.Nat
import QueueBench.Lib.Ledger

/-! How long threads with fixed lists of calls can go on: failed waits apart, a run has
a bounded number of steps, so it can be continued until nothing but waits is left. Calls
that return when run alone can also be run one thread after the other. -/

namespace QueueBench.Machine
open Transition (Run Reaches)

open scoped BigOperators

variable {ι σ ℓ ρ κ γ : Type*} [DecidableEq ι]

open Classical in
/-- The number of steps that are not failed waits. -/
noncomputable def Program.work (program : Program ι σ ℓ ρ κ γ)
    (trace : List (Pool ι σ ℓ κ γ × Act ι ℓ)) : ℕ :=
  trace.countP (fun taken => ¬ program.Waits taken.1 taken.2)

variable {program : Program ι σ ℓ ρ κ γ} {start final : Pool ι σ ℓ κ γ}
variable {trace : List (Pool ι σ ℓ κ γ × Act ι ℓ)}

theorem Program.work_le (measure : Pool ι σ ℓ κ γ → ℕ) (run : Run program.next start trace final)
    (kept : ∀ state act next, program.next state act = some next → measure next ≤ measure state)
    (lowered : ∀ state act next, program.next state act = some next →
      ¬ program.Waits state act → measure next < measure state) :
    program.work trace + measure final ≤ measure start := by
  induction run with
  | nil => exact Nat.le_of_eq (Nat.zero_add _)
  | @snoc earlier middle last act before moved ih =>
      have down := kept middle act last moved
      unfold Program.work at ih ⊢
      rw [List.countP_append, List.countP_singleton]
      by_cases waits : program.Waits middle act
      · rw [if_neg (by simp only [waits, not_true_eq_false, decide_false, Bool.false_eq_true,
          not_false_eq_true])]
        omega
      · have less := lowered middle act last moved waits
        split <;> omega

/-! ### One thread on its own -/

/-- While the others wait, the thread gets as far as `standing` and leaves the memory `mem`. -/
def Program.Alone (program : Program ι σ ℓ ρ κ γ) (start : Pool ι σ ℓ κ γ) (thread : ι) (mem : σ)
    (standing : Thread ℓ κ) : Prop :=
  ∃ final, Reaches program.next (fun _ _ => True) start final ∧ final.mem = mem ∧
    final.thread thread = standing ∧ ∀ other, other ≠ thread → final.thread other = start.thread other

variable {thread : ι} {mem after : σ} {script left : κ}

theorem Program.alone_start (program : Program ι σ ℓ ρ κ γ) (start : Pool ι σ ℓ κ γ) (thread : ι) :
    program.Alone start thread start.mem (start.thread thread) :=
  ⟨start, Reaches.refl _ _ start, rfl, rfl, fun _ _ => rfl⟩

theorem Program.Alone.call {entry : ℓ} (alone : program.Alone start thread mem (.idle script))
    (called : program.call script entry = some left) :
    program.Alone start thread mem (.busy entry left) := by
  obtain ⟨middle, reached, same, standing, others⟩ := alone
  obtain ⟨final, moved, facts⟩ := Program.call_exists standing called
  refine ⟨final, reached.tail trivial moved, facts.mem_eq.trans same, facts.thread_eq, ?_⟩
  intro other different
  rw [facts.others other different, others other different]

theorem Program.Alone.move {pc : ℓ} {outcome : Outcome ℓ ρ}
    (alone : program.Alone start thread mem (.busy pc script))
    (stepped : program.step pc mem = some (after, outcome)) :
    program.Alone start thread after (program.resume script outcome) := by
  obtain ⟨middle, reached, same, standing, others⟩ := alone
  rw [← same] at stepped
  obtain ⟨final, moved, facts⟩ := program.move_exists standing stepped
  refine ⟨final, reached.tail trivial moved, facts.mem_eq, facts.thread_eq, ?_⟩
  intro other different
  rw [facts.others other different, others other different]

section Scripts

variable [DecidableEq ℓ]

/-- The steps a thread still has: two for a call to come, to enter it and to leave it,
and those between. -/
def Thread.load (rank : ℓ → ℕ) : Thread ℓ (List ℓ) → ℕ
  | .idle script => (script.map (fun pc => rank pc + 2)).sum
  | .busy pc script => rank pc + 1 + (script.map (fun pc => rank pc + 2)).sum

/-- Calls of which every step but a failed wait lowers a rank. -/
structure Ranked (step : ℓ → σ → Option (σ × Outcome ℓ ρ)) (rank : ℓ → ℕ) : Prop where
  onward : ∀ pc next mem after, step pc mem = some (after, .goto next) → rank next < rank pc
  again : ∀ pc next mem after, step pc mem = some (after, .retry next) → rank next ≤ rank pc

variable {step : ℓ → σ → Option (σ × Outcome ℓ ρ)} {rank : ℓ → ℕ}
variable {record : ι → ℓ → σ → γ → γ}

theorem load_next (ranked : Ranked step rank) {state next : Pool ι σ ℓ (List ℓ) γ}
    {act : Act ι ℓ} (moved : (scriptProgram step record).next state act = some next) :
    ((next.thread act.thread).load rank ≤ (state.thread act.thread).load rank) ∧
      (¬ (scriptProgram step record).Waits state act →
        (next.thread act.thread).load rank < (state.thread act.thread).load rank) := by
  rcases Program.next_cases moved with
    ⟨thread, entry, script, left, rfl, idle, called, rfl⟩ |
    ⟨thread, script, left, rfl, idle, left?, rfl⟩ |
    ⟨thread, pc, script, mem, outcome, rfl, busy, stepped, rfl⟩
  · rw [scriptClient_call called] at idle
    simp only [Act.thread, Function.update_self, idle, Thread.load, List.map_cons, List.sum_cons]
    omega
  · cases left?
  · simp only [Act.thread, Function.update_self, busy]
    cases outcome with
    | goto after =>
        have lower := ranked.onward pc after _ _ stepped
        simp only [Program.resume, Thread.load]
        omega
    | ret value =>
        change Thread.load rank (.idle script) ≤ _ ∧ (_ → Thread.load rank (.idle script) < _)
        simp only [Thread.load]
        omega
    | retry after =>
        have lower := ranked.again pc after _ _ stepped
        refine ⟨?_, ?_⟩
        · simp only [Program.resume, Thread.load]
          omega
        · intro working
          exfalso
          exact working ⟨thread, pc, mem, after, rfl, by rw [Pool.at, busy]; rfl, stepped⟩

theorem load_sum_next [Fintype ι] (ranked : Ranked step rank)
    {state next : Pool ι σ ℓ (List ℓ) γ} {act : Act ι ℓ}
    (moved : (scriptProgram step record).next state act = some next) :
    (∑ thread, (next.thread thread).load rank ≤ ∑ thread, (state.thread thread).load rank) ∧
      (¬ (scriptProgram step record).Waits state act →
        ∑ thread, (next.thread thread).load rank <
          ∑ thread, (state.thread thread).load rank) := by
  have balance : (state.thread act.thread).load rank + ∑ thread, (next.thread thread).load rank =
      (next.thread act.thread).load rank + ∑ thread, (state.thread thread).load rank := by
    refine sum_change act.thread ?_ (Nat.add_comm _ _)
    intro other different
    rw [Program.next_other moved different]
  obtain ⟨kept, lowered⟩ := load_next ranked moved
  constructor
  · omega
  · intro working
    have less := lowered working
    omega

theorem work_le_load [Fintype ι] (ranked : Ranked step rank) {start final : Pool ι σ ℓ (List ℓ) γ}
    {trace : List (Pool ι σ ℓ (List ℓ) γ × Act ι ℓ)}
    (run : Run (scriptProgram step record).next start trace final) :
    (scriptProgram step record).work trace ≤ ∑ thread, (start.thread thread).load rank := by
  have bound := Program.work_le (fun state => ∑ thread, (state.thread thread).load rank) run
    (fun _ _ _ moved => (load_sum_next ranked moved).1)
    (fun _ _ _ moved => (load_sum_next ranked moved).2)
  omega

/-- Every state leads to one in which the allowed steps are all failed waits. -/
theorem reaches_standstill [Fintype ι] (ranked : Ranked step rank)
    (allowed : Pool ι σ ℓ (List ℓ) γ → Act ι ℓ → Prop) (state : Pool ι σ ℓ (List ℓ) γ) :
    ∃ final, Reaches (scriptProgram step record).next allowed state final ∧
      ∀ act next, (scriptProgram step record).next final act = some next → allowed final act →
        (scriptProgram step record).Waits final act := by
  generalize load : ∑ thread, (state.thread thread).load rank = bound
  induction bound using Nat.strong_induction_on generalizing state with
  | _ bound ih =>
      by_cases still : ∀ act next, (scriptProgram step record).next state act = some next →
          allowed state act → (scriptProgram step record).Waits state act
      · exact ⟨state, Reaches.refl _ _ state, still⟩
      · push Not at still
        obtain ⟨act, next, moved, may, working⟩ := still
        have less := (load_sum_next ranked moved).2 working
        rw [load] at less
        obtain ⟨final, reached, stands⟩ := ih _ less next rfl
        exact ⟨final, ((Reaches.refl _ _ state).tail may moved).trans reached, stands⟩

/-! ### One thread after the other -/

variable {script : List ℓ}

theorem script_reaches (holds : ℕ → σ → Prop) {thread : ι} {count : ℕ}
    {state : Pool ι σ ℓ (List ℓ) γ} (calls : ∀ n mem pc, pc ∈ script → holds n mem →
      ∃ after value retries, Returns step pc mem after value retries ∧ holds (n + 1) after)
    (idle : state.thread thread = .idle script) (held : holds count state.mem) :
    ∃ final, Reaches (scriptProgram step record).next (fun _ _ => True) state final ∧
      holds (count + script.length) final.mem ∧ final.thread thread = .idle [] ∧
      ∀ other, other ≠ thread → final.thread other = state.thread other := by
  induction script generalizing count state with
  | nil => exact ⟨state, Reaches.refl _ _ state, held, idle, fun _ _ => rfl⟩
  | cons entry rest ih =>
      obtain ⟨entered, call, entry_⟩ :=
        Program.call_exists idle (script_call step record entry rest)
      obtain ⟨after, value, retries, returns, kept⟩ :=
        calls count state.mem entry List.mem_cons_self held
      rw [← entry_.mem_eq] at returns
      obtain ⟨middle, onward, mem, back, others⟩ :=
        Returns.reaches (scriptProgram step record) returns entry_.thread_eq
      rw [← mem] at kept
      obtain ⟨final, reached, ended, done, same⟩ :=
        ih (fun n mem pc member => calls n mem pc (List.mem_cons_of_mem entry member)) back kept
      refine ⟨final, (((Reaches.refl _ _ state).tail trivial call).trans onward).trans reached,
        ?_, done, ?_⟩
      · rw [List.length_cons, ← Nat.add_assoc, Nat.add_right_comm]
        exact ended
      · intro other different
        rw [same other different, others other different, entry_.others other different]

theorem scripts_reach (holds : ℕ → σ → Prop) (scripts : ι → List ℓ) (count : ℕ)
    {state : Pool ι σ ℓ (List ℓ) γ} (threads : Finset ι)
    (calls : ∀ n mem thread pc, thread ∈ threads → pc ∈ scripts thread → holds n mem →
      ∃ after value retries, Returns step pc mem after value retries ∧ holds (n + 1) after)
    (idle : ∀ thread ∈ threads, state.thread thread = .idle (scripts thread))
    (held : holds count state.mem) :
    ∃ final, Reaches (scriptProgram step record).next (fun _ _ => True) state final ∧
      holds (count + ∑ thread ∈ threads, (scripts thread).length) final.mem ∧
      (∀ thread ∈ threads, final.thread thread = .idle []) ∧
      ∀ other, other ∉ threads → final.thread other = state.thread other := by
  induction threads using Finset.induction_on with
  | empty =>
      refine ⟨state, Reaches.refl _ _ state, ?_, ?_, fun _ _ => rfl⟩
      · rw [Finset.sum_empty]
        exact held
      · intro thread impossible
        exact absurd impossible (Finset.notMem_empty thread)
  | insert thread threads absent ih =>
      obtain ⟨middle, onward, kept, done, same⟩ := ih
        (fun n mem other pc member => calls n mem other pc (Finset.mem_insert_of_mem member))
        (fun other member => idle other (Finset.mem_insert_of_mem member))
      have mine : middle.thread thread = .idle (scripts thread) := by
        rw [same thread absent]
        exact idle thread (Finset.mem_insert_self thread threads)
      obtain ⟨final, reached, ended, finished, others⟩ := script_reaches holds
        (fun n mem pc => calls n mem thread pc (Finset.mem_insert_self thread threads)) mine kept
      refine ⟨final, onward.trans reached, ?_, ?_, ?_⟩
      · rw [Finset.sum_insert absent, Nat.add_comm (scripts thread).length, ← Nat.add_assoc]
        exact ended
      · intro other member
        by_cases equal : other = thread
        · rw [equal]
          exact finished
        · rw [others other equal]
          exact done other ((Finset.mem_insert.mp member).resolve_left equal)
      · intro other outside
        rw [Finset.mem_insert, not_or] at outside
        rw [others other outside.1, same other outside.2]

end Scripts

end QueueBench.Machine
