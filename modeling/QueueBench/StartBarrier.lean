import Mathlib.Data.Fintype.Sigma
import Mathlib.Data.Fintype.BigOperators
import QueueBench.Lib.Barrier
import QueueBench.Lib.RingArith
import QueueBench.Lib.Work
import QueueBench.SampleMerge

/-! How a run starts and ends: the count of its barrier, the threads main creates, and the
samples that are counted when ComputeSummary divides by their number. What the threads do
with their queue in between touches neither. -/

namespace QueueBench.Launch
open Machine (Outcome Pool Program Act Thread Embeds scriptProgram script_total_next
  script_total_run total_done calls_next stuck_next reaches_standstill
  Ranked at_update)
open RingArith (wrap32 wrap32_eq)
open Samples (Side Ticks Globals)
open Transition (Run Reaches meets_true)

open scoped BigOperators

/-- The queue types whose runs begin at a barrier; `stl` is stlqueue. -/
inductive QueueType where
  | squeue
  | liblfds
  | basicqueue
  | squeuemultiple
  | rculfqueue
  | spmc
  | stl
deriving DecidableEq, Repr

inductive Pc where
  | barrier (pc : Barrier.Pc)
  /-- `cur_tail % QUEUE_SIZE` in the producer's first EnqueueMultiple. -/
  | slot (QUEUE_SIZE : ℕ)
  | merge (pc : Samples.Pc)
  | fetchAndAdd (side : Side)
deriving DecidableEq, Repr

structure Memory where
  barrier : Barrier
  globals : Globals

/-- A division by zero ends the process; no later step of it is modelled. -/
def step (count : ℕ) (pc : Pc) (mem : Memory) : Option (Memory × Outcome Pc Unit) :=
  match pc with
  | .barrier pc => (Barrier.step count pc mem.barrier).map (fun result =>
      ({ mem with barrier := result.1 }, result.2.map .barrier))
  | .slot QUEUE_SIZE => if QUEUE_SIZE = 0 then none else some (mem, .ret ())
  | .merge pc => (Samples.step pc mem.globals).map (fun result =>
      ({ mem with globals := result.1 }, result.2.map .merge))
  | .fetchAndAdd side =>
      some ({ mem with globals :=
        { mem.globals with
          num := Function.update mem.globals.num side (mem.globals.num side + 1) } }, .ret ())

def Pc.Opens : Pc → Prop
  | .slot _ | .merge (.lock _ _) | .fetchAndAdd _ => True
  | _ => False

/-- What main does for one entry of the thread list: the count given to
pthread_barrier_init, the threads of each kind, and their work behind the barrier. -/
structure Setup where
  count : ℕ
  created : Side → ℕ
  work : Side → List Pc
  opens : ∀ side, ∀ pc ∈ work side, pc.Opens

/-- The merge of a local array; its contents are those of the initialising loop. -/
def mergeOf (side : Side) (NUM_SAMPLES_PER_THREAD : ℕ) : Pc :=
  .merge (.lock side (List.replicate NUM_SAMPLES_PER_THREAD 0))

/-- Cases 1 to 5 of sqmain.c, with CUR_NUM_THREADS = threads[k] / 2. -/
def halves (NUM_SAMPLES n : ℕ) : Setup :=
  { count := n
    created := fun _ => n / 2
    work := fun side => [mergeOf side (NUM_SAMPLES / (n / 2))]
    opens := by
      intro side pc member
      rw [List.mem_singleton.mp member]
      exact trivial }

/-- Case 8, with one producer and CUR_NUM_THREADS = threads[k] consumers. -/
def spmc (NUM_SAMPLES n : ℕ) : Setup :=
  { count := n + 1
    created := fun side =>
      match side with
      | .enqueue => 1
      | .dequeue => n
    work := fun side =>
      match side with
      | .enqueue => [.slot (NUM_SAMPLES / n), mergeOf .enqueue NUM_SAMPLES]
      | .dequeue => [mergeOf .dequeue (NUM_SAMPLES / n)]
    opens := by
      intro side pc member
      cases side with
      | enqueue =>
          rcases List.mem_cons.mp member with rfl | last
          · exact trivial
          · rw [List.mem_singleton.mp last]
            exact trivial
      | dequeue =>
          rw [List.mem_singleton.mp member]
          exact trivial }

def NUM_THREADS : ℕ := 1

def stl (NUM_SAMPLES n : ℕ) : Setup :=
  { count := n
    created := fun _ => n / 2
    work := fun side => List.replicate (NUM_SAMPLES / NUM_THREADS) (.fetchAndAdd side)
    opens := by
      intro side pc member
      rw [List.eq_of_mem_replicate member]
      exact trivial }

/-- InitQueues of case 4 divides by the number of queues before the barrier exists. -/
def setup (NUM_SAMPLES : ℕ) (type : QueueType) (n : ℕ) : Option Setup :=
  match type with
  | .squeue | .liblfds | .basicqueue | .rculfqueue => some (halves NUM_SAMPLES n)
  | .squeuemultiple => if n / 2 = 0 then none else some (halves NUM_SAMPLES n)
  | .spmc => some (spmc NUM_SAMPLES n)
  | .stl => some (stl NUM_SAMPLES n)

abbrev Created (plan : Setup) : Type := (side : Side) × Fin (plan.created side)

abbrev LaunchPool (plan : Setup) : Type := Pool (Created plan) Memory Pc (List Pc) Unit

def program (plan : Setup) : Program (Created plan) Memory Pc Unit (List Pc) Unit :=
  scriptProgram (step plan.count) (fun _ _ _ hist => hist)

def start (plan : Setup) : LaunchPool plan :=
  { mem :=
      { barrier := Barrier.start
        globals := Samples.reset }
    thread := fun thread => .idle (.barrier .arrive :: plan.work thread.1)
    hist := () }

variable {plan : Setup}

def AllWaiting (state : LaunchPool plan) : Prop :=
  Nonempty (Created plan) ∧
    ∀ thread, ∃ generation, state.at thread = some (.barrier (.waiting generation))

def Summary (state : LaunchPool plan) : Prop := ∀ thread, state.thread thread = .idle []

/-- `numEnqueue` and `numDequeue` as the int they are. -/
def num (state : LaunchPool plan) (side : Side) : ℤ := wrap32 (state.mem.globals.num side)

/-- The run is not stuck at its barrier and does not divide by zero at its end. -/
def StartsAndEnds (plan : Setup) : Prop :=
  plan.created .enqueue + plan.created .dequeue = plan.count ∧
    ∀ trace state, Run (program plan).next (start plan) trace state →
      ¬ AllWaiting state ∧ (Summary state → ∀ side, 1 ≤ num state side)

/-! ### Threads before and behind the barrier -/

variable {state next : LaunchPool plan} {act : Act (Created plan) Pc}

def Early (standing : Thread Pc (List Pc)) : Prop :=
  ∃ rest, (∀ pc ∈ rest, pc.Opens) ∧
    (standing = .idle (.barrier .arrive :: rest) ∨ ∃ pc, standing = .busy (.barrier pc) rest)

def Past (standing : Thread Pc (List Pc)) : Prop :=
  (∀ pc, standing.pc? = some pc → ∀ barrier, pc ≠ .barrier barrier) ∧
    ∀ pc ∈ standing.script, pc.Opens

theorem opens_not_barrier {pc : Pc} (opens : pc.Opens) (barrier : Barrier.Pc) :
    pc ≠ .barrier barrier := by
  rintro rfl
  exact opens

theorem step_past {count : ℕ} {pc next : Pc} {mem after : Memory} {outcome : Outcome Pc Unit}
    (stepped : step count pc mem = some (after, outcome)) (onward : outcome.pc? = some next)
    (past : ∀ barrier, pc ≠ .barrier barrier) : ∀ barrier, next ≠ .barrier barrier := by
  cases pc with
  | barrier barrier => exact absurd rfl (past barrier)
  | slot size =>
      simp only [step] at stepped
      split at stepped <;> cases stepped
      cases onward
  | merge pc =>
      obtain ⟨⟨globals, inner⟩, _, same⟩ := Option.map_eq_some_iff.mp stepped
      cases same
      cases inner with
      | goto later => cases onward; intro barrier impossible; cases impossible
      | retry later => cases onward; intro barrier impossible; cases impossible
      | ret value => cases onward
  | fetchAndAdd side => cases stepped; cases onward

theorem past_next {thread : Created plan} (moved : (program plan).next state act = some next)
    (past : Past (state.thread thread)) : Past (next.thread thread) := by
  by_cases mine : thread = act.thread
  · rcases Program.next_cases moved with
      ⟨thread, entry, script, left, rfl, idle, called, rfl⟩ |
      ⟨thread, script, left, rfl, idle, impossible, rfl⟩ |
      ⟨thread, pc, script, mem, outcome, rfl, busy, stepped, rfl⟩
    · subst mine
      have opens := past.2
      rw [idle, Machine.scriptClient_call called] at opens
      change Past (Function.update state.thread thread _ thread)
      rw [Function.update_self]
      constructor
      · intro pc same
        cases same
        exact opens_not_barrier (opens entry List.mem_cons_self)
      · intro pc member
        exact opens pc (List.mem_cons_of_mem entry member)
    · cases impossible
    · subst mine
      change Past (Function.update state.thread thread _ thread)
      rw [Function.update_self]
      rw [busy] at past
      constructor
      · intro reached same
        rw [Program.resume_pc] at same
        exact step_past stepped same (past.1 pc rfl)
      · cases outcome <;> exact past.2
  · rw [Program.next_other moved mine]
    exact past

theorem early_next {thread : Created plan} (moved : (program plan).next state act = some next)
    (early : Early (state.thread thread)) : Early (next.thread thread) ∨
      Past (next.thread thread) ∧ ∃ pc barrier, state.at thread = some (.barrier pc) ∧
        Barrier.step plan.count pc state.mem.barrier = some (barrier, .ret ()) ∧
        next.mem.barrier = barrier := by
  by_cases mine : thread = act.thread
  · obtain ⟨rest, opens, standing⟩ := early
    rcases Program.next_cases moved with
      ⟨thread, entry, script, left, rfl, idle, called, rfl⟩ |
      ⟨thread, script, left, rfl, idle, impossible, rfl⟩ |
      ⟨thread, pc, script, mem, outcome, rfl, busy, stepped, rfl⟩
    · subst mine
      have whole := Machine.scriptClient_call called
      change Early (Function.update state.thread thread _ thread) ∨ _
      rw [Function.update_self]
      rcases standing with waits | ⟨pc, inside⟩
      · cases idle.symm.trans waits
        cases whole
        exact Or.inl ⟨rest, opens, Or.inr ⟨.arrive, rfl⟩⟩
      · cases idle.symm.trans inside
    · cases impossible
    · subst mine
      change Early (Function.update state.thread thread _ thread) ∨
        Past (Function.update state.thread thread _ thread) ∧ _
      rw [Function.update_self]
      rcases standing with waits | ⟨barrier, inside⟩
      · cases busy.symm.trans waits
      · cases busy.symm.trans inside
        obtain ⟨⟨after, inner⟩, answered, same⟩ := Option.map_eq_some_iff.mp stepped
        cases same
        cases inner with
        | goto later => exact Or.inl ⟨rest, opens, Or.inr ⟨later, rfl⟩⟩
        | retry later => exact Or.inl ⟨rest, opens, Or.inr ⟨later, rfl⟩⟩
        | ret value =>
            right
            constructor
            · constructor
              · intro pc impossible
                cases impossible
              · exact opens
            · exact ⟨barrier, after, Pool.at_busy busy, answered, rfl⟩
  · rw [Program.next_other moved mine]
    exact Or.inl early

theorem step_barrier {count : ℕ} {pc : Pc} {mem after : Memory} {outcome : Outcome Pc Unit}
    (stepped : step count pc mem = some (after, outcome)) :
    (after.barrier = mem.barrier ∧ ∀ barrier, pc ≠ .barrier barrier) ∨
      ∃ barrier inner, pc = .barrier barrier ∧ outcome = inner.map .barrier ∧
        Barrier.step count barrier mem.barrier = some (after.barrier, inner) := by
  cases pc with
  | barrier barrier =>
      obtain ⟨⟨entered, inner⟩, answered, same⟩ := Option.map_eq_some_iff.mp stepped
      cases same
      exact Or.inr ⟨barrier, inner, rfl, rfl, answered⟩
  | slot size =>
      simp only [step] at stepped
      split at stepped <;> cases stepped
      exact Or.inl ⟨rfl, by intro barrier impossible; cases impossible⟩
  | merge pc =>
      obtain ⟨_, _, same⟩ := Option.map_eq_some_iff.mp stepped
      cases same
      exact Or.inl ⟨rfl, by intro barrier impossible; cases impossible⟩
  | fetchAndAdd side =>
      cases stepped
      exact Or.inl ⟨rfl, by intro barrier impossible; cases impossible⟩

/-! ### Arrivals -/

def arrives : Pc → ℕ
  | .barrier pc => Barrier.arrives pc
  | _ => 0

theorem arrivals_balance {count : ℕ} {pc : Pc} {mem after : Memory} {outcome : Outcome Pc Unit}
    (stepped : step count pc mem = some (after, outcome)) :
    after.barrier.arrivals count + outcome.pc?.elim 0 arrives =
      mem.barrier.arrivals count + arrives pc := by
  cases pc with
  | barrier barrier =>
      obtain ⟨⟨entered, inner⟩, answered, same⟩ := Option.map_eq_some_iff.mp stepped
      have balance := Barrier.step_arrivals answered
      cases same
      cases inner <;> exact balance
  | slot size =>
      simp only [step] at stepped
      split at stepped <;> cases stepped
      rfl
  | merge pc =>
      obtain ⟨⟨globals, inner⟩, _, same⟩ := Option.map_eq_some_iff.mp stepped
      cases same
      cases inner <;> rfl
  | fetchAndAdd side => cases stepped; rfl

def everyone (state : LaunchPool plan) : ℕ :=
  state.total (fun mem _ => mem.barrier.arrivals plan.count) (Thread.due arrives)

theorem everyone_next (moved : (program plan).next state act = some next) :
    everyone next = everyone state := by
  apply script_total_next moved
  intro thread pc mem outcome _ _ stepped
  exact arrivals_balance stepped

theorem arrives_opens {pc : Pc} (opens : pc.Opens) : arrives pc = 0 := by
  cases pc with
  | barrier barrier => exact absurd opens id
  | _ => rfl

theorem sum_created {M : Type*} [AddCommMonoid M] (f : Created plan → M) :
    ∑ thread, f thread = ∑ i, f ⟨.enqueue, i⟩ + ∑ i, f ⟨.dequeue, i⟩ := by
  rw [Fintype.sum_sigma]
  exact Finset.sum_pair (f := fun side => ∑ i, f ⟨side, i⟩) (by decide : Side.enqueue ≠ .dequeue)

theorem everyone_start (plan : Setup) :
    everyone (start plan) = plan.created .enqueue + plan.created .dequeue := by
  have one : ∀ thread, Thread.due arrives ((start plan).thread thread) = 1 := by
    intro thread
    change 1 + ((plan.work thread.1).map arrives).sum = 1
    have none_ : ∀ pc ∈ plan.work thread.1, arrives pc = 0 :=
      fun pc member => arrives_opens (plan.opens thread.1 pc member)
    rw [List.map_congr_left none_]
    simp
  change 0 + plan.count * 0 + ∑ thread, Thread.due arrives ((start plan).thread thread) = _
  rw [Finset.sum_congr rfl (fun thread _ => one thread), sum_created]
  simp

/-! ### The barrier in every run -/

structure Inv (plan : Setup) (state : LaunchPool plan) : Prop where
  everyone_eq : everyone state = plan.created .enqueue + plan.created .dequeue
  below : state.mem.barrier.arrived < plan.count
  staged : ∀ thread, Early (state.thread thread) ∨ Past (state.thread thread)
  first : ∀ thread generation, state.at thread = some (.barrier (.waiting generation)) →
    generation = 0
  closed : state.mem.barrier.generation = 0 → ∀ thread, Early (state.thread thread)
  opened : state.mem.barrier.generation ≠ 0 → ∃ thread, Past (state.thread thread)

theorem Inv.arrivals_le (inv : Inv plan state) :
    state.mem.barrier.arrivals plan.count ≤ plan.created .enqueue + plan.created .dequeue := by
  rw [← inv.everyone_eq]
  exact Nat.le_add_right _ _

theorem inv_start (positive : 0 < plan.count) : Inv plan (start plan) := by
  have early : ∀ thread, Early ((start plan).thread thread) :=
    fun thread => ⟨plan.work thread.1, plan.opens thread.1, Or.inl rfl⟩
  constructor
  · exact everyone_start plan
  · exact positive
  · exact fun thread => Or.inl (early thread)
  · intro thread generation impossible
    cases impossible
  · exact fun _ => early
  · intro impossible
    exact absurd rfl impossible

theorem Inv.unopened (inv : Inv plan state)
    (few : plan.created .enqueue + plan.created .dequeue ≤ plan.count) {thread : Created plan}
    (at_ : state.at thread = some (.barrier .arrive)) : state.mem.barrier.generation = 0 := by
  have part : state.mem.barrier.arrivals plan.count + 1 ≤
      plan.created .enqueue + plan.created .dequeue := by
    rw [← inv.everyone_eq]
    exact Pool.due_le_total (fun (mem : Memory) (_ : Unit) => mem.barrier.arrivals plan.count)
      (fun pc => Nat.zero_le (arrives pc)) at_
  have fewer : state.mem.barrier.arrivals plan.count < plan.count := by omega
  exact Barrier.closed_of_lt fewer

theorem Inv.barrier_next (inv : Inv plan state)
    (moved : (program plan).next state act = some next) :
    next.mem.barrier.arrived < plan.count ∧
      state.mem.barrier.generation ≤ next.mem.barrier.generation := by
  rcases Program.next_cases moved with
    ⟨thread, entry, script, left, rfl, idle, called, rfl⟩ |
    ⟨thread, script, left, rfl, idle, impossible, rfl⟩ |
    ⟨thread, pc, script, mem, outcome, rfl, busy, stepped, rfl⟩
  · exact ⟨inv.below, Nat.le_refl _⟩
  · cases impossible
  · change mem.barrier.arrived < plan.count ∧ _ ≤ mem.barrier.generation
    rcases step_barrier stepped with ⟨same, _⟩ | ⟨barrier, inner, rfl, rfl, answered⟩
    · rw [same]
      exact ⟨inv.below, Nat.le_refl _⟩
    · exact ⟨Barrier.step_arrived_lt inv.below answered, Barrier.step_generation_le answered⟩

theorem Inv.first_next (inv : Inv plan state)
    (few : plan.created .enqueue + plan.created .dequeue ≤ plan.count)
    (moved : (program plan).next state act = some next) {thread : Created plan} {generation : ℕ}
    (at_ : next.at thread = some (.barrier (.waiting generation))) : generation = 0 := by
  by_cases mine : thread = act.thread
  · rcases Program.next_cases moved with
      ⟨thread, entry, script, left, rfl, idle, called, rfl⟩ |
      ⟨thread, script, left, rfl, idle, impossible, rfl⟩ |
      ⟨thread, pc, script, mem, outcome, rfl, busy, stepped, rfl⟩
    · exfalso
      subst mine
      change (Function.update state.thread thread _ thread).pc? = _ at at_
      rw [Function.update_self] at at_
      cases at_
      have whole := Machine.scriptClient_call called
      rcases inv.staged thread with ⟨rest, _, standing⟩ | past
      · rcases standing with waits | ⟨pc, inside⟩
        · cases idle.symm.trans waits
          cases whole
        · cases idle.symm.trans inside
      · have opens := past.2
        rw [idle, whole] at opens
        exact opens _ List.mem_cons_self
    · cases impossible
    · subst mine
      change (Function.update state.thread thread _ thread).pc? = _ at at_
      rw [Function.update_self, Program.resume_pc] at at_
      have stands : state.at thread = some pc := Pool.at_busy busy
      rcases step_barrier stepped with ⟨_, past⟩ | ⟨barrier, inner, rfl, rfl, answered⟩
      · exact absurd rfl (step_past stepped at_ past _)
      · cases inner with
        | goto later =>
            cases at_
            obtain ⟨arriving, next_, _⟩ := Barrier.step_goto answered
            cases arriving
            cases next_
            exact inv.unopened few stands
        | retry later => exact absurd answered Barrier.step_not_retry
        | ret value => cases at_
  · rw [Pool.at, Program.next_other moved mine] at at_
    exact inv.first thread generation at_

theorem Inv.opens_next (inv : Inv plan state) (before : state.mem.barrier.generation = 0)
    (after : next.mem.barrier.generation ≠ 0)
    (moved : (program plan).next state act = some next) : ∃ thread, Past (next.thread thread) := by
  rcases Program.next_cases moved with
    ⟨thread, entry, script, left, rfl, idle, called, rfl⟩ |
    ⟨thread, script, left, rfl, idle, impossible, rfl⟩ |
    ⟨thread, pc, script, mem, outcome, rfl, busy, stepped, rfl⟩
  · exact absurd before after
  · cases impossible
  · change mem.barrier.generation ≠ 0 at after
    rcases step_barrier stepped with ⟨same, _⟩ | ⟨barrier, inner, rfl, rfl, answered⟩
    · rw [same] at after
      exact absurd before after
    · cases inner with
      | goto later =>
          rw [(Barrier.step_goto answered).2.2] at after
          exact absurd before after
      | retry later => exact absurd answered Barrier.step_not_retry
      | ret value =>
          refine ⟨thread, ?_⟩
          change Past (Function.update state.thread thread _ thread)
          rw [Function.update_self]
          obtain ⟨rest, opens, standing⟩ := inv.closed before thread
          rcases standing with waits | ⟨pc, inside⟩
          · cases busy.symm.trans waits
          · cases busy.symm.trans inside
            constructor
            · intro pc impossible
              cases impossible
            · exact opens

theorem Inv.kept (inv : Inv plan state)
    (few : plan.created .enqueue + plan.created .dequeue ≤ plan.count)
    (moved : (program plan).next state act = some next) : Inv plan next := by
  obtain ⟨below, rises⟩ := inv.barrier_next moved
  have goes : ∀ thread, Early (state.thread thread) → Early (next.thread thread) ∨
      Past (next.thread thread) ∧ next.mem.barrier.generation ≠ 0 := by
    intro thread early
    rcases early_next moved early with still | ⟨behind, pc, barrier, at_, answered, same⟩
    · exact Or.inl still
    · rw [same]
      refine Or.inr ⟨behind, Barrier.step_ret answered ?_⟩
      rintro generation rfl
      exact inv.first thread generation at_
  constructor
  · exact (everyone_next moved).trans inv.everyone_eq
  · exact below
  · intro thread
    rcases inv.staged thread with early | past
    · exact (goes thread early).imp id And.left
    · exact Or.inr (past_next moved past)
  · exact fun _ _ => inv.first_next few moved
  · intro shut thread
    rcases goes thread (inv.closed (by omega) thread) with still | ⟨_, open_⟩
    · exact still
    · exact absurd shut open_
  · intro open_
    by_cases before : state.mem.barrier.generation = 0
    · exact inv.opens_next before open_ moved
    · obtain ⟨thread, past⟩ := inv.opened before
      exact ⟨thread, past_next moved past⟩

theorem Inv.of_run (positive : 0 < plan.count)
    (few : plan.created .enqueue + plan.created .dequeue ≤ plan.count)
    {trace : List (LaunchPool plan × Act (Created plan) Pc)}
    (run : Run (program plan).next (start plan) trace state) : Inv plan state :=
  run.invariant (meets_true trace) (inv_start positive)
    (fun _ _ _ now _ moved => now.kept few moved)

theorem Inv.due_of_waiting (inv : Inv plan state) {thread : Created plan} {generation : ℕ}
    (at_ : state.at thread = some (.barrier (.waiting generation))) :
    Thread.due arrives (state.thread thread) = 0 := by
  have standing := Pool.at_eq_some at_
  generalize (state.thread thread).script = script at standing
  have opens : ∀ pc ∈ script, arrives pc = 0 := by
    intro pc member
    rcases inv.staged thread with ⟨rest, opens, waits | ⟨barrier, inside⟩⟩ | past
    · cases standing.symm.trans waits
    · cases standing.symm.trans inside
      exact arrives_opens (opens pc member)
    · rw [standing] at past
      exact arrives_opens (past.2 pc member)
  rw [standing]
  change 0 + (script.map arrives).sum = 0
  rw [List.map_congr_left opens]
  simp

/-- With as many threads as the barrier is for, the last one does not wait. -/
theorem Inv.never_all_waiting (inv : Inv plan state)
    (equal : plan.created .enqueue + plan.created .dequeue = plan.count) : ¬ AllWaiting state := by
  rintro ⟨_, waiting⟩
  have nobody : ∑ thread, Thread.due arrives (state.thread thread) = 0 := by
    apply Finset.sum_eq_zero
    intro thread _
    obtain ⟨generation, at_⟩ := waiting thread
    exact inv.due_of_waiting at_
  have whole : state.mem.barrier.arrivals plan.count +
      ∑ thread, Thread.due arrives (state.thread thread) =
        plan.created .enqueue + plan.created .dequeue := inv.everyone_eq
  rw [nobody, Nat.add_zero, equal] at whole
  have once := Barrier.opened_of_eq inv.below whole
  obtain ⟨thread, past⟩ := inv.opened (by omega)
  obtain ⟨generation, at_⟩ := waiting thread
  exact past.1 _ at_ _ rfl

/-! ### The counts at the end -/

def adds (kind : Side) : Pc → ℕ
  | .merge pc => pc.adds kind
  | .fetchAndAdd side => if side = kind then 1 else 0
  | _ => 0

theorem adds_balance {count : ℕ} {pc : Pc} {mem after : Memory} {outcome : Outcome Pc Unit}
    (kind : Side) (stepped : step count pc mem = some (after, outcome)) :
    after.globals.num kind + outcome.pc?.elim 0 (adds kind) =
      mem.globals.num kind + adds kind pc := by
  cases pc with
  | barrier barrier =>
      obtain ⟨⟨entered, inner⟩, _, same⟩ := Option.map_eq_some_iff.mp stepped
      cases same
      cases inner <;> rfl
  | slot size =>
      simp only [step] at stepped
      split at stepped <;> cases stepped
      rfl
  | merge pc =>
      obtain ⟨⟨globals, inner⟩, merged, same⟩ := Option.map_eq_some_iff.mp stepped
      have balance := Samples.step_adds kind merged
      cases same
      cases inner <;> exact balance
  | fetchAndAdd side =>
      cases stepped
      change Function.update mem.globals.num side _ kind + 0 = _ + if side = kind then 1 else 0
      by_cases same : kind = side
      · rw [same, Function.update_self, if_pos rfl, Nat.add_zero]
      · rw [Function.update_of_ne same, if_neg (fun other => same other.symm)]

def planned (plan : Setup) (kind : Side) : ℕ :=
  plan.created .enqueue * ((plan.work .enqueue).map (adds kind)).sum +
    plan.created .dequeue * ((plan.work .dequeue).map (adds kind)).sum

theorem planned_start (plan : Setup) (kind : Side) :
    ∑ thread, Thread.due (adds kind) ((start plan).thread thread) = planned plan kind := by
  have each : ∀ thread, Thread.due (adds kind) ((start plan).thread thread) =
      ((plan.work thread.1).map (adds kind)).sum := by
    intro thread
    change 0 + ((plan.work thread.1).map (adds kind)).sum = _
    rw [Nat.zero_add]
  rw [Finset.sum_congr rfl (fun thread _ => each thread), sum_created]
  simp [planned]

theorem num_of_summary {trace : List (LaunchPool plan × Act (Created plan) Pc)}
    (run : Run (program plan).next (start plan) trace state) (summary : Summary state)
    (kind : Side) : num state kind = wrap32 (planned plan kind) := by
  have kept := script_total_run (fun (mem : Memory) (_ : Unit) => mem.globals.num kind) (adds kind)
    (fun _ _ _ _ _ _ stepped => adds_balance kind stepped) run
  have begun : (start plan).total (fun mem _ => mem.globals.num kind) (Thread.due (adds kind)) =
      planned plan kind := by
    rw [← planned_start]
    exact Nat.zero_add _
  rw [total_done _ _ summary, begun] at kept
  unfold num
  rw [kept]

/-! ### Runs that go as far as they can -/

def Inside : Pc → Prop
  | .merge pc => pc.Inside
  | _ => False

theorem opens_outside {pc : Pc} (opens : pc.Opens) : ¬ Inside pc := by
  cases pc with
  | merge pc =>
      cases pc with
      | lock side samples => exact id
      | _ => exact absurd opens id
  | _ => exact id

theorem mutex_next (inv : Inv plan state) (mutex : Mutex Inside state.mem.globals.lock state.at)
    (moved : (program plan).next state act = some next) :
    Mutex Inside next.mem.globals.lock next.at := by
  rcases Program.next_cases moved with
    ⟨thread, entry, script, left, rfl, idle, called, rfl⟩ |
    ⟨thread, script, left, rfl, idle, impossible, rfl⟩ |
    ⟨thread, pc, script, mem, outcome, rfl, busy, stepped, rfl⟩
  · have whole := Machine.scriptClient_call called
    have outside : ¬ Inside entry := by
      rcases inv.staged thread with ⟨rest, _, waits | ⟨barrier, inside⟩⟩ | past
      · cases idle.symm.trans waits
        cases whole
        exact id
      · cases idle.symm.trans inside
      · have opens := past.2
        rw [idle, whole] at opens
        exact opens_outside (opens entry List.mem_cons_self)
    change Mutex Inside state.mem.globals.lock
      (fun other => (Function.update state.thread thread _ other).pc?)
    rw [at_update]
    exact mutex.enter (Pool.at_idle idle) outside
  · cases impossible
  · have at_ : state.at thread = some pc := Pool.at_busy busy
    have was : ¬ Inside pc → ∀ other, state.at thread = some other → ¬ Inside other := by
      intro outside other standing
      cases at_.symm.trans standing
      exact outside
    change Mutex Inside mem.globals.lock
      (fun other => (Function.update state.thread thread _ other).pc?)
    rw [at_update, Program.resume_pc]
    cases pc with
    | barrier barrier =>
        obtain ⟨⟨entered, inner⟩, _, same⟩ := Option.map_eq_some_iff.mp stepped
        cases same
        apply mutex.outside thread (was id)
        cases inner <;> (intro pc same; cases same) <;> exact id
    | slot size =>
        simp only [program, scriptProgram, step] at stepped
        split at stepped <;> cases stepped
        exact mutex.outside thread (was id) (by intro pc impossible; cases impossible)
    | fetchAndAdd side =>
        cases stepped
        exact mutex.outside thread (was id) (by intro pc impossible; cases impossible)
    | merge pc =>
        obtain ⟨⟨globals, inner⟩, merged, same⟩ := Option.map_eq_some_iff.mp stepped
        cases same
        cases pc with
        | lock side samples =>
            simp only [Samples.step] at merged
            split at merged
            · cases merged
            · rename_i free
              cases merged
              rw [Bool.not_eq_true] at free
              rw [free] at mutex
              exact mutex.acquire thread trivial
        | memcpy side samples => cases merged; exact mutex.stay at_ trivial trivial
        | add side samples => cases merged; exact mutex.stay at_ trivial trivial
        | unlock =>
            cases merged
            exact mutex.release at_ trivial (by intro pc impossible; cases impossible)

def rank : Pc → ℕ
  | .barrier .arrive => 1
  | .merge (.lock _ _) => 3
  | .merge (.memcpy _ _) => 2
  | .merge (.add _ _) => 1
  | _ => 0

theorem step_not_retry {count : ℕ} {pc next : Pc} {mem after : Memory} :
    step count pc mem ≠ some (after, .retry next) := by
  intro stepped
  cases pc with
  | barrier barrier =>
      obtain ⟨⟨entered, inner⟩, answered, same⟩ := Option.map_eq_some_iff.mp stepped
      cases inner with
      | retry later => exact Barrier.step_not_retry answered
      | goto later => cases same
      | ret value => cases same
  | slot size => simp only [step] at stepped; split at stepped <;> cases stepped
  | merge pc =>
      obtain ⟨⟨globals, inner⟩, merged, same⟩ := Option.map_eq_some_iff.mp stepped
      cases pc with
      | lock side samples =>
          simp only [Samples.step] at merged
          split at merged <;> cases merged
          cases same
      | memcpy side samples => cases merged; cases same
      | add side samples => cases merged; cases same
      | unlock => cases merged; cases same
  | fetchAndAdd side => cases stepped

theorem ranked (count : ℕ) : Ranked (step count) rank := by
  constructor
  · intro pc next mem after stepped
    cases pc with
    | barrier barrier =>
        obtain ⟨⟨entered, inner⟩, answered, same⟩ := Option.map_eq_some_iff.mp stepped
        cases inner with
        | goto later =>
            obtain ⟨rfl, rfl, _⟩ := Barrier.step_goto answered
            cases same
            exact Nat.zero_lt_one
        | retry later => cases same
        | ret value => cases same
    | slot size => simp only [step] at stepped; split at stepped <;> cases stepped
    | merge pc =>
        obtain ⟨⟨globals, inner⟩, merged, same⟩ := Option.map_eq_some_iff.mp stepped
        cases pc with
        | lock side samples =>
            simp only [Samples.step] at merged
            split at merged <;> cases merged
            cases same
            exact Nat.lt_succ_self 2
        | memcpy side samples => cases merged; cases same; exact Nat.lt_succ_self 1
        | add side samples => cases merged; cases same; exact Nat.lt_succ_self 0
        | unlock => cases merged; cases same
    | fetchAndAdd side => cases stepped
  · intro pc next mem after stepped
    exact absurd stepped step_not_retry

/-- Some run goes on until no thread has a step. -/
theorem reaches_still (plan : Setup) : ∃ trace state,
    Run (program plan).next (start plan) trace state ∧
      ∀ act, (program plan).next state act = none := by
  obtain ⟨state, ⟨trace, run, _⟩, still⟩ :=
    reaches_standstill (ranked plan.count) (fun _ _ => True) (start plan)
  refine ⟨trace, state, run, ?_⟩
  intro act
  cases moved : (program plan).next state act with
  | none => rfl
  | some next =>
      obtain ⟨_, pc, mem, again, _, _, waits⟩ := still act next moved trivial
      exact absurd waits step_not_retry

section Still

variable (still : ∀ act, (program plan).next state act = none)
include still

theorem still_idle {thread : Created plan} {script : List Pc}
    (idle : state.thread thread = .idle script) : script = [] := by
  cases script with
  | nil => rfl
  | cons entry rest =>
      obtain ⟨next, moved, _⟩ := (program plan).call_exists idle (if_pos rfl)
      rw [still] at moved
      cases moved

theorem still_busy {thread : Created plan} {pc : Pc} {script : List Pc}
    (busy : state.thread thread = .busy pc script) : step plan.count pc state.mem = none := by
  cases stepped : step plan.count pc state.mem with
  | none => rfl
  | some result =>
      obtain ⟨next, moved, _⟩ := (program plan).move_exists busy stepped
      rw [still] at moved
      cases moved

theorem still_early {thread : Created plan} (early : Early (state.thread thread)) :
    ∃ generation, state.at thread = some (.barrier (.waiting generation)) := by
  obtain ⟨rest, _, idle | ⟨barrier, busy⟩⟩ := early
  · cases still_idle still idle
  · cases barrier with
    | waiting generation =>
        exact ⟨generation, Pool.at_busy busy⟩
    | arrive =>
        have blocked := still_busy still busy
        simp only [step, Barrier.step] at blocked
        split at blocked <;> cases blocked

/-- Too few threads end up waiting for one that is never created. -/
theorem Inv.all_waiting (inv : Inv plan state) (some_ : Nonempty (Created plan))
    (few : plan.created .enqueue + plan.created .dequeue < plan.count) : AllWaiting state := by
  have shut : state.mem.barrier.generation = 0 := by
    have most := inv.arrivals_le
    have fewer : state.mem.barrier.arrivals plan.count < plan.count := by omega
    exact Barrier.closed_of_lt fewer
  exact ⟨some_, fun thread => still_early still (inv.closed shut thread)⟩

theorem still_unlocked (mutex : Mutex Inside state.mem.globals.lock state.at) :
    state.mem.globals.lock = false := by
  cases taken : state.mem.globals.lock with
  | false => rfl
  | true =>
      obtain ⟨thread, pc, at_, inside⟩ := mutex.owned taken
      have blocked := still_busy still (Pool.at_eq_some at_)
      cases pc with
      | merge pc =>
          cases pc with
          | lock side samples => exact absurd inside id
          | memcpy side samples => cases blocked
          | add side samples => cases blocked
          | unlock => cases blocked
      | barrier barrier => exact absurd inside id
      | slot size => exact absurd inside id
      | fetchAndAdd side => exact absurd inside id

/-- With as many threads as the barrier is for, and no division by zero, all of them finish. -/
theorem Inv.all_joined (inv : Inv plan state)
    (mutex : Mutex Inside state.mem.globals.lock state.at)
    (slots : ∀ thread, ∀ pc ∈ (state.thread thread).calls, ∀ size, pc ≠ .slot size)
    (equal : plan.created .enqueue + plan.created .dequeue = plan.count) : Summary state := by
  intro thread
  have nobody : ∀ generation, state.at thread ≠ some (.barrier (.waiting generation)) := by
    intro generation at_
    have zero := inv.first thread generation at_
    have blocked := still_busy still (Pool.at_eq_some at_)
    simp only [step, Barrier.step] at blocked
    split at blocked
    · rename_i shut
      exact inv.never_all_waiting equal
        ⟨⟨thread⟩, fun other => still_early still (inv.closed (by omega) other)⟩
    · cases blocked
  cases standing : state.thread thread with
  | idle script => rw [still_idle still standing]
  | busy pc script =>
      exfalso
      have blocked := still_busy still standing
      cases pc with
      | barrier barrier =>
          obtain early | past := inv.staged thread
          · obtain ⟨generation, at_⟩ := still_early still early
            exact nobody generation at_
          · rw [standing] at past
            exact past.1 _ rfl _ rfl
      | slot size =>
          have none_ := slots thread
          rw [standing] at none_
          exact none_ _ List.mem_cons_self size rfl
      | merge pc =>
          cases pc with
          | lock side samples =>
              simp only [step, Samples.step, still_unlocked still mutex, Bool.false_eq_true,
                if_false] at blocked
              cases blocked
          | memcpy side samples => cases blocked
          | add side samples => cases blocked
          | unlock => cases blocked
      | fetchAndAdd side => cases blocked

end Still

theorem step_not_slot {count : ℕ} {pc next : Pc} {mem after : Memory} {outcome : Outcome Pc Unit}
    (stepped : step count pc mem = some (after, outcome)) (onward : outcome.pc? = some next) :
    ∀ size, next ≠ .slot size := by
  cases pc with
  | barrier barrier =>
      obtain ⟨⟨entered, inner⟩, _, same⟩ := Option.map_eq_some_iff.mp stepped
      cases same
      cases inner <;> cases onward <;> (intro size impossible; cases impossible)
  | slot size =>
      simp only [step] at stepped
      split at stepped <;> cases stepped
      cases onward
  | merge pc =>
      obtain ⟨⟨globals, inner⟩, _, same⟩ := Option.map_eq_some_iff.mp stepped
      cases same
      cases inner <;> cases onward <;> (intro size impossible; cases impossible)
  | fetchAndAdd side => cases stepped; cases onward

theorem summary_reached (positive : 0 < plan.count)
    (equal : plan.created .enqueue + plan.created .dequeue = plan.count)
    (slots : ∀ side, ∀ pc ∈ plan.work side, ∀ size, pc ≠ .slot size) :
    ∃ trace state, Run (program plan).next (start plan) trace state ∧ Summary state := by
  obtain ⟨trace, state, run, still⟩ := reaches_still plan
  have inv := Inv.of_run positive equal.le run
  have never : ∀ thread, ∀ pc ∈ (state.thread thread).calls, ∀ size, pc ≠ .slot size := by
    apply run.invariant (meets_true trace)
    · intro thread pc member
      rcases List.mem_cons.mp member with rfl | later
      · intro size impossible
        cases impossible
      · exact slots thread.1 pc later
    · intro state act next now _ moved
      exact calls_next (fun _ _ _ _ _ _ stepped onward _ => step_not_slot stepped onward) moved now
  have mutex : Mutex Inside state.mem.globals.lock state.at := by
    have both : Inv plan state ∧ Mutex Inside state.mem.globals.lock state.at := by
      apply run.invariant (meets_true trace)
      · exact And.intro (inv_start positive) Mutex.start
      · intro state act next now _ moved
        exact And.intro (now.1.kept equal.le moved) (mutex_next now.1 now.2 moved)
    exact both.2
  exact ⟨trace, state, run, inv.all_joined still mutex never equal⟩

/-! ### The seven programs -/

/-- The thread counts for which a run starts and ends as it should. -/
def Fits (NUM_SAMPLES : ℕ) (type : QueueType) (n : ℕ) : Prop :=
  match type with
  | .squeue | .liblfds | .basicqueue | .rculfqueue => n % 2 = 0 ∧ n / 2 ≤ NUM_SAMPLES
  | .squeuemultiple => n / 2 = 0 ∨ n % 2 = 0 ∧ n / 2 ≤ NUM_SAMPLES
  | .spmc => True
  | .stl => n % 2 = 0 ∧ 1 ≤ wrap32 ((n / 2 * (NUM_SAMPLES / NUM_THREADS) : ℕ) : ℤ)

theorem planned_halves (NUM_SAMPLES n : ℕ) (kind : Side) :
    planned (halves NUM_SAMPLES n) kind = n / 2 * (NUM_SAMPLES / (n / 2)) := by
  cases kind <;> simp [planned, halves, mergeOf, adds, Samples.Pc.adds]

theorem planned_stl (NUM_SAMPLES n : ℕ) (kind : Side) :
    planned (stl NUM_SAMPLES n) kind = n / 2 * (NUM_SAMPLES / NUM_THREADS) := by
  cases kind <;> simp [planned, stl, adds]

theorem planned_spmc (NUM_SAMPLES n : ℕ) :
    planned (spmc NUM_SAMPLES n) .enqueue = NUM_SAMPLES ∧
      planned (spmc NUM_SAMPLES n) .dequeue = n * (NUM_SAMPLES / n) := by
  constructor <;> simp [planned, spmc, mergeOf, adds, Samples.Pc.adds]

theorem halves_iff {NUM_SAMPLES n : ℕ} (one : 1 ≤ n) (int : NUM_SAMPLES < 2 ^ 31) :
    StartsAndEnds (halves NUM_SAMPLES n) ↔ n % 2 = 0 ∧ n / 2 ≤ NUM_SAMPLES := by
  have positive : 0 < (halves NUM_SAMPLES n).count := one
  constructor
  · rintro ⟨equal, runs⟩
    have equal' : n / 2 + n / 2 = n := equal
    have slots : ∀ side, ∀ pc ∈ (halves NUM_SAMPLES n).work side, ∀ size, pc ≠ .slot size := by
      intro side pc member size
      rw [List.mem_singleton.mp member]
      intro impossible
      cases impossible
    obtain ⟨trace, state, run, summary⟩ := summary_reached positive equal slots
    have counted := (runs trace state run).2 summary .enqueue
    rw [num_of_summary run summary, planned_halves] at counted
    constructor
    · omega
    · by_contra many
      rw [Nat.div_eq_of_lt (by omega : NUM_SAMPLES < n / 2), Nat.mul_zero] at counted
      exact absurd counted (by decide)
  · rintro ⟨even, few⟩
    have equal : n / 2 + n / 2 = n := by omega
    refine ⟨equal, ?_⟩
    intro trace state run
    have inv := Inv.of_run positive equal.le run
    refine ⟨inv.never_all_waiting equal, ?_⟩
    intro summary kind
    have share : 0 < NUM_SAMPLES / (n / 2) := Nat.div_pos few (by omega)
    have some_ : 0 < n / 2 * (NUM_SAMPLES / (n / 2)) := Nat.mul_pos (by omega) share
    have most := Nat.mul_div_le NUM_SAMPLES (n / 2)
    rw [num_of_summary run summary, planned_halves]
    generalize n / 2 * (NUM_SAMPLES / (n / 2)) = samples at some_ most
    rw [wrap32_eq (by omega) (by omega)]
    omega

theorem stl_iff {NUM_SAMPLES n : ℕ} (one : 1 ≤ n) :
    StartsAndEnds (stl NUM_SAMPLES n) ↔
      n % 2 = 0 ∧ 1 ≤ wrap32 ((n / 2 * (NUM_SAMPLES / NUM_THREADS) : ℕ) : ℤ) := by
  have positive : 0 < (stl NUM_SAMPLES n).count := one
  constructor
  · rintro ⟨equal, runs⟩
    have equal' : n / 2 + n / 2 = n := equal
    have slots : ∀ side, ∀ pc ∈ (stl NUM_SAMPLES n).work side, ∀ size, pc ≠ .slot size := by
      intro side pc member size
      rw [List.eq_of_mem_replicate member]
      intro impossible
      cases impossible
    obtain ⟨trace, state, run, summary⟩ := summary_reached positive equal slots
    have counted := (runs trace state run).2 summary .enqueue
    rw [num_of_summary run summary, planned_stl] at counted
    exact ⟨by omega, counted⟩
  · rintro ⟨even, counted⟩
    have equal : n / 2 + n / 2 = n := by omega
    refine ⟨equal, ?_⟩
    intro trace state run
    have inv := Inv.of_run positive equal.le run
    refine ⟨inv.never_all_waiting equal, ?_⟩
    intro summary kind
    rw [num_of_summary run summary, planned_stl]
    exact counted

theorem spmc_starts_and_ends {NUM_SAMPLES n : ℕ} (one : 1 ≤ n) (sampled : 1 ≤ NUM_SAMPLES)
    (int : NUM_SAMPLES < 2 ^ 31) : StartsAndEnds (spmc NUM_SAMPLES n) := by
  have equal : 1 + n = n + 1 := Nat.add_comm 1 n
  refine ⟨equal, ?_⟩
  intro trace state run
  have inv := Inv.of_run (Nat.succ_pos n) equal.le run
  refine ⟨inv.never_all_waiting equal, ?_⟩
  intro summary kind
  by_cases few : n ≤ NUM_SAMPLES
  · have share : 0 < NUM_SAMPLES / n := Nat.div_pos few one
    have some_ : 0 < n * (NUM_SAMPLES / n) := Nat.mul_pos one share
    have most := Nat.mul_div_le NUM_SAMPLES n
    obtain ⟨produced, consumed⟩ := planned_spmc NUM_SAMPLES n
    rw [num_of_summary run summary]
    cases kind with
    | enqueue =>
        rw [produced, wrap32_eq (by omega) (by omega)]
        omega
    | dequeue =>
        rw [consumed]
        generalize n * (NUM_SAMPLES / n) = samples at some_ most
        rw [wrap32_eq (by omega) (by omega)]
        omega
  · exfalso
    have full : NUM_SAMPLES / n = 0 := Nat.div_eq_of_lt (by omega)
    let producer : Created (spmc NUM_SAMPLES n) := ⟨.enqueue, (0 : Fin 1)⟩
    have stuck : Pc.slot 0 ∈ (state.thread producer).calls := by
      apply run.invariant (meets_true trace)
      · change Pc.slot 0 ∈ [Pc.barrier .arrive, .slot (NUM_SAMPLES / n), mergeOf .enqueue NUM_SAMPLES]
        rw [full]
        exact List.mem_cons_of_mem _ List.mem_cons_self
      · intro state act next now _ moved
        exact stuck_next (fun _ => rfl) moved now
    rw [summary producer] at stuck
    cases stuck

/-- For which thread counts each program starts and ends as it should. -/
theorem starts_and_ends_iff {NUM_SAMPLES n : ℕ} (one : 1 ≤ n) (sampled : 1 ≤ NUM_SAMPLES)
    (int : NUM_SAMPLES < 2 ^ 31) (type : QueueType) :
    (∀ plan, setup NUM_SAMPLES type n = some plan → StartsAndEnds plan) ↔
      Fits NUM_SAMPLES type n := by
  have each : ∀ plan, setup NUM_SAMPLES type n = some plan →
      ((∀ other, setup NUM_SAMPLES type n = some other → StartsAndEnds other) ↔
        StartsAndEnds plan) := by
    intro plan made
    constructor
    · exact fun all => all plan made
    · intro starts other same
      cases made.symm.trans same
      exact starts
  cases type with
  | squeue => rw [each _ rfl]; exact halves_iff one int
  | liblfds => rw [each _ rfl]; exact halves_iff one int
  | basicqueue => rw [each _ rfl]; exact halves_iff one int
  | rculfqueue => rw [each _ rfl]; exact halves_iff one int
  | stl => rw [each _ rfl]; exact stl_iff one
  | spmc =>
      rw [each _ rfl]
      exact ⟨fun _ => trivial, fun _ => spmc_starts_and_ends one sampled int⟩
  | squeuemultiple =>
      by_cases alone : n / 2 = 0
      · constructor
        · exact fun _ => Or.inl alone
        · intro _ plan made
          simp only [setup, alone, if_true] at made
          cases made
      · have made : setup NUM_SAMPLES .squeuemultiple n = some (halves NUM_SAMPLES n) := if_neg alone
        rw [each _ made, halves_iff one int]
        constructor
        · exact Or.inr
        · intro either
          exact either.resolve_left alone

theorem starts_and_ends_iff_two : StartsAndEnds (halves 262144 2) :=
  (starts_and_ends_iff (by decide) (by decide) (by decide) .squeue).mpr
    ⟨by decide, by decide⟩ (halves 262144 2) rfl

/-! ### Odd thread counts -/

/-- One thread of an odd count is never created; if there are others they all wait for it. -/
theorem odd_count_sticks {NUM_SAMPLES n : ℕ} (several : 2 ≤ n) (odd : n % 2 = 1) :
    ∃ trace state, Run (program (halves NUM_SAMPLES n)).next (start (halves NUM_SAMPLES n))
      trace state ∧ AllWaiting state := by
  obtain ⟨trace, state, run, still⟩ := reaches_still (halves NUM_SAMPLES n)
  have positive : 0 < (halves NUM_SAMPLES n).count := by
    change 0 < n
    omega
  have few : (halves NUM_SAMPLES n).created .enqueue + (halves NUM_SAMPLES n).created .dequeue <
      (halves NUM_SAMPLES n).count := by
    change n / 2 + n / 2 < n
    omega
  have inv := Inv.of_run positive few.le run
  have made : 0 < n / 2 := by omega
  exact ⟨trace, state, run, inv.all_waiting still ⟨⟨.enqueue, ⟨0, made⟩⟩⟩ few⟩

/-- Type 1 with the thread counts 3 and 1: a run that is stuck at its barrier, and one that
comes to ComputeSummary with nothing to divide by. -/
theorem three_threads_stick_one_divides :
    (∃ trace state, Run (program (halves 262144 3)).next (start (halves 262144 3)) trace state ∧
      AllWaiting state) ∧
    ∃ trace state, Run (program (halves 262144 1)).next (start (halves 262144 1)) trace state ∧
      Summary state ∧ num state .enqueue = 0 := by
  constructor
  · exact odd_count_sticks (by decide) (by decide)
  · refine ⟨[], start (halves 262144 1), .nil, ?_, ?_⟩
    · rintro ⟨side, i⟩
      have nobody : (halves 262144 1).created side = 0 := Nat.div_eq_of_lt (by decide)
      exact absurd i.isLt (by omega)
    · have none_ : (0 : ℤ) < 2 ^ 31 := by decide
      exact wrap32_eq (by decide) none_

end QueueBench.Launch
