import QueueBench.AtomicOrder
import QueueBench.AtomicScan
import QueueBench.Lib.Spawn

/-! testatomicqueue_multiplethreads of SimpleQueueImpl/main.c: main creates the threads that take
the tasks and passes the tasks while these already look for them. With a slot for every task main
never meets a task in a slot, so nothing depends on what a failed attempt leaves behind. -/

namespace QueueBench.AtomicQueue
open Machine (Outcome Pool Program Act Thread scriptProgram calls_next script_next
  script_total_next total_done brought_next sum_shares sum_change)
open RingArith (addAndFetch addAndFetch_eq slot_reached)
open Transition (Run Meets Reaches)

open scoped BigOperators

/-- The tasks of main's loop, with whatever is in their padding. -/
def testTasks (NUM_TASKS : ℕ) (padding : ℕ → ℕ) : List TaskDesc :=
  (List.range NUM_TASKS).map (fun i : ℕ => { benchTask (i + 1) with padding := padding i })

/-- main's loop and `atomicworker_handler`; `none` is main, the others are `worker_threads`. -/
def testScripts (NUM_TASKS NUM_THREADS : ℕ) (padding : ℕ → ℕ) :
    Option (Fin NUM_THREADS) → List Pc
  | none => (testTasks NUM_TASKS padding).map enqueue_atomic
  | some _ => List.replicate (NUM_TASKS / NUM_THREADS) dequeue_atomic

abbrev TestPool (NUM_THREADS : ℕ) : Type :=
  Pool (Option (Fin NUM_THREADS)) Queue Pc (List Pc) Hist

/-- The test on a block whose slots are all empty. create_queue_atomic writes no slot, so
this is about what malloc returns. -/
def testStart (QUEUE_SIZE NUM_TASKS NUM_THREADS : ℕ) (padding : ℕ → ℕ) : TestPool NUM_THREADS :=
  start QUEUE_SIZE (testScripts NUM_TASKS NUM_THREADS padding)

def testProgram (QUEUE_SIZE NUM_THREADS : ℕ) :
    Program (Option (Fin NUM_THREADS)) Queue Pc (Option TaskDesc) (List Pc) Hist :=
  scriptProgram (step QUEUE_SIZE) (record QUEUE_SIZE)

/-- The tasks come in in the order of main's loop, each for one ticket, and come out once each, so
that no two of them are stamped in the same cell of `dequeuetimestamp`. -/
structure AtomicTest (QUEUE_SIZE NUM_TASKS : ℕ) (padding : ℕ → ℕ) {NUM_THREADS : ℕ}
    (state : TestPool NUM_THREADS) : Prop where
  in_order : state.hist.stored <+: testTasks NUM_TASKS padding
  tickets : state.mem.rear ≤ state.hist.stored.length
  conserved : Conserved QUEUE_SIZE state
  stamps : (state.hist.taken.map (fun task => task.task_id - 1)).Nodup
  inside : ∀ task ∈ state.hist.taken, 0 ≤ task.task_id - 1 ∧ task.task_id - 1 < NUM_TASKS
  all : state.Done → state.hist.taken.length = NUM_THREADS * (NUM_TASKS / NUM_THREADS)
  ends : state.mem.front + QUEUE_SIZE < 2 ^ 31 → ∃ final,
    Reaches (testProgram QUEUE_SIZE NUM_THREADS).next Counted state final ∧ final.Done

/-! ### What the calls are still to do -/

def Pc.toTake : Pc → ℤ
  | .deqDraw | .deqXchg _ => 1
  | _ => 0

def Pc.brings : Pc → List TaskDesc
  | .enqDraw task _ | .enqCas task _ _ => [task]
  | _ => []

def Pc.Taking : Pc → Prop
  | .deqDraw | .deqXchg _ => True
  | _ => False

def Role {NUM_THREADS : ℕ} : Option (Fin NUM_THREADS) → Pc → Prop
  | none, pc => ¬ pc.Taking
  | some _, pc => pc.Taking

def received (_q : Queue) (hist : Hist) : ℤ := hist.taken.length

variable {ι : Type*} {size : ℕ} {q after : Queue} {hist : Hist} {pc : Pc}
variable {outcome : Outcome Pc (Option TaskDesc)}

structure Effect (size : ℕ) (thread : ι) (q after : Queue) (hist : Hist) (pc : Pc)
    (outcome : Outcome Pc (Option TaskDesc)) : Prop where
  takes : received after (record size thread pc q hist) + outcome.pc?.elim 0 Pc.toTake =
    received q hist + pc.toTake
  stores : (record size thread pc q hist).stored ++ outcome.pc?.elim [] Pc.brings =
    hist.stored ++ pc.brings
  same : ∀ next, outcome.pc? = some next → (next.Taking ↔ pc.Taking)

theorem step_effect (thread : ι) (hist : Hist)
    (stepped : step size pc q = some (after, outcome)) :
    Effect size thread q after hist pc outcome := by
  cases pc with
  | enqDraw task expected =>
      cases stepped
      refine ⟨rfl, rfl, ?_⟩
      intro next reached
      cases reached
      exact Iff.rfl
  | enqCas task expected last =>
      simp only [step] at stepped
      split at stepped
      · rename_i equal
        cases stepped
        refine ⟨?_, ?_, ?_⟩
        · simp only [record, if_pos equal]
          rfl
        · simp only [record, if_pos equal]
          exact List.append_nil _
        · intro next impossible
          cases impossible
      · rename_i different
        cases stepped
        refine ⟨?_, ?_, ?_⟩
        · simp only [record, if_neg different]
          rfl
        · simp only [record, if_neg different]
          rfl
        · intro next reached
          cases reached
          exact Iff.rfl
  | deqDraw =>
      cases stepped
      refine ⟨rfl, rfl, ?_⟩
      intro next reached
      cases reached
      exact Iff.rfl
  | deqXchg first =>
      cases stepped
      by_cases zero : (q.tasks (first.tmod size)).task_id = 0
      · refine ⟨?_, ?_, ?_⟩
        · simp only [record, if_pos zero]
          rfl
        · simp only [record, if_pos zero]
          rfl
        · intro next reached
          rw [if_pos zero] at reached
          cases reached
          exact Iff.rfl
      · refine ⟨?_, ?_, ?_⟩
        · simp only [record, if_neg zero, received, List.length_append, List.length_singleton]
          push_cast
          exact Int.add_zero _
        · simp only [record, if_neg zero]
          rfl
        · intro next impossible
          rw [if_neg zero] at impossible
          cases impossible

/-! ### The state of the test -/

/-- main has used one ticket for each task it has stored, and one more while it holds one. It has
no failed attempt behind it. -/
def Passes (rear : ℤ) (count : ℕ) : Option Pc → Prop
  | none => rear + 1 = count
  | some (.enqDraw _ expected) => expected = EmptyTask ∧ rear + 1 = count
  | some (.enqCas _ expected last) => expected = EmptyTask ∧ last = count ∧ rear = count
  | some _ => False

structure Testing (QUEUE_SIZE NUM_TASKS : ℕ) (padding : ℕ → ℕ) {NUM_THREADS : ℕ}
    (state : TestPool NUM_THREADS) : Prop where
  held : Held state.forget
  conserved : Conserved QUEUE_SIZE state
  roles : ∀ thread, ∀ pc ∈ (state.thread thread).calls, Role thread pc
  entries : ∀ thread, ∀ pc ∈ (state.thread thread).script,
    (∃ task, task.task_id ≠ 0 ∧ pc = enqueue_atomic task) ∨ pc = dequeue_atomic
  order : state.hist.stored ++ (state.thread none).calls.flatMap Pc.brings =
    testTasks NUM_TASKS padding
  passes : Passes state.mem.rear state.hist.stored.length (state.at none)
  blank : ∀ slot : ℤ, state.hist.stored.length ≤ slot → state.mem.tasks slot = EmptyTask
  gets : state.total received (Thread.due Pc.toTake) =
    (NUM_THREADS * (NUM_TASKS / NUM_THREADS) : ℕ)

variable {QUEUE_SIZE NUM_TASKS NUM_THREADS : ℕ} {state next : TestPool NUM_THREADS}
variable {padding : ℕ → ℕ} {act : Act (Option (Fin NUM_THREADS)) Pc}

theorem toTake_nonneg (pc : Pc) : 0 ≤ pc.toTake := by
  cases pc <;> simp only [Pc.toTake] <;> omega

theorem passing_idle (passing : ¬ pc.Taking) : pc.toTake = 0 := by
  cases pc with
  | deqDraw => exact absurd trivial passing
  | deqXchg first => exact absurd trivial passing
  | _ => rfl

theorem taking_idle (taking : pc.Taking) : pc.brings = [] := by
  cases pc with
  | enqDraw task expected => exact taking.elim
  | enqCas task expected last => exact taking.elim
  | _ => rfl

theorem testTasks_length (NUM_TASKS : ℕ) (padding : ℕ → ℕ) :
    (testTasks NUM_TASKS padding).length = NUM_TASKS := by
  rw [testTasks, List.length_map, List.length_range]

theorem testTasks_id {task : TaskDesc} (member : task ∈ testTasks NUM_TASKS padding) :
    0 ≤ task.task_id - 1 ∧ task.task_id - 1 < NUM_TASKS := by
  obtain ⟨i, inside, rfl⟩ := List.mem_map.mp member
  have less := List.mem_range.mp inside
  change (0 : ℤ) ≤ i + 1 - 1 ∧ (i : ℤ) + 1 - 1 < NUM_TASKS
  omega

theorem testing_start (QUEUE_SIZE NUM_TASKS NUM_THREADS : ℕ) (padding : ℕ → ℕ) :
    Testing QUEUE_SIZE NUM_TASKS padding (testStart QUEUE_SIZE NUM_TASKS NUM_THREADS padding) := by
  have roles : ∀ thread,
      ∀ pc ∈ ((testStart QUEUE_SIZE NUM_TASKS NUM_THREADS padding).thread thread).calls,
      Role thread pc := by
    intro thread pc member
    cases thread with
    | none =>
        obtain ⟨task, _, rfl⟩ := List.mem_map.mp member
        exact id
    | some worker =>
        rw [List.eq_of_mem_replicate member]
        trivial
  refine
    { held := held_start QUEUE_SIZE _
      conserved := ?_
      roles := roles
      entries := ?_
      order := ?_
      passes := rfl
      blank := fun _ _ => rfl
      gets := ?_ }
  · change (([] : List TaskDesc) : Multiset TaskDesc) =
      contents QUEUE_SIZE EmptyTask (fun _ => EmptyTask) + _
    rw [contents_blank]
    rfl
  · intro thread pc member
    cases thread with
    | none =>
        obtain ⟨task, listed, rfl⟩ := List.mem_map.mp member
        have positive := testTasks_id listed
        exact Or.inl ⟨task, by omega, rfl⟩
    | some worker => exact Or.inr (List.eq_of_mem_replicate member)
  · change [] ++ ((testTasks NUM_TASKS padding).map enqueue_atomic).flatMap Pc.brings = _
    rw [List.nil_append, List.flatMap_map]
    exact List.flatMap_singleton' _
  · have first : Thread.due Pc.toTake
        ((testStart QUEUE_SIZE NUM_TASKS NUM_THREADS padding).thread none) = 0 :=
      Thread.due_eq_zero (fun pc member => passing_idle (roles none pc member))
    have others : ∀ worker : Fin NUM_THREADS, Thread.due Pc.toTake
        ((testStart QUEUE_SIZE NUM_TASKS NUM_THREADS padding).thread (some worker)) =
          (NUM_TASKS / NUM_THREADS : ℕ) := by
      intro worker
      change ((List.replicate (NUM_TASKS / NUM_THREADS) dequeue_atomic).map Pc.toTake).sum = _
      rw [List.map_replicate, List.sum_replicate]
      exact Int.mul_one _
    exact (Int.zero_add _).trans (sum_shares first others)

theorem Testing.free (testing : Testing QUEUE_SIZE NUM_TASKS padding state)
    (moved : (testProgram QUEUE_SIZE NUM_THREADS).next state act = some next) :
    (program QUEUE_SIZE taskClient).next state.forget act = some next.forget := by
  refine Program.forget_next rfl rfl ?_ (fun _ => rfl) moved
  intro thread script entry left idle called
  have member : entry ∈ (state.thread thread).script := by
    rw [idle, Machine.scriptClient_call called]
    exact List.mem_cons_self
  rcases testing.entries thread entry member with ⟨task, nonzero, rfl⟩ | rfl
  · exact if_pos ⟨nonzero, rfl⟩
  · rfl

theorem Testing.main_at (testing : Testing QUEUE_SIZE NUM_TASKS padding state) {pc : Pc}
    (at_ : state.at none = some pc) :
    (∃ task, pc = .enqDraw task EmptyTask ∧ state.mem.rear + 1 = state.hist.stored.length) ∨
      ∃ task, pc = .enqCas task EmptyTask state.hist.stored.length ∧
        state.mem.rear = state.hist.stored.length := by
  have passes := testing.passes
  rw [at_] at passes
  cases pc with
  | enqDraw task expected =>
      obtain ⟨rfl, rear⟩ := passes
      exact Or.inl ⟨task, rfl, rear⟩
  | enqCas task expected last =>
      obtain ⟨rfl, rfl, rear⟩ := passes
      exact Or.inr ⟨task, rfl, rear⟩
  | deqDraw => exact passes.elim
  | deqXchg first => exact passes.elim

theorem Testing.room (testing : Testing QUEUE_SIZE NUM_TASKS padding state) {pc : Pc}
    (at_ : state.at none = some pc) : state.hist.stored.length < NUM_TASKS := by
  have order := congrArg List.length testing.order
  have brings : ∃ task, pc.brings = [task] := by
    rcases testing.main_at at_ with ⟨task, rfl, _⟩ | ⟨task, rfl, _⟩
    · exact ⟨task, rfl⟩
    · exact ⟨task, rfl⟩
  obtain ⟨task, brings⟩ := brings
  rw [Pool.at_eq_some at_, testTasks_length] at order
  change (state.hist.stored ++ (pc :: _).flatMap Pc.brings).length = _ at order
  rw [List.flatMap_cons, brings, List.length_append, List.length_append,
    List.length_singleton] at order
  omega

theorem Testing.main_step (testing : Testing QUEUE_SIZE NUM_TASKS padding state)
    (fits : NUM_TASKS ≤ QUEUE_SIZE) (small : QUEUE_SIZE < 2 ^ 31) {pc : Pc}
    (at_ : state.at none = some pc) :
    (∃ task, pc = .enqDraw task EmptyTask ∧ state.mem.rear + 1 = state.hist.stored.length ∧
      step QUEUE_SIZE pc state.mem =
        some ({ state.mem with rear := state.hist.stored.length },
          .goto (.enqCas task EmptyTask state.hist.stored.length))) ∨
    ∃ task, pc = .enqCas task EmptyTask state.hist.stored.length ∧
      state.mem.rear = state.hist.stored.length ∧
      state.mem.tasks ((state.hist.stored.length : ℤ).tmod QUEUE_SIZE) = EmptyTask ∧
      step QUEUE_SIZE pc state.mem = some ({ state.mem with
        tasks := Function.update state.mem.tasks state.hist.stored.length task }, .ret none) := by
  have room := testing.room at_
  rcases testing.main_at at_ with ⟨task, rfl, rear⟩ | ⟨task, rfl, rear⟩
  · left
    have ticket : addAndFetch state.mem.rear = state.hist.stored.length := by
      rw [addAndFetch_eq (by omega) (by omega)]
      exact rear
    refine ⟨task, rfl, rear, ?_⟩
    simp only [step, ticket]
  · right
    have slot : (state.hist.stored.length : ℤ).tmod QUEUE_SIZE = state.hist.stored.length :=
      slot_of_lt (by omega) (by omega)
    have empty := testing.blank state.hist.stored.length (Int.le_refl _)
    refine ⟨task, rfl, rear, by rw [slot]; exact empty, ?_⟩
    simp only [step, slot, if_pos empty]

theorem taking_step (thread : ι) (hist : Hist) (taking : pc.Taking)
    (stepped : step size pc q = some (after, outcome)) :
    after.rear = q.rear ∧ (record size thread pc q hist).stored = hist.stored ∧
      ∀ slot, q.tasks slot = EmptyTask → after.tasks slot = EmptyTask := by
  cases pc with
  | enqDraw task expected => exact taking.elim
  | enqCas task expected last => exact taking.elim
  | deqDraw =>
      cases stepped
      exact ⟨rfl, rfl, fun _ empty => empty⟩
  | deqXchg first =>
      cases stepped
      refine ⟨rfl, ?_, ?_⟩
      · simp only [record]
        split <;> rfl
      · intro slot empty
        by_cases same : slot = first.tmod size
        · rw [same]
          exact Function.update_self ..
        · exact (Function.update_of_ne same _ _).trans empty

theorem Testing.main_next (testing : Testing QUEUE_SIZE NUM_TASKS padding state)
    (fits : NUM_TASKS ≤ QUEUE_SIZE) (small : QUEUE_SIZE < 2 ^ 31)
    (moved : (testProgram QUEUE_SIZE NUM_THREADS).next state act = some next) :
    Passes next.mem.rear next.hist.stored.length (next.at none) ∧
      ∀ slot : ℤ, next.hist.stored.length ≤ slot → next.mem.tasks slot = EmptyTask := by
  have passes := testing.passes
  rcases Program.next_cases moved with
    ⟨thread, entry, script, left, rfl, idle, called, rfl⟩ |
    ⟨thread, script, left, rfl, idle, impossible, rfl⟩ |
    ⟨thread, pc, script, mem, outcome, rfl, busy, stepped, rfl⟩
  · refine ⟨?_, testing.blank⟩
    cases thread with
    | none =>
        have listed : entry ∈ script := by
          rw [Machine.scriptClient_call called]
          exact List.mem_cons_self
        have passing : ¬ entry.Taking := testing.roles none entry (by
          rw [idle]
          exact listed)
        rw [Pool.at_idle idle] at passes
        change Passes state.mem.rear state.hist.stored.length
          (Function.update state.thread none (.busy entry left) none).pc?
        rw [Function.update_self]
        rcases testing.entries none entry (by rw [idle]; exact listed) with ⟨task, _, rfl⟩ | rfl
        · exact ⟨rfl, passes⟩
        · exact absurd trivial passing
    | some worker =>
        rw [Pool.at, Program.next_other moved (Option.some_ne_none worker).symm]
        exact passes
  · cases impossible
  · have at_ : state.at thread = some pc := Pool.at_busy busy
    cases thread with
    | none =>
        rcases testing.main_step fits small at_ with
          ⟨task, rfl, rear, step_eq⟩ | ⟨task, rfl, rear, empty, step_eq⟩
        · cases step_eq.symm.trans stepped
          refine ⟨?_, testing.blank⟩
          change Passes state.hist.stored.length state.hist.stored.length
            (Function.update state.thread none
              (.busy (.enqCas task EmptyTask state.hist.stored.length) script) none).pc?
          rw [Function.update_self]
          exact ⟨rfl, rfl, rfl⟩
        · cases step_eq.symm.trans stepped
          have stores : (record QUEUE_SIZE (none : Option (Fin NUM_THREADS))
              (.enqCas task EmptyTask state.hist.stored.length) state.mem state.hist).stored =
                state.hist.stored ++ [task] := by
            simp only [record, if_pos empty]
          change Passes state.mem.rear (record QUEUE_SIZE none _ state.mem state.hist).stored.length
              (Function.update state.thread none (.idle script) none).pc? ∧
            ∀ slot : ℤ, ((record QUEUE_SIZE none _ state.mem state.hist).stored.length : ℤ) ≤ slot →
              Function.update state.mem.tasks state.hist.stored.length task slot = EmptyTask
          rw [stores, List.length_append, List.length_singleton, Function.update_self]
          constructor
          · change state.mem.rear + 1 = ((state.hist.stored.length + 1 : ℕ) : ℤ)
            omega
          · intro slot after
            have different : slot ≠ state.hist.stored.length := by omega
            exact (Function.update_of_ne different _ _).trans (testing.blank slot (by omega))
    | some worker =>
        have taking : pc.Taking := testing.roles (some worker) pc (Pool.at_mem_calls at_)
        obtain ⟨rear, stores, empties⟩ := taking_step (some worker) state.hist taking stepped
        rw [Pool.at, Program.next_other moved (Option.some_ne_none worker).symm]
        change Passes mem.rear
            (record QUEUE_SIZE (some worker) pc state.mem state.hist).stored.length (state.at none) ∧
          ∀ slot : ℤ,
            ((record QUEUE_SIZE (some worker) pc state.mem state.hist).stored.length : ℤ) ≤ slot →
              mem.tasks slot = EmptyTask
        rw [rear, stores]
        constructor
        · exact passes
        · exact fun slot after => empties slot (testing.blank slot after)

theorem Testing.unrepeated (testing : Testing QUEUE_SIZE NUM_TASKS padding state)
    (act : Act (Option (Fin NUM_THREADS)) Pc) : Unrepeated QUEUE_SIZE state.forget act := by
  cases act with
  | call thread entry => trivial
  | quit thread => trivial
  | move thread =>
      intro pc at_
      rw [Pool.forget_at] at at_
      cases pc with
      | enqCas task expected last =>
          intro _
          cases thread with
          | none =>
              rcases testing.main_at at_ with ⟨_, impossible, _⟩ | ⟨_, same, _⟩
              · cases impossible
              · cases same
                rfl
          | some worker => exact (testing.roles (some worker) _ (Pool.at_mem_calls at_)).elim
      | _ => trivial

theorem Testing.kept (testing : Testing QUEUE_SIZE NUM_TASKS padding state)
    (fits : NUM_TASKS ≤ QUEUE_SIZE) (small : QUEUE_SIZE < 2 ^ 31) (positive : 0 < QUEUE_SIZE)
    (counted : Counted state act)
    (moved : (testProgram QUEUE_SIZE NUM_THREADS).next state act = some next) :
    Testing QUEUE_SIZE NUM_TASKS padding next := by
  have free := testing.free moved
  obtain ⟨passes, blank⟩ := testing.main_next fits small moved
  have roles : ∀ thread, ∀ pc ∈ (next.thread thread).calls, Role thread pc := by
    apply calls_next ?_ moved testing.roles
    intro thread pc q after outcome reached stepped stays role
    have same := (step_effect thread state.hist stepped).same reached stays
    cases thread with
    | none => exact fun taking => role (same.mp taking)
    | some worker => exact same.mpr role
  have counts : Counted state.forget act := by
    cases act with
    | call thread entry => trivial
    | quit thread => trivial
    | move thread =>
        intro pc at_
        rw [Pool.forget_at] at at_
        exact counted pc at_
  refine
    { held := held_next taskClient_enters testing.held counts free
      conserved :=
        (conserved_next positive testing.held testing.conserved free).mpr (testing.unrepeated act)
      roles := roles
      entries := script_next moved testing.entries
      order := ?_
      passes := passes
      blank := blank
      gets := ?_ }
  · refine (brought_next Hist.stored (fun _ => Pc.brings) Pc.Taking moved ?_
      (fun _ _ taking => taking_idle taking) ?_ ?_ (fun _ _ => rfl)
      (fun _ _ _ => rfl)).trans testing.order
    · intro thread pc mem outcome _ stepped
      exact (step_effect thread state.hist stepped).stores
    · intro thread pc mem outcome reached _ stepped stays taking
      exact ((step_effect thread state.hist stepped).same reached stays).mpr taking
    · intro thread pc other at_
      cases thread with
      | none => exact absurd rfl other
      | some worker => exact testing.roles (some worker) pc (Pool.at_mem_calls at_)
  · rw [← testing.gets]
    apply script_total_next moved
    intro thread pc mem outcome _ _ stepped
    exact (step_effect thread state.hist stepped).takes

theorem testing_of_run (fits : NUM_TASKS ≤ QUEUE_SIZE) (small : QUEUE_SIZE < 2 ^ 31)
    (positive : 0 < QUEUE_SIZE)
    {trace : List (TestPool NUM_THREADS × Act (Option (Fin NUM_THREADS)) Pc)}
    (run : Run (testProgram QUEUE_SIZE NUM_THREADS).next
      (testStart QUEUE_SIZE NUM_TASKS NUM_THREADS padding) trace state)
    (counted : Meets Counted trace) : Testing QUEUE_SIZE NUM_TASKS padding state :=
  run.invariant counted (testing_start QUEUE_SIZE NUM_TASKS NUM_THREADS padding)
    (fun _ _ _ testing counts moved => testing.kept fits small positive counts moved)

/-! ### How the test can be ended -/

def Pc.rank : Pc → ℕ
  | .enqDraw _ _ | .deqXchg _ => 1
  | .enqCas _ _ _ | .deqDraw => 0

/-- Every task in the ring is about to be exchanged or lies at most so far ahead of the front, and
before main is done a whole lap is left. -/
structure Ending (QUEUE_SIZE : ℕ) (state : TestPool NUM_THREADS) (distance : ℕ) : Prop where
  within : ∀ slot : ℤ, 0 ≤ slot → slot < QUEUE_SIZE → state.mem.tasks slot ≠ EmptyTask →
    (∃ thread first, state.at thread = some (.deqXchg first) ∧ first.tmod QUEUE_SIZE = slot) ∨
      ∃ nearer < distance, slotAt QUEUE_SIZE state.mem.front nearer = slot
  passed : state.thread none = .idle [] ∨ distance = QUEUE_SIZE
  low : state.mem.front + distance < 2 ^ 31

/-- What is left to be done; a ticket of the front is paid for by the slot it passes. -/
def left (state : TestPool NUM_THREADS) (distance : ℕ) : ℕ :=
  ∑ thread, (state.thread thread).load Pc.rank + 2 * distance

def GoesOn (QUEUE_SIZE : ℕ) (state : TestPool NUM_THREADS) (distance : ℕ) : Prop :=
  ∃ act next fewer, Counted state act ∧
    (testProgram QUEUE_SIZE NUM_THREADS).next state act = some next ∧
    Ending QUEUE_SIZE next fewer ∧ left next fewer < left state distance

variable {distance fewer : ℕ}

theorem left_lt {thread : Option (Fin NUM_THREADS)}
    (others : ∀ other, other ≠ thread → next.thread other = state.thread other)
    (less : (next.thread thread).load Pc.rank + 2 * fewer <
      (state.thread thread).load Pc.rank + 2 * distance) :
    left next fewer < left state distance := by
  have balance : (state.thread thread).load Pc.rank +
        ∑ other, (next.thread other).load Pc.rank =
      (next.thread thread).load Pc.rank + ∑ other, (state.thread other).load Pc.rank := by
    refine sum_change thread ?_ (Nat.add_comm _ _)
    intro other different
    rw [others other different]
  unfold left
  omega

theorem counted_at {thread : Option (Fin NUM_THREADS)} {pc : Pc}
    (at_ : state.at thread = some pc) (counts : Counts state.mem pc) :
    Counted state (.move thread) := by
  intro other otherAt
  cases at_.symm.trans otherAt
  exact counts

theorem ending_lap (state : TestPool NUM_THREADS) (low : state.mem.front + QUEUE_SIZE < 2 ^ 31) :
    Ending QUEUE_SIZE state QUEUE_SIZE :=
  { within := fun _ slotLow slotHigh _ => Or.inr (slot_reached slotLow slotHigh _)
    passed := Or.inr rfl
    low := low }

theorem Testing.main_on (testing : Testing QUEUE_SIZE NUM_TASKS padding state)
    (fits : NUM_TASKS ≤ QUEUE_SIZE) (small : QUEUE_SIZE < 2 ^ 31)
    (low : state.mem.front + QUEUE_SIZE < 2 ^ 31) (unfinished : state.thread none ≠ .idle []) :
    GoesOn QUEUE_SIZE state QUEUE_SIZE := by
  cases standing : state.thread none with
  | idle script =>
      cases script with
      | nil => exact absurd standing unfinished
      | cons entry rest =>
          obtain ⟨next, moved, facts⟩ := Program.call_exists standing
            (Machine.script_call (step QUEUE_SIZE) (record QUEUE_SIZE) entry rest)
          refine ⟨.call none entry, next, QUEUE_SIZE, trivial, moved, ending_lap next ?_, ?_⟩
          · rw [facts.mem_eq]
            exact low
          · apply left_lt facts.others
            rw [facts.thread_eq, standing]
            simp only [Thread.load, List.map_cons, List.sum_cons]
            omega
  | busy pc script =>
      have at_ : state.at none = some pc := Pool.at_busy standing
      have room := testing.room at_
      rcases testing.main_step fits small at_ with
        ⟨task, rfl, rear, stepped⟩ | ⟨task, rfl, rear, empty, stepped⟩
      · obtain ⟨next, moved, facts⟩ :=
          (testProgram QUEUE_SIZE NUM_THREADS).move_exists standing stepped
        refine ⟨_, next, QUEUE_SIZE, counted_at at_ ?_, moved, ending_lap next ?_, ?_⟩
        · change state.mem.rear + 1 < 2 ^ 31
          omega
        · rw [facts.mem_eq]
          exact low
        · apply left_lt facts.others
          rw [facts.thread_eq, standing]
          change 0 + 1 + Thread.load Pc.rank (.idle script) + _ <
            1 + 1 + Thread.load Pc.rank (.idle script) + _
          omega
      · obtain ⟨next, moved, facts⟩ :=
          (testProgram QUEUE_SIZE NUM_THREADS).move_exists standing stepped
        refine ⟨_, next, QUEUE_SIZE, counted_at at_ trivial, moved, ending_lap next ?_, ?_⟩
        · rw [facts.mem_eq]
          exact low
        · apply left_lt facts.others
          rw [facts.thread_eq, standing]
          change Thread.load Pc.rank (.idle script) + _ <
            0 + 1 + Thread.load Pc.rank (.idle script) + _
          omega

/-- A ticket that has been drawn is used up. -/
theorem Ending.exchange (ending : Ending QUEUE_SIZE state distance)
    (done : state.thread none = .idle []) {thread : Option (Fin NUM_THREADS)} {first : ℤ}
    (at_ : state.at thread = some (.deqXchg first)) : GoesOn QUEUE_SIZE state distance := by
  have standing := Pool.at_eq_some at_
  generalize (state.thread thread).script = script at standing
  obtain ⟨next, moved, facts⟩ :=
    (testProgram QUEUE_SIZE NUM_THREADS).move_exists standing rfl
  refine ⟨_, next, distance, counted_at at_ trivial, moved, ?_, ?_⟩
  · refine
      { within := ?_
        passed := ?_
        low := ?_ }
    · intro slot slotLow slotHigh task
      rw [facts.mem_eq] at task ⊢
      change Function.update state.mem.tasks (first.tmod QUEUE_SIZE) EmptyTask slot ≠ _ at task
      by_cases same : slot = first.tmod QUEUE_SIZE
      · rw [same, Function.update_self] at task
        exact absurd rfl task
      · rw [Function.update_of_ne same] at task
        rcases ending.within slot slotLow slotHigh task with ⟨other, ticket, otherAt, cell⟩ | near
        · left
          refine ⟨other, ticket, ?_, cell⟩
          have different : other ≠ thread := by
            rintro rfl
            cases at_.symm.trans otherAt
            exact same cell.symm
          rw [Pool.at, facts.others other different]
          exact otherAt
        · exact Or.inr near
    · left
      have different : none ≠ thread := by
        rintro rfl
        rw [Pool.at_idle done] at at_
        cases at_
      rw [facts.others none different]
      exact done
    · rw [facts.mem_eq]
      exact ending.low
  · apply left_lt facts.others
    rw [facts.thread_eq, standing]
    split
    · change 0 + 1 + Thread.load Pc.rank (.idle script) + _ <
        1 + 1 + Thread.load Pc.rank (.idle script) + _
      omega
    · change Thread.load Pc.rank (.idle script) + _ <
        1 + 1 + Thread.load Pc.rank (.idle script) + _
      omega

theorem Ending.call (ending : Ending QUEUE_SIZE state distance)
    (done : state.thread none = .idle [])
    (nobody : ¬ ∃ thread first, state.at thread = some (.deqXchg first))
    {thread : Option (Fin NUM_THREADS)} {entry : Pc} {rest : List Pc}
    (standing : state.thread thread = .idle (entry :: rest)) :
    GoesOn QUEUE_SIZE state distance := by
  obtain ⟨next, moved, facts⟩ := Program.call_exists standing
    (Machine.script_call (step QUEUE_SIZE) (record QUEUE_SIZE) entry rest)
  refine ⟨.call thread entry, next, distance, trivial, moved, ?_, ?_⟩
  · refine
      { within := ?_
        passed := ?_
        low := ?_ }
    · intro slot slotLow slotHigh task
      rw [facts.mem_eq] at task ⊢
      rcases ending.within slot slotLow slotHigh task with ⟨other, ticket, otherAt, _⟩ | near
      · exact absurd ⟨other, ticket, otherAt⟩ nobody
      · exact Or.inr near
    · left
      have different : none ≠ thread := by
        rintro rfl
        cases done.symm.trans standing
      rw [facts.others none different]
      exact done
    · rw [facts.mem_eq]
      exact ending.low
  · apply left_lt facts.others
    rw [facts.thread_eq, standing]
    simp only [Thread.load, List.map_cons, List.sum_cons]
    omega

theorem Testing.task_left (testing : Testing QUEUE_SIZE NUM_TASKS padding state)
    (done : state.thread none = .idle []) {thread : Option (Fin NUM_THREADS)}
    (at_ : state.at thread = some .deqDraw) :
    ∃ slot : ℤ, 0 ≤ slot ∧ slot < QUEUE_SIZE ∧ state.mem.tasks slot ≠ EmptyTask := by
  by_contra nothing
  have blank : contents QUEUE_SIZE EmptyTask state.mem.tasks = 0 := by
    apply Finset.sum_eq_zero
    intro cell inside
    rw [occupant_eq_zero]
    by_contra task
    have less := Finset.mem_range.mp inside
    exact nothing ⟨cell, by omega, by omega, task⟩
  have conserved : (state.hist.stored : Multiset TaskDesc) =
      contents QUEUE_SIZE EmptyTask state.mem.tasks + (state.hist.taken : Multiset TaskDesc) :=
    testing.conserved
  rw [blank, zero_add] at conserved
  have same : state.hist.stored.length = state.hist.taken.length := by
    have cards := congrArg Multiset.card conserved
    rwa [Multiset.coe_card, Multiset.coe_card] at cards
  have order := congrArg List.length testing.order
  rw [done, testTasks_length] at order
  change (state.hist.stored ++ []).length = NUM_TASKS at order
  rw [List.append_nil] at order
  have part := Pool.due_le_total received toTake_nonneg at_
  rw [testing.gets] at part
  change (state.hist.taken.length : ℤ) + 1 ≤ _ at part
  have shared : NUM_THREADS * (NUM_TASKS / NUM_THREADS) ≤ NUM_TASKS :=
    Nat.mul_div_le NUM_TASKS NUM_THREADS
  omega

theorem Testing.draw (testing : Testing QUEUE_SIZE NUM_TASKS padding state)
    (ending : Ending QUEUE_SIZE state distance) (done : state.thread none = .idle [])
    (nobody : ¬ ∃ thread first, state.at thread = some (.deqXchg first))
    {thread : Option (Fin NUM_THREADS)} (at_ : state.at thread = some .deqDraw) :
    GoesOn QUEUE_SIZE state distance := by
  have frontGe : -1 ≤ state.mem.front := testing.held.front_ge
  have low := ending.low
  have positive : 0 < distance := by
    obtain ⟨slot, slotLow, slotHigh, task⟩ := testing.task_left done at_
    rcases ending.within slot slotLow slotHigh task with ⟨other, ticket, otherAt, _⟩ | near
    · exact absurd ⟨other, ticket, otherAt⟩ nobody
    · obtain ⟨nearer, less, _⟩ := near
      omega
  have ticket : addAndFetch state.mem.front = state.mem.front + 1 :=
    addAndFetch_eq frontGe (by omega)
  have stepped : step QUEUE_SIZE .deqDraw state.mem =
      some ({ state.mem with front := state.mem.front + 1 },
        .goto (.deqXchg (state.mem.front + 1))) := by
    simp only [step, ticket]
  have standing := Pool.at_eq_some at_
  generalize (state.thread thread).script = script at standing
  obtain ⟨next, moved, facts⟩ :=
    (testProgram QUEUE_SIZE NUM_THREADS).move_exists standing stepped
  refine ⟨_, next, distance - 1, counted_at at_ ?_, moved, ?_, ?_⟩
  · change state.mem.front + 1 < 2 ^ 31
    omega
  · refine
      { within := ?_
        passed := ?_
        low := ?_ }
    · intro slot slotLow slotHigh task
      rw [facts.mem_eq] at task ⊢
      rcases ending.within slot slotLow slotHigh task with ⟨other, taken, otherAt, _⟩ | near
      · exact absurd ⟨other, taken, otherAt⟩ nobody
      · obtain ⟨nearer, less, cell⟩ := near
        cases nearer with
        | zero =>
            left
            refine ⟨thread, state.mem.front + 1, ?_, ?_⟩
            · rw [Pool.at, facts.thread_eq]
              rfl
            · rw [← cell, ← draw_cell frontGe, Nat.cast_zero, add_zero]
        | succ nearer =>
            right
            refine ⟨nearer, by omega, ?_⟩
            rw [← cell]
            unfold slotAt
            push_cast
            rw [add_assoc _ (1 : ℤ) (nearer : ℤ), add_comm (1 : ℤ) (nearer : ℤ)]
    · left
      have different : none ≠ thread := by
        rintro rfl
        rw [Pool.at_idle done] at at_
        cases at_
      rw [facts.others none different]
      exact done
    · rw [facts.mem_eq]
      change state.mem.front + 1 + ((distance - 1 : ℕ) : ℤ) < 2 ^ 31
      omega
  · apply left_lt facts.others
    rw [facts.thread_eq, standing]
    change 1 + 1 + Thread.load Pc.rank (.idle script) + _ <
      0 + 1 + Thread.load Pc.rank (.idle script) + _
    omega

theorem Testing.goes_on (testing : Testing QUEUE_SIZE NUM_TASKS padding state)
    (fits : NUM_TASKS ≤ QUEUE_SIZE) (small : QUEUE_SIZE < 2 ^ 31)
    (ending : Ending QUEUE_SIZE state distance) (unfinished : ¬ state.Done) :
    GoesOn QUEUE_SIZE state distance := by
  by_cases done : state.thread none = .idle []
  · by_cases pending : ∃ thread first, state.at thread = some (.deqXchg first)
    · obtain ⟨thread, first, at_⟩ := pending
      exact ending.exchange done at_
    · unfold Pool.Done at unfinished
      push Not at unfinished
      obtain ⟨thread, busy⟩ := unfinished
      cases standing : state.thread thread with
      | idle script =>
          cases script with
          | nil => exact absurd standing busy
          | cons entry rest => exact ending.call done pending standing
      | busy pc script =>
          have at_ : state.at thread = some pc := Pool.at_busy standing
          have role := testing.roles thread pc (Pool.at_mem_calls at_)
          cases thread with
          | none => exact absurd done busy
          | some worker =>
              cases pc with
              | enqDraw task expected => exact role.elim
              | enqCas task expected last => exact role.elim
              | deqDraw => exact testing.draw ending done pending at_
              | deqXchg first => exact absurd ⟨some worker, first, at_⟩ pending
  · have lap := ending.passed.resolve_left done
    subst lap
    exact testing.main_on fits small ending.low done

theorem Testing.reaches_end (testing : Testing QUEUE_SIZE NUM_TASKS padding state)
    (fits : NUM_TASKS ≤ QUEUE_SIZE) (small : QUEUE_SIZE < 2 ^ 31) (positive : 0 < QUEUE_SIZE)
    (ending : Ending QUEUE_SIZE state distance) :
    ∃ final, Reaches (testProgram QUEUE_SIZE NUM_THREADS).next Counted state final ∧
      final.Done := by
  generalize remains : left state distance = bound
  induction bound using Nat.strong_induction_on generalizing state distance with
  | _ bound ih =>
      by_cases done : state.Done
      · exact ⟨state, Reaches.refl _ _ state, done⟩
      · obtain ⟨act, next, fewer, counts, moved, later, less⟩ :=
          testing.goes_on fits small ending done
        rw [remains] at less
        obtain ⟨final, reached, ended⟩ :=
          ih _ less (testing.kept fits small positive counts moved) later rfl
        exact ⟨final, ((Reaches.refl _ _ state).tail counts moved).trans reached, ended⟩

theorem Testing.taken_le (testing : Testing QUEUE_SIZE NUM_TASKS padding state) :
    (state.hist.taken : Multiset TaskDesc) ≤ (testTasks NUM_TASKS padding : Multiset TaskDesc) := by
  have conserved : (state.hist.stored : Multiset TaskDesc) =
      contents QUEUE_SIZE EmptyTask state.mem.tasks + (state.hist.taken : Multiset TaskDesc) :=
    testing.conserved
  have front : state.hist.stored <+: testTasks NUM_TASKS padding := ⟨_, testing.order⟩
  calc (state.hist.taken : Multiset TaskDesc)
      ≤ contents QUEUE_SIZE EmptyTask state.mem.tasks + (state.hist.taken : Multiset TaskDesc) :=
        Multiset.le_add_left _ _
    _ = (state.hist.stored : Multiset TaskDesc) := conserved.symm
    _ ≤ (testTasks NUM_TASKS padding : Multiset TaskDesc) := front.sublist.subperm

/-- In a queue with a slot for every task, and while the tickets do not overflow, the test neither
loses nor repeats a task, and it can be ended as long as the front has a lap of tickets left. -/
theorem atomic_test (fits : NUM_TASKS ≤ QUEUE_SIZE) (small : QUEUE_SIZE < 2 ^ 31)
    (positive : 0 < QUEUE_SIZE)
    {trace : List (TestPool NUM_THREADS × Act (Option (Fin NUM_THREADS)) Pc)}
    (run : Run (testProgram QUEUE_SIZE NUM_THREADS).next
      (testStart QUEUE_SIZE NUM_TASKS NUM_THREADS padding) trace state)
    (counted : Meets Counted trace) : AtomicTest QUEUE_SIZE NUM_TASKS padding state := by
  have testing := testing_of_run fits small positive run counted
  refine
    { in_order := ⟨_, testing.order⟩
      tickets := ?_
      conserved := testing.conserved
      stamps := ?_
      inside := ?_
      all := ?_
      ends := ?_ }
  · cases at_ : state.at none with
    | none =>
        have passes := testing.passes
        rw [at_] at passes
        have rear : state.mem.rear + 1 = state.hist.stored.length := passes
        omega
    | some pc =>
        rcases testing.main_at at_ with ⟨_, _, rear⟩ | ⟨_, _, rear⟩ <;> omega
  · have apart : ((testTasks NUM_TASKS padding).map (fun task => task.task_id - 1)).Nodup := by
      rw [testTasks, List.map_map]
      apply List.Nodup.map ?_ List.nodup_range
      intro i j same
      have equal : (i : ℤ) + 1 - 1 = (j : ℤ) + 1 - 1 := same
      omega
    have within :=
      Multiset.map_le_map (f := fun task : TaskDesc => task.task_id - 1) testing.taken_le
    rw [Multiset.map_coe, Multiset.map_coe] at within
    exact Multiset.coe_nodup.mp (Multiset.nodup_of_le within (Multiset.coe_nodup.mpr apart))
  · intro task member
    exact testTasks_id (Multiset.mem_coe.mp (Multiset.mem_of_le testing.taken_le member))
  · intro done
    have gets := testing.gets
    rw [total_done received Pc.toTake done] at gets
    exact Int.ofNat_inj.mp gets
  · intro low
    exact testing.reaches_end fits small positive (ending_lap state low)

/-- Eight tasks in the queue of the source, and two workers to take them. -/
theorem atomic_test_eight : ∃ final,
    Reaches (testProgram (32 * 1024 * 1024) 2).next Counted
      (testStart (32 * 1024 * 1024) 8 2 (fun i => i)) final ∧
    final.Done ∧ final.hist.taken.length = 2 * (8 / 2) := by
  have start : AtomicTest (32 * 1024 * 1024) 8 (fun i => i)
      (testStart (32 * 1024 * 1024) 8 2 (fun i => i)) :=
    atomic_test (by decide) (by decide) (by decide) .nil (Transition.meets_nil _)
  obtain ⟨final, reached, done⟩ := start.ends (by decide)
  obtain ⟨trace, run, counted⟩ := reached
  have ended := atomic_test (by decide) (by decide) (by decide) run counted
  exact ⟨final, ⟨trace, run, counted⟩, done, ended.all done⟩

end QueueBench.AtomicQueue
