import QueueBench.BlockingBuffer
import QueueBench.Lib.Spawn

/-! testblockingqueue_multiplethreads of SimpleQueueImpl/main.c: main puts all its tasks into the
queue, and only then it creates the threads that take them out. The queue is from create_queue,
which does what create_queue_blocking does. With more tasks than slots main waits for threads that
it is yet to create. -/

namespace QueueBench.BlockingQueue
open Machine (Outcome Pool Program Act Thread Created Staged Finishes Descends scriptProgram
  scriptClient_call calls_next script_next script_total_next total_done brought_next sum_shares)
open RingArith (addAndFetch addAndFetch_eq)
open Transition (Run Meets)

open scoped BigOperators

variable {τ : Type*}

/-- main's loop and `worker_handler`; `none` is main, the others are `worker_threads`. -/
def scripts (tasks : List τ) (NUM_THREADS : ℕ) : Option (Fin NUM_THREADS) → List (Pc τ)
  | none => tasks.map enqueue_blocking
  | some _ => List.replicate (tasks.length / NUM_THREADS) dequeue_blocking

abbrev TestPool (τ : Type*) (NUM_THREADS : ℕ) : Type _ :=
  Pool (Option (Fin NUM_THREADS)) (Queue τ) (Pc τ) (List (Pc τ)) (Hist (Option (Fin NUM_THREADS)) τ)

def testStart (QUEUE_SIZE NUM_THREADS : ℕ) (junk : ℤ → τ) (tasks : List τ) :
    TestPool τ NUM_THREADS :=
  { mem := create_queue_blocking QUEUE_SIZE junk
    thread := fun thread => .idle (scripts tasks NUM_THREADS thread)
    hist := .start }

/-- `testblockingqueue_multiplethreads`, where `Created` says when the workers come in. -/
def testProgram (τ : Type*) [DecidableEq τ] (QUEUE_SIZE NUM_THREADS : ℕ) :
    Program (Option (Fin NUM_THREADS)) (Queue τ) (Pc τ) (Option τ) (List (Pc τ))
      (Hist (Option (Fin NUM_THREADS)) τ) :=
  scriptProgram (step QUEUE_SIZE) record

/-- The test comes to its end, and the tasks have been taken in the order of main's loop. -/
structure Completes [DecidableEq τ] (QUEUE_SIZE NUM_THREADS : ℕ) (junk : ℤ → τ) (tasks : List τ) :
    Prop where
  finishes : Finishes (testProgram τ QUEUE_SIZE NUM_THREADS) (Created none)
    (testStart QUEUE_SIZE NUM_THREADS junk tasks)
  received : ∀ trace state, Run (testProgram τ QUEUE_SIZE NUM_THREADS).next
    (testStart QUEUE_SIZE NUM_THREADS junk tasks) trace state → Meets (Created none) trace →
    state.Done → state.hist.returned = tasks.take (NUM_THREADS * (tasks.length / NUM_THREADS))

/-! ### What the calls are still to do -/

def Pc.toPut : Pc τ → ℤ
  | .enqWait _ | .enqLock _ | .enqInc _ => 1
  | _ => 0

def Pc.toGet : Pc τ → ℤ
  | .deqWait | .deqLock | .deqInc => 1
  | _ => 0

def Pc.brings : Pc τ → List τ
  | .enqWait task | .enqLock task | .enqInc task | .enqStore task _ => [task]
  | _ => []

def Pc.Getting : Pc τ → Prop
  | .deqWait | .deqLock | .deqInc | .deqRead _ | .deqUnlock _ | .deqPost _ => True
  | _ => False

def Pc.rank : Pc τ → ℕ
  | .enqWait _ | .deqWait => 5
  | .enqLock _ | .deqLock => 4
  | .enqInc _ | .deqInc => 3
  | .enqStore _ _ | .deqRead _ => 2
  | .enqUnlock | .deqUnlock _ => 1
  | .enqPost | .deqPost _ => 0

def Role {NUM_THREADS : ℕ} : Option (Fin NUM_THREADS) → Pc τ → Prop
  | none, pc => ¬ pc.Getting
  | some _, pc => pc.Getting

def rears {ι : Type*} (q : Queue τ) (_hist : Hist ι τ) : ℤ := q.rear

def fronts {ι : Type*} (q : Queue τ) (_hist : Hist ι τ) : ℤ := q.front

variable {QUEUE_SIZE NUM_THREADS : ℕ} {junk : ℤ → τ} {tasks : List τ} {q after : Queue τ}
variable {pc : Pc τ} {outcome : Outcome (Pc τ) (Option τ)} {ι : Type*} {hist : Hist ι τ}

structure Effect (q after : Queue τ) (pc : Pc τ) (outcome : Outcome (Pc τ) (Option τ))
    (before later : List τ) : Prop where
  counts : Counts q pc → 0 ≤ q.rear → 0 ≤ q.front →
    after.rear + outcome.pc?.elim 0 Pc.toPut = q.rear + pc.toPut ∧
      after.front + outcome.pc?.elim 0 Pc.toGet = q.front + pc.toGet
  stores : later ++ outcome.pc?.elim [] Pc.brings = before ++ pc.brings
  onward : ∀ next, outcome.pc? = some next →
    outcome = .goto next ∧ next.rank < pc.rank ∧ (next.Getting ↔ pc.Getting)

theorem effect_goto {next : Pc τ} {stored : List τ} (rear : after.rear = q.rear)
    (front : after.front = q.front) (puts : next.toPut = pc.toPut) (gets : next.toGet = pc.toGet)
    (brings : next.brings = pc.brings) (nearer : next.rank < pc.rank)
    (same : next.Getting ↔ pc.Getting) : Effect q after pc (.goto next) stored stored := by
  refine
    { counts := ?_
      stores := ?_
      onward := ?_ }
  · intro _ _ _
    change after.rear + next.toPut = _ ∧ after.front + next.toGet = _
    rw [rear, front, puts, gets]
    exact ⟨rfl, rfl⟩
  · change stored ++ next.brings = _
    rw [brings]
  · intro other reached
    cases reached
    exact ⟨rfl, nearer, same⟩

theorem step_effect (thread : ι) (hist : Hist ι τ)
    (stepped : step QUEUE_SIZE pc q = some (after, outcome)) :
    Effect q after pc outcome hist.stored (record thread pc q hist).stored := by
  cases pc with
  | enqWait task =>
      simp only [step] at stepped
      split at stepped
      · cases stepped
      · cases stepped
        exact effect_goto rfl rfl rfl rfl rfl (Nat.lt_succ_self _) Iff.rfl
  | enqLock task =>
      simp only [step] at stepped
      split at stepped
      · cases stepped
      · cases stepped
        exact effect_goto rfl rfl rfl rfl rfl (Nat.lt_succ_self _) Iff.rfl
  | enqInc task =>
      cases stepped
      refine
        { counts := ?_
          stores := rfl
          onward := ?_ }
      · intro counts rearLow _
        have grown : addAndFetch q.rear = q.rear + 1 := addAndFetch_eq (by omega) counts
        exact ⟨(Int.add_zero _).trans grown, rfl⟩
      · intro next reached
        cases reached
        exact ⟨rfl, Nat.lt_succ_self _, Iff.rfl⟩
  | enqStore task last =>
      cases stepped
      refine
        { counts := fun _ _ _ => ⟨rfl, rfl⟩
          stores := ?_
          onward := ?_ }
      · change (hist.stores ++ [(last, task)]).map Prod.snd ++ [] = _
        rw [List.append_nil, List.map_append]
        rfl
      · intro next reached
        cases reached
        exact ⟨rfl, Nat.lt_succ_self _, Iff.rfl⟩
  | enqUnlock =>
      cases stepped
      exact effect_goto rfl rfl rfl rfl rfl (Nat.lt_succ_self _) Iff.rfl
  | deqWait =>
      simp only [step] at stepped
      split at stepped
      · cases stepped
      · cases stepped
        exact effect_goto rfl rfl rfl rfl rfl (Nat.lt_succ_self _) Iff.rfl
  | deqLock =>
      simp only [step] at stepped
      split at stepped
      · cases stepped
      · cases stepped
        exact effect_goto rfl rfl rfl rfl rfl (Nat.lt_succ_self _) Iff.rfl
  | deqInc =>
      cases stepped
      refine
        { counts := ?_
          stores := rfl
          onward := ?_ }
      · intro counts _ frontLow
        have grown : addAndFetch q.front = q.front + 1 := addAndFetch_eq (by omega) counts
        exact ⟨rfl, (Int.add_zero _).trans grown⟩
      · intro next reached
        cases reached
        exact ⟨rfl, Nat.lt_succ_self _, Iff.rfl⟩
  | deqRead first =>
      cases stepped
      exact effect_goto rfl rfl rfl rfl rfl (Nat.lt_succ_self _) Iff.rfl
  | deqUnlock task =>
      cases stepped
      exact effect_goto rfl rfl rfl rfl rfl (Nat.lt_succ_self _) Iff.rfl
  | enqPost =>
      cases stepped
      exact ⟨fun _ _ _ => ⟨rfl, rfl⟩, rfl, fun _ impossible => by cases impossible⟩
  | deqPost task =>
      cases stepped
      exact ⟨fun _ _ _ => ⟨rfl, rfl⟩, rfl, fun _ impossible => by cases impossible⟩

theorem step_descends (QUEUE_SIZE : ℕ) :
    Descends (step QUEUE_SIZE : Pc τ → Queue τ → Option (Queue τ × _)) Pc.rank := by
  intro pc next q after outcome stepped reached
  have onward := (step_effect () Hist.start stepped).onward next reached
  exact ⟨onward.1, onward.2.1⟩

/-! ### The state of the test -/

/-- `fits` says why main is not done when the queue is too small. -/
structure Testing (QUEUE_SIZE : ℕ) (tasks : List τ) (state : TestPool τ NUM_THREADS) : Prop where
  held : Held QUEUE_SIZE state.forget
  staged : Staged none (scripts tasks NUM_THREADS) state
  puts : state.total rears (Thread.due Pc.toPut) = tasks.length
  gets : state.total fronts (Thread.due Pc.toGet) =
    (NUM_THREADS * (tasks.length / NUM_THREADS) : ℕ)
  roles : ∀ thread, ∀ pc ∈ (state.thread thread).calls, Role thread pc
  entries : ∀ thread, ∀ pc ∈ (state.thread thread).script,
    (∃ task, pc = .enqWait task) ∨ pc = .deqWait
  order : state.hist.stored ++ (state.thread none).calls.flatMap Pc.brings = tasks
  fits : state.thread none = .idle [] → tasks.length ≤ QUEUE_SIZE

variable {state next : TestPool τ NUM_THREADS} {act : Act (Option (Fin NUM_THREADS)) (Pc τ)}

theorem toPut_nonneg (pc : Pc τ) : 0 ≤ pc.toPut := by
  cases pc <;> simp only [Pc.toPut] <;> omega

theorem toGet_nonneg (pc : Pc τ) : 0 ≤ pc.toGet := by
  cases pc <;> simp only [Pc.toGet] <;> omega

theorem getting_idle (getting : pc.Getting) : pc.toPut = 0 ∧ pc.brings = [] := by
  cases pc with
  | enqWait task => exact getting.elim
  | enqLock task => exact getting.elim
  | enqInc task => exact getting.elim
  | enqStore task last => exact getting.elim
  | _ => exact ⟨rfl, rfl⟩

theorem putting_idle (putting : ¬ pc.Getting) : pc.toGet = 0 := by
  cases pc with
  | deqWait => exact absurd trivial putting
  | deqLock => exact absurd trivial putting
  | deqInc => exact absurd trivial putting
  | _ => rfl

/-- While the workers wait to be created, all they are to get is still there. -/
theorem due_waiting (roles : ∀ thread, ∀ pc ∈ (state.thread thread).calls, Role thread pc)
    (waiting : ∀ other, other ≠ none →
      state.thread other = .idle (scripts tasks NUM_THREADS other)) :
    ∑ thread, Thread.due Pc.toGet (state.thread thread) =
      (NUM_THREADS * (tasks.length / NUM_THREADS) : ℕ) := by
  have first : Thread.due Pc.toGet (state.thread none) = 0 :=
    Thread.due_eq_zero (fun pc member => putting_idle (roles none pc member))
  have others : ∀ worker : Fin NUM_THREADS,
      Thread.due Pc.toGet (state.thread (some worker)) = (tasks.length / NUM_THREADS : ℕ) := by
    intro worker
    rw [waiting (some worker) (Option.some_ne_none worker)]
    change ((List.replicate (tasks.length / NUM_THREADS) _).map Pc.toGet).sum = _
    rw [List.map_replicate, List.sum_replicate]
    exact Int.mul_one _
  exact sum_shares first others

theorem due_done (roles : ∀ thread, ∀ pc ∈ (state.thread thread).calls, Role thread pc)
    (done : state.thread none = .idle []) :
    ∑ thread, Thread.due Pc.toPut (state.thread thread) = 0 := by
  apply Finset.sum_eq_zero
  intro thread _
  apply Thread.due_eq_zero
  intro pc member
  cases thread with
  | none =>
      rw [done] at member
      cases member
  | some worker => exact (getting_idle (roles (some worker) pc member)).1

/-- main is done before a worker is created only if there is a slot for every task. -/
theorem fits_of_waiting (held : Held QUEUE_SIZE state.forget)
    (puts : state.total rears (Thread.due Pc.toPut) = tasks.length)
    (gets : state.total fronts (Thread.due Pc.toGet) =
      (NUM_THREADS * (tasks.length / NUM_THREADS) : ℕ))
    (roles : ∀ thread, ∀ pc ∈ (state.thread thread).calls, Role thread pc)
    (waiting : ∀ other, other ≠ none →
      state.thread other = .idle (scripts tasks NUM_THREADS other))
    (done : state.thread none = .idle []) : tasks.length ≤ QUEUE_SIZE := by
  have window : state.mem.rear - state.mem.front ≤ QUEUE_SIZE := held.window.2
  rw [Pool.total, due_done roles done] at puts
  rw [Pool.total, due_waiting roles waiting] at gets
  unfold rears at puts
  unfold fronts at gets
  omega

theorem testing_start (QUEUE_SIZE NUM_THREADS : ℕ) (junk : ℤ → τ) (tasks : List τ) :
    Testing QUEUE_SIZE tasks (testStart QUEUE_SIZE NUM_THREADS junk tasks) := by
  have roles : ∀ thread, ∀ pc ∈ ((testStart QUEUE_SIZE NUM_THREADS junk tasks).thread thread).calls,
      Role thread pc := by
    intro thread pc member
    cases thread with
    | none =>
        obtain ⟨task, _, rfl⟩ := List.mem_map.mp member
        exact id
    | some worker =>
        rw [List.eq_of_mem_replicate member]
        trivial
  have puts : ∑ thread, Thread.due Pc.toPut
      ((testStart QUEUE_SIZE NUM_THREADS junk tasks).thread thread) = tasks.length := by
    have others : ∀ worker : Fin NUM_THREADS, Thread.due Pc.toPut
        ((testStart QUEUE_SIZE NUM_THREADS junk tasks).thread (some worker)) = 0 :=
      fun worker => Thread.due_eq_zero
        (fun pc member => (getting_idle (roles (some worker) pc member)).1)
    have first : Thread.due Pc.toPut
        ((testStart QUEUE_SIZE NUM_THREADS junk tasks).thread none) = tasks.length := by
      change ((tasks.map enqueue_blocking).map Pc.toPut).sum = _
      rw [List.map_map]
      change (tasks.map (fun _ => (1 : ℤ))).sum = _
      rw [List.map_const', List.sum_replicate]
      exact Int.mul_one _
    rw [Fintype.sum_option, first, Finset.sum_eq_zero (fun worker _ => others worker), add_zero]
  refine
    { held := held_start junk
      staged := Or.inl (fun _ _ => rfl)
      puts := ?_
      gets := ?_
      roles := roles
      entries := ?_
      order := ?_
      fits := ?_ }
  · rw [Pool.total, puts]
    exact Int.zero_add _
  · rw [Pool.total, due_waiting roles (fun _ _ => rfl)]
    exact Int.zero_add _
  · intro thread pc member
    cases thread with
    | none =>
        obtain ⟨task, _, rfl⟩ := List.mem_map.mp member
        exact Or.inl ⟨task, rfl⟩
    | some worker => exact Or.inr (List.eq_of_mem_replicate member)
  · change [] ++ (tasks.map enqueue_blocking).flatMap Pc.brings = tasks
    rw [List.nil_append, List.flatMap_map]
    exact List.flatMap_singleton' tasks
  · intro done
    have nothing : tasks.map (enqueue_blocking : τ → Pc τ) = [] := Thread.idle.inj done
    rw [List.map_eq_nil_iff.mp nothing]
    exact Nat.zero_le _

/-! ### Runs of the test -/

theorem Testing.counted (testing : Testing QUEUE_SIZE tasks state)
    (few : tasks.length < 2 ^ 31) (act : Act (Option (Fin NUM_THREADS)) (Pc τ)) :
    Counted state.forget act := by
  have shared : NUM_THREADS * (tasks.length / NUM_THREADS) ≤ tasks.length :=
    Nat.mul_div_le tasks.length NUM_THREADS
  cases act with
  | call thread entry => trivial
  | quit thread => trivial
  | move thread =>
      intro pc at_
      rw [Pool.forget_at] at at_
      cases pc with
      | enqInc task =>
          have part := Pool.due_le_total rears toPut_nonneg at_
          rw [testing.puts] at part
          change state.mem.rear + 1 ≤ _ at part
          change state.mem.rear + 1 < 2 ^ 31
          omega
      | deqInc =>
          have part := Pool.due_le_total fronts toGet_nonneg at_
          rw [testing.gets] at part
          change state.mem.front + 1 ≤ _ at part
          change state.mem.front + 1 < 2 ^ 31
          omega
      | _ => trivial

variable [DecidableEq τ]

theorem Testing.free (testing : Testing QUEUE_SIZE tasks state)
    (moved : (testProgram τ QUEUE_SIZE NUM_THREADS).next state act = some next) :
    (program QUEUE_SIZE).next state.forget act = some next.forget := by
  refine Program.forget_next rfl rfl ?_
    (fun _ => rfl) moved
  intro thread script entry left idle called
  have member : entry ∈ (state.thread thread).script := by
    rw [idle, scriptClient_call called]
    exact List.mem_cons_self
  rcases testing.entries thread entry member with ⟨task, rfl⟩ | rfl
  · rfl
  · rfl

theorem Testing.order_next (testing : Testing QUEUE_SIZE tasks state)
    (moved : (testProgram τ QUEUE_SIZE NUM_THREADS).next state act = some next) :
    next.hist.stored ++ (next.thread none).calls.flatMap Pc.brings = tasks := by
  refine (brought_next Hist.stored (fun _ => Pc.brings) Pc.Getting moved ?_
    (fun _ _ getting => (getting_idle getting).2) ?_ ?_ (fun _ _ => rfl)
    (fun _ _ _ => rfl)).trans testing.order
  · intro thread pc mem outcome _ stepped
    exact (step_effect thread state.hist stepped).stores
  · intro thread pc mem outcome reached _ stepped stays getting
    exact ((step_effect thread state.hist stepped).onward reached stays).2.2.mpr getting
  · intro thread pc other at_
    cases thread with
    | none => exact absurd rfl other
    | some worker => exact testing.roles (some worker) pc (Pool.at_mem_calls at_)

theorem Testing.kept (testing : Testing QUEUE_SIZE tasks state) (few : tasks.length < 2 ^ 31)
    (created : Created none state act)
    (moved : (testProgram τ QUEUE_SIZE NUM_THREADS).next state act = some next) :
    Testing QUEUE_SIZE tasks next := by
  have held : Held QUEUE_SIZE next.forget :=
    held_next testing.held (testing.counted few act) (testing.free moved)
  obtain ⟨phase, inv⟩ := testing.held.shaped
  have nonneg : 0 ≤ state.mem.rear ∧ 0 ≤ state.mem.front := inv.contents.nonneg
  have counts : ∀ thread pc mem outcome, act = .move thread → state.at thread = some pc →
      step QUEUE_SIZE pc state.mem = some (mem, outcome) →
      mem.rear + outcome.pc?.elim 0 Pc.toPut = state.mem.rear + pc.toPut ∧
        mem.front + outcome.pc?.elim 0 Pc.toGet = state.mem.front + pc.toGet := by
    intro thread pc mem outcome same at_ stepped
    subst same
    have low : Counts state.mem pc := by
      apply testing.counted few (.move thread) pc
      rw [Pool.forget_at]
      exact at_
    exact (step_effect thread state.hist stepped).counts low nonneg.1 nonneg.2
  have puts : next.total rears (Thread.due Pc.toPut) = tasks.length := by
    rw [← testing.puts]
    apply script_total_next moved
    intro thread pc mem outcome same at_ stepped
    exact (counts thread pc mem outcome same at_ stepped).1
  have gets : next.total fronts (Thread.due Pc.toGet) =
      (NUM_THREADS * (tasks.length / NUM_THREADS) : ℕ) := by
    rw [← testing.gets]
    apply script_total_next moved
    intro thread pc mem outcome same at_ stepped
    exact (counts thread pc mem outcome same at_ stepped).2
  have roles : ∀ thread, ∀ pc ∈ (next.thread thread).calls, Role thread pc := by
    apply calls_next ?_ moved testing.roles
    intro thread pc mem after outcome reached stepped stays role
    have same := ((step_effect thread state.hist stepped).onward reached stays).2.2
    cases thread with
    | none => exact fun getting => role (same.mp getting)
    | some worker => exact same.mpr role
  refine
    { held := held
      staged := testing.staged.kept created moved
      puts := puts
      gets := gets
      roles := roles
      entries := script_next moved testing.entries
      order := testing.order_next moved
      fits := ?_ }
  intro finished
  by_cases done : state.thread none = .idle []
  · exact testing.fits done
  · have mine : act.thread = none := created.resolve_right done
    apply fits_of_waiting held puts gets roles ?_ finished
    intro other different
    rw [Program.next_other moved (mine ▸ different)]
    exact testing.staged.resolve_right done other different

theorem testing_of_run (few : tasks.length < 2 ^ 31)
    {trace : List (TestPool τ NUM_THREADS × Act (Option (Fin NUM_THREADS)) (Pc τ))}
    (run : Run (testProgram τ QUEUE_SIZE NUM_THREADS).next
      (testStart QUEUE_SIZE NUM_THREADS junk tasks) trace state)
    (meets : Meets (Created none) trace) : Testing QUEUE_SIZE tasks state :=
  run.invariant meets (testing_start QUEUE_SIZE NUM_THREADS junk tasks)
    (fun _ _ _ testing created moved => testing.kept few created moved)

/-- The workers never wait for tasks in vain, so main in front of a full queue is all that can hold
up the test. -/
theorem Testing.standstill (testing : Testing QUEUE_SIZE tasks state) (positive : 0 < QUEUE_SIZE)
    (still : ∀ act, Created none state act →
      (testProgram τ QUEUE_SIZE NUM_THREADS).next state act = none) :
    state.Done ∨ QUEUE_SIZE < tasks.length := by
  obtain ⟨blocked, quiet⟩ := testing.staged.standstill still
  by_cases nobody : state.Quiet
  · exact Or.inl (quiet nobody)
  · right
    obtain ⟨phase, inv⟩ := testing.held.shaped
    have nonneg : 0 ≤ state.mem.rear ∧ 0 ≤ state.mem.front := inv.contents.nonneg
    have someone : ∃ thread pc, state.at thread = some pc := by
      by_contra none_
      apply nobody
      intro thread
      cases standing : state.at thread with
      | none => rfl
      | some pc => exact absurd ⟨thread, pc, standing⟩ none_
    rw [← Pool.forget_at] at blocked someone
    have stands := testing.held.deadlock positive blocked someone
    rw [Pool.forget_at] at stands someone
    obtain ⟨thread, pc, at_⟩ := someone
    rcases stands with ⟨producers, full⟩ | ⟨consumers, empty⟩
    · obtain ⟨task, rfl⟩ := producers thread pc at_
      have part := Pool.due_le_total rears toPut_nonneg at_
      rw [testing.puts] at part
      change state.mem.rear + 1 ≤ _ at part
      change state.mem.rear - state.mem.front = _ at full
      omega
    · obtain rfl := consumers thread pc at_
      have part := Pool.due_le_total fronts toGet_nonneg at_
      rw [testing.gets] at part
      change state.mem.front + 1 ≤ _ at part
      change state.mem.rear - state.mem.front = 0 at empty
      have done : state.thread none = .idle [] := by
        rcases testing.staged with waiting | done
        · cases thread with
          | none => exact absurd trivial (testing.roles none _ (Pool.at_mem_calls at_))
          | some worker =>
              rw [Pool.at_idle (waiting (some worker) (Option.some_ne_none worker))] at at_
              cases at_
        · exact done
      have puts := testing.puts
      rw [Pool.total, due_done testing.roles done] at puts
      change state.mem.rear + 0 = _ at puts
      have shared : NUM_THREADS * (tasks.length / NUM_THREADS) ≤ tasks.length :=
        Nat.mul_div_le tasks.length NUM_THREADS
      omega

omit [DecidableEq τ] in
theorem Testing.received (testing : Testing QUEUE_SIZE tasks state) (done : state.Done) :
    state.hist.returned = tasks.take (NUM_THREADS * (tasks.length / NUM_THREADS)) := by
  obtain ⟨phase, inv⟩ := testing.held.shaped
  have quiet : ∀ thread, state.forget.at thread = none := by
    intro thread
    rw [Pool.forget_at]
    exact Pool.at_idle (done thread)
  have unowned : phase = none := inv.unowned (inv.mutex.unlocked_of_quiet quiet)
  subst unowned
  have stored : state.hist.stored = tasks := by
    have order := testing.order
    rw [done none] at order
    exact (List.append_nil _).symm.trans order
  have reads : state.hist.reads.length = NUM_THREADS * (tasks.length / NUM_THREADS) := by
    have gets := testing.gets
    rw [total_done fronts Pc.toGet done] at gets
    change state.mem.front = _ at gets
    have front : state.mem.front = state.hist.reads.length + 0 := inv.contents.front_eq
    omega
  have order : state.hist.returned ++ [] = state.hist.stored.take state.hist.reads.length :=
    inv.contents.order
  rw [List.append_nil, stored, reads] at order
  exact order

/-- The test comes to its end, with the tasks in their order, exactly if the queue has a slot for
every task: main puts all of them in before it creates a thread that takes one out. -/
theorem blocking_test_completes_iff {QUEUE_SIZE : ℕ} (positive : 0 < QUEUE_SIZE) (NUM_THREADS : ℕ)
    (junk : ℤ → τ) {tasks : List τ} (few : tasks.length < 2 ^ 31) :
    Completes QUEUE_SIZE NUM_THREADS junk tasks ↔ tasks.length ≤ QUEUE_SIZE := by
  constructor
  · intro completes
    obtain ⟨final, ⟨trace, run, meets⟩, done⟩ :=
      completes.finishes.reaches_end (step_descends QUEUE_SIZE)
    exact (testing_of_run few run meets).fits (done none)
  · intro fits
    constructor
    · apply (step_descends QUEUE_SIZE).finishes
      intro trace state run meets still
      rcases (testing_of_run few run meets).standstill positive still with done | more
      · exact done
      · omega
    · intro trace state run meets done
      exact (testing_of_run few run meets).received done

/-- Eight tasks fit the queue of the source; a ninth does not fit one of eight slots. -/
theorem blocking_test_completes_iff_eight :
    Completes (32 * 1024 * 1024) 3 (fun _ => 0) (List.range 8) ∧
      ¬ Completes 8 3 (fun _ => 0) (List.range 9) :=
  ⟨(blocking_test_completes_iff (by decide) 3 (fun _ => 0) (by decide)).mpr (by decide),
    fun completes => absurd
      ((blocking_test_completes_iff (by decide) 3 (fun _ => 0) (by decide)).mp completes)
      (by decide)⟩

end QueueBench.BlockingQueue
