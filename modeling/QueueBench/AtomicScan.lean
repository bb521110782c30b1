import Mathlib.Data.Nat.Find
import QueueBench.AtomicConservation

/-! How many slots one call of the atomic queue looks at when no other thread interferes. A
dequeue takes the first task ahead of it. An enqueue compares every slot with what the slot
before it held, so an empty slot is taken only behind another one. -/

namespace QueueBench.AtomicQueue
open Machine (Outcome Pool Act Returns)
open RingArith (addAndFetch addAndFetch_eq tmod_of_nonneg slot_range slot_reached)
open Transition (Run Reaches run_of_play)

def slotAt (size : ℕ) (counter : ℤ) (distance : ℕ) : ℤ := (counter + 1 + distance) % size

variable {size : ℕ} {q after : Queue} {task expected : TaskDesc} {retries distance : ℕ}

theorem slotAt_range (positive : 0 < size) (counter : ℤ) (distance : ℕ) :
    0 ≤ slotAt size counter distance ∧ slotAt size counter distance < size :=
  slot_range (by omega) _

/-! ### A dequeue -/

/-- The first task ahead of the counter lies at this distance. -/
structure Ahead (size : ℕ) (q : Queue) (distance : ℕ) : Prop where
  task : q.tasks (slotAt size q.front distance) ≠ EmptyTask
  empty : ∀ nearer < distance, q.tasks (slotAt size q.front nearer) = EmptyTask

def taken (size : ℕ) (q : Queue) (distance : ℕ) : Queue :=
  { q with
    front := q.front + 1 + distance
    tasks := Function.update q.tasks (slotAt size q.front distance) EmptyTask }

theorem Ahead.exists_lt {slot : ℤ} (low : 0 ≤ slot) (high : slot < size)
    (nonempty : q.tasks slot ≠ EmptyTask) : ∃ distance < size, Ahead size q distance := by
  classical
  obtain ⟨far, near, reached⟩ := slot_reached low high (q.front + 1)
  have found : ∃ distance, q.tasks (slotAt size q.front distance) ≠ EmptyTask :=
    ⟨far, by rw [slotAt, reached]; exact nonempty⟩
  refine ⟨Nat.find found, ?_, ?_⟩
  · have least := Nat.find_min' found (show q.tasks (slotAt size q.front far) ≠ EmptyTask by
      rw [slotAt, reached]
      exact nonempty)
    omega
  · exact
      { task := Nat.find_spec found
        empty := fun nearer less => not_not.mp (Nat.find_min found less) }

def searched (q : Queue) (attempts : ℕ) : Queue := { q with front := q.front + attempts }

theorem deq_draw (frontGe : -1 ≤ q.front) (low : q.front + distance + 1 < 2 ^ 31) :
    step size .deqDraw (searched q distance) =
      some (searched q (distance + 1), .goto (.deqXchg (q.front + distance + 1))) := by
  have ticket : addAndFetch (q.front + distance) = q.front + distance + 1 :=
    addAndFetch_eq (by omega) low
  simp only [step, searched, ticket, Nat.cast_add, Nat.cast_one, add_assoc]

theorem draw_cell {counter : ℤ} (counterGe : -1 ≤ counter) :
    (counter + distance + 1).tmod size = slotAt size counter distance := by
  rw [tmod_of_nonneg (by omega), slotAt, add_right_comm]

theorem deq_passes (frontGe : -1 ≤ q.front)
    (empty : q.tasks (slotAt size q.front distance) = EmptyTask) :
    step size (.deqXchg (q.front + distance + 1)) (searched q (distance + 1)) =
      some (searched q (distance + 1), .retry .deqDraw) := by
  -- Emptying an empty slot changes nothing.
  have same : Function.update q.tasks (slotAt size q.front distance) EmptyTask = q.tasks := by
    rw [← empty]
    exact Function.update_eq_self _ q.tasks
  simp only [step, searched, draw_cell frontGe, same, empty]
  rfl

theorem deq_takes (frontGe : -1 ≤ q.front)
    (nonzero : (q.tasks (slotAt size q.front distance)).task_id ≠ 0) :
    step size (.deqXchg (q.front + distance + 1)) (searched q (distance + 1)) =
      some (taken size q distance, .ret (some (q.tasks (slotAt size q.front distance)))) := by
  have front : q.front + (distance + 1 : ℕ) = q.front + 1 + distance := by
    push_cast
    omega
  simp only [step, searched, taken, draw_cell frontGe, if_neg nonzero, front]

theorem Ahead.returns (ahead : Ahead size q distance)
    (valid : ∀ slot, q.tasks slot = EmptyTask ∨ (q.tasks slot).task_id ≠ 0)
    (frontGe : -1 ≤ q.front) (low : q.front + 1 + distance < 2 ^ 31) :
    Returns (step size) dequeue_atomic q (taken size q distance)
      (some (q.tasks (slotAt size q.front distance))) distance := by
  have nonzero : (q.tasks (slotAt size q.front distance)).task_id ≠ 0 :=
    fun zero => ahead.task ((empty_of_id valid).mp zero)
  have whole : Returns (step size) .deqDraw (searched q 0) (taken size q distance)
      (some (q.tasks (slotAt size q.front distance))) distance := by
    apply @Returns.of_retries _ _ _ _ _ _ (fun _ => Pc.deqDraw) (searched q)
    · intro attempts early left later
      have passes := deq_passes frontGe (ahead.empty attempts early)
      exact Returns.of_goto (deq_draw frontGe (by omega)) (Returns.of_retry passes later)
    · have takes := deq_takes frontGe nonzero
      exact Returns.of_goto (deq_draw frontGe (by omega)) (Returns.of_ret takes)
  rwa [searched, Nat.cast_zero, add_zero] at whole

variable {ι : Type*} [DecidableEq ι] {QUEUE_SIZE : ℕ} {state : Pool ι Queue Pc Unit Hist}

theorem held_of_reaches
    (reached : Reaches (program QUEUE_SIZE taskClient).next Counted
      (AtomicQueue.start QUEUE_SIZE (fun _ : ι => ())) state) : Held state := by
  obtain ⟨trace, run, met⟩ := reached
  exact run.invariant met (held_start QUEUE_SIZE _)
    (fun _ _ _ held counted moved => held_next taskClient_enters held counted moved)

/-- In every state with a task in the ring a dequeue looks at the slots up to the first one that
holds a task, returns that task and empties its slot. -/
theorem dequeue_scans
    (reached : Reaches (program QUEUE_SIZE taskClient).next Counted
      (AtomicQueue.start QUEUE_SIZE (fun _ : ι => ())) state)
    (nonempty : ∃ slot : ℤ, 0 ≤ slot ∧ slot < QUEUE_SIZE ∧ state.mem.tasks slot ≠ EmptyTask) :
    ∃ distance < QUEUE_SIZE, Ahead QUEUE_SIZE state.mem distance ∧
      (state.mem.front + 1 + distance < 2 ^ 31 →
        Returns (step QUEUE_SIZE) dequeue_atomic state.mem (taken QUEUE_SIZE state.mem distance)
          (some (state.mem.tasks (slotAt QUEUE_SIZE state.mem.front distance))) distance) := by
  have held := held_of_reaches reached
  obtain ⟨slot, low, high, task⟩ := nonempty
  obtain ⟨distance, near, ahead⟩ := Ahead.exists_lt low high task
  exact ⟨distance, near, ahead, ahead.returns held.valid held.front_ge⟩

/-- A poll of the empty ring moves the front counter, so the second of two tasks is taken
first; the rear counter then stands in front of the task that is left. -/
private def polledFirst : List (Act Bool Pc) :=
  [.call false dequeue_atomic, .move false, .move false,
    .call true (enqueue_atomic (benchTask 1)), .move true, .move true,
    .call true (enqueue_atomic (benchTask 2)), .move true, .move true,
    .move false, .move false]

theorem dequeue_scans_polledFirst :
    ∃ (state : Pool Bool Queue Pc Unit Hist), ∃ distance < 2, Ahead 2 state.mem distance ∧
      (state.mem.front + 1 + distance < 2 ^ 31 →
        Returns (step 2) dequeue_atomic state.mem (taken 2 state.mem distance)
          (some (state.mem.tasks (slotAt 2 state.mem.front distance))) distance) := by
  have run : Run (program 2 taskClient).next (AtomicQueue.start 2 (fun _ => ())) _ _ :=
    run_of_play polledFirst rfl
  exact ⟨_, dequeue_scans ⟨_, run, by decide⟩ ⟨0, by decide, by decide, by decide⟩⟩

/-! ### An enqueue -/

/-- What the local `expected` of an enqueue holds after so many failed attempts: the content of
the slot tried last. -/
def expectedAt (size : ℕ) (q : Queue) : ℕ → TaskDesc
  | 0 => EmptyTask
  | attempts + 1 => q.tasks (slotAt size q.rear attempts)

/-- Of the slots ahead of the counter the one at this distance is the first whose content equals
that of the slot before it, the slot before the first one being taken for empty. -/
structure Repeats (size : ℕ) (q : Queue) (distance : ℕ) : Prop where
  equal : q.tasks (slotAt size q.rear distance) = expectedAt size q distance
  first : ∀ nearer < distance, q.tasks (slotAt size q.rear nearer) ≠ expectedAt size q nearer

instance (size : ℕ) (q : Queue) (distance : ℕ) : Decidable (Repeats size q distance) :=
  decidable_of_iff (q.tasks (slotAt size q.rear distance) = expectedAt size q distance ∧
      ∀ nearer < distance, q.tasks (slotAt size q.rear nearer) ≠ expectedAt size q nearer)
    ⟨fun both => ⟨both.1, both.2⟩, fun repeats => ⟨repeats.equal, repeats.first⟩⟩

/-- Within one lap such a repetition is met, and it is one of empty slots. -/
def MeetsEmptyPair (size : ℕ) (q : Queue) : Prop :=
  ∃ distance < size, Repeats size q distance ∧
    q.tasks (slotAt size q.rear distance) = EmptyTask

instance (size : ℕ) (q : Queue) : Decidable (MeetsEmptyPair size q) :=
  inferInstanceAs (Decidable (∃ distance < size, _ ∧ _))

/-- The call returns after at most one lap, with the task in a slot that was empty and every
other slot as it was. -/
def StoresWithinLap (size : ℕ) (task : TaskDesc) (q : Queue) : Prop :=
  ∃ after slot retries, Returns (step size) (enqueue_atomic task) q after none retries ∧
    retries + 1 ≤ size ∧ 0 ≤ slot ∧ slot < (size : ℤ) ∧ q.tasks slot = EmptyTask ∧
    after.tasks = Function.update q.tasks slot task

def attempted (q : Queue) (attempts : ℕ) : Queue := { q with rear := q.rear + attempts }

theorem enq_draw (rearGe : -1 ≤ q.rear) (low : q.rear + distance + 1 < 2 ^ 31)
    (task expected : TaskDesc) :
    step size (.enqDraw task expected) (attempted q distance) =
      some (attempted q (distance + 1), .goto (.enqCas task expected (q.rear + distance + 1))) := by
  have ticket : addAndFetch (q.rear + distance) = q.rear + distance + 1 :=
    addAndFetch_eq (by omega) low
  simp only [step, attempted, ticket, Nat.cast_add, Nat.cast_one, add_assoc]

theorem enq_fails (rearGe : -1 ≤ q.rear)
    (different : q.tasks (slotAt size q.rear distance) ≠ expectedAt size q distance) :
    step size (.enqCas task (expectedAt size q distance) (q.rear + distance + 1))
        (attempted q (distance + 1)) =
      some (attempted q (distance + 1), .retry (.enqDraw task (expectedAt size q (distance + 1)))) := by
  simp only [step, attempted, draw_cell rearGe, if_neg different]
  rfl

def stored (size : ℕ) (task : TaskDesc) (q : Queue) (distance : ℕ) : Queue :=
  { q with
    rear := q.rear + (distance + 1 : ℕ)
    tasks := Function.update q.tasks (slotAt size q.rear distance) task }

theorem enq_stores (rearGe : -1 ≤ q.rear)
    (equal : q.tasks (slotAt size q.rear distance) = expectedAt size q distance) :
    step size (.enqCas task (expectedAt size q distance) (q.rear + distance + 1))
        (attempted q (distance + 1)) = some (stored size task q distance, .ret none) := by
  simp only [step, attempted, draw_cell rearGe, if_pos equal]
  rfl

theorem Repeats.returns (repeats : Repeats size q distance) (rearGe : -1 ≤ q.rear)
    (low : q.rear + 1 + distance < 2 ^ 31) (task : TaskDesc) :
    Returns (step size) (enqueue_atomic task) q (stored size task q distance) none distance := by
  have whole : Returns (step size) (.enqDraw task (expectedAt size q 0)) (attempted q 0)
      (stored size task q distance) none distance := by
    apply @Returns.of_retries _ _ _ _ _ _
      (fun attempts => Pc.enqDraw task (expectedAt size q attempts)) (attempted q)
    · intro attempts early left later
      have missed := repeats.first attempts early
      exact Returns.of_goto (enq_draw rearGe (by omega) task _)
        (Returns.of_retry (enq_fails rearGe missed) later)
    · exact Returns.of_goto (enq_draw rearGe (by omega) task _)
        (Returns.of_ret (enq_stores rearGe repeats.equal))
  rwa [attempted, Nat.cast_zero, add_zero] at whole

theorem attempts_fail (rearGe : -1 ≤ q.rear) {attempts : ℕ}
    (low : q.rear + attempts < 2 ^ 31)
    (different : ∀ nearer < attempts,
      q.tasks (slotAt size q.rear nearer) ≠ expectedAt size q nearer)
    (returns : Returns (step size) (enqueue_atomic task) q after none retries) :
    ∃ fewer, retries = attempts + fewer ∧
      Returns (step size) (.enqDraw task (expectedAt size q attempts)) (attempted q attempts)
        after none fewer := by
  induction attempts with
  | zero =>
      refine ⟨retries, (Nat.zero_add retries).symm, ?_⟩
      rw [attempted, Nat.cast_zero, add_zero]
      exact returns
  | succ attempts ih =>
      push_cast at low
      obtain ⟨fewer, count, onward⟩ :=
        ih (by omega) (fun nearer less => different nearer (Nat.lt_succ_of_lt less))
      have drawn := onward.goto_inv (enq_draw rearGe (by omega) task _)
      obtain ⟨rest, more, later⟩ :=
        drawn.retry_inv (enq_fails rearGe (different attempts (Nat.lt_succ_self attempts)))
      exact ⟨rest, by omega, later⟩

theorem Repeats.exists_of_not_all (fails : ¬ ∀ nearer < size,
      q.tasks (slotAt size q.rear nearer) ≠ expectedAt size q nearer) :
    ∃ distance < size, Repeats size q distance := by
  classical
  have found : ∃ distance, distance < size ∧
      q.tasks (slotAt size q.rear distance) = expectedAt size q distance := by
    by_contra nothing
    exact fails (fun nearer less equal => nothing ⟨nearer, less, equal⟩)
  obtain ⟨less, equal⟩ := Nat.find_spec found
  refine ⟨Nat.find found, less, equal, ?_⟩
  intro nearer nearest same
  exact Nat.find_min found nearest ⟨nearest.trans less, same⟩

theorem stores_iff (rearGe : -1 ≤ q.rear) (low : q.rear + size < 2 ^ 31)
    (nonzero : task.task_id ≠ 0) : StoresWithinLap size task q ↔ MeetsEmptyPair size q := by
  constructor
  · rintro ⟨after, slot, retries, returns, fewer, slotLow, slotHigh, empty, tasks⟩
    by_cases all : ∀ nearer < size, q.tasks (slotAt size q.rear nearer) ≠ expectedAt size q nearer
    · obtain ⟨rest, count, _⟩ := attempts_fail rearGe low all returns
      omega
    · obtain ⟨distance, less, repeats⟩ := Repeats.exists_of_not_all all
      refine ⟨distance, less, repeats, ?_⟩
      obtain ⟨same, _⟩ := (repeats.returns rearGe (by omega) task).unique returns
      by_contra full
      -- The slot of the hypothesis was empty, so it is not the one written to.
      have apart : slot ≠ slotAt size q.rear distance := by
        intro equal
        exact full (equal ▸ empty)
      rw [same] at tasks
      have written : Function.update q.tasks (slotAt size q.rear distance) task slot =
          Function.update q.tasks slot task slot := congrFun tasks slot
      rw [Function.update_self, Function.update_of_ne apart, empty] at written
      exact ne_empty nonzero written.symm
  · rintro ⟨distance, less, repeats, empty⟩
    have range := slotAt_range (show 0 < size by omega) q.rear distance
    exact ⟨_, slotAt size q.rear distance, distance, repeats.returns rearGe (by omega) task, less,
      range.1, range.2, empty, rfl⟩

/-- In any state the call stores within one lap exactly if the first two neighbouring slots with
equal content, an empty slot being put in front, are empty ones. -/
theorem enqueue_within_lap_iff
    (reached : Reaches (program QUEUE_SIZE taskClient).next Counted
      (AtomicQueue.start QUEUE_SIZE (fun _ : ι => ())) state)
    (low : state.mem.rear + QUEUE_SIZE < 2 ^ 31) (nonzero : task.task_id ≠ 0) :
    StoresWithinLap QUEUE_SIZE task state.mem ↔ MeetsEmptyPair QUEUE_SIZE state.mem :=
  stores_iff (held_of_reaches reached).rear_ge low nonzero

/-- Three slots: the first task stays behind when the other two are taken. -/
private def leftBehind : List (Act Bool Pc) :=
  polledFirst.take 9 ++
    [.call true (enqueue_atomic (benchTask 3)), .move true, .move true, .move false, .move false,
      .call false dequeue_atomic, .move false, .move false]

theorem enqueue_within_lap_iff_leftBehind :
    ∃ state : Pool Bool Queue Pc Unit Hist, Reaches (program 3 taskClient).next Counted
        (AtomicQueue.start 3 (fun _ => ())) state ∧
      StoresWithinLap 3 (benchTask 4) state.mem := by
  have run : Run (program 3 taskClient).next (AtomicQueue.start 3 (fun _ => ())) _ _ :=
    run_of_play leftBehind rfl
  have reached : Reaches (program 3 taskClient).next Counted (AtomicQueue.start 3 (fun _ => ())) _ :=
    ⟨_, run, by decide⟩
  exact ⟨_, reached, (enqueue_within_lap_iff reached (by decide) (by decide)).mpr (by decide)⟩

/-- Two slots, one of them empty: no attempt of the lap meets what it expects. -/
theorem empty_slot_not_taken :
    ∃ state : Pool Bool Queue Pc Unit Hist, Reaches (program 2 taskClient).next Counted
        (AtomicQueue.start 2 (fun _ => ())) state ∧
      state.mem.tasks 1 = EmptyTask ∧ state.mem.rear + 2 < 2 ^ 31 ∧
      ¬ StoresWithinLap 2 (benchTask 3) state.mem := by
  have run : Run (program 2 taskClient).next (AtomicQueue.start 2 (fun _ => ())) _ _ :=
    run_of_play polledFirst rfl
  refine ⟨_, ⟨_, run, by decide⟩, by decide, by decide, ?_⟩
  intro within
  exact absurd ((stores_iff (by decide) (by decide) (by decide)).mp within) (by decide)

end QueueBench.AtomicQueue
