import QueueBench.TicketLimits

/-! mpi_queue/xtaskqueue.c used by one thread: the ring whose dequeue tests for emptiness from
the first call on. It is a bounded queue that answers -1 when it is empty, through any number
of laps and of dequeues in vain. -/

namespace QueueBench.TicketQueue
open Fifo (Op Polls Serves Deterministic Spacious replies outstanding puts)
open Machine (Returns)

def ClearXTaskQueue (MAX_SIZE : ℕ) (q : Queue) : Queue := init MAX_SIZE q.data

def isQueueEmpty (q : Queue) : Bool := decide (q.head = q.tail)

def isQueueFull (MAX_SIZE : ℕ) (q : Queue) : Bool := isFull MAX_SIZE q

def reply (answer : Option ℤ) : ℤ := answer.getD (-1)

/-- A call of EnqueueToQ, which answers TRUE. -/
def mpiPut (MAX_SIZE : ℕ) (headFirst : Bool) (elem : ℤ) (q after : Queue) : Prop :=
  enqueueCall MAX_SIZE headFirst elem true q after

def mpiGet (MAX_SIZE : ℕ) (headFirst : Bool) (elem : ℤ) (q after : Queue) : Prop :=
  dequeueCall MAX_SIZE headFirst mpiDequeueFromQ elem q after

/-- The ring at rest with these elements outstanding: both tests are exact, a dequeue of the
empty ring changes nothing, and a slot holds its element or zero. -/
structure AtRest (MAX_SIZE : ℕ) (headFirst : Bool) (q : Queue) (items : List ℤ) : Prop where
  empty_iff : isQueueEmpty q = true ↔ items = []
  full_iff : isQueueFull MAX_SIZE q = true ↔ items.length = MAX_SIZE
  unchanged : items = [] → Returns (step MAX_SIZE headFirst) mpiDequeueFromQ q q (-1) 0
  filled : ∀ (index : ℕ) item, items[index]? = some item →
    q.data ((q.head + 1 + index) % MAX_SIZE) = item
  zero : ∀ slot : ℤ, 0 ≤ slot → slot < MAX_SIZE →
    (∀ index : ℕ, index < items.length → (q.head + 1 + index) % MAX_SIZE ≠ slot) →
    q.data slot = 0

variable {size : ℕ} {q : Queue} {items : List ℤ}

theorem Holds.rests (holds : Holds size q items) (headFirst : Bool) :
    AtRest size headFirst q items :=
  { empty_iff := by rw [isQueueEmpty, decide_eq_true_iff]; exact holds.empty_iff
    full_iff := holds.isFull_iff
    unchanged := fun nothing => compare_empty size headFirst (holds.empty_iff.mpr nothing)
    filled := holds.ring.holds
    zero := holds.ring.blank }

theorem mpi_polls (size : ℕ) (headFirst : Bool) :
    Polls size (2 ^ 31 - 1) (fun elem => elem ≠ 0) (mpiPut size headFirst)
      (mpiGet size headFirst) reply
      (fun calls q items => Holds size q items ∧ q.tail + 1 ≤ calls ∧ q.head + 1 ≤ calls) := by
  constructor
  · intro calls q items elem rep few room nonzero
    obtain ⟨holds, tailLe, headLe⟩ := rep
    obtain ⟨after, returns, kept, head, tail⟩ :=
      holds.enqueue headFirst room nonzero (by omega)
    exact ⟨after, ⟨0, returns⟩, kept, by push_cast; omega, by push_cast; omega⟩
  · intro calls q items rep few
    obtain ⟨holds, tailLe, headLe⟩ := rep
    cases items with
    | nil =>
        have empty := compare_empty size headFirst (holds.empty_iff.mpr rfl)
        exact ⟨q, ⟨0, empty⟩, holds, by push_cast; omega, by push_cast; omega⟩
    | cons elem items =>
        obtain ⟨after, returns, kept, head, tail⟩ := holds.compare headFirst (by omega)
        exact ⟨after, ⟨0, returns⟩, kept, by push_cast; omega, by push_cast; omega⟩

theorem mpi_deterministic (size : ℕ) (headFirst : Bool) :
    Deterministic (mpiPut size headFirst) (mpiGet size headFirst) := by
  constructor
  · rintro elem state next other ⟨_, left⟩ ⟨_, right⟩
    exact (right.unique left).1
  · rintro out result state next other ⟨_, left⟩ ⟨_, right⟩
    exact ⟨(right.unique left).2.1, (right.unique left).1⟩

/-- One thread on the ring sees a bounded queue: every call returns, with the answers of the
abstract queue and no others, and the ring then rests with what that queue holds. -/
theorem mpi_queue_refines {MAX_SIZE : ℕ} (headFirst : Bool) {start : Queue}
    (fresh : (∃ junk, start = InitXTaskQueue MAX_SIZE junk) ∨
      ∃ used, start = ClearXTaskQueue MAX_SIZE used)
    {ops : List (Op ℤ)} (spacious : Spacious MAX_SIZE [] ops)
    (nonzero : ∀ elem ∈ puts ops, elem ≠ 0) (few : ops.length < 2 ^ 31 - 1) :
    (∃ final, Serves (mpiPut MAX_SIZE headFirst) (mpiGet MAX_SIZE headFirst) start ops
      ((replies [] ops).map reply) final) ∧
    ∀ outs final, Serves (mpiPut MAX_SIZE headFirst) (mpiGet MAX_SIZE headFirst) start ops
        outs final →
      outs = (replies [] ops).map reply ∧ AtRest MAX_SIZE headFirst final (outstanding [] ops) := by
  obtain ⟨data, rfl⟩ : ∃ data, start = init MAX_SIZE data := by
    rcases fresh with ⟨junk, rfl⟩ | ⟨used, rfl⟩
    · exact ⟨junk, rfl⟩
    · exact ⟨used.data, rfl⟩
  have started : Holds MAX_SIZE (init MAX_SIZE data) [] ∧
      (init MAX_SIZE data).tail + 1 ≤ (0 : ℕ) ∧ (init MAX_SIZE data).head + 1 ≤ (0 : ℕ) :=
    ⟨holds_init MAX_SIZE data, Int.le_refl 0, Int.le_refl 0⟩
  obtain ⟨final, serves, holds, _⟩ :=
    (mpi_polls MAX_SIZE headFirst).serves started spacious nonzero (by omega)
  refine ⟨⟨final, serves⟩, ?_⟩
  intro outs other also
  obtain ⟨answers, same⟩ := serves.unique (mpi_deterministic MAX_SIZE headFirst) also
  rw [same]
  exact ⟨answers, holds.rests headFirst⟩

private def vainCalls : List (Op ℤ) := [.get, .put 5, .put 6, .get, .put 7, .get, .get, .get]

theorem mpi_queue_refines_vainCalls :
    ∃ final, Serves (mpiPut 2 true) (mpiGet 2 true) (InitXTaskQueue 2 (fun _ => 9)) vainCalls
        [-1, 5, 6, 7, -1] final ∧ AtRest 2 true final [] := by
  obtain ⟨⟨final, serves⟩, all⟩ := @mpi_queue_refines 2 true _ (Or.inl ⟨fun _ => 9, rfl⟩) vainCalls
    ⟨by decide, by decide, by decide, trivial⟩ (by decide) (by decide)
  exact ⟨final, serves, (all _ final serves).2⟩

end QueueBench.TicketQueue
