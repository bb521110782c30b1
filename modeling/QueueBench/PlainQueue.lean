import QueueBench.Lib.RingList
import QueueBench.AtomicQueue

/-! SimpleQueueImpl/queue.c: the same `struct queue` with both counters at 0 and no
synchronisation, for one thread. Nothing marks an empty slot. -/

namespace QueueBench.PlainQueue
open AtomicQueue (TaskDesc Queue)
open RingArith (wrap32 wrap32_eq tmod_of_nonneg)

def create_queue (size : ℕ) (junk : ℤ → TaskDesc) : Queue :=
  { tasks := junk
    capacity := size
    rear := 0
    front := 0 }

def enqueue (QUEUE_SIZE : ℕ) (task : TaskDesc) (q : Queue) : Queue :=
  let rear := wrap32 (q.rear + 1)
  { q with
    rear := rear
    tasks := Function.update q.tasks (rear.tmod QUEUE_SIZE) task }

def dequeue (QUEUE_SIZE : ℕ) (q : Queue) : Queue × TaskDesc :=
  let front := wrap32 (q.front + 1)
  ({ q with front := front }, q.tasks (front.tmod QUEUE_SIZE))

/-- The slots between the two counters hold the items. -/
structure Holds (size : ℕ) (q : Queue) (items : List TaskDesc) : Prop where
  ring : RingList size q.tasks (q.front + 1) items
  counters : q.rear = q.front + items.length
  front_ge : 0 ≤ q.front

variable {size : ℕ} {q : Queue} {items : List TaskDesc} {task : TaskDesc}

theorem holds_create (size : ℕ) (junk : ℤ → TaskDesc) : Holds size (create_queue size junk) [] :=
  { ring := RingList.empty size _ _
    counters := rfl
    front_ge := Int.le_refl 0 }

theorem Holds.enqueue (holds : Holds size q items) (room : items.length < size)
    (low : q.rear + 1 < 2 ^ 31) (task : TaskDesc) :
    Holds size (PlainQueue.enqueue size task q) (items ++ [task]) ∧
      (PlainQueue.enqueue size task q).rear = q.rear + 1 ∧
      (PlainQueue.enqueue size task q).front = q.front := by
  have counters := holds.counters
  have frontGe := holds.front_ge
  have rear : wrap32 (q.rear + 1) = q.rear + 1 := wrap32_eq (by omega) low
  have cell : (q.rear + 1).tmod size = (q.front + 1 + items.length) % size := by
    rw [tmod_of_nonneg (by omega), counters, add_right_comm]
  have result : PlainQueue.enqueue size task q = { q with
      rear := q.rear + 1
      tasks := Function.update q.tasks ((q.front + 1 + items.length) % size) task } := by
    simp only [PlainQueue.enqueue, rear, cell]
  rw [result]
  refine ⟨?_, rfl, rfl⟩
  refine
    { ring := holds.ring.push room task
      counters := ?_
      front_ge := frontGe }
  change q.rear + 1 = q.front + (items ++ [task]).length
  rw [List.length_append, List.length_singleton]
  push_cast
  omega

theorem Holds.dequeue (holds : Holds size q (task :: items)) (low : q.front + 1 < 2 ^ 31) :
    (PlainQueue.dequeue size q).2 = task ∧ Holds size (PlainQueue.dequeue size q).1 items ∧
      (PlainQueue.dequeue size q).1.rear = q.rear ∧
      (PlainQueue.dequeue size q).1.front = q.front + 1 := by
  have counters := holds.counters
  have frontGe := holds.front_ge
  have front : wrap32 (q.front + 1) = q.front + 1 := wrap32_eq (by omega) low
  have cell : (q.front + 1).tmod size = (q.front + 1) % size := tmod_of_nonneg (by omega) size
  have result : PlainQueue.dequeue size q = ({ q with front := q.front + 1 }, task) := by
    simp only [PlainQueue.dequeue, front, cell, holds.ring.head]
  rw [result]
  refine ⟨rfl, ?_, rfl, rfl⟩
  · refine
      { ring := holds.ring.pop
        counters := ?_
        front_ge := by change 0 ≤ q.front + 1; omega }
    rw [List.length_cons] at counters
    push_cast at counters
    change q.rear = q.front + 1 + items.length
    omega

end QueueBench.PlainQueue
