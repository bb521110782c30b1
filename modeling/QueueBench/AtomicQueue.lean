import QueueBench.Lib.Machine
import QueueBench.Lib.RingArith

/-! SimpleQueueImpl/queue_atomic.c: tickets from two atomic counters, a slot filled by
compare-exchange and emptied by exchange. A ticket whose slot does not fit is given up
and the next one is drawn. -/

namespace QueueBench.AtomicQueue
open Machine (Outcome Pool Program Client Act)
open RingArith (addAndFetch)

/-- `struct task_desc`; the pointer `params` is its address. The four bytes of padding
before it have no name in the source, but a compare-exchange compares them too. -/
structure TaskDesc where
  task_id : ℤ
  task_type : ℤ
  num_threads : ℤ
  padding : ℕ
  params : ℕ
deriving DecidableEq, Repr

def EmptyTask : TaskDesc :=
  { task_id := 0
    task_type := 0
    num_threads := 0
    padding := 0
    params := 0 }

/-- Task number `i` of SimpleQueueImpl/main.c, whose `params` is `(void*)(5)`; main sets no
padding, here it is zero. -/
def benchTask (i : ℤ) : TaskDesc :=
  { task_id := i
    task_type := 1
    num_threads := 1
    padding := 0
    params := 5 }

/-- `struct queue` without the mutex and the semaphores, which no call uses. -/
structure Queue where
  tasks : ℤ → TaskDesc
  capacity : ℕ
  rear : ℤ
  front : ℤ

def create_queue_atomic (size : ℕ) (tasks : ℤ → TaskDesc) : Queue :=
  { tasks := tasks
    capacity := size
    rear := -1
    front := -1 }

/-- Program points, each named after the atomic operation it does next; `expected` is the
local `emptyTask` of enqueue_atomic. -/
inductive Pc where
  | enqDraw (task expected : TaskDesc)
  | enqCas (task expected : TaskDesc) (last : ℤ)
  | deqDraw
  | deqXchg (first : ℤ)
deriving DecidableEq, Repr

def enqueue_atomic (task : TaskDesc) : Pc := .enqDraw task EmptyTask

def dequeue_atomic : Pc := .deqDraw

/-- One atomic step. A failed compare-exchange leaves the content of the slot in
`expected`. An enqueue returns nothing, which is `none`. -/
def step (QUEUE_SIZE : ℕ) (pc : Pc) (q : Queue) : Option (Queue × Outcome Pc (Option TaskDesc)) :=
  match pc with
  | .enqDraw task expected =>
      let last := addAndFetch q.rear
      some ({ q with rear := last }, .goto (.enqCas task expected last))
  | .enqCas task expected last =>
      let slot := last.tmod QUEUE_SIZE
      if q.tasks slot = expected then
        some ({ q with tasks := Function.update q.tasks slot task }, .ret none)
      else some (q, .retry (.enqDraw task (q.tasks slot)))
  | .deqDraw =>
      let first := addAndFetch q.front
      some ({ q with front := first }, .goto (.deqXchg first))
  | .deqXchg first =>
      let slot := first.tmod QUEUE_SIZE
      let task := q.tasks slot
      some ({ q with tasks := Function.update q.tasks slot EmptyTask },
        if task.task_id = 0 then .retry .deqDraw else .ret (some task))

/-- `stored` lists the tasks in the order of the successful compare-exchanges, `taken` the
tasks in the order of the exchanges that found one. -/
structure Hist where
  stored : List TaskDesc
  taken : List TaskDesc

def Hist.start : Hist :=
  { stored := []
    taken := [] }

variable {ι κ : Type*}

def record (QUEUE_SIZE : ℕ) (_thread : ι) (pc : Pc) (q : Queue) (hist : Hist) : Hist :=
  match pc with
  | .enqCas task expected last =>
      if q.tasks (last.tmod QUEUE_SIZE) = expected then
        { hist with stored := hist.stored ++ [task] }
      else hist
  | .deqXchg first =>
      let task := q.tasks (first.tmod QUEUE_SIZE)
      if task.task_id = 0 then hist else { hist with taken := hist.taken ++ [task] }
  | .enqDraw _ _ | .deqDraw => hist

def program (QUEUE_SIZE : ℕ) (client : Client Pc (Option TaskDesc) κ) :
    Program ι Queue Pc (Option TaskDesc) κ Hist :=
  { client with
    step := step QUEUE_SIZE
    record := record QUEUE_SIZE }

/-- The state before any call, on a ring of empty tasks. -/
def start (QUEUE_SIZE : ℕ) (scripts : ι → κ) : Pool ι Queue Pc κ Hist :=
  { mem := create_queue_atomic QUEUE_SIZE (fun _ => EmptyTask)
    thread := fun thread => .idle (scripts thread)
    hist := .start }

/-- Where a call begins; a task passed in has a non-zero id. -/
def Pc.Entry : Pc → Prop
  | .enqDraw task expected => task.task_id ≠ 0 ∧ expected = EmptyTask
  | .deqDraw => True
  | _ => False

def Counts (q : Queue) : Pc → Prop
  | .enqDraw _ _ => q.rear + 1 < 2 ^ 31
  | .deqDraw => q.front + 1 < 2 ^ 31
  | _ => True

instance (q : Queue) : DecidablePred (Counts q) := fun pc =>
  match pc with
  | .enqDraw _ _ => inferInstanceAs (Decidable (q.rear + 1 < 2 ^ 31))
  | .deqDraw => inferInstanceAs (Decidable (q.front + 1 < 2 ^ 31))
  | .enqCas _ _ _ | .deqXchg _ => isTrue trivial

def Counted (state : Pool ι Queue Pc κ Hist) : Act ι Pc → Prop :=
  state.Moving (Counts state.mem)

instance (state : Pool ι Queue Pc κ Hist) (act : Act ι Pc) : Decidable (Counted state act) :=
  inferInstanceAs (Decidable (state.Moving (Counts state.mem) act))

def taskClient : Client Pc (Option TaskDesc) Unit :=
  { call := fun _ pc =>
      match pc with
      | .enqDraw task expected =>
          if task.task_id ≠ 0 ∧ expected = EmptyTask then some () else none
      | .deqDraw => some ()
      | _ => none
    quit := fun _ => none
    done := fun _ _ => () }

end QueueBench.AtomicQueue
