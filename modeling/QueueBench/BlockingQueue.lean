import QueueBench.Lib.Machine
import QueueBench.Lib.RingArith

/-! SimpleQueueImpl/blockingqueue.c: a ring behind one mutex and two counting
semaphores. The semaphores and the mutex are those of POSIX; a wait that cannot go on
has no step. -/

namespace QueueBench.BlockingQueue
open Machine (Outcome Pool Program Client Act)
open RingArith (addAndFetch)

variable {τ ι : Type*}

/-- `struct queue`, with tasks of any type. -/
structure Queue (τ : Type*) where
  tasks : ℤ → τ
  capacity : ℕ
  rear : ℤ
  front : ℤ
  lock : Bool
  task_sem : ℕ
  spaces_sem : ℕ

/-- Program points, each named after the operation it does next. -/
inductive Pc (τ : Type*) where
  | enqWait (task : τ)
  | enqLock (task : τ)
  | enqInc (task : τ)
  | enqStore (task : τ) (last : ℤ)
  | enqUnlock
  | enqPost
  | deqWait
  | deqLock
  | deqInc
  | deqRead (first : ℤ)
  | deqUnlock (task : τ)
  | deqPost (task : τ)
deriving DecidableEq, Repr

def create_queue_blocking (size : ℕ) (junk : ℤ → τ) : Queue τ :=
  { tasks := junk
    capacity := size
    rear := 0
    front := 0
    lock := false
    task_sem := 0
    spaces_sem := size }

def enqueue_blocking (task : τ) : Pc τ := .enqWait task

def dequeue_blocking : Pc τ := .deqWait

/-- One atomic step. An enqueue returns nothing, which is `none`. -/
def step (QUEUE_SIZE : ℕ) (pc : Pc τ) (q : Queue τ) :
    Option (Queue τ × Outcome (Pc τ) (Option τ)) :=
  match pc with
  | .enqWait task =>
      if q.spaces_sem = 0 then none
      else some ({ q with spaces_sem := q.spaces_sem - 1 }, .goto (.enqLock task))
  | .enqLock task => if q.lock then none else some ({ q with lock := true }, .goto (.enqInc task))
  | .enqInc task =>
      let last := addAndFetch q.rear
      some ({ q with rear := last }, .goto (.enqStore task last))
  | .enqStore task last =>
      some ({ q with tasks := Function.update q.tasks (last.tmod QUEUE_SIZE) task },
        .goto .enqUnlock)
  | .enqUnlock => some ({ q with lock := false }, .goto .enqPost)
  | .enqPost => some ({ q with task_sem := q.task_sem + 1 }, .ret none)
  | .deqWait =>
      if q.task_sem = 0 then none
      else some ({ q with task_sem := q.task_sem - 1 }, .goto .deqLock)
  | .deqLock => if q.lock then none else some ({ q with lock := true }, .goto .deqInc)
  | .deqInc =>
      let first := addAndFetch q.front
      some ({ q with front := first }, .goto (.deqRead first))
  | .deqRead first => some (q, .goto (.deqUnlock (q.tasks (first.tmod QUEUE_SIZE))))
  | .deqUnlock task => some ({ q with lock := false }, .goto (.deqPost task))
  | .deqPost task => some ({ q with spaces_sem := q.spaces_sem + 1 }, .ret (some task))

/-- `stores` lists the position and task of each store and `reads` the positions read,
`taken` the thread and the task it returns, in the order of the critical sections. -/
structure Hist (ι τ : Type*) where
  stores : List (ℤ × τ)
  reads : List ℤ
  taken : List (ι × τ)

def Hist.start : Hist ι τ :=
  { stores := []
    reads := []
    taken := [] }

def Hist.stored (hist : Hist ι τ) : List τ := hist.stores.map Prod.snd

def Hist.returned (hist : Hist ι τ) : List τ := hist.taken.map Prod.snd

def record (thread : ι) (pc : Pc τ) (_q : Queue τ) (hist : Hist ι τ) : Hist ι τ :=
  match pc with
  | .enqStore task last => { hist with stores := hist.stores ++ [(last, task)] }
  | .deqRead first => { hist with reads := hist.reads ++ [first] }
  | .deqUnlock task => { hist with taken := hist.taken ++ [(thread, task)] }
  | _ => hist

def client : Client (Pc τ) (Option τ) Unit :=
  { call := fun _ pc =>
      match pc with
      | .enqWait _ => some ()
      | .deqWait => some ()
      | _ => none
    quit := fun _ => none
    done := fun _ _ => () }

def program (QUEUE_SIZE : ℕ) : Program ι (Queue τ) (Pc τ) (Option τ) Unit (Hist ι τ) :=
  { client with
    step := step QUEUE_SIZE
    record := record }

def start (q : Queue τ) : Pool ι (Queue τ) (Pc τ) Unit (Hist ι τ) :=
  { mem := q
    thread := fun _ => .idle ()
    hist := .start }

def Counts (q : Queue τ) : Pc τ → Prop
  | .enqInc _ => q.rear + 1 < 2 ^ 31
  | .deqInc => q.front + 1 < 2 ^ 31
  | _ => True

/-- The condition on a step: no counter overflows. -/
def Counted (state : Pool ι (Queue τ) (Pc τ) Unit (Hist ι τ)) : Act ι (Pc τ) → Prop :=
  state.Moving (Counts state.mem)

instance (q : Queue τ) : DecidablePred (Counts q) := fun pc =>
  match pc with
  | .enqInc _ => inferInstanceAs (Decidable (q.rear + 1 < 2 ^ 31))
  | .deqInc => inferInstanceAs (Decidable (q.front + 1 < 2 ^ 31))
  | .enqWait _ | .enqLock _ | .enqStore _ _ | .enqUnlock | .enqPost | .deqWait | .deqLock
  | .deqRead _ | .deqUnlock _ | .deqPost _ => isTrue trivial

instance (state : Pool ι (Queue τ) (Pc τ) Unit (Hist ι τ)) (act : Act ι (Pc τ)) :
    Decidable (Counted state act) :=
  inferInstanceAs (Decidable (state.Moving (Counts state.mem) act))

def Pc.Locked : Pc τ → Prop
  | .enqInc _ | .enqStore _ _ | .enqUnlock | .deqInc | .deqRead _ | .deqUnlock _ => True
  | _ => False

end QueueBench.BlockingQueue
