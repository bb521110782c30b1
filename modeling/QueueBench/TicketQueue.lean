import QueueBench.Lib.Machine
import QueueBench.Lib.RingArith

/-! The ticket rings of SQueue/squeue.c, QueueBenchmarks/squeue.c,
QueueBenchmarks/squeuemultiple.c and the two copies of xtaskqueue.c. All of them
draw a ticket with one atomic increment and then work on one slot; they differ in
the emptiness test in front of the head ticket and in where the ring lives. -/

namespace QueueBench.TicketQueue
open Machine (Outcome Pool Program Client Act)
open RingArith (addAndFetch fill)

/-- `struct queue`, `struct theQueue`, and the globals `head`, `tail`, `theQueue`. -/
structure Queue where
  data : ℤ → ℤ
  head : ℤ
  tail : ℤ

/-- Program points, each named after the access it makes next. -/
inductive Pc where
  | add (elem : ℤ)
  | store (elem cur_tail : ℤ)
  | gate
  | compare
  | compareWith (first : ℤ)
  | draw
  | spin (cur_head : ℤ)
  | read (cur_head : ℤ)
  | clear (cur_head elem : ℤ)
deriving DecidableEq, Repr

def TRUE : ℤ := 1

/-- One atomic step. `size` is MAX_SIZE or QUEUE_SIZE; `headFirst` is the order in
which the compiler reads the operands of `head == tail`. -/
def step (size : ℕ) (headFirst : Bool) (pc : Pc) (q : Queue) :
    Option (Queue × Outcome Pc ℤ) :=
  match pc with
  | .add elem =>
      let cur_tail := addAndFetch q.tail
      some ({ q with tail := cur_tail }, .goto (.store elem cur_tail))
  | .store elem cur_tail =>
      some ({ q with data := Function.update q.data (cur_tail.tmod size) elem }, .ret TRUE)
  -- `(tail - MAX_SIZE) > 0 && (head == tail)`: the second operand is read only if the first holds
  | .gate => some (q, .goto (if q.tail - size > 0 then .compare else .draw))
  | .compare => some (q, .goto (.compareWith (if headFirst then q.head else q.tail)))
  | .compareWith first =>
      let second := if headFirst then q.tail else q.head
      some (q, if first = second then .ret (-1) else .goto .draw)
  | .draw =>
      let cur_head := addAndFetch q.head
      some ({ q with head := cur_head }, .goto (.spin cur_head))
  | .spin cur_head =>
      some (q, if q.data (cur_head.tmod size) = 0 then .retry (.spin cur_head)
        else .goto (.read cur_head))
  | .read cur_head => some (q, .goto (.clear cur_head (q.data (cur_head.tmod size))))
  | .clear cur_head elem =>
      some ({ q with data := Function.update q.data (cur_head.tmod size) 0 }, .ret elem)

def init (size : ℕ) (junk : ℤ → ℤ) : Queue :=
  { data := fill size 0 junk
    head := -1
    tail := -1 }

/-! ### QueueBenchmarks/xtaskqueue.c, and SQueue/squeue.c with the same bodies -/

def InitXTaskQueue (MAX_SIZE : ℕ) (junk : ℤ → ℤ) : Queue := init MAX_SIZE junk

def EnqueueToQ (elem : ℤ) : Pc := .add elem

def DequeueFromQ : Pc := .draw

/-! ### mpi_queue/xtaskqueue.c: `if(isQueueEmpty(q)) return -1;` in front -/

def mpiDequeueFromQ : Pc := .compare

/-! ### QueueBenchmarks/squeue.c: `if(isEmpty()) return -1;` in front -/

def InitQueue (MAX_SIZE : ℕ) (junk : ℤ → ℤ) : Queue := init MAX_SIZE junk

def Enqueue (elem : ℤ) : Pc := .add elem

def Dequeue : Pc := .gate

/-! ### QueueBenchmarks/squeuemultiple.c: the same test, inlined, on QUEUE_SIZE -/

def EnqueueMultiple (elem : ℤ) : Pc := .add elem

def DequeueMultiple : Pc := .gate

/-- `QUEUE_SIZE = (int)(MAX_SIZE/numQueues)` of InitQueues. -/
def QUEUE_SIZE (MAX_SIZE numQueues : ℕ) : ℕ := MAX_SIZE / numQueues

def InitQueues (MAX_SIZE numQueues : ℕ) (junk : ℤ → ℤ) (_queue : ℕ) : Queue :=
  init (QUEUE_SIZE MAX_SIZE numQueues) junk

/-! ### History of a run -/

/-- `puts` lists the elements by tail ticket, `stores` the tail ticket and element of
each finished store, `rets` the thread, head ticket and value of each finished
dequeue, and `empties` the threads that were told the queue is empty. -/
structure Hist (ι : Type*) where
  puts : List ℤ
  stores : List (ℤ × ℤ)
  rets : List (ι × ℤ × ℤ)
  empties : List ι

variable {ι : Type*}

def Hist.start : Hist ι :=
  { puts := []
    stores := []
    rets := []
    empties := [] }

def Hist.stored (hist : Hist ι) : List ℤ := hist.stores.map Prod.fst

def Hist.cleared (hist : Hist ι) : List ℤ := hist.rets.map (fun ret => ret.2.1)

def Hist.values (hist : Hist ι) : List ℤ := hist.rets.map (fun ret => ret.2.2)

def record (headFirst : Bool) (thread : ι) (pc : Pc) (q : Queue) (hist : Hist ι) : Hist ι :=
  match pc with
  | .add elem => { hist with puts := hist.puts ++ [elem] }
  | .store elem cur_tail => { hist with stores := hist.stores ++ [(cur_tail, elem)] }
  | .clear cur_head elem => { hist with rets := hist.rets ++ [(thread, cur_head, elem)] }
  | .compareWith first =>
      if first = (if headFirst then q.tail else q.head) then
        { hist with empties := hist.empties ++ [thread] }
      else hist
  | .gate | .compare | .draw | .spin _ | .read _ => hist

def Pc.putTicket : Pc → Option ℤ
  | .store _ cur_tail => some cur_tail
  | _ => none

def Pc.getTicket : Pc → Option ℤ
  | .spin cur_head => some cur_head
  | .read cur_head => some cur_head
  | .clear cur_head _ => some cur_head
  | _ => none

/-- Where a call begins; an element offered to the ring is not the empty mark. -/
def Pc.Entry : Pc → Prop
  | .add elem => elem ≠ 0
  | .gate | .compare | .draw => True
  | _ => False

instance (pc : Pc) : Decidable pc.Entry :=
  match pc with
  | .add elem => inferInstanceAs (Decidable (elem ≠ 0))
  | .gate | .compare | .draw => isTrue trivial
  | .store _ _ | .compareWith _ | .spin _ | .read _ | .clear _ _ => isFalse not_false

variable {κ : Type*}

def program (size : ℕ) (headFirst : Bool) (client : Client Pc ℤ κ) :
    Program ι Queue Pc ℤ κ (Hist ι) :=
  { client with
    step := step size headFirst
    record := record headFirst }

def start (q : Queue) (scripts : ι → κ) : Pool ι Queue Pc κ (Hist ι) :=
  { mem := q
    thread := fun thread => .idle (scripts thread)
    hist := .start }

/-- The next ticket of a counter stays below 2^31 and, from the second lap on, its
slot has been cleared by the dequeue one lap earlier. -/
def Fresh (size : ℕ) (counter : ℤ) (hist : Hist ι) : Prop :=
  counter + 1 < 2 ^ 31 ∧ ((size : ℤ) ≤ counter + 1 → counter + 1 - size ∈ hist.cleared)

def Allowed (size : ℕ) (q : Queue) (hist : Hist ι) : Pc → Prop
  | .add _ => Fresh size q.tail hist
  | .draw => Fresh size q.head hist
  | _ => True

/-- The condition on a step: if it draws a ticket, on either side, the ticket is fresh. -/
def Disciplined (size : ℕ) (state : Pool ι Queue Pc κ (Hist ι)) : Act ι Pc → Prop :=
  state.Moving (Allowed size state.mem state.hist)

instance (size : ℕ) (counter : ℤ) (hist : Hist ι) : Decidable (Fresh size counter hist) :=
  inferInstanceAs (Decidable (_ ∧ (_ → _)))

instance (size : ℕ) (q : Queue) (hist : Hist ι) (pc : Pc) :
    Decidable (Allowed size q hist pc) := by
  cases pc <;> unfold Allowed <;> infer_instance

instance (size : ℕ) (state : Pool ι Queue Pc κ (Hist ι)) (act : Act ι Pc) :
    Decidable (Disciplined size state act) :=
  inferInstanceAs (Decidable (state.Moving (Allowed size state.mem state.hist) act))

def taskClient : Client Pc ℤ Unit :=
  { call := fun _ pc =>
      match pc with
      | .add elem => if elem = 0 then none else some ()
      | .draw => some ()
      | _ => none
    quit := fun _ => none
    done := fun _ _ => () }

end QueueBench.TicketQueue
