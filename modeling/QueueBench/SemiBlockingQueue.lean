import Mathlib.Data.Fintype.Basic
import QueueBench.Lib.Machine

/-! SimpleQueueImpl/semiblockingqueue.c. Puts push on `in_queue` without the lock;
a get holds the lock, pops from `out_queue`, and refills it by reversing the whole
`in_queue` when it is empty. -/

namespace QueueBench.SemiBlockingQueue
open Machine (Outcome Pool Program Client Act)

variable {α ι κ : Type*}

/-- `struct queue_root` and the `next` field of every `struct queue_head`; a null
pointer is `none`. -/
structure QueueRoot (α : Type*) where
  in_queue : Option α
  out_queue : Option α
  lock : Bool
  next : α → Option α

/-- Program points, each named after the assignment or atomic operation it does next. -/
inductive Pc (α : Type*) where
  | putRead (new : α)
  | putWrite (new : α) (in_queue : Option α)
  | putCas (new : α) (in_queue : Option α)
  | getLock
  | getOut
  | getIn
  | getCas (head : α)
  | revNext (head : α)
  | revLink (head : α) (next : Option α)
  | revOut (head : α) (next : Option α)
  | getHead
  | getPop (head : α)
  | getUnlock (head : Option α)
deriving DecidableEq, Repr

def ALLOC_QUEUE_ROOT (next : α → Option α) : QueueRoot α :=
  { in_queue := none
    out_queue := none
    lock := false
    next := next }

def queue_put (new : α) : Pc α := .putRead new

def queue_get : Pc α := .getLock

/-- `puts` lists the nodes in the order of the successful CASes of queue_put, `takes`
the nodes in the order they leave `out_queue`, `rets` what each queue_get returned, in
the order the mutex is released. -/
structure Hist (ι α : Type*) where
  puts : List α
  takes : List α
  rets : List (ι × Option α)

def Hist.returned (hist : Hist ι α) : List α := hist.rets.filterMap Prod.snd

def Hist.start : Hist ι α :=
  { puts := []
    takes := []
    rets := [] }

def client : Client (Pc α) (Option α) Unit :=
  { call := fun _ pc =>
      match pc with
      | .putRead _ => some ()
      | .getLock => some ()
      | _ => none
    quit := fun _ => none
    done := fun _ _ => () }

section Step

variable [DecidableEq α]

/-- One atomic step. A put returns nothing, which is `none`. -/
def step (pc : Pc α) (root : QueueRoot α) : Option (QueueRoot α × Outcome (Pc α) (Option α)) :=
  match pc with
  | .putRead new => some (root, .goto (.putWrite new root.in_queue))
  | .putWrite new in_queue =>
      some ({ root with next := Function.update root.next new in_queue },
        .goto (.putCas new in_queue))
  | .putCas new in_queue =>
      if root.in_queue = in_queue then some ({ root with in_queue := some new }, .ret none)
      else some (root, .retry (.putRead new))
  | .getLock => if root.lock then none else some ({ root with lock := true }, .goto .getOut)
  | .getOut => some (root, .goto (if root.out_queue.isNone then .getIn else .getHead))
  | .getIn =>
      match root.in_queue with
      | none => some (root, .goto .getHead)
      | some head => some (root, .goto (.getCas head))
  | .getCas head =>
      if root.in_queue = some head then
        some ({ root with in_queue := none }, .goto (.revNext head))
      else some (root, .retry .getIn)
  | .revNext head => some (root, .goto (.revLink head (root.next head)))
  | .revLink head next =>
      some ({ root with next := Function.update root.next head root.out_queue },
        .goto (.revOut head next))
  -- `head = next` and the test of `while (head)` touch no shared data
  | .revOut head next =>
      some ({ root with out_queue := some head },
        match next with
        | none => .goto .getHead
        | some following => .goto (.revNext following))
  | .getHead =>
      match root.out_queue with
      | none => some (root, .goto (.getUnlock none))
      | some head => some (root, .goto (.getPop head))
  | .getPop head =>
      some ({ root with out_queue := root.next head }, .goto (.getUnlock (some head)))
  | .getUnlock head => some ({ root with lock := false }, .ret head)

def record (thread : ι) (pc : Pc α) (root : QueueRoot α) (hist : Hist ι α) : Hist ι α :=
  match pc with
  | .putCas new in_queue =>
      if root.in_queue = in_queue then { hist with puts := hist.puts ++ [new] } else hist
  | .getPop head => { hist with takes := hist.takes ++ [head] }
  | .getUnlock head => { hist with rets := hist.rets ++ [(thread, head)] }
  | _ => hist

def program : Program ι (QueueRoot α) (Pc α) (Option α) Unit (Hist ι α) :=
  { client with
    step := step
    record := record }

def start (next : α → Option α) : Pool ι (QueueRoot α) (Pc α) Unit (Hist ι α) :=
  { mem := ALLOC_QUEUE_ROOT next
    thread := fun _ => .idle ()
    hist := .start }

def Pc.offered : Pc α → Option α
  | .putRead new => some new
  | .putWrite new _ => some new
  | .putCas new _ => some new
  | _ => none

/-- The node is neither in the queue nor in an unfinished put. -/
def Free (state : Pool ι (QueueRoot α) (Pc α) Unit (Hist ι α)) (node : α) : Prop :=
  state.hist.puts.count node ≤ state.hist.takes.count node ∧
    ∀ thread, (state.at thread).bind Pc.offered ≠ some node

/-- The condition on a step: only a free node is put. -/
def Guarded (state : Pool ι (QueueRoot α) (Pc α) Unit (Hist ι α)) : Act ι (Pc α) → Prop
  | .call _ (.putRead new) => Free state new
  | _ => True

instance [Fintype ι] (state : Pool ι (QueueRoot α) (Pc α) Unit (Hist ι α)) (node : α) :
    Decidable (Free state node) :=
  inferInstanceAs (Decidable (_ ∧ _))

instance [Fintype ι] (state : Pool ι (QueueRoot α) (Pc α) Unit (Hist ι α))
    (act : Act ι (Pc α)) : Decidable (Guarded state act) :=
  match act with
  | .call _ (.putRead new) => inferInstanceAs (Decidable (Free state new))
  | .call _ (.putWrite _ _) | .call _ (.putCas _ _) | .call _ .getLock | .call _ .getOut
  | .call _ .getIn | .call _ (.getCas _) | .call _ (.revNext _) | .call _ (.revLink _ _)
  | .call _ (.revOut _ _) | .call _ .getHead | .call _ (.getPop _)
  | .call _ (.getUnlock _) | .quit _ | .move _ => isTrue trivial

end Step

def Pc.Locked : Pc α → Prop
  | .putRead _ | .putWrite _ _ | .putCas _ _ | .getLock => False
  | _ => True

def Pc.Reversing : Pc α → Prop
  | .revNext _ | .revLink _ _ | .revOut _ _ => True
  | _ => False

theorem Pc.Reversing.locked {pc : Pc α} (reversing : pc.Reversing) : pc.Locked := by
  cases pc with
  | revNext head => trivial
  | revLink head next => trivial
  | revOut head next => trivial
  | _ => cases reversing

end QueueBench.SemiBlockingQueue
