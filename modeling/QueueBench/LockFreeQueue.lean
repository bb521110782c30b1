import Mathlib.Data.Fintype.Basic
import QueueBench.Lib.Machine
import QueueBench.Lib.RingArith

/-! SimpleQueueImpl/lockfreequeue.c: a linked queue of pointer cells and nodes without a lock.
The heap has a block for every address malloc has given out. An access through NULL, to a freed
block, or to a node as if it were a pointer cell has no step. -/

namespace QueueBench.LockFreeQueue
open Machine (Outcome Pool Program Client Act)
open RingArith (addAndFetch)

variable {α τ ι : Type*}

/-- `struct _node` and `struct _pointer`; `raw` is a block that has not been written yet. -/
inductive Cell (α τ : Type*) where
  | raw
  | node (value : Option τ) (next : Option α)
  | pointer (count : ℤ) (nptr : Option α)
deriving DecidableEq, Repr

/-- `struct _queue` and the memory its pointers lead to. -/
structure Queue (α τ : Type*) where
  head : Option α
  tail : Option α
  heap : α → Option (Cell α τ)

namespace Queue

def count (queue : Queue α τ) (pointer : Option α) : Option ℤ :=
  match pointer.bind queue.heap with
  | some (.pointer count _) => some count
  | _ => none

def nptr (queue : Queue α τ) (pointer : Option α) : Option (Option α) :=
  match pointer.bind queue.heap with
  | some (.pointer _ nptr) => some nptr
  | _ => none

def next (queue : Queue α τ) (node : Option α) : Option (Option α) :=
  match node.bind queue.heap with
  | some (.node _ next) => some next
  | _ => none

def value (queue : Queue α τ) (node : Option α) : Option (Option τ) :=
  match node.bind queue.heap with
  | some (.node value _) => some value
  | _ => none

variable [DecidableEq α]

def write (queue : Queue α τ) (block : α) (cell : Cell α τ) : Queue α τ :=
  { queue with heap := Function.update queue.heap block (some cell) }

def store (queue : Queue α τ) (block : α) (cell : Cell α τ) : Option (Queue α τ) :=
  match queue.heap block with
  | none => none
  | some _ => some (queue.write block cell)

/-- A block that is in use is not given out again. -/
def malloc (queue : Queue α τ) (block : α) : Option (Queue α τ) :=
  match queue.heap block with
  | none => some (queue.write block .raw)
  | some _ => none

def free (queue : Queue α τ) : Option α → Option (Queue α τ)
  | none => some queue
  | some block =>
      match queue.heap block with
      | none => none
      | some _ => some { queue with heap := Function.update queue.heap block none }

/-- `__sync_fetch_and_add(&(pointer->count), 1)` -/
def addCount (queue : Queue α τ) (pointer : Option α) : Option (Queue α τ) :=
  match pointer with
  | none => none
  | some block =>
      match queue.heap block with
      | some (.pointer count nptr) => some (queue.write block (.pointer (addAndFetch count) nptr))
      | _ => none

/-- `__sync_bool_compare_and_swap(&(pointer->count), old, new)` -/
def casCount (queue : Queue α τ) (pointer : Option α) (old new : ℤ) :
    Option (Queue α τ × Bool) :=
  match pointer with
  | none => none
  | some block =>
      match queue.heap block with
      | some (.pointer count nptr) =>
          some (if count = old then (queue.write block (.pointer new nptr), true)
            else (queue, false))
      | _ => none

def casNptr (queue : Queue α τ) (pointer old new : Option α) : Option (Queue α τ × Bool) :=
  match pointer with
  | none => none
  | some block =>
      match queue.heap block with
      | some (.pointer count nptr) =>
          some (if nptr = old then (queue.write block (.pointer count new), true)
            else (queue, false))
      | _ => none

def casNext (queue : Queue α τ) (node old new : Option α) : Option (Queue α τ × Bool) :=
  match node with
  | none => none
  | some block =>
      match queue.heap block with
      | some (.node value next) =>
          some (if next = old then (queue.write block (.node value new), true)
            else (queue, false))
      | _ => none

def casHead (queue : Queue α τ) (old new : Option α) : Queue α τ × Bool :=
  if queue.head = old then ({ queue with head := new }, true) else (queue, false)

def casTail (queue : Queue α τ) (old new : Option α) : Queue α τ × Bool :=
  if queue.tail = old then ({ queue with tail := new }, true) else (queue, false)

end Queue

/-- The empty queue in the two blocks; the third one is the `Queue` itself. -/
def q_initialize [DecidableEq α] (node nodeptr : α) : Queue α τ :=
  { head := some nodeptr
    tail := some nodeptr
    heap := Function.update (Function.update (fun _ => none) node (some (.node none none)))
      nodeptr (some (.pointer 1 (some node))) }

/-- The variables of qpush: its argument, the blocks malloc gives it, and its locals. -/
structure Push (α τ : Type*) where
  value : Option τ
  node : α
  nodeptr : α
  head : Option α
  tail : Option α
  next : Option α

/-- The variables of qpop; `spare` is the block malloc would give it for `_nptr`. -/
structure Pop (α τ : Type*) where
  spare : α
  head : Option α
  tail : Option α
  next : Option α
  tmp : Option α
  val : Option τ

/-- Program points of qpush, each named after what it reads or writes next. The operands of a
call that have been read are its arguments. -/
inductive PushPoint (α : Type*) where
  | node
  | nodeptr
  | fields
  | head
  | tail
  | tailNptr
  | tailNext (nptr : Option α)
  | compare
  | count
  | slot
  | link (nptr : Option α)
  | swing
  | helpCount
  | helpNptr
  | helpSwing (nptr : Option α)

/-- Program points of qpop. Those of the branch for `queue->head->count == 0` begin with
`reset`, those that remove the only element with `last`, and those that remove one of several
with `cut`. -/
inductive PopPoint (α : Type*) where
  | head
  | tail
  | gate
  | gateCount (head : Option α)
  | resetHead
  | resetCas (head : Option α)
  | resetNode
  | resetTail
  | resetTailAgain (tail : Option α)
  | resetOld (tail again : Option α)
  | resetCount (tail : Option α) (count : ℤ)
  | resetSlot
  | resetSlotAgain (tail : Option α)
  | resetSlotOld (tail again : Option α)
  | resetNptr (tail nptr : Option α)
  | resetQueue
  | resetQueueTail (head : Option α)
  | resetQueueCas (head tail : Option α)
  | tmpHead
  | tmpNptr (head : Option α)
  | tmpNext (nptr : Option α)
  | nextHead
  | nextNptr (head : Option α)
  | nextNext (nptr : Option α)
  | headCount
  | compare
  | headNptr
  | tailNptr (nptr : Option α)
  | helpCount
  | helpSwing
  | valNptr
  | val (nptr : Option α)
  | nextLink
  | nextLinkNext (nptr : Option α)
  | lastHead
  | lastNptr (head : Option α)
  | lastFree (nptr : Option α)
  | lastSlot
  | lastSlotHead (slot : Option α)
  | lastSlotOld (slot head : Option α)
  | lastSlotNew (slot old : Option α)
  | lastMove (slot old new : Option α)
  | lastTail
  | lastTailNew (old : Option α)
  | lastSwing (old new : Option α)
  | lastDrop
  | cutCount
  | cutHead
  | cutNptr (head : Option α)
  | cutNext (nptr : Option α)
  | cutNextNext (nptr next : Option α)
  | cutLink (nptr new : Option α)
  | cutNode
  | cutFree (nptr : Option α)
  | cutDrop

inductive Pc (α τ : Type*) where
  | push (l : Push α τ) (point : PushPoint α)
  | pop (l : Pop α τ) (point : PopPoint α)

def qpush (value : Option τ) (node nodeptr : α) : Pc α τ :=
  .push ⟨value, node, nodeptr, none, none, none⟩ .node

def qpop (spare : α) : Pc α τ := .pop ⟨spare, none, none, none, none, none⟩ .head

section Step
variable [DecidableEq α]

def pushStep (l : Push α τ) (point : PushPoint α) (queue : Queue α τ) :
    Option (Queue α τ × Outcome (Pc α τ) (Option τ)) :=
  match point with
  | .node => (queue.malloc l.node).map (fun after => (after, .goto (.push l .nodeptr)))
  | .nodeptr => (queue.malloc l.nodeptr).map (fun after => (after, .goto (.push l .fields)))
  | .fields =>
      (queue.store l.node (.node l.value none)).bind (fun first =>
        (first.store l.nodeptr (.pointer 1 (some l.node))).map (fun after =>
          (after, .goto (.push l .head))))
  | .head => some (queue, .goto (.push { l with head := queue.head } .tail))
  | .tail => some (queue, .goto (.push { l with tail := queue.tail } .tailNptr))
  | .tailNptr => (queue.nptr l.tail).map (fun nptr => (queue, .goto (.push l (.tailNext nptr))))
  | .tailNext nptr =>
      (queue.next nptr).map (fun next => (queue, .goto (.push { l with next := next } .compare)))
  | .compare =>
      some (queue,
        if l.tail = queue.tail then
          if l.next = none then .goto (.push l .count) else .goto (.push l .helpCount)
        else .retry (.push l .head))
  | .count =>
      (queue.addCount (some l.nodeptr)).map (fun after => (after, .goto (.push l .slot)))
  | .slot => (queue.nptr l.tail).map (fun nptr => (queue, .goto (.push l (.link nptr))))
  | .link nptr =>
      (queue.casNext nptr l.next (some l.nodeptr)).map (fun result =>
        (result.1, if result.2 then .goto (.push l .swing) else .retry (.push l .head)))
  | .swing =>
      let result := queue.casTail l.tail (some l.nodeptr)
      some (result.1, if result.2 then .ret none else .retry (.push l .head))
  | .helpCount => (queue.addCount l.next).map (fun after => (after, .goto (.push l .helpNptr)))
  | .helpNptr => (queue.nptr l.next).map (fun nptr => (queue, .goto (.push l (.helpSwing nptr))))
  -- a node, not the pointer cell in front of it
  | .helpSwing nptr => some ((queue.casTail l.tail nptr).1, .retry (.push l .head))

def popStep (l : Pop α τ) (point : PopPoint α) (queue : Queue α τ) :
    Option (Queue α τ × Outcome (Pc α τ) (Option τ)) :=
  match point with
  | .head => some (queue, .goto (.pop { l with head := queue.head } .tail))
  | .tail =>
      some (queue,
        if l.head = queue.tail then .ret none
        else .goto (.pop { l with tail := queue.tail } .gate))
  | .gate => some (queue, .goto (.pop l (.gateCount queue.head)))
  | .gateCount head =>
      (queue.count head).map (fun count =>
        (queue, .goto (.pop l (if count = 0 then .resetHead else .tmpHead))))
  | .resetHead => some (queue, .goto (.pop l (.resetCas queue.head)))
  | .resetCas head =>
      (queue.casNptr head l.next l.next).map (fun result =>
        (result.1, if result.2 then .ret none else .goto (.pop l .resetNode)))
  | .resetNode =>
      (queue.malloc l.spare).map (fun after =>
        (after.write l.spare (.node none none), .goto (.pop l .resetTail)))
  | .resetTail => some (queue, .goto (.pop l (.resetTailAgain queue.tail)))
  | .resetTailAgain tail => some (queue, .goto (.pop l (.resetOld tail queue.tail)))
  | .resetOld tail again =>
      (queue.count again).map (fun count => (queue, .goto (.pop l (.resetCount tail count))))
  | .resetCount tail count =>
      (queue.casCount tail count 0).map (fun result => (result.1, .goto (.pop l .resetSlot)))
  | .resetSlot => some (queue, .goto (.pop l (.resetSlotAgain queue.tail)))
  | .resetSlotAgain tail => some (queue, .goto (.pop l (.resetSlotOld tail queue.tail)))
  | .resetSlotOld tail again =>
      (queue.nptr again).map (fun nptr => (queue, .goto (.pop l (.resetNptr tail nptr))))
  | .resetNptr tail nptr =>
      (queue.casNptr tail nptr (some l.spare)).map (fun result =>
        (result.1, if result.2 then .goto (.pop l .resetQueue) else .retry (.pop l .resetSlot)))
  | .resetQueue => some (queue, .goto (.pop l (.resetQueueTail queue.head)))
  | .resetQueueTail head => some (queue, .goto (.pop l (.resetQueueCas head queue.tail)))
  | .resetQueueCas head tail =>
      let result := queue.casHead head tail
      some (result.1, if result.2 then .goto (.pop l .tmpHead) else .retry (.pop l .resetQueue))
  | .tmpHead => some (queue, .goto (.pop l (.tmpNptr queue.head)))
  | .tmpNptr head => (queue.nptr head).map (fun nptr => (queue, .goto (.pop l (.tmpNext nptr))))
  | .tmpNext nptr =>
      (queue.next nptr).map (fun tmp => (queue, .goto (.pop { l with tmp := tmp } .nextHead)))
  | .nextHead => some (queue, .goto (.pop l (.nextNptr queue.head)))
  | .nextNptr head => (queue.nptr head).map (fun nptr => (queue, .goto (.pop l (.nextNext nptr))))
  | .nextNext nptr =>
      (queue.next nptr).map (fun next => (queue, .goto (.pop { l with next := next } .headCount)))
  | .headCount =>
      (queue.count l.head).map (fun _ =>
        (queue, if l.next = none then .ret none else .goto (.pop l .compare)))
  | .compare =>
      some (queue,
        if l.head = queue.head then .goto (.pop l .headNptr) else .retry (.pop l .head))
  | .headNptr => (queue.nptr l.head).map (fun nptr => (queue, .goto (.pop l (.tailNptr nptr))))
  | .tailNptr nptr =>
      (queue.nptr l.tail).map (fun other =>
        (queue,
          if nptr = other then
            if l.next = none then .ret none else .goto (.pop l .helpCount)
          else .goto (.pop l .valNptr)))
  | .helpCount => (queue.addCount l.next).map (fun after => (after, .goto (.pop l .helpSwing)))
  -- with `continue` or without it the loop begins again
  | .helpSwing => some ((queue.casTail l.tail l.next).1, .retry (.pop l .head))
  | .valNptr => (queue.nptr l.next).map (fun nptr => (queue, .goto (.pop l (.val nptr))))
  | .val nptr =>
      (queue.value nptr).map (fun value => (queue, .goto (.pop { l with val := value } .nextLink)))
  | .nextLink => (queue.nptr l.next).map (fun nptr => (queue, .goto (.pop l (.nextLinkNext nptr))))
  | .nextLinkNext nptr =>
      (queue.next nptr).map (fun next =>
        (queue, .goto (.pop l (if next = none then .lastHead else .cutCount))))
  | .lastHead => some (queue, .goto (.pop l (.lastNptr queue.head)))
  | .lastNptr head => (queue.nptr head).map (fun nptr => (queue, .goto (.pop l (.lastFree nptr))))
  | .lastFree nptr => (queue.free nptr).map (fun after => (after, .goto (.pop l .lastSlot)))
  | .lastSlot => some (queue, .goto (.pop l (.lastSlotHead queue.head)))
  | .lastSlotHead slot => some (queue, .goto (.pop l (.lastSlotOld slot queue.head)))
  | .lastSlotOld slot head =>
      (queue.nptr head).map (fun old => (queue, .goto (.pop l (.lastSlotNew slot old))))
  | .lastSlotNew slot old =>
      (queue.nptr l.next).map (fun new => (queue, .goto (.pop l (.lastMove slot old new))))
  | .lastMove slot old new =>
      (queue.casNptr slot old new).map (fun result =>
        (result.1, if result.2 then .goto (.pop l .lastTail) else .ret l.val))
  | .lastTail => some (queue, .goto (.pop l (.lastTailNew queue.tail)))
  | .lastTailNew old => some (queue, .goto (.pop l (.lastSwing old queue.head)))
  | .lastSwing old new => some ((queue.casTail old new).1, .goto (.pop l .lastDrop))
  | .lastDrop => (queue.free l.next).map (fun after => (after, .ret l.val))
  | .cutCount => (queue.addCount l.next).map (fun after => (after, .goto (.pop l .cutHead)))
  | .cutHead => some (queue, .goto (.pop l (.cutNptr queue.head)))
  | .cutNptr head => (queue.nptr head).map (fun nptr => (queue, .goto (.pop l (.cutNext nptr))))
  | .cutNext nptr =>
      (queue.nptr l.next).map (fun next => (queue, .goto (.pop l (.cutNextNext nptr next))))
  | .cutNextNext nptr next =>
      (queue.next next).map (fun new => (queue, .goto (.pop l (.cutLink nptr new))))
  | .cutLink nptr new =>
      (queue.casNext nptr l.tmp new).map (fun result =>
        (result.1, if result.2 then .goto (.pop l .cutNode) else .retry (.pop l .head)))
  | .cutNode => (queue.nptr l.next).map (fun nptr => (queue, .goto (.pop l (.cutFree nptr))))
  | .cutFree nptr => (queue.free nptr).map (fun after => (after, .goto (.pop l .cutDrop)))
  | .cutDrop => (queue.free l.next).map (fun after => (after, .ret l.val))

def step : Pc α τ → Queue α τ → Option (Queue α τ × Outcome (Pc α τ) (Option τ))
  | .push l point => pushStep l point
  | .pop l point => popStep l point

/-- `puts` lists the values in the order in which their cells are linked, `takes` those taken
out, in the order in which they leave the list. -/
structure Hist (τ : Type*) where
  puts : List (Option τ)
  takes : List (Option τ)

def Hist.start : Hist τ :=
  { puts := []
    takes := [] }

def record (_thread : ι) (pc : Pc α τ) (queue : Queue α τ) (hist : Hist τ) : Hist τ :=
  match pc with
  | .push l (.link nptr) =>
      if queue.next nptr = some l.next then { hist with puts := hist.puts ++ [l.value] } else hist
  | .pop l (.lastMove slot old _) =>
      if queue.nptr slot = some old then { hist with takes := hist.takes ++ [l.val] } else hist
  | .pop l (.cutLink nptr _) =>
      if queue.next nptr = some l.tmp then { hist with takes := hist.takes ++ [l.val] } else hist
  | _ => hist

def client : Client (Pc α τ) (Option τ) Unit :=
  { call := fun _ pc =>
      match pc with
      | .push ⟨_, _, _, none, none, none⟩ .node => some ()
      | .pop ⟨_, none, none, none, none, none⟩ .head => some ()
      | _ => none
    quit := fun _ => none
    done := fun _ _ => () }

def program : Program ι (Queue α τ) (Pc α τ) (Option τ) Unit (Hist τ) :=
  { client with
    step := step
    record := record }

def start (queue : Queue α τ) : Pool ι (Queue α τ) (Pc α τ) Unit (Hist τ) :=
  { mem := queue
    thread := fun _ => .idle ()
    hist := .start }

/-! ### The calls that get along with each other -/

def PushPoint.Adding : PushPoint α → Prop
  | .node | .nodeptr | .fields | .head | .tail => False
  | _ => True

def PushPoint.Swinging : PushPoint α → Prop
  | .swing => True
  | _ => False

/-- On the way of the only element out of the queue, until `queue->tail` is right again. -/
def PopPoint.Emptying : PopPoint α → Prop
  | .lastHead | .lastNptr _ | .lastFree _ | .lastSlot | .lastSlotHead _ | .lastSlotOld _ _
  | .lastSlotNew _ _ | .lastMove _ _ _ | .lastTail | .lastTailNew _ | .lastSwing _ _ => True
  | _ => False

def Pc.push? : Pc α τ → Option (Push α τ × PushPoint α)
  | .push l point => some (l, point)
  | .pop _ _ => none

def Pc.pop? : Pc α τ → Option (Pop α τ × PopPoint α)
  | .push _ _ => none
  | .pop l point => some (l, point)

def Nobody (state : Pool ι (Queue α τ) (Pc α τ) Unit (Hist τ)) (at_ : Pc α τ → Prop) : Prop :=
  ∀ thread, ∀ pc ∈ state.at thread, ¬ at_ pc

def Pc.Pushing (pc : Pc α τ) : Prop := pc.push?.isSome

def Pc.Popping (pc : Pc α τ) : Prop := pc.pop?.isSome

def Pc.Adding : Pc α τ → Prop
  | .push _ point => point.Adding
  | .pop _ _ => False

def Pc.Swinging : Pc α τ → Prop
  | .push _ point => point.Swinging
  | .pop _ _ => False

def Pc.Emptying : Pc α τ → Prop
  | .push _ _ => False
  | .pop _ point => point.Emptying

/-- malloc gives out free blocks only; a pop reads `queue->tail` between two pushes' CASes never,
and it does not take out the only element during the push of another one. -/
def Allowed (state : Pool ι (Queue α τ) (Pc α τ) Unit (Hist τ)) : Pc α τ → Prop
  | .push l .node => state.mem.heap l.node = none
  | .push l .nodeptr => state.mem.heap l.nodeptr = none
  | .push _ .tail => Nobody state Pc.Emptying
  | .pop _ .tail => Nobody state Pc.Swinging
  | .pop _ (.nextLinkNext nptr) =>
      state.mem.next nptr = some none → Nobody state Pc.Adding
  | _ => True

/-- The condition on a step: pushes exclude each other, and so do pops. -/
def Guarded (state : Pool ι (Queue α τ) (Pc α τ) Unit (Hist τ)) : Act ι (Pc α τ) → Prop
  | .call _ (.push _ _) => Nobody state Pc.Pushing
  | .call _ (.pop _ _) => Nobody state Pc.Popping
  | .quit _ => True
  | .move thread => state.Moving (Allowed state) (.move thread)

instance (at_ : Pc α τ → Prop) [DecidablePred at_] [Fintype ι]
    (state : Pool ι (Queue α τ) (Pc α τ) Unit (Hist τ)) : Decidable (Nobody state at_) :=
  inferInstanceAs (Decidable (∀ thread, ∀ pc ∈ state.at thread, ¬ at_ pc))

instance : DecidablePred (Pc.Pushing : Pc α τ → Prop) := fun pc =>
  inferInstanceAs (Decidable (pc.push?.isSome = true))

instance : DecidablePred (Pc.Popping : Pc α τ → Prop) := fun pc =>
  inferInstanceAs (Decidable (pc.pop?.isSome = true))

instance : DecidablePred (Pc.Adding : Pc α τ → Prop) := fun pc =>
  match pc with
  | .push _ point => by
      change Decidable point.Adding
      cases point <;> unfold PushPoint.Adding <;> infer_instance
  | .pop _ _ => isFalse id

instance : DecidablePred (Pc.Swinging : Pc α τ → Prop) := fun pc =>
  match pc with
  | .push _ point => by
      change Decidable point.Swinging
      cases point <;> unfold PushPoint.Swinging <;> infer_instance
  | .pop _ _ => isFalse id

instance : DecidablePred (Pc.Emptying : Pc α τ → Prop) := fun pc =>
  match pc with
  | .push _ _ => isFalse id
  | .pop _ point => by
      change Decidable point.Emptying
      cases point <;> unfold PopPoint.Emptying <;> infer_instance

instance [Fintype ι] (state : Pool ι (Queue α τ) (Pc α τ) Unit (Hist τ)) :
    DecidablePred (Allowed state) := fun pc => by
  cases pc with
  | push l point => cases point <;> unfold Allowed <;> infer_instance
  | pop l point => cases point <;> unfold Allowed <;> infer_instance

instance [Fintype ι] (state : Pool ι (Queue α τ) (Pc α τ) Unit (Hist τ)) (act : Act ι (Pc α τ)) :
    Decidable (Guarded state act) :=
  match act with
  | .call _ (.push _ _) => inferInstanceAs (Decidable (Nobody state Pc.Pushing))
  | .call _ (.pop _ _) => inferInstanceAs (Decidable (Nobody state Pc.Popping))
  | .quit _ => isTrue trivial
  | .move thread => inferInstanceAs (Decidable (state.Moving (Allowed state) (.move thread)))

/-- What is left of the memory; the `Queue` itself is gone as well. -/
def queue_free (queue : Queue α τ) : Option (Queue α τ) :=
  if queue.head = queue.tail then
    (queue.nptr queue.head).bind (fun nptr =>
      (queue.free nptr).bind (fun after => after.free queue.head))
  else if queue.head ≠ none ∧ queue.tail ≠ none then
    (queue.nptr queue.head).bind (fun nptr =>
      (queue.free nptr).bind (fun first =>
        (first.free queue.head).bind (fun second =>
          (second.nptr queue.tail).bind (fun last =>
            (second.free last).bind (fun third => third.free queue.tail)))))
  else some queue

end Step

end QueueBench.LockFreeQueue
