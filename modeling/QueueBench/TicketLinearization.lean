import QueueBench.Lib.Linearization
import QueueBench.TicketDiscipline

/-! The task queue as its callers see it: a bounded first-in-first-out queue. A put has its effect
when it draws its ticket. A get has its effect when the later one of the two tickets of its number
is drawn, so the ticket of a put may be the step of a get that has been waiting for it. -/

namespace QueueBench.TicketQueue
open Linearization
open Machine (Outcome Pool Program Act Thread)
open RingArith (addAndFetch addAndFetch_eq)
open Transition (Run Meets run_of_play)

variable {ι : Type*}

def operation : Pc → Option (QueueOp ℤ)
  | .add elem => some (.put elem)
  | .draw => some .get
  | _ => none

def Pc.Task : Pc → Prop
  | .gate | .compare | .compareWith _ => False
  | _ => True

variable {size : ℕ} {headFirst : Bool} {q : Queue} {hist : Hist ι} {place : ι → Option Pc}

variable [DecidableEq ι] {state next : Pool ι Queue Pc Unit (Hist ι)} {act : Act ι Pc}

end QueueBench.TicketQueue
