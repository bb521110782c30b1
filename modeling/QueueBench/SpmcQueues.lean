import Mathlib.Data.Fintype.Sum
import Mathlib.Tactic.DeriveFintype
import QueueBench.TicketQueue

/-! The single producer and the consumers of queue type 8 in QueueBenchmarks/sqmain.c,
LATENCY build: one ring of QueueBenchmarks/squeuemultiple.c for every consumer. -/

namespace QueueBench.SpmcQueues
open Machine (Outcome Pool Program Act scriptProgram)
open TicketQueue (Queue Pc InitQueues EnqueueMultiple DequeueMultiple QUEUE_SIZE)

abbrev QueuePc : Type := ℕ × Pc

inductive Worker (NUM_QUEUES : ℕ) where
  | producer
  | consumer (my_cpu : Fin NUM_QUEUES)
deriving DecidableEq, Fintype, Repr

def step (size : ℕ) (headFirst : Bool) (pc : QueuePc) (queues : ℕ → Queue) :
    Option ((ℕ → Queue) × Outcome QueuePc ℤ) :=
  (TicketQueue.step size headFirst pc.2 (queues pc.1)).map (fun result =>
    (Function.update queues pc.1 result.1, result.2.map (fun next => (pc.1, next))))

variable {ι : Type*}

def record (headFirst : Bool) (_thread : ι) (pc : QueuePc) (queues : ℕ → Queue)
    (returned : ℕ → List ℤ) : ℕ → List ℤ :=
  match pc.2 with
  | .clear _ elem => Function.update returned pc.1 (returned pc.1 ++ [elem])
  | .compareWith first =>
      if first = (if headFirst then (queues pc.1).tail else (queues pc.1).head) then
        Function.update returned pc.1 (returned pc.1 ++ [-1])
      else returned
  | .add _ | .store _ _ | .gate | .compare | .draw | .spin _ | .read _ => returned

/-- `enqueuespmc_handler`, LATENCY build: `EnqueueMultiple((atom) (i + 1), queues[i % NUM_QUEUES])`. -/
def enqueuespmc_handler (NUM_SAMPLES NUM_QUEUES : ℕ) : List QueuePc :=
  (List.range NUM_SAMPLES).map (fun i : ℕ => (i % NUM_QUEUES, EnqueueMultiple ((i : ℤ) + 1)))

/-- `workerspmc_handler`, LATENCY build, where `CUR_NUM_THREADS` is the number of queues. -/
def workerspmc_handler (NUM_SAMPLES CUR_NUM_THREADS my_cpu : ℕ) : List QueuePc :=
  List.replicate (NUM_SAMPLES / CUR_NUM_THREADS) (my_cpu, DequeueMultiple)

def scripts (NUM_SAMPLES NUM_QUEUES : ℕ) : Worker NUM_QUEUES → List QueuePc
  | .producer => enqueuespmc_handler NUM_SAMPLES NUM_QUEUES
  | .consumer my_cpu => workerspmc_handler NUM_SAMPLES NUM_QUEUES my_cpu

abbrev SpmcPool (NUM_QUEUES : ℕ) : Type :=
  Pool (Worker NUM_QUEUES) (ℕ → Queue) QueuePc (List QueuePc) (ℕ → List ℤ)

/-- `case 8` with `MAX_SIZE` equal to `NUM_SAMPLES`, as the header defines it. -/
def program (NUM_SAMPLES NUM_QUEUES : ℕ) (headFirst : Bool) :
    Program (Worker NUM_QUEUES) (ℕ → Queue) QueuePc ℤ (List QueuePc) (ℕ → List ℤ) :=
  scriptProgram (step (QUEUE_SIZE NUM_SAMPLES NUM_QUEUES) headFirst) (record headFirst)

def start (NUM_SAMPLES NUM_QUEUES : ℕ) (junk : ℕ → ℤ → ℤ) : SpmcPool NUM_QUEUES :=
  { mem := fun queue => InitQueues NUM_SAMPLES NUM_QUEUES (junk queue) queue
    thread := fun worker => .idle (scripts NUM_SAMPLES NUM_QUEUES worker)
    hist := fun _ => [] }

def Clean (size : ℕ) (queues : ℕ → Queue) (pc : QueuePc) : Prop :=
  match pc.2 with
  | .store _ cur_tail => (queues pc.1).data (cur_tail.tmod size) = 0
  | _ => True

/-- The condition on a step: nothing is overwritten. -/
def Intact (NUM_SAMPLES NUM_QUEUES : ℕ) (state : SpmcPool NUM_QUEUES) :
    Act (Worker NUM_QUEUES) QueuePc → Prop :=
  state.Moving (Clean (QUEUE_SIZE NUM_SAMPLES NUM_QUEUES) state.mem)

def Finished {NUM_QUEUES : ℕ} (state : SpmcPool NUM_QUEUES) : Prop :=
  ∀ worker, state.thread worker = .idle []

end QueueBench.SpmcQueues
