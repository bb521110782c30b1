import Mathlib.Data.Fintype.Basic
import QueueBench.TicketFifo

/-! mpi_queue/main.c. Rank 0 is the server, the other ranks are workers; each pair of
a worker and the server has a first-in-first-out channel in either direction. The
queues belong to one process each, so a queue call is one step of its process; a call
that would spin for ever has no step. -/

namespace QueueBench.MpiProtocol
open TicketQueue (Queue InitXTaskQueue EnqueueToQ mpiDequeueFromQ callAlone)

/-- A message in flight; `sync` marks a send that blocks until it is matched. -/
structure Message where
  count : ℤ
  sync : Bool
deriving DecidableEq, Repr

variable {workers : ℕ}

/-- `main` of rank 0, with `server` between the barriers. -/
inductive ServerPc (workers : ℕ) where
  | fill (i : ℕ)
  | barrier1
  | recv (count : ℤ) (counter : ℕ)
  | deq (count : ℤ) (counter : ℕ) (source : Fin workers)
  | send (count : ℤ) (counter : ℕ) (source : Fin workers)
  | sendWait (count : ℤ) (counter : ℕ) (source : Fin workers)
  | barrier2
  | done
deriving DecidableEq, Repr

inductive WorkerPc where
  | fill (i : ℕ)
  | barrier1
  | send (count : ℤ)
  | sendWait (count : ℤ)
  | recv (count : ℤ)
  | enq (count : ℤ)
  | barrier2
  | done
deriving DecidableEq, Repr

structure Memory where
  incoming : Queue
  results : Queue

/-- `dequeued` is what the server has printed: the values of its DequeueFromQ calls. -/
structure World (workers : ℕ) where
  serverPc : ServerPc workers
  serverMem : Memory
  workerPc : Fin workers → WorkerPc
  workerMem : Fin workers → Memory
  requests : Fin workers → List Message
  replies : Fin workers → List Message
  dequeued : List ℤ

def ServerPc.reached : ServerPc workers → ℕ
  | .fill _ => 0
  | .barrier2 | .done => 2
  | _ => 1

def WorkerPc.reached : WorkerPc → ℕ
  | .fill _ => 0
  | .barrier2 | .done => 2
  | _ => 1

/-- `MPI_Barrier`: every process has reached the barrier. -/
def World.Open (world : World workers) (barrier : ℕ) : Prop :=
  barrier ≤ world.serverPc.reached ∧ ∀ rank, barrier ≤ (world.workerPc rank).reached

instance (world : World workers) (barrier : ℕ) : Decidable (world.Open barrier) :=
  inferInstanceAs (Decidable (_ ∧ _))

/-- A blocking send returns once no message of its channel waits to be matched. -/
def Matched (channel : List Message) : Prop := ∀ message ∈ channel, message.sync = false

instance (channel : List Message) : Decidable (Matched channel) :=
  inferInstanceAs (Decidable (∀ message ∈ channel, message.sync = false))

/-- The constants of a build: `NUM_SAMPLES`, `MAX_SIZE`, which is an `int`, and the
operand of `q->head == q->tail` that is read first. -/
structure Config where
  NUM_SAMPLES : ℕ
  MAX_SIZE : ℕ
  MAX_SIZE_lt : MAX_SIZE < 2 ^ 31
  headFirst : Bool

/-- `NUM_SAMPLES * (world_size - 1)` -/
def Config.total (config : Config) (workers : ℕ) : ℕ := config.NUM_SAMPLES * workers

def serverLoop (config : Config) (count : ℤ) (counter : ℕ) : ServerPc workers :=
  if counter < config.total workers then .recv count counter else .barrier2

def workerLoop (config : Config) (count : ℤ) : WorkerPc :=
  if count < config.NUM_SAMPLES then .send count else .barrier2

/-- `sync` says whether a send of this step blocks; `receive` names the source of the
message that `MPI_ANY_SOURCE` matches. -/
inductive Act (workers : ℕ) where
  | server (sync : Bool)
  | receive (source : Fin workers)
  | worker (rank : Fin workers) (sync : Bool)
deriving DecidableEq, Repr

def serverStep (config : Config) (world : World workers) (sync : Bool) :
    Option (World workers) :=
  match world.serverPc with
  | .fill i =>
      if i < config.total workers then
        (callAlone config.MAX_SIZE config.headFirst (EnqueueToQ (i + 1))
          world.serverMem.incoming).map (fun out =>
            { world with
              serverPc := .fill (i + 1)
              serverMem := { world.serverMem with incoming := out.1 } })
      else some { world with serverPc := .barrier1 }
  | .barrier1 =>
      if world.Open 1 then some { world with serverPc := serverLoop config 0 0 } else none
  | .recv _ _ => none
  | .deq count counter source =>
      (callAlone config.MAX_SIZE config.headFirst mpiDequeueFromQ
        world.serverMem.incoming).map (fun out =>
          { world with
            serverPc := .send count counter source
            serverMem := { world.serverMem with incoming := out.1 }
            dequeued := world.dequeued ++ [out.2] })
  | .send count counter source =>
      some { world with
        serverPc := if sync then .sendWait count counter source
          else serverLoop config count (counter + 1)
        replies := Function.update world.replies source
          (world.replies source ++ [{ count := count, sync := sync }]) }
  | .sendWait count counter source =>
      if Matched (world.replies source) then
        some { world with serverPc := serverLoop config count (counter + 1) }
      else none
  | .barrier2 => if world.Open 2 then some { world with serverPc := .done } else none
  | .done => none

/-- `MPI_Recv` from any source takes the oldest message of the source it matches. -/
def receiveStep (world : World workers) (source : Fin workers) : Option (World workers) :=
  match world.serverPc, world.requests source with
  | .recv _ counter, message :: rest =>
      some { world with
        serverPc := .deq message.count counter source
        requests := Function.update world.requests source rest }
  | _, _ => none

def workerStep (config : Config) (world : World workers) (rank : Fin workers) (sync : Bool) :
    Option (World workers) :=
  match world.workerPc rank with
  | .fill i =>
      if i < config.total workers then
        (callAlone config.MAX_SIZE config.headFirst (EnqueueToQ (i + 1))
          (world.workerMem rank).incoming).map (fun out =>
            { world with
              workerPc := Function.update world.workerPc rank (.fill (i + 1))
              workerMem := Function.update world.workerMem rank
                { world.workerMem rank with incoming := out.1 } })
      else some { world with workerPc := Function.update world.workerPc rank .barrier1 }
  | .barrier1 =>
      if world.Open 1 then
        some { world with
          workerPc := Function.update world.workerPc rank (workerLoop config 0) }
      else none
  | .send count =>
      some { world with
        workerPc := Function.update world.workerPc rank
          (if sync then .sendWait count else .recv count)
        requests := Function.update world.requests rank
          (world.requests rank ++ [{ count := count, sync := sync }]) }
  | .sendWait count =>
      if Matched (world.requests rank) then
        some { world with workerPc := Function.update world.workerPc rank (.recv count) }
      else none
  | .recv _ =>
      match world.replies rank with
      | [] => none
      | message :: rest =>
          some { world with
            workerPc := Function.update world.workerPc rank (.enq message.count)
            replies := Function.update world.replies rank rest }
  | .enq count =>
      (callAlone config.MAX_SIZE config.headFirst (EnqueueToQ (count + 1))
        (world.workerMem rank).results).map (fun out =>
          { world with
            workerPc := Function.update world.workerPc rank (workerLoop config (count + 1))
            workerMem := Function.update world.workerMem rank
              { world.workerMem rank with results := out.1 } })
  | .barrier2 =>
      if world.Open 2 then
        some { world with workerPc := Function.update world.workerPc rank .done }
      else none
  | .done => none

def step (config : Config) (world : World workers) : Act workers → Option (World workers)
  | .server sync => serverStep config world sync
  | .receive source => receiveStep world source
  | .worker rank sync => workerStep config world rank sync

/-- Every process has initialised its queues and enters the loop that fills `incoming`. -/
def start (config : Config) (workers : ℕ) (junk : ℤ → ℤ) : World workers :=
  let memory : Memory :=
    { incoming := InitXTaskQueue config.MAX_SIZE junk
      results := InitXTaskQueue config.MAX_SIZE junk }
  { serverPc := .fill 0
    serverMem := memory
    workerPc := fun _ => .fill 0
    workerMem := fun _ => memory
    requests := fun _ => []
    replies := fun _ => []
    dequeued := [] }

def World.Done (world : World workers) : Prop :=
  world.serverPc = .done ∧ ∀ rank, world.workerPc rank = .done

end QueueBench.MpiProtocol
