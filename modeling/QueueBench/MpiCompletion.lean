import Mathlib.Algebra.BigOperators.Fin
import QueueBench.Lib.Ledger
import QueueBench.MpiProtocol

/-! Why the server and the workers come to an end together. The conversation of the
server with each worker is in one of four states, and what the server has counted is
the sum of what the workers have had answered. -/

namespace QueueBench.MpiProtocol
open scoped BigOperators
open TicketQueue (Queue Holds InitXTaskQueue EnqueueToQ mpiDequeueFromQ callAlone)
open Transition (Run Meets)

variable {workers : ℕ} {config : Config}

/-! ### The private queues -/

def ramp (lo hi : ℕ) : List ℤ := (List.range' lo (hi - lo)).map (fun i : ℕ => (i : ℤ) + 1)

theorem ramp_length (lo hi : ℕ) : (ramp lo hi).length = hi - lo := by
  rw [ramp, List.length_map, List.length_range']

theorem ramp_self (lo : ℕ) : ramp lo lo = [] := by
  rw [ramp, Nat.sub_self]
  rfl

theorem ramp_cons {lo hi : ℕ} (below : lo < hi) :
    ramp lo hi = ((lo : ℤ) + 1) :: ramp (lo + 1) hi := by
  have split : hi - lo = hi - (lo + 1) + 1 := by omega
  rw [ramp, split, List.range'_succ, List.map_cons]
  rfl

theorem ramp_concat {lo hi : ℕ} (below : lo ≤ hi) :
    ramp lo (hi + 1) = ramp lo hi ++ [(hi : ℤ) + 1] := by
  have split : hi + 1 - lo = hi - lo + 1 := by omega
  have last : lo + (hi - lo) = hi := by omega
  rw [ramp, ramp, split, List.range'_concat, List.map_append, List.map_singleton, Nat.one_mul,
    last]

/-- A queue that has taken in 1 to `hi` and given out 1 to `lo`. -/
structure Stock (size : ℕ) (q : Queue) (lo hi : ℕ) : Prop where
  holds : Holds size q (ramp lo hi)
  head_eq : q.head + 1 = lo
  below : lo ≤ hi

variable {size lo hi : ℕ} {q : Queue}

theorem stock_init (size : ℕ) (junk : ℤ → ℤ) : Stock size (InitXTaskQueue size junk) 0 0 :=
  { holds := TicketQueue.holds_init size junk
    head_eq := rfl
    below := Nat.le_refl 0 }

theorem Stock.tail_eq (stock : Stock size q lo hi) : q.tail + 1 = hi := by
  have counters := stock.holds.counters
  have first := stock.head_eq
  have below := stock.below
  rw [ramp_length] at counters
  omega

theorem Stock.put (stock : Stock size q lo hi) (headFirst : Bool) (room : hi < size)
    (low : size < 2 ^ 31) :
    ∃ after, callAlone size headFirst (EnqueueToQ ((hi : ℤ) + 1)) q =
      some (after, TicketQueue.TRUE) ∧ Stock size after lo (hi + 1) := by
  have last := stock.tail_eq
  have below := stock.below
  have fits : (ramp lo hi).length < size := by
    rw [ramp_length]
    omega
  obtain ⟨after, returns, holds, sameHead, _⟩ := stock.holds.enqueue headFirst fits
    (show (hi : ℤ) + 1 ≠ 0 from by omega) (by omega)
  refine ⟨after, TicketQueue.callAlone_of_returns returns, ?_⟩
  refine
    { holds := ?_
      head_eq := by rw [sameHead]; exact stock.head_eq
      below := by omega }
  rw [ramp_concat below]
  exact holds

theorem Stock.take (stock : Stock size q lo hi) (headFirst : Bool) (some_left : lo < hi)
    (low : hi < 2 ^ 31) :
    ∃ after, callAlone size headFirst mpiDequeueFromQ q = some (after, (lo : ℤ) + 1) ∧
      Stock size after (lo + 1) hi := by
  have first := stock.head_eq
  have holds := stock.holds
  rw [ramp_cons some_left] at holds
  obtain ⟨after, returns, left, newHead, _⟩ := holds.compare headFirst (by omega)
  refine ⟨after, TicketQueue.callAlone_of_returns returns, ?_⟩
  exact
    { holds := left
      head_eq := by rw [newHead]; push_cast; omega
      below := some_left }

/-! ### The conversation of the server with one worker -/

inductive Talk where
  | quiet
  | asked (count : ℤ) (sync : Bool)
  | served (count : ℤ)
  | answered (count : ℤ) (sync : Bool)

def Talk.requests : Talk → List Message
  | .asked count sync => [{ count := count, sync := sync }]
  | _ => []

def Talk.replies : Talk → List Message
  | .answered count sync => [{ count := count, sync := sync }]
  | _ => []

def Talk.count : Talk → Option ℤ
  | .quiet => none
  | .asked count _ => some count
  | .served count => some count
  | .answered count _ => some count

def WorkerPc.awaited : WorkerPc → Option ℤ
  | .sendWait count => some count
  | .recv count => some count
  | _ => none

def ServerPc.serving : ServerPc workers → Option (Fin workers × ℤ)
  | .deq count _ source => some (source, count)
  | .send count _ source => some (source, count)
  | _ => none

/-- The requests of a worker that have been answered. -/
def settled (NUM_SAMPLES : ℕ) (pc : WorkerPc) (talk : Talk) : ℕ :=
  match pc with
  | .fill _ | .barrier1 => 0
  | .send count => count.toNat
  | .sendWait count | .recv count =>
      match talk with
      | .answered _ _ => count.toNat + 1
      | _ => count.toNat
  | .enq count => count.toNat + 1
  | .barrier2 | .done => NUM_SAMPLES

def ServerPc.answered (total : ℕ) : ServerPc workers → ℕ
  | .fill _ | .barrier1 => 0
  | .recv _ counter | .deq _ counter _ | .send _ counter _ => counter
  | .sendWait _ counter _ => counter + 1
  | .barrier2 | .done => total

def ServerSound (config : Config) (total : ℕ) (pc : ServerPc workers) (memory : Memory)
    (dequeued : List ℤ) : Prop :=
  match pc with
  | .fill i => i ≤ total ∧ Stock config.MAX_SIZE memory.incoming 0 i ∧ dequeued = []
  | .barrier1 => Stock config.MAX_SIZE memory.incoming 0 total ∧ dequeued = []
  | .recv _ counter | .deq _ counter _ =>
      counter < total ∧ Stock config.MAX_SIZE memory.incoming counter total ∧
        dequeued = ramp 0 counter
  | .send _ counter _ | .sendWait _ counter _ =>
      counter < total ∧ Stock config.MAX_SIZE memory.incoming (counter + 1) total ∧
        dequeued = ramp 0 (counter + 1)
  | .barrier2 | .done =>
      Stock config.MAX_SIZE memory.incoming total total ∧ dequeued = ramp 0 total

def WorkerSound (config : Config) (total : ℕ) (pc : WorkerPc) (memory : Memory) : Prop :=
  match pc with
  | .fill i =>
      i ≤ total ∧ Stock config.MAX_SIZE memory.incoming 0 i ∧
        Stock config.MAX_SIZE memory.results 0 0
  | .barrier1 => Stock config.MAX_SIZE memory.results 0 0
  | .send count | .sendWait count | .recv count | .enq count =>
      0 ≤ count ∧ count < config.NUM_SAMPLES ∧
        Stock config.MAX_SIZE memory.results 0 count.toNat
  | .barrier2 | .done => Stock config.MAX_SIZE memory.results 0 config.NUM_SAMPLES

structure Inv (config : Config) (world : World workers) (talk : Fin workers → Talk) : Prop where
  requests : ∀ rank, world.requests rank = (talk rank).requests
  replies : ∀ rank, world.replies rank = (talk rank).replies
  serving : ∀ rank count, talk rank = .served count ↔
    world.serverPc.serving = some (rank, count)
  awaiting : ∀ rank, (talk rank).count = (world.workerPc rank).awaited
  server : ServerSound config (config.total workers) world.serverPc world.serverMem
    world.dequeued
  worker : ∀ rank, WorkerSound config (config.total workers) (world.workerPc rank)
    (world.workerMem rank)
  balance : ∑ rank, settled config.NUM_SAMPLES (world.workerPc rank) (talk rank) =
    world.serverPc.answered (config.total workers)

variable {world after : World workers} {talk : Fin workers → Talk}

theorem Inv.start (config : Config) (workers : ℕ) (junk : ℤ → ℤ) :
    Inv config (MpiProtocol.start config workers junk) (fun _ => .quiet) :=
  { requests := fun _ => rfl
    replies := fun _ => rfl
    serving := by
      intro rank count
      constructor
      · intro impossible
        cases impossible
      · intro impossible
        cases impossible
    awaiting := fun _ => rfl
    server := ⟨Nat.zero_le _, stock_init _ junk, rfl⟩
    worker := fun _ => ⟨Nat.zero_le _, stock_init _ junk, stock_init _ junk⟩
    balance := by
      simp only [MpiProtocol.start, settled, ServerPc.answered, Finset.sum_const_zero] }

theorem serverLoop_sound {count : ℤ} {counter : ℕ} {memory : Memory} {dequeued : List ℤ}
    (within : counter ≤ config.total workers)
    (stock : Stock config.MAX_SIZE memory.incoming counter (config.total workers))
    (printed : dequeued = ramp 0 counter) :
    ServerSound config (config.total workers)
      (serverLoop config count counter : ServerPc workers) memory dequeued := by
  unfold serverLoop
  split
  · rename_i more
    exact ⟨more, stock, printed⟩
  · rename_i finished
    have same : counter = config.total workers := by omega
    rw [same] at stock printed
    exact ⟨stock, printed⟩

theorem serverLoop_answered {count : ℤ} {counter : ℕ} (within : counter ≤ config.total workers) :
    (serverLoop config count counter : ServerPc workers).answered (config.total workers) =
      counter := by
  unfold serverLoop
  split
  · rfl
  · change config.total workers = counter
    omega

theorem serverLoop_serving {count : ℤ} {counter : ℕ} :
    (serverLoop config count counter : ServerPc workers).serving = none := by
  unfold serverLoop
  split
  · rfl
  · rfl

theorem workerLoop_sound {total : ℕ} {count : ℤ} {memory : Memory} (nonneg : 0 ≤ count)
    (within : count ≤ config.NUM_SAMPLES)
    (stock : Stock config.MAX_SIZE memory.results 0 count.toNat) :
    WorkerSound config total (workerLoop config count) memory := by
  unfold workerLoop
  split
  · rename_i more
    exact ⟨nonneg, more, stock⟩
  · rename_i finished
    have same : count.toNat = config.NUM_SAMPLES := by omega
    rw [same] at stock
    exact stock

theorem workerLoop_settled {count : ℤ} {talk : Talk} (nonneg : 0 ≤ count)
    (within : count ≤ config.NUM_SAMPLES) :
    settled config.NUM_SAMPLES (workerLoop config count) talk = count.toNat := by
  unfold workerLoop
  split
  · rfl
  · change config.NUM_SAMPLES = count.toNat
    omega

theorem workerLoop_awaited {count : ℤ} : (workerLoop config count).awaited = none := by
  unfold workerLoop
  split
  · rfl
  · rfl

/-! ### What each step does to the conversations -/

theorem Inv.quiet (inv : Inv config world talk) {rank : Fin workers}
    (idle : (world.workerPc rank).awaited = none) : talk rank = .quiet := by
  have count := inv.awaiting rank
  rw [idle] at count
  cases same : talk rank with
  | quiet => rfl
  | _ => rw [same] at count; cases count

theorem Inv.asked (inv : Inv config world talk) {rank : Fin workers} {message : Message}
    {rest : List Message} (pending : world.requests rank = message :: rest) :
    talk rank = .asked message.count message.sync ∧ rest = [] := by
  have channel := inv.requests rank
  rw [pending] at channel
  cases same : talk rank with
  | asked count sync =>
      rw [same] at channel
      cases channel
      exact ⟨rfl, rfl⟩
  | _ => rw [same] at channel; cases channel

theorem Inv.answered (inv : Inv config world talk) {rank : Fin workers} {message : Message}
    {rest : List Message} (pending : world.replies rank = message :: rest) :
    talk rank = .answered message.count message.sync ∧ rest = [] := by
  have channel := inv.replies rank
  rw [pending] at channel
  cases same : talk rank with
  | answered count sync =>
      rw [same] at channel
      cases channel
      exact ⟨rfl, rfl⟩
  | _ => rw [same] at channel; cases channel

theorem Inv.server_move (inv : Inv config world talk) {pc : ServerPc workers} {memory : Memory}
    {dequeued : List ℤ} (serving : pc.serving = world.serverPc.serving)
    (answered : pc.answered (config.total workers) =
      world.serverPc.answered (config.total workers))
    (sound : ServerSound config (config.total workers) pc memory dequeued) :
    Inv config
      { world with
        serverPc := pc
        serverMem := memory
        dequeued := dequeued } talk := by
  refine
    { inv with
      serving := ?_
      server := sound
      balance := ?_ }
  · intro rank count
    change _ ↔ pc.serving = _
    rw [serving]
    exact inv.serving rank count
  · change _ = pc.answered _
    rw [answered]
    exact inv.balance

theorem Inv.worker_move (inv : Inv config world talk) {rank : Fin workers} {pc : WorkerPc}
    {memory : Memory} (awaited : pc.awaited = (world.workerPc rank).awaited)
    (same : settled config.NUM_SAMPLES pc (talk rank) =
      settled config.NUM_SAMPLES (world.workerPc rank) (talk rank))
    (sound : WorkerSound config (config.total workers) pc memory) :
    Inv config
      { world with
        workerPc := Function.update world.workerPc rank pc
        workerMem := Function.update world.workerMem rank memory } talk := by
  refine
    { inv with
      awaiting := ?_
      worker := ?_
      balance := ?_ }
  · intro other
    change _ = (Function.update world.workerPc rank pc other).awaited
    by_cases mine : other = rank
    · rw [mine, Function.update_self, awaited]
      exact inv.awaiting rank
    · rw [Function.update_of_ne mine]
      exact inv.awaiting other
  · intro other
    change WorkerSound _ _ (Function.update world.workerPc rank pc other)
      (Function.update world.workerMem rank memory other)
    by_cases mine : other = rank
    · rw [mine, Function.update_self, Function.update_self]
      exact sound
    · rw [Function.update_of_ne mine, Function.update_of_ne mine]
      exact inv.worker other
  · have total : 0 + ∑ other, settled config.NUM_SAMPLES
        (Function.update world.workerPc rank pc other) (talk other) =
        0 + ∑ other, settled config.NUM_SAMPLES (world.workerPc other) (talk other) := by
      apply Machine.sum_change rank
      · intro other different
        rw [Function.update_of_ne different]
      · rw [Function.update_self, same]
    rw [zero_add, zero_add] at total
    exact total.trans inv.balance

theorem Inv.worker_turn (inv : Inv config world talk) {rank : Fin workers} {pc : WorkerPc}
    (awaited : pc.awaited = (world.workerPc rank).awaited)
    (same : settled config.NUM_SAMPLES pc (talk rank) =
      settled config.NUM_SAMPLES (world.workerPc rank) (talk rank))
    (sound : WorkerSound config (config.total workers) pc (world.workerMem rank)) :
    Inv config { world with workerPc := Function.update world.workerPc rank pc } talk := by
  have moved := inv.worker_move awaited same sound
  rw [Function.update_eq_self] at moved
  exact moved

/-- The general shape of a message step: one conversation changes, and with it the
channels, the server or the worker of that rank. -/
theorem Inv.exchange (inv : Inv config world talk) (rank : Fin workers) (next : Talk)
    (others : ∀ other, other ≠ rank → after.requests other = world.requests other ∧
      after.replies other = world.replies other ∧
      after.workerPc other = world.workerPc other ∧
      after.workerMem other = world.workerMem other)
    (requests : after.requests rank = next.requests)
    (replies : after.replies rank = next.replies)
    (serving : ∀ other count, Function.update talk rank next other = .served count ↔
      after.serverPc.serving = some (other, count))
    (awaiting : next.count = (after.workerPc rank).awaited)
    (server : ServerSound config (config.total workers) after.serverPc after.serverMem
      after.dequeued)
    (worker : WorkerSound config (config.total workers) (after.workerPc rank)
      (after.workerMem rank))
    (balance : world.serverPc.answered (config.total workers) +
        settled config.NUM_SAMPLES (after.workerPc rank) next =
      after.serverPc.answered (config.total workers) +
        settled config.NUM_SAMPLES (world.workerPc rank) (talk rank)) :
    Inv config after (Function.update talk rank next) := by
  refine
    { requests := ?_
      replies := ?_
      serving := serving
      awaiting := ?_
      server := server
      worker := ?_
      balance := ?_ }
  · intro other
    by_cases mine : other = rank
    · rw [mine, Function.update_self]
      exact requests
    · rw [Function.update_of_ne mine, (others other mine).1]
      exact inv.requests other
  · intro other
    by_cases mine : other = rank
    · rw [mine, Function.update_self]
      exact replies
    · rw [Function.update_of_ne mine, (others other mine).2.1]
      exact inv.replies other
  · intro other
    by_cases mine : other = rank
    · rw [mine, Function.update_self]
      exact awaiting
    · rw [Function.update_of_ne mine, (others other mine).2.2.1]
      exact inv.awaiting other
  · intro other
    by_cases mine : other = rank
    · rw [mine]
      exact worker
    · rw [(others other mine).2.2.1, (others other mine).2.2.2]
      exact inv.worker other
  · have total : world.serverPc.answered (config.total workers) +
        ∑ other, settled config.NUM_SAMPLES (after.workerPc other)
          (Function.update talk rank next other) =
        after.serverPc.answered (config.total workers) +
          ∑ other, settled config.NUM_SAMPLES (world.workerPc other) (talk other) := by
      apply Machine.sum_change rank
      · intro other different
        rw [Function.update_of_ne different, (others other different).2.2.1]
      · rw [Function.update_self]
        exact balance
    have before := inv.balance
    omega

/-! ### The steps left -/

def ServerPc.left (total : ℕ) : ServerPc workers → ℕ
  | .fill i => (total - i) + 4 * total + 3
  | .barrier1 => 4 * total + 2
  | .recv _ counter => 4 * (total - counter) + 1
  | .deq _ counter _ => 4 * (total - counter)
  | .send _ counter _ => 4 * (total - counter) - 1
  | .sendWait _ counter _ => 4 * (total - counter) - 2
  | .barrier2 => 1
  | .done => 0

def WorkerPc.left (total NUM_SAMPLES : ℕ) : WorkerPc → ℕ
  | .fill i => (total - i) + 4 * NUM_SAMPLES + 3
  | .barrier1 => 4 * NUM_SAMPLES + 2
  | .send count => 4 * (NUM_SAMPLES - count.toNat) + 1
  | .sendWait count => 4 * (NUM_SAMPLES - count.toNat)
  | .recv count => 4 * (NUM_SAMPLES - count.toNat) - 1
  | .enq count => 4 * (NUM_SAMPLES - count.toNat) - 2
  | .barrier2 => 1
  | .done => 0

/-- The steps every run still makes from here at most. -/
def World.left (config : Config) (world : World workers) : ℕ :=
  world.serverPc.left (config.total workers) +
    ∑ rank, (world.workerPc rank).left (config.total workers) config.NUM_SAMPLES

theorem serverLoop_left {count : ℤ} {counter : ℕ} :
    (serverLoop config count counter : ServerPc workers).left (config.total workers) ≤
      4 * (config.total workers - counter) + 1 := by
  unfold serverLoop
  split
  · exact Nat.le_refl _
  · exact Nat.le_add_left 1 _

theorem workerLoop_left {total : ℕ} {count : ℤ} :
    (workerLoop config count).left total config.NUM_SAMPLES ≤
      4 * (config.NUM_SAMPLES - count.toNat) + 1 := by
  unfold workerLoop
  split
  · exact Nat.le_refl _
  · exact Nat.le_add_left 1 _

theorem left_server (same : after.workerPc = world.workerPc)
    (lower : after.serverPc.left (config.total workers) <
      world.serverPc.left (config.total workers)) :
    after.left config < world.left config := by
  unfold World.left
  rw [same]
  omega

theorem left_worker {rank : Fin workers} {pc : WorkerPc} (same : after.serverPc = world.serverPc)
    (turned : after.workerPc = Function.update world.workerPc rank pc)
    (lower : pc.left (config.total workers) config.NUM_SAMPLES <
      (world.workerPc rank).left (config.total workers) config.NUM_SAMPLES) :
    after.left config < world.left config := by
  have total : ((world.workerPc rank).left (config.total workers) config.NUM_SAMPLES -
        pc.left (config.total workers) config.NUM_SAMPLES) +
      ∑ other, (after.workerPc other).left (config.total workers) config.NUM_SAMPLES =
      0 + ∑ other, (world.workerPc other).left (config.total workers) config.NUM_SAMPLES := by
    apply Machine.sum_change rank
    · intro other different
      rw [turned, Function.update_of_ne different]
    · rw [turned, Function.update_self]
      omega
  unfold World.left
  rw [same]
  omega

/-! ### One step of a process -/

theorem Inv.receive_step {source : Fin workers} (inv : Inv config world talk)
    (moved : receiveStep world source = some after) :
    (∃ next, Inv config after next) ∧ after.left config < world.left config := by
  unfold receiveStep at moved
  split at moved
  · rename_i count counter message rest at_ pending
    cases moved
    obtain ⟨asking, last⟩ := inv.asked pending
    have sound := inv.server
    rw [at_] at sound
    have awaited := inv.awaiting source
    rw [asking] at awaited
    constructor
    · refine ⟨_, inv.exchange source (.served message.count) ?_ ?_ ?_ ?_ awaited sound
        (inv.worker source) ?_⟩
      · intro other different
        exact ⟨Function.update_of_ne different _ _, rfl, rfl, rfl⟩
      · change Function.update world.requests source rest source = []
        rw [Function.update_self, last]
      · have channel := inv.replies source
        rw [asking] at channel
        exact channel
      · intro other number
        have silent := inv.serving other number
        rw [at_] at silent
        change _ ↔ some (source, message.count) = some (other, number)
        by_cases mine : other = source
        · subst other
          rw [Function.update_self]
          constructor
          · intro same
            cases same
            rfl
          · intro same
            cases same
            rfl
        · rw [Function.update_of_ne mine]
          constructor
          · intro impossible
            cases silent.mp impossible
          · intro impossible
            cases impossible
            exact absurd rfl mine
      · rw [at_, asking]
        rfl
    · refine left_server rfl ?_
      rw [at_]
      change 4 * (config.total workers - counter) < 4 * (config.total workers - counter) + 1
      omega
  · cases moved

theorem Inv.server_send {count : ℤ} {counter : ℕ} {source : Fin workers} {sync : Bool}
    (inv : Inv config world talk) (at_ : world.serverPc = .send count counter source) :
    Inv config
      { world with
        serverPc := if sync then .sendWait count counter source
          else serverLoop config count (counter + 1)
        replies := Function.update world.replies source
          (world.replies source ++ [{ count := count, sync := sync }]) }
      (Function.update talk source (.answered count sync)) := by
  have serving : talk source = .served count := by
    apply (inv.serving source count).mpr
    rw [at_]
    rfl
  have sound := inv.server
  rw [at_] at sound
  obtain ⟨within, stock, printed⟩ := sound
  have awaited := inv.awaiting source
  rw [serving] at awaited
  have idle : (if sync then .sendWait count counter source
      else serverLoop config count (counter + 1) : ServerPc workers).serving = none := by
    cases sync with
    | true => rfl
    | false => exact serverLoop_serving
  refine inv.exchange source _ ?_ ?_ ?_ ?_ awaited ?_ (inv.worker source) ?_
  · intro other different
    exact ⟨rfl, Function.update_of_ne different _ _, rfl, rfl⟩
  · have channel := inv.requests source
    rw [serving] at channel
    exact channel
  · have channel := inv.replies source
    rw [serving] at channel
    change Function.update world.replies source _ source = _
    rw [Function.update_self, channel]
    rfl
  · intro other number
    change _ ↔ ServerPc.serving (if sync then _ else _) = some (other, number)
    rw [idle]
    constructor
    · intro same
      by_cases mine : other = source
      · rw [mine, Function.update_self] at same
        cases same
      · rw [Function.update_of_ne mine, inv.serving other number, at_] at same
        cases same
        exact absurd rfl mine
    · intro impossible
      cases impossible
  · cases sync with
    | true => exact ⟨within, stock, printed⟩
    | false => exact serverLoop_sound within stock printed
  · have more : (if sync then .sendWait count counter source
        else serverLoop config count (counter + 1) : ServerPc workers).answered
          (config.total workers) = counter + 1 := by
      cases sync with
      | true => rfl
      | false => exact serverLoop_answered within
    change _ = ServerPc.answered _ (if sync then _ else _) + _
    rw [more, at_, serving]
    change counter + settled _ (world.workerPc source) _ =
      counter + 1 + settled _ (world.workerPc source) _
    -- Only a waiting worker can be served.
    cases standing : world.workerPc source with
    | sendWait waiting =>
        simp only [settled]
        omega
    | recv waiting =>
        simp only [settled]
        omega
    | _ => rw [standing] at awaited; cases awaited

theorem Inv.server_step {sync : Bool} (inv : Inv config world talk)
    (fits : config.total workers ≤ config.MAX_SIZE)
    (moved : serverStep config world sync = some after) :
    (∃ next, Inv config after next) ∧ after.left config < world.left config := by
  have sound := inv.server
  have low := config.MAX_SIZE_lt
  unfold serverStep at moved
  cases at_ : world.serverPc with
  | fill i =>
      simp only [at_] at moved sound
      obtain ⟨within, stock, printed⟩ := sound
      split at moved
      · rename_i more
        obtain ⟨queue, called, filled⟩ := stock.put config.headFirst (by omega) low
        rw [called] at moved
        cases moved
        constructor
        · refine ⟨talk, inv.server_move ?_ ?_ ⟨more, filled, printed⟩⟩
          · rw [at_]; rfl
          · rw [at_]; rfl
        · refine left_server rfl ?_
          rw [at_]
          simp only [ServerPc.left]
          omega
      · cases moved
        have same : i = config.total workers := by omega
        rw [same] at stock
        constructor
        · refine ⟨talk, inv.server_move ?_ ?_ ⟨stock, printed⟩⟩
          · rw [at_]; rfl
          · rw [at_]; rfl
        · refine left_server rfl ?_
          rw [at_]
          simp only [ServerPc.left]
          omega
  | barrier1 =>
      simp only [at_] at moved sound
      split at moved
      · cases moved
        constructor
        · refine ⟨talk, inv.server_move ?_ ?_ ?_⟩
          · rw [at_]; exact serverLoop_serving
          · rw [at_]; exact serverLoop_answered (Nat.zero_le _)
          · exact serverLoop_sound (Nat.zero_le _) sound.1 sound.2
        · refine left_server rfl ?_
          rw [at_]
          have below : (serverLoop config 0 0 : ServerPc workers).left _ ≤ _ := serverLoop_left
          simp only [ServerPc.left] at below ⊢
          omega
      · cases moved
  | recv count counter =>
      simp only [at_] at moved
      cases moved
  | deq count counter source =>
      simp only [at_] at moved sound
      obtain ⟨within, stock, printed⟩ := sound
      obtain ⟨queue, called, taken⟩ := stock.take config.headFirst within (by omega)
      rw [called] at moved
      cases moved
      constructor
      · refine ⟨talk, inv.server_move ?_ ?_ ⟨within, taken, ?_⟩⟩
        · rw [at_]; rfl
        · rw [at_]; rfl
        · rw [printed, ramp_concat (Nat.zero_le counter)]
      · refine left_server rfl ?_
        rw [at_]
        simp only [ServerPc.left]
        omega
  | send count counter source =>
      simp only [at_] at moved sound
      cases moved
      refine ⟨⟨_, inv.server_send at_⟩, left_server rfl ?_⟩
      rw [at_]
      have within := sound.1
      cases sync with
      | true =>
          change 4 * (config.total workers - counter) - 2 <
            4 * (config.total workers - counter) - 1
          omega
      | false =>
          have below : (serverLoop config count (counter + 1) : ServerPc workers).left _ ≤ _ :=
            serverLoop_left
          change (serverLoop config count (counter + 1) : ServerPc workers).left _ <
            4 * (config.total workers - counter) - 1
          omega
  | sendWait count counter source =>
      simp only [at_] at moved sound
      obtain ⟨within, stock, printed⟩ := sound
      split at moved
      · cases moved
        constructor
        · refine ⟨talk, inv.server_move ?_ ?_ ?_⟩
          · rw [at_]; exact serverLoop_serving
          · rw [at_]; exact serverLoop_answered within
          · exact serverLoop_sound within stock printed
        · refine left_server rfl ?_
          rw [at_]
          have below : (serverLoop config count (counter + 1) : ServerPc workers).left _ ≤ _ :=
            serverLoop_left
          simp only [ServerPc.left] at below ⊢
          omega
      · cases moved
  | barrier2 =>
      simp only [at_] at moved sound
      split at moved
      · cases moved
        constructor
        · refine ⟨talk, inv.server_move ?_ ?_ sound⟩
          · rw [at_]; rfl
          · rw [at_]; rfl
        · refine left_server rfl ?_
          rw [at_]
          simp only [ServerPc.left]
          omega
      · cases moved
  | done =>
      simp only [at_] at moved
      cases moved

theorem Inv.worker_send {rank : Fin workers} {count : ℤ} {sync : Bool}
    (inv : Inv config world talk) (at_ : world.workerPc rank = .send count) :
    Inv config
      { world with
        workerPc := Function.update world.workerPc rank
          (if sync then .sendWait count else .recv count)
        requests := Function.update world.requests rank
          (world.requests rank ++ [{ count := count, sync := sync }]) }
      (Function.update talk rank (.asked count sync)) := by
  have quiet : talk rank = .quiet := inv.quiet (by rw [at_]; rfl)
  have sound := inv.worker rank
  rw [at_] at sound
  have turned : (Function.update world.workerPc rank
      (if sync then .sendWait count else .recv count) rank) =
      if sync then .sendWait count else .recv count := Function.update_self _ _ _
  refine inv.exchange rank _ ?_ ?_ ?_ ?_ ?_ inv.server ?_ ?_
  · intro other different
    exact ⟨Function.update_of_ne different _ _, rfl, Function.update_of_ne different _ _, rfl⟩
  · have channel := inv.requests rank
    rw [quiet] at channel
    change Function.update world.requests rank _ rank = _
    rw [Function.update_self, channel]
    rfl
  · have channel := inv.replies rank
    rw [quiet] at channel
    exact channel
  · intro other number
    rw [← inv.serving other number]
    by_cases mine : other = rank
    · rw [mine, Function.update_self, quiet]
      constructor
      · intro impossible
        cases impossible
      · intro impossible
        cases impossible
    · rw [Function.update_of_ne mine]
  · change _ = WorkerPc.awaited (Function.update world.workerPc rank _ rank)
    rw [turned]
    cases sync <;> rfl
  · change WorkerSound _ _ (Function.update world.workerPc rank _ rank) _
    rw [turned]
    cases sync with
    | true => exact sound
    | false => exact sound
  · change _ + settled _ (Function.update world.workerPc rank _ rank) _ = _
    rw [turned, at_, quiet]
    cases sync <;> rfl

theorem Inv.worker_recv {rank : Fin workers} {count : ℤ} {message : Message}
    {rest : List Message} (inv : Inv config world talk)
    (at_ : world.workerPc rank = .recv count) (pending : world.replies rank = message :: rest) :
    message.count = count ∧
    Inv config
      { world with
        workerPc := Function.update world.workerPc rank (.enq message.count)
        replies := Function.update world.replies rank rest }
      (Function.update talk rank .quiet) := by
  obtain ⟨answer, last⟩ := inv.answered pending
  have same : message.count = count := by
    have awaited := inv.awaiting rank
    rw [answer, at_] at awaited
    exact Option.some.inj awaited
  have sound := inv.worker rank
  rw [at_] at sound
  have turned : Function.update world.workerPc rank (.enq message.count) rank =
      .enq message.count := Function.update_self _ _ _
  refine ⟨same, inv.exchange rank _ ?_ ?_ ?_ ?_ ?_ inv.server ?_ ?_⟩
  · intro other different
    exact ⟨rfl, Function.update_of_ne different _ _, Function.update_of_ne different _ _, rfl⟩
  · have channel := inv.requests rank
    rw [answer] at channel
    exact channel
  · change Function.update world.replies rank rest rank = []
    rw [Function.update_self, last]
  · intro other number
    rw [← inv.serving other number]
    by_cases mine : other = rank
    · rw [mine, Function.update_self, answer]
      constructor
      · intro impossible
        cases impossible
      · intro impossible
        cases impossible
    · rw [Function.update_of_ne mine]
  · change _ = WorkerPc.awaited (Function.update world.workerPc rank _ rank)
    rw [turned]
    rfl
  · change WorkerSound _ _ (Function.update world.workerPc rank _ rank) _
    rw [turned, same]
    exact sound
  · change _ + settled _ (Function.update world.workerPc rank _ rank) _ = _
    rw [turned, at_, answer, same]
    rfl

theorem small_of_rank (rank : Fin workers) (fits : config.total workers ≤ config.MAX_SIZE) :
    config.NUM_SAMPLES ≤ config.MAX_SIZE := by
  have positive : 1 ≤ workers := Nat.lt_of_le_of_lt (Nat.zero_le _) rank.isLt
  calc config.NUM_SAMPLES = config.NUM_SAMPLES * 1 := (Nat.mul_one _).symm
    _ ≤ config.NUM_SAMPLES * workers := Nat.mul_le_mul_left _ positive
    _ ≤ config.MAX_SIZE := fits

theorem Inv.worker_step {rank : Fin workers} {sync : Bool} (inv : Inv config world talk)
    (fits : config.total workers ≤ config.MAX_SIZE)
    (moved : workerStep config world rank sync = some after) :
    (∃ next, Inv config after next) ∧ after.left config < world.left config := by
  have sound := inv.worker rank
  have low := config.MAX_SIZE_lt
  unfold workerStep at moved
  have small := small_of_rank rank fits
  cases at_ : world.workerPc rank with
  | fill i =>
      simp only [at_] at moved sound
      obtain ⟨within, stock, empty⟩ := sound
      split at moved
      · rename_i more
        obtain ⟨queue, called, filled⟩ := stock.put config.headFirst (by omega) low
        rw [called] at moved
        cases moved
        constructor
        · refine ⟨talk, inv.worker_move ?_ ?_ ⟨more, filled, empty⟩⟩
          · rw [at_]; rfl
          · rw [at_]; rfl
        · refine left_worker rfl rfl ?_
          rw [at_]
          simp only [WorkerPc.left]
          omega
      · cases moved
        constructor
        · refine ⟨talk, inv.worker_turn ?_ ?_ empty⟩
          · rw [at_]; rfl
          · rw [at_]; rfl
        · refine left_worker rfl rfl ?_
          rw [at_]
          simp only [WorkerPc.left]
          omega
  | barrier1 =>
      simp only [at_] at moved sound
      split at moved
      · cases moved
        have within : (0 : ℤ) ≤ config.NUM_SAMPLES := Int.natCast_nonneg _
        constructor
        · refine ⟨talk, inv.worker_turn ?_ ?_ ?_⟩
          · rw [at_]; exact workerLoop_awaited
          · rw [at_]; exact workerLoop_settled (Int.le_refl 0) within
          · exact workerLoop_sound (Int.le_refl 0) within sound
        · refine left_worker rfl rfl ?_
          rw [at_]
          have below : (workerLoop config 0).left (config.total workers) _ ≤ _ := workerLoop_left
          simp only [WorkerPc.left] at below ⊢
          omega
      · cases moved
  | send count =>
      simp only [at_] at moved sound
      cases moved
      refine ⟨⟨_, inv.worker_send at_⟩, left_worker rfl rfl ?_⟩
      rw [at_]
      cases sync with
      | true =>
          simp only [WorkerPc.left, if_true]
          omega
      | false =>
          simp only [WorkerPc.left, Bool.false_eq_true, if_false]
          omega
  | sendWait count =>
      simp only [at_] at moved sound
      have nonneg := sound.1
      have within := sound.2.1
      split at moved
      · cases moved
        constructor
        · refine ⟨talk, inv.worker_turn ?_ ?_ sound⟩
          · rw [at_]; rfl
          · rw [at_]; rfl
        · refine left_worker rfl rfl ?_
          rw [at_]
          simp only [WorkerPc.left]
          omega
      · cases moved
  | recv count =>
      simp only [at_] at moved sound
      have nonneg := sound.1
      have within := sound.2.1
      split at moved
      · cases moved
      · rename_i message rest pending
        cases moved
        obtain ⟨same, kept⟩ := inv.worker_recv at_ pending
        refine ⟨⟨_, kept⟩, left_worker rfl rfl ?_⟩
        rw [at_, same]
        simp only [WorkerPc.left]
        omega
  | enq count =>
      simp only [at_] at moved sound
      obtain ⟨nonneg, within, stock⟩ := sound
      obtain ⟨queue, called, filled⟩ := stock.put config.headFirst (by omega) low
      rw [Int.toNat_of_nonneg nonneg] at called
      rw [called] at moved
      cases moved
      have grown : (count + 1).toNat = count.toNat + 1 := by omega
      rw [← grown] at filled
      constructor
      · refine ⟨talk, inv.worker_move ?_ ?_ ?_⟩
        · rw [at_]; exact workerLoop_awaited
        · rw [at_, workerLoop_settled (by omega) (by omega), grown]
          rfl
        · exact workerLoop_sound (by omega) (by omega) filled
      · refine left_worker rfl rfl ?_
        rw [at_]
        have below : (workerLoop config (count + 1)).left (config.total workers) _ ≤ _ :=
          workerLoop_left
        simp only [WorkerPc.left] at below ⊢
        omega
  | barrier2 =>
      simp only [at_] at moved sound
      split at moved
      · cases moved
        constructor
        · refine ⟨talk, inv.worker_turn ?_ ?_ sound⟩
          · rw [at_]; rfl
          · rw [at_]; rfl
        · refine left_worker rfl rfl ?_
          rw [at_]
          simp only [WorkerPc.left]
          omega
      · cases moved
  | done =>
      simp only [at_] at moved
      cases moved

/-! ### Somebody can always move -/

def Live (config : Config) (world : World workers) : Prop :=
  ∃ act, (step config world act).isSome = true

def ServerPc.Free : ServerPc workers → Prop
  | .fill _ | .deq _ _ _ | .send _ _ _ => True
  | _ => False

def WorkerPc.Free : WorkerPc → Prop
  | .fill _ | .send _ | .enq _ => True
  | _ => False

theorem Inv.server_free (inv : Inv config world talk)
    (fits : config.total workers ≤ config.MAX_SIZE)
    (free : world.serverPc.Free) : Live config world := by
  have sound := inv.server
  have low := config.MAX_SIZE_lt
  cases at_ : world.serverPc with
  | fill i =>
      simp only [at_] at sound
      by_cases more : i < config.total workers
      · obtain ⟨queue, called, _⟩ := sound.2.1.put config.headFirst (by omega) low
        refine ⟨.server true, ?_⟩
        simp only [step, serverStep, at_, if_pos more, called, Option.map_some, Option.isSome_some]
      · refine ⟨.server true, ?_⟩
        simp only [step, serverStep, at_, if_neg more, Option.isSome_some]
  | deq count counter source =>
      simp only [at_] at sound
      obtain ⟨queue, called, _⟩ := sound.2.1.take config.headFirst sound.1 (by omega)
      refine ⟨.server true, ?_⟩
      simp only [step, serverStep, at_, called, Option.map_some, Option.isSome_some]
  | send count counter source =>
      refine ⟨.server true, ?_⟩
      simp only [step, serverStep, at_, Option.isSome_some]
  | _ => rw [at_] at free; exact free.elim

theorem Inv.worker_free (inv : Inv config world talk)
    (fits : config.total workers ≤ config.MAX_SIZE) (small : config.NUM_SAMPLES ≤ config.MAX_SIZE)
    {rank : Fin workers} (free : (world.workerPc rank).Free) : Live config world := by
  have sound := inv.worker rank
  have low := config.MAX_SIZE_lt
  cases at_ : world.workerPc rank with
  | fill i =>
      simp only [at_] at sound
      by_cases more : i < config.total workers
      · obtain ⟨queue, called, _⟩ := sound.2.1.put config.headFirst (by omega) low
        refine ⟨.worker rank true, ?_⟩
        simp only [step, workerStep, at_, if_pos more, called, Option.map_some, Option.isSome_some]
      · refine ⟨.worker rank true, ?_⟩
        simp only [step, workerStep, at_, if_neg more, Option.isSome_some]
  | send count =>
      refine ⟨.worker rank true, ?_⟩
      simp only [step, workerStep, at_, Option.isSome_some]
  | enq count =>
      simp only [at_] at sound
      obtain ⟨nonneg, within, stock⟩ := sound
      obtain ⟨queue, called, _⟩ := stock.put config.headFirst (by omega) low
      rw [Int.toNat_of_nonneg nonneg] at called
      refine ⟨.worker rank true, ?_⟩
      simp only [step, workerStep, at_, called, Option.map_some, Option.isSome_some]
  | _ => rw [at_] at free; exact free.elim

theorem Inv.answered_live (inv : Inv config world talk) {rank : Fin workers} {count : ℤ}
    {sync : Bool} (answer : talk rank = .answered count sync) : Live config world := by
  have requests := inv.requests rank
  have replies := inv.replies rank
  have awaited := inv.awaiting rank
  rw [answer] at requests replies awaited
  cases at_ : world.workerPc rank with
  | sendWait waiting =>
      have matched : Matched (world.requests rank) := by
        intro message member
        rw [requests] at member
        cases member
      refine ⟨.worker rank true, ?_⟩
      simp only [step, workerStep, at_, if_pos matched, Option.isSome_some]
  | recv waiting =>
      refine ⟨.worker rank true, ?_⟩
      simp only [step, workerStep, at_, replies, Talk.replies, Option.isSome_some]
  | _ => rw [at_] at awaited; cases awaited

theorem Inv.barrier_live (barrier : world.Open 1)
    (waits : world.serverPc = .barrier1 ∨ ∃ rank, world.workerPc rank = .barrier1) :
    Live config world := by
  rcases waits with at_ | ⟨rank, at_⟩
  · refine ⟨.server true, ?_⟩
    simp only [step, serverStep, at_, if_pos barrier, Option.isSome_some]
  · refine ⟨.worker rank true, ?_⟩
    simp only [step, workerStep, at_, if_pos barrier, Option.isSome_some]

theorem settled_le (inv : Inv config world talk) (rank : Fin workers) :
    settled config.NUM_SAMPLES (world.workerPc rank) (talk rank) ≤ config.NUM_SAMPLES := by
  have sound := inv.worker rank
  cases at_ : world.workerPc rank with
  | fill i => exact Nat.zero_le _
  | barrier1 => exact Nat.zero_le _
  | barrier2 => exact Nat.le_refl _
  | done => exact Nat.le_refl _
  | send count =>
      simp only [at_] at sound
      have within := sound.2.1
      simp only [settled]
      omega
  | enq count =>
      simp only [at_] at sound
      have within := sound.2.1
      have nonneg := sound.1
      simp only [settled]
      omega
  | sendWait count =>
      simp only [at_] at sound
      have within := sound.2.1
      have nonneg := sound.1
      simp only [settled]
      split <;> omega
  | recv count =>
      simp only [at_] at sound
      have within := sound.2.1
      have nonneg := sound.1
      simp only [settled]
      split <;> omega

/-- Once the server has answered everything, every worker has had all its answers. -/
theorem Inv.all_settled (inv : Inv config world talk)
    (finished : world.serverPc.answered (config.total workers) = config.total workers)
    (rank : Fin workers) :
    settled config.NUM_SAMPLES (world.workerPc rank) (talk rank) = config.NUM_SAMPLES := by
  by_contra short
  have less : settled config.NUM_SAMPLES (world.workerPc rank) (talk rank) <
      config.NUM_SAMPLES := lt_of_le_of_ne (settled_le inv rank) short
  have strict : ∑ other, settled config.NUM_SAMPLES (world.workerPc other) (talk other) <
      ∑ _other : Fin workers, config.NUM_SAMPLES :=
    Finset.sum_lt_sum (fun other _ => settled_le inv other) ⟨rank, Finset.mem_univ rank, less⟩
  rw [inv.balance, finished, Finset.sum_const, Finset.card_univ, Fintype.card_fin, smul_eq_mul,
    Config.total, Nat.mul_comm] at strict
  exact Nat.lt_irrefl _ strict

theorem unanswered_lt {NUM_SAMPLES : ℕ} {count : ℤ} {talk : Talk} (nonneg : 0 ≤ count)
    (within : count < NUM_SAMPLES) (waiting : ∀ number sync, talk ≠ .answered number sync) :
    settled NUM_SAMPLES (.sendWait count) talk < NUM_SAMPLES ∧
      settled NUM_SAMPLES (.recv count) talk < NUM_SAMPLES := by
  cases talk with
  | answered number sync => exact absurd rfl (waiting number sync)
  | _ =>
      simp only [settled]
      omega

theorem last_live (arrived : 2 ≤ world.serverPc.reached)
    (done : ∀ rank, world.workerPc rank = .barrier2 ∨ world.workerPc rank = .done)
    (unfinished : ¬ world.Done) : Live config world := by
  have barrier : world.Open 2 := by
    refine ⟨arrived, ?_⟩
    intro rank
    rcases done rank with at_ | at_
    · rw [at_]; exact Nat.le_refl 2
    · rw [at_]; exact Nat.le_refl 2
  by_cases server : world.serverPc = .barrier2
  · refine ⟨.server true, ?_⟩
    simp only [step, serverStep, server, if_pos barrier, Option.isSome_some]
  by_cases worker : ∃ rank, world.workerPc rank = .barrier2
  · obtain ⟨rank, at_⟩ := worker
    refine ⟨.worker rank true, ?_⟩
    simp only [step, workerStep, at_, if_pos barrier, Option.isSome_some]
  · exfalso
    apply unfinished
    constructor
    · cases at_ : world.serverPc with
      | done => rfl
      | barrier2 => exact absurd at_ server
      | _ => rw [at_] at arrived; exact absurd arrived (by simp only [ServerPc.reached]; omega)
    · intro rank
      rcases done rank with at_ | at_
      · exact absurd ⟨rank, at_⟩ worker
      · exact at_

theorem Inv.live (inv : Inv config world talk) (fits : config.total workers ≤ config.MAX_SIZE)
    (unfinished : ¬ world.Done) : Live config world := by
  by_cases serverFree : world.serverPc.Free
  · exact inv.server_free fits serverFree
  by_cases workerFree : ∃ rank, (world.workerPc rank).Free
  · obtain ⟨rank, free⟩ := workerFree
    exact inv.worker_free fits (small_of_rank rank fits) free
  -- Nobody fills a queue any more, so the first barrier is open.
  have barrier : world.Open 1 := by
    constructor
    · cases at_ : world.serverPc with
      | fill i => rw [at_] at serverFree; exact absurd trivial serverFree
      | _ => simp only [ServerPc.reached]; omega
    · intro rank
      cases at_ : world.workerPc rank with
      | fill i => exact absurd ⟨rank, by rw [at_]; trivial⟩ workerFree
      | _ => simp only [WorkerPc.reached]; omega
  by_cases atBarrier : world.serverPc = .barrier1 ∨ ∃ rank, world.workerPc rank = .barrier1
  · exact Inv.barrier_live barrier atBarrier
  by_cases answered : ∃ rank count sync, talk rank = .answered count sync
  · obtain ⟨rank, count, sync, answer⟩ := answered
    exact inv.answered_live answer
  -- Without an answer in flight a blocked send of the server has been matched.
  have matched : ∀ rank, Matched (world.replies rank) := by
    intro rank message member
    rw [inv.replies rank] at member
    cases same : talk rank with
    | answered count sync => exact absurd ⟨rank, count, sync, same⟩ answered
    | _ => rw [same] at member; cases member
  have ends : ∀ rank, (world.workerPc rank).awaited = none →
      world.workerPc rank = .barrier2 ∨ world.workerPc rank = .done := by
    intro rank silent
    cases at_ : world.workerPc rank with
    | barrier2 => exact Or.inl rfl
    | done => exact Or.inr rfl
    | barrier1 => exact absurd (Or.inr ⟨rank, at_⟩) atBarrier
    | sendWait count => rw [at_] at silent; cases silent
    | recv count => rw [at_] at silent; cases silent
    | fill i => exact absurd ⟨rank, by rw [at_]; trivial⟩ workerFree
    | send count => exact absurd ⟨rank, by rw [at_]; trivial⟩ workerFree
    | enq count => exact absurd ⟨rank, by rw [at_]; trivial⟩ workerFree
  have finishing : world.serverPc.answered (config.total workers) = config.total workers →
      2 ≤ world.serverPc.reached → Live config world := by
    intro finished arrived
    have done : ∀ rank, world.workerPc rank = .barrier2 ∨ world.workerPc rank = .done := by
      intro rank
      apply ends
      have full := inv.all_settled finished rank
      have sound := inv.worker rank
      cases at_ : world.workerPc rank with
      | sendWait count =>
          exfalso
          rw [at_] at full sound
          have below := unanswered_lt sound.1 sound.2.1
            (fun number sync same => answered ⟨rank, number, sync, same⟩)
          exact Nat.ne_of_lt below.1 full
      | recv count =>
          exfalso
          rw [at_] at full sound
          have below := unanswered_lt sound.1 sound.2.1
            (fun number sync same => answered ⟨rank, number, sync, same⟩)
          exact Nat.ne_of_lt below.2 full
      | _ => rfl
    exact last_live arrived done unfinished
  cases at_ : world.serverPc with
  | fill i => exact absurd (by rw [at_]; trivial) serverFree
  | deq count counter source => exact absurd (by rw [at_]; trivial) serverFree
  | send count counter source => exact absurd (by rw [at_]; trivial) serverFree
  | barrier1 => exact absurd (Or.inl at_) atBarrier
  | sendWait count counter source =>
      refine ⟨.server true, ?_⟩
      simp only [step, serverStep, at_, if_pos (matched source), Option.isSome_some]
  | barrier2 => exact finishing (by rw [at_]; rfl) (by rw [at_]; exact Nat.le_refl 2)
  | done => exact finishing (by rw [at_]; rfl) (by rw [at_]; exact Nat.le_refl 2)
  | recv count counter =>
      by_cases asked : ∃ rank number sync, talk rank = .asked number sync
      · obtain ⟨rank, number, sync, asking⟩ := asked
        have pending := inv.requests rank
        rw [asking] at pending
        refine ⟨.receive rank, ?_⟩
        simp only [step, receiveStep, at_, pending, Talk.requests, Option.isSome_some]
      · -- No request, no answer and none being served: every worker has finished.
        exfalso
        have sound := inv.server
        rw [at_] at sound
        have all : ∀ rank, settled config.NUM_SAMPLES (world.workerPc rank) (talk rank) =
            config.NUM_SAMPLES := by
          intro rank
          have awaited := inv.awaiting rank
          have silent : (world.workerPc rank).awaited = none := by
            rw [← awaited]
            cases same : talk rank with
            | quiet => rfl
            | asked number sync => exact absurd ⟨rank, number, sync, same⟩ asked
            | answered number sync => exact absurd ⟨rank, number, sync, same⟩ answered
            | served number =>
                have serving := (inv.serving rank number).mp same
                rw [at_] at serving
                cases serving
          rcases ends rank silent with place | place
          · rw [place]; rfl
          · rw [place]; rfl
        have balance := inv.balance
        rw [Finset.sum_congr rfl (fun rank _ => all rank), at_, Finset.sum_const,
          Finset.card_univ, Fintype.card_fin, smul_eq_mul, Nat.mul_comm] at balance
        exact Nat.ne_of_lt sound.1 balance.symm

/-! ### Whole runs -/

def Consistent (config : Config) (world : World workers) : Prop := ∃ talk, Inv config world talk

theorem step_consistent (fits : config.total workers ≤ config.MAX_SIZE) {act : Act workers}
    (consistent : Consistent config world) (moved : step config world act = some after) :
    Consistent config after ∧ after.left config < world.left config := by
  obtain ⟨talk, inv⟩ := consistent
  cases act with
  | server sync => exact inv.server_step fits moved
  | receive source => exact inv.receive_step moved
  | worker rank sync => exact inv.worker_step fits moved

theorem consistent_of_run (fits : config.total workers ≤ config.MAX_SIZE) {junk : ℤ → ℤ}
    {trace : List (World workers × Act workers)}
    (run : Run (step config) (start config workers junk) trace world) :
    Consistent config world :=
  run.invariant (Transition.meets_true trace) ⟨_, Inv.start config workers junk⟩
    (fun _ _ _ consistent _ moved => (step_consistent fits consistent moved).1)

theorem Inv.printed (inv : Inv config world talk) :
    ∃ counter, world.dequeued = ramp 0 counter := by
  have sound := inv.server
  cases at_ : world.serverPc with
  | fill i => rw [at_] at sound; exact ⟨0, sound.2.2⟩
  | barrier1 => rw [at_] at sound; exact ⟨0, sound.2⟩
  | barrier2 => rw [at_] at sound; exact ⟨_, sound.2⟩
  | done => rw [at_] at sound; exact ⟨_, sound.2⟩
  | recv count counter => rw [at_] at sound; exact ⟨_, sound.2.2⟩
  | deq count counter source => rw [at_] at sound; exact ⟨_, sound.2.2⟩
  | send count counter source => rw [at_] at sound; exact ⟨_, sound.2.2⟩
  | sendWait count counter source => rw [at_] at sound; exact ⟨_, sound.2.2⟩

theorem Inv.at_end (inv : Inv config world talk) (done : world.Done) :
    (∀ rank, world.requests rank = [] ∧ world.replies rank = []) ∧
    Holds config.MAX_SIZE world.serverMem.incoming [] ∧
    ∀ rank, Holds config.MAX_SIZE (world.workerMem rank).results (ramp 0 config.NUM_SAMPLES) := by
  refine ⟨?_, ?_, ?_⟩
  · intro rank
    have quiet : talk rank = .quiet := inv.quiet (by rw [done.2 rank]; rfl)
    rw [inv.requests rank, inv.replies rank, quiet]
    exact ⟨rfl, rfl⟩
  · have sound := inv.server
    rw [done.1] at sound
    have empty := sound.1.holds
    rwa [ramp_self] at empty
  · intro rank
    have sound := inv.worker rank
    rw [done.2 rank] at sound
    exact sound.holds

/-- The server and the workers complete together, whatever the order of delivery and
whichever sends block: every run is finite, somebody can move until all have finished,
the server prints 1, 2, 3 and so on, and every reply carries its request's count. -/
theorem mpi_run_completes (config : Config) (workers : ℕ) (junk : ℤ → ℤ)
    (fits : config.NUM_SAMPLES * workers ≤ config.MAX_SIZE) :
    (∃ bound, ∀ trace world, Run (step config) (start config workers junk) trace world →
      trace.length ≤ bound) ∧
    ∀ trace world, Run (step config) (start config workers junk) trace world →
      (¬ world.Done → ∃ act, (step config world act).isSome = true) ∧
      (∃ counter, world.dequeued = ramp 0 counter) ∧
      (∀ rank count message rest, world.workerPc rank = .recv count →
        world.replies rank = message :: rest → message.count = count) ∧
      (world.Done →
        (∀ rank, world.requests rank = [] ∧ world.replies rank = []) ∧
        Holds config.MAX_SIZE world.serverMem.incoming [] ∧
        ∀ rank, Holds config.MAX_SIZE (world.workerMem rank).results
          (ramp 0 config.NUM_SAMPLES)) := by
  constructor
  · refine ⟨(start config workers junk).left config, ?_⟩
    intro trace world run
    have bound := run.length_le (World.left config)
      (⟨_, Inv.start config workers junk⟩ : Consistent config (start config workers junk))
      (fun _ _ _ consistent moved => (step_consistent fits consistent moved).1)
      (fun _ _ _ consistent moved => (step_consistent fits consistent moved).2)
    omega
  · intro trace world run
    obtain ⟨talk, inv⟩ := consistent_of_run fits run
    exact ⟨inv.live fits, inv.printed,
      fun rank count message rest at_ pending => (inv.worker_recv at_ pending).1, inv.at_end⟩

/-- Two workers and two samples. The second worker is served first, the requests cross, and
some sends block while others are buffered. -/
def crossing (first second : Fin 2) : List (Act 2) :=
  List.replicate 5 (.server true) ++ List.replicate 5 (.worker first true) ++
    List.replicate 5 (.worker second true) ++
    [.worker second true, .server true, .worker first true,
      .worker first true, .worker second false, .receive second, .server true, .server false,
      .receive first, .server true, .worker first true, .server true,
      .worker second true, .worker second true, .worker second true,
      .worker first true, .server true, .worker first true, .worker first false,
      .receive first, .server true, .server false,
      .receive second, .worker second true, .server true, .server false,
      .worker second true, .worker first true, .worker second true, .worker first true,
      .worker first true, .server true, .worker second true]

theorem mpi_run_completes_crossing :
    ∃ (config : Config) (trace : _) (world : World 2),
      Run (step config) (start config 2 (fun _ => 7)) trace world ∧ world.Done ∧
      world.dequeued = [1, 2, 3, 4] ∧
      ∀ rank, Holds config.MAX_SIZE (world.workerMem rank).results (ramp 0 2) := by
  let config : Config :=
    { NUM_SAMPLES := 2
      MAX_SIZE := 4
      MAX_SIZE_lt := by decide
      headFirst := true }
  have run : Run (step config) (start config 2 (fun _ => 7)) _ _ :=
    Transition.run_of_play (crossing 0 1) rfl
  refine ⟨config, _, _, run, ⟨rfl, Fin.forall_fin_two.mpr ⟨rfl, rfl⟩⟩, rfl, ?_⟩
  have completes := (mpi_run_completes config 2 _ (by decide)).2 _ _ run
  exact (completes.2.2.2 ⟨rfl, Fin.forall_fin_two.mpr ⟨rfl, rfl⟩⟩).2.2

end QueueBench.MpiProtocol
