import QueueBench.Lib.Linearization
import QueueBench.BlockingBuffer

/-! The blocking queue as its callers see it: a first-in-first-out queue with as many places as it
was created with. An enqueue has its effect in its store and a dequeue in its read, both under
the lock; a waiting call has none. -/

namespace QueueBench.BlockingQueue
open Linearization
open Machine (Outcome Pool Program Act)
open RingArith (tmod_of_nonneg)
open Transition (Run Meets run_of_play)

variable {τ ι : Type*}

def bufferKind (τ : Type*) (size : ℕ) : QueueKind τ (Option τ) :=
  { room := fun outstanding => outstanding < size
    stored := none
    got := some
    nothing := fun _ => False }

def operation : Pc τ → Option (QueueOp τ)
  | .enqWait task => some (.put task)
  | .deqWait => some .get
  | _ => none

def bufferView : View (Queue τ) (Pc τ) (Hist ι τ) (List τ) (QueueOp τ) (Option τ) :=
  { value := fun _ hist => hist.stored.drop hist.reads.length
    status := fun _ _ pc =>
      match pc with
      | .enqWait task => .pending (.put task)
      | .enqLock task => .pending (.put task)
      | .enqInc task => .pending (.put task)
      | .enqStore task _ => .pending (.put task)
      | .enqUnlock | .enqPost => .done none
      | .deqWait | .deqLock | .deqInc | .deqRead _ => .pending .get
      | .deqUnlock task => .done (some task)
      | .deqPost task => .done (some task) }

variable {size : ℕ} {tasks : ℤ → τ} {rear front : ℤ} {hist : Hist ι τ}

theorem Contents.store_acts {task : τ} {last : ℤ}
    (contents : Contents size tasks rear front hist (some (.enqStore task last)))
    (room : rear - front ≤ size) {before after : Queue τ} :
    (bufferKind τ size).acts (bufferView.value before hist) (.put task) none
      (bufferView.value after { hist with stores := hist.stores ++ [(last, task)] }) := by
  have rearEq : rear = hist.stores.length + 1 := contents.rear_eq
  have frontEq : front = hist.reads.length + 0 := contents.front_eq
  have behind := contents.read_le
  have length : hist.stored.length = hist.stores.length := List.length_map _
  have grown : Hist.stored { hist with stores := hist.stores ++ [(last, task)] } =
      hist.stored ++ [task] := by
    simp only [Hist.stored, List.map_append, List.map_cons, List.map_nil]
  change (bufferKind τ size).acts _ _ _ (List.drop hist.reads.length (Hist.stored _))
  rw [grown, List.drop_append_of_le_length (by omega)]
  apply QueueKind.acts.put
  change (hist.stored.drop hist.reads.length).length < size
  rw [List.length_drop]
  omega

theorem Contents.read_acts {first : ℤ}
    (contents : Contents size tasks rear front hist (some (.deqRead first)))
    (filled : 0 ≤ rear - front) {before after : Queue τ} :
    (bufferKind τ size).acts (bufferView.value before hist) .get
      (some (tasks (first.tmod size)))
      (bufferView.value after { hist with reads := hist.reads ++ [first] }) := by
  have oldest := contents.first_eq first rfl
  have rearEq : rear = hist.stores.length + 0 := contents.rear_eq
  have frontEq : front = hist.reads.length + 1 := contents.front_eq
  have value := contents.live hist.reads.length (Nat.le_refl _) (by omega)
  obtain ⟨inside, found⟩ := List.getElem?_eq_some_iff.mp value
  have position : (hist.reads.length : ℤ) + 1 = first := by omega
  have split := List.drop_eq_getElem_cons inside
  rw [found, position, ← tmod_of_nonneg (by omega : 0 ≤ first)] at split
  change (bufferKind τ size).acts (hist.stored.drop hist.reads.length) _ _
    (hist.stored.drop (hist.reads ++ [first]).length)
  rw [split, List.length_append, List.length_singleton]
  exact .get

section Runs
variable [DecidableEq ι] {state next : Pool ι (Queue τ) (Pc τ) Unit (Hist ι τ)}
variable {act : Act ι (Pc τ)}

theorem buffer_matched {phase : Option (Pc τ)}
    (inv : Inv size state.mem state.hist state.at phase)
    (filled : 0 ≤ state.mem.rear - state.mem.front)
    (room : state.mem.rear - state.mem.front ≤ size)
    (moved : (program size).next state act = some next) :
    ∃ effects, Linear (bufferKind τ size).acts (bufferView.atomic state)
      (shown (program size) operation state act) effects (bufferView.atomic next) := by
  rcases Program.next_cases moved with
    ⟨thread, entry, script, left, rfl, idle, called, rfl⟩ |
    ⟨thread, script, left, rfl, idle, impossible, rfl⟩ |
    ⟨thread, pc, script, mem, outcome, rfl, busy, stepped, rfl⟩
  · cases entry with
    | enqWait task => exact ⟨[], View.match_call idle rfl rfl⟩
    | deqWait => exact ⟨[], View.match_call idle rfl rfl⟩
    | _ => cases called
  · cases impossible
  · have at_ : state.at thread = some pc := Pool.at_busy busy
    change step size pc state.mem = some (mem, outcome) at stepped
    cases pc with
    | enqWait task =>
        by_cases full : state.mem.spaces_sem = 0
        · have blocked : step size (.enqWait task) state.mem = none := if_pos full
          cases blocked.symm.trans stepped
        · have waits : step size (.enqWait task) state.mem =
              some ({ state.mem with spaces_sem := state.mem.spaces_sem - 1 },
                .goto (.enqLock task)) := if_neg full
          cases waits.symm.trans stepped
          exact ⟨[], View.match_silent busy waits (fun _ _ _ _ => rfl) rfl rfl rfl⟩
    | enqLock task =>
        by_cases locked : state.mem.lock = true
        · have blocked : step size (.enqLock task) state.mem = none := if_pos locked
          cases blocked.symm.trans stepped
        · have locks : step size (.enqLock task) state.mem =
              some ({ state.mem with lock := true }, .goto (.enqInc task)) := if_neg locked
          cases locks.symm.trans stepped
          exact ⟨[], View.match_silent busy locks (fun _ _ _ _ => rfl) rfl rfl rfl⟩
    | enqInc task =>
        cases stepped
        exact ⟨[], View.match_silent busy rfl (fun _ _ _ _ => rfl) rfl rfl rfl⟩
    | enqStore task last =>
        cases stepped
        exact ⟨_, View.match_effect busy rfl (fun _ _ _ _ => rfl) rfl rfl rfl
          ((inv.contents_at at_ trivial).store_acts room)⟩
    | enqUnlock =>
        cases stepped
        exact ⟨[], View.match_silent busy rfl (fun _ _ _ _ => rfl) rfl rfl rfl⟩
    | enqPost =>
        cases stepped
        exact ⟨[], View.match_return busy rfl (fun _ _ _ _ => rfl) rfl rfl⟩
    | deqWait =>
        by_cases empty : state.mem.task_sem = 0
        · have blocked : step size (.deqWait : Pc τ) state.mem = none := if_pos empty
          cases blocked.symm.trans stepped
        · have waits : step size (.deqWait : Pc τ) state.mem =
              some ({ state.mem with task_sem := state.mem.task_sem - 1 }, .goto .deqLock) :=
            if_neg empty
          cases waits.symm.trans stepped
          exact ⟨[], View.match_silent busy waits (fun _ _ _ _ => rfl) rfl rfl rfl⟩
    | deqLock =>
        by_cases locked : state.mem.lock = true
        · have blocked : step size (.deqLock : Pc τ) state.mem = none := if_pos locked
          cases blocked.symm.trans stepped
        · have locks : step size (.deqLock : Pc τ) state.mem =
              some ({ state.mem with lock := true }, .goto .deqInc) := if_neg locked
          cases locks.symm.trans stepped
          exact ⟨[], View.match_silent busy locks (fun _ _ _ _ => rfl) rfl rfl rfl⟩
    | deqInc =>
        cases stepped
        exact ⟨[], View.match_silent busy rfl (fun _ _ _ _ => rfl) rfl rfl rfl⟩
    | deqRead first =>
        cases stepped
        exact ⟨_, View.match_effect busy rfl (fun _ _ _ _ => rfl) rfl rfl rfl
          ((inv.contents_at at_ trivial).read_acts filled)⟩
    | deqUnlock task =>
        cases stepped
        exact ⟨[], View.match_silent busy rfl (fun _ _ _ _ => rfl) rfl rfl rfl⟩
    | deqPost task =>
        cases stepped
        exact ⟨[], View.match_return busy rfl (fun _ _ _ _ => rfl) rfl rfl⟩

/-- The blocking queue shows its callers a first-in-first-out queue of QUEUE_SIZE places, as long
as no counter overflows. -/
theorem blocking_linearizable [Fintype ι] {QUEUE_SIZE : ℕ} (junk : ℤ → τ)
    {trace : List (Pool ι (Queue τ) (Pc τ) Unit (Hist ι τ) × Act ι (Pc τ))}
    (run : Run (program QUEUE_SIZE).next
      (BlockingQueue.start (create_queue_blocking QUEUE_SIZE junk)) trace state)
    (meets : Meets Counted trace) :
    Linearizable (bufferKind τ QUEUE_SIZE).acts []
      (history (program QUEUE_SIZE) operation trace) := by
  have explained : ∃ effects, Linear (bufferKind τ QUEUE_SIZE).acts
      (bufferView.atomic (BlockingQueue.start (ι := ι) (create_queue_blocking QUEUE_SIZE junk)))
      (history (program QUEUE_SIZE) operation trace) effects (bufferView.atomic state) := by
    apply linear_of_run run meets (held_start junk)
      (fun _ _ _ held counted moved => held_next held counted moved)
    intro before act after held _ moved
    obtain ⟨phase, inv⟩ := held.shaped
    exact buffer_matched inv held.window.1 held.window.2 moved
  obtain ⟨effects, linear⟩ := explained
  exact ⟨effects, linear.explains⟩

end Runs

theorem blocking_linearizable_fillsUp :
    Linearizable (bufferKind ℕ 1).acts []
      ([.invoke false .get, .invoke true (.put 5), .respond true none, .respond false (some 5),
        .invoke true (.put 6), .respond true none, .invoke true (.put 7)] :
        List (Event Bool (QueueOp ℕ) (Option ℕ))) := by
  have run : Run (program 1).next
      (BlockingQueue.start (create_queue_blocking 1 (fun _ => 0))) _ _ :=
    run_of_play fillsUp rfl
  exact blocking_linearizable _ run (by decide)

end QueueBench.BlockingQueue
