import Mathlib.Data.Fintype.Basic
import QueueBench.Lib.Ledger
import QueueBench.Lib.Mutex
import QueueBench.BlockingQueue

/-! The bounded buffer behind the blocking queue. What the mutex protects depends
only on where its owner stands; what the semaphores count is the two counters plus
the threads that hold a token without having used or posted it. -/

namespace QueueBench.BlockingQueue
open Machine (Outcome Pool Program Client Act Thread)
open RingArith (addAndFetch addAndFetch_eq tmod_of_nonneg lap_le eq_of_slot_eq)
open Transition (Run Meets run_of_play)

variable {τ ι : Type*}

/-! ### Under the lock -/

def storing : Option (Pc τ) → ℤ
  | some (.enqStore _ _) => 1
  | _ => 0

def reading : Option (Pc τ) → ℤ
  | some (.deqRead _) => 1
  | _ => 0

def carried : Option (Pc τ) → List τ
  | some (.deqUnlock task) => [task]
  | _ => []

/-- The ring, its counters and the history, given where the owner of the lock is. -/
structure Contents (size : ℕ) (tasks : ℤ → τ) (rear front : ℤ) (hist : Hist ι τ)
    (phase : Option (Pc τ)) : Prop where
  rear_eq : rear = hist.stores.length + storing phase
  front_eq : front = hist.reads.length + reading phase
  last_eq : ∀ task last, phase = some (.enqStore task last) → last = rear
  first_eq : ∀ first, phase = some (.deqRead first) → first = front
  numbered : ∀ (index : ℕ) store, hist.stores[index]? = some store → store.1 = index + 1
  covered : ∀ index : ℕ, index < hist.reads.length → (index : ℤ) + 1 ∈ hist.reads
  read_le : hist.reads.length ≤ hist.stores.length
  order : hist.returned ++ carried phase = hist.stored.take hist.reads.length
  live : ∀ index : ℕ, hist.reads.length ≤ index → index < hist.stores.length →
    hist.stored[index]? = some (tasks (((index : ℤ) + 1) % size))

variable {size : ℕ} {tasks : ℤ → τ} {rear front : ℤ} {hist : Hist ι τ}
variable {phase : Option (Pc τ)}

theorem Contents.start (junk : ℤ → τ) :
    Contents size junk 0 0 (Hist.start : Hist ι τ) none :=
  { rear_eq := rfl
    front_eq := rfl
    last_eq := by intro task last impossible; cases impossible
    first_eq := by intro first impossible; cases impossible
    numbered := by intro index store impossible; cases impossible
    covered := by intro index impossible; cases impossible
    read_le := Nat.le_refl 0
    order := rfl
    live := by intro index _ impossible; cases impossible }

theorem Contents.nonneg (contents : Contents size tasks rear front hist phase) :
    0 ≤ rear ∧ 0 ≤ front := by
  have stores := contents.rear_eq
  have reads := contents.front_eq
  have storingNonneg : 0 ≤ storing phase := by unfold storing; split <;> omega
  have readingNonneg : 0 ≤ reading phase := by unfold reading; split <;> omega
  omega

theorem Contents.rephase (contents : Contents size tasks rear front hist phase)
    {other : Option (Pc τ)} (noStore : storing phase = 0) (noRead : reading phase = 0)
    (noCarry : carried phase = []) (otherStore : storing other = 0)
    (otherRead : reading other = 0) (otherCarry : carried other = []) :
    Contents size tasks rear front hist other := by
  have rearEq := contents.rear_eq
  have frontEq := contents.front_eq
  have order := contents.order
  refine
    { contents with
      rear_eq := by omega
      front_eq := by omega
      last_eq := ?_
      first_eq := ?_
      order := ?_ }
  · intro task last same
    rw [same] at otherStore
    cases otherStore
  · intro first same
    rw [same] at otherRead
    cases otherRead
  · rw [noCarry] at order
    rw [otherCarry]
    exact order

theorem Contents.inc_rear {task : τ}
    (contents : Contents size tasks rear front hist (some (.enqInc task))) :
    Contents size tasks (rear + 1) front hist (some (.enqStore task (rear + 1))) := by
  have rearEq : rear = hist.stores.length + 0 := contents.rear_eq
  refine
    { contents with
      rear_eq := ?_
      last_eq := ?_
      first_eq := ?_ }
  · change rear + 1 = hist.stores.length + 1
    omega
  · intro other last same
    cases same
    rfl
  · intro first impossible
    cases impossible

theorem Contents.inc_front
    (contents : Contents size tasks rear front hist (some .deqInc)) :
    Contents size tasks rear (front + 1) hist (some (.deqRead (front + 1))) := by
  have frontEq : front = hist.reads.length + 0 := contents.front_eq
  refine
    { contents with
      front_eq := ?_
      last_eq := ?_
      first_eq := ?_ }
  · change front + 1 = hist.reads.length + 1
    omega
  · intro task last impossible
    cases impossible
  · intro first same
    cases same
    rfl

/-- A store of the newest position; the window keeps it off every unread slot. -/
theorem Contents.store {task : τ} {last : ℤ}
    (contents : Contents size tasks rear front hist (some (.enqStore task last)))
    (room : rear - front ≤ size) :
    Contents size (Function.update tasks (last.tmod size) task) rear front
      { hist with stores := hist.stores ++ [(last, task)] } (some .enqUnlock) := by
  have newest := contents.last_eq task last rfl
  have rearEq : rear = hist.stores.length + 1 := contents.rear_eq
  have frontEq : front = hist.reads.length + 0 := contents.front_eq
  have behind := contents.read_le
  have grown : Hist.stored { hist with stores := hist.stores ++ [(last, task)] } =
      hist.stored ++ [task] := by
    simp only [Hist.stored, List.map_append, List.map_cons, List.map_nil]
  have storedLength : hist.stored.length = hist.stores.length := List.length_map _
  rw [tmod_of_nonneg (by omega)]
  refine
    { rear_eq := ?_
      front_eq := contents.front_eq
      last_eq := ?_
      first_eq := ?_
      numbered := ?_
      covered := contents.covered
      read_le := ?_
      order := ?_
      live := ?_ }
  · simp only [List.length_append, List.length_singleton, storing]
    push_cast
    omega
  · intro other position impossible
    cases impossible
  · intro first impossible
    cases impossible
  · intro index store found
    change (hist.stores ++ [(last, task)])[index]? = some store at found
    rcases lt_trichotomy index hist.stores.length with earlier | same | later
    · rw [List.getElem?_append_left earlier] at found
      exact contents.numbered index store found
    · subst index
      rw [List.getElem?_concat_length] at found
      cases found
      omega
    · rw [List.getElem?_eq_none] at found
      · cases found
      · rw [List.length_append, List.length_singleton]
        omega
  · change hist.reads.length ≤ (hist.stores ++ [(last, task)]).length
    rw [List.length_append]
    omega
  · have short : hist.reads.length ≤ hist.stored.length := by omega
    change hist.returned ++ [] = _
    rw [grown, List.take_append_of_le_length short]
    exact contents.order
  · intro index low high
    change hist.reads.length ≤ index at low
    change index < (hist.stores ++ [(last, task)]).length at high
    rw [List.length_append, List.length_singleton] at high
    rw [grown]
    by_cases same : index = hist.stores.length
    · subst index
      rw [← storedLength, List.getElem?_concat_length, storedLength,
        show (hist.stores.length : ℤ) + 1 = last from by omega, Function.update_self]
    · have apart : ((index : ℤ) + 1) % size ≠ last % size := by
        intro clash
        have oldest : (hist.reads.length : ℤ) < index + 1 := by omega
        have equal := eq_of_slot_eq clash oldest (by omega) (by omega) (by omega)
        omega
      rw [Function.update_of_ne apart, List.getElem?_append_left (by omega)]
      exact contents.live index low (by omega)

theorem Contents.read {first : ℤ}
    (contents : Contents size tasks rear front hist (some (.deqRead first)))
    (filled : 0 ≤ rear - front) :
    Contents size tasks rear front { hist with reads := hist.reads ++ [first] }
      (some (.deqUnlock (tasks (first.tmod size)))) := by
  have oldest := contents.first_eq first rfl
  have rearEq : rear = hist.stores.length + 0 := contents.rear_eq
  have frontEq : front = hist.reads.length + 1 := contents.front_eq
  have inside : hist.reads.length < hist.stores.length := by omega
  have grown : (hist.reads ++ [first]).length = hist.reads.length + 1 := by
    rw [List.length_append, List.length_singleton]
  rw [tmod_of_nonneg (by omega)]
  refine
    { rear_eq := contents.rear_eq
      front_eq := ?_
      last_eq := ?_
      first_eq := ?_
      numbered := contents.numbered
      covered := ?_
      read_le := ?_
      order := ?_
      live := ?_ }
  · rw [grown]
    change front = ((hist.reads.length + 1 : ℕ) : ℤ) + 0
    omega
  · intro task last impossible
    cases impossible
  · intro other impossible
    cases impossible
  · intro index low
    rw [grown] at low
    by_cases same : index = hist.reads.length
    · apply List.mem_append_right
      rw [List.mem_singleton]
      omega
    · exact List.mem_append_left _ (contents.covered index (by omega))
  · rw [grown]
    exact inside
  · have value := contents.live hist.reads.length (Nat.le_refl _) inside
    have before : hist.returned ++ [] = hist.stored.take hist.reads.length := contents.order
    rw [List.append_nil] at before
    change hist.returned ++ [_] = hist.stored.take (hist.reads ++ [first]).length
    rw [grown, List.take_add_one, value, before,
      show (hist.reads.length : ℤ) + 1 = first from by omega]
    rfl
  · intro index low high
    change (hist.reads ++ [first]).length ≤ index at low
    rw [grown] at low
    exact contents.live index (by omega) high

theorem Contents.carry {task : τ} (thread : ι)
    (contents : Contents size tasks rear front hist (some (.deqUnlock task))) :
    Contents size tasks rear front { hist with taken := hist.taken ++ [(thread, task)] } none := by
  refine
    { rear_eq := contents.rear_eq
      front_eq := contents.front_eq
      last_eq := ?_
      first_eq := ?_
      numbered := contents.numbered
      covered := contents.covered
      read_le := contents.read_le
      order := ?_
      live := contents.live }
  · intro other last impossible
    cases impossible
  · intro first impossible
    cases impossible
  · have order : hist.returned ++ [task] = _ := contents.order
    change Hist.returned { hist with taken := hist.taken ++ [(thread, task)] } ++ [] = _
    rw [List.append_nil]
    simp only [Hist.returned, List.map_append, List.map_cons, List.map_nil] at order ⊢
    exact order

structure Inv (size : ℕ) (q : Queue τ) (hist : Hist ι τ) (place : ι → Option (Pc τ))
    (phase : Option (Pc τ)) : Prop where
  mutex : Mutex Pc.Locked q.lock place
  owner : ∀ thread pc, place thread = some pc → pc.Locked → phase = some pc
  unowned : q.lock = false → phase = none
  contents : Contents size q.tasks q.rear q.front hist phase

variable {q after : Queue τ} {place : ι → Option (Pc τ)}

theorem Inv.start (size : ℕ) (junk : ℤ → τ) :
    Inv size (create_queue_blocking size junk) (Hist.start : Hist ι τ) (fun _ => none) none :=
  { mutex := Mutex.start
    owner := by intro thread pc impossible; cases impossible
    unowned := fun _ => rfl
    contents := Contents.start junk }

theorem Inv.contents_at (inv : Inv size q hist place phase) {thread : ι} {pc : Pc τ}
    (at_ : place thread = some pc) (locked : pc.Locked) :
    Contents size q.tasks q.rear q.front hist (some pc) := by
  rw [← inv.owner thread pc at_ locked]
  exact inv.contents

theorem Inv.rear_next (inv : Inv size q hist place phase) (low : q.rear + 1 < 2 ^ 31) :
    addAndFetch q.rear = q.rear + 1 := by
  have nonneg := inv.contents.nonneg
  exact addAndFetch_eq (by omega) low

theorem Inv.front_next (inv : Inv size q hist place phase) (low : q.front + 1 < 2 ^ 31) :
    addAndFetch q.front = q.front + 1 := by
  have nonneg := inv.contents.nonneg
  exact addAndFetch_eq (by omega) low

section Steps

variable [DecidableEq ι]

theorem Inv.outside (inv : Inv size q hist place phase) (thread : ι) {target : Option (Pc τ)}
    (was : ∀ pc, place thread = some pc → ¬ pc.Locked)
    (leaves : ∀ pc, target = some pc → ¬ pc.Locked) (posted freed : ℕ) :
    Inv size { q with task_sem := posted, spaces_sem := freed } hist
      (Function.update place thread target) phase := by
  refine
    { mutex := inv.mutex.outside thread was leaves
      owner := ?_
      unowned := inv.unowned
      contents := inv.contents }
  intro other pc at_ locked
  by_cases same : other = thread
  · rw [same, Function.update_self] at at_
    exact absurd locked (leaves pc at_)
  · rw [Function.update_of_ne same] at at_
    exact inv.owner other pc at_ locked

theorem Inv.acquire (inv : Inv size q hist place phase) {thread : ι} {target : Pc τ}
    (unlocked : q.lock = false) (enters : target.Locked) (noStore : storing (some target) = 0)
    (noRead : reading (some target) = 0) (noCarry : carried (some target) = []) :
    Inv size { q with lock := true } hist (Function.update place thread (some target))
      (some target) := by
  have mutex := inv.mutex
  rw [unlocked] at mutex
  have contents := inv.contents
  rw [inv.unowned unlocked] at contents
  refine
    { mutex := mutex.acquire thread enters
      owner := ?_
      unowned := ?_
      contents := contents.rephase rfl rfl rfl noStore noRead noCarry }
  · intro other pc at_ locked
    by_cases same : other = thread
    · rw [same, Function.update_self] at at_
      exact at_
    · rw [Function.update_of_ne same] at at_
      exact absurd locked (mutex.free rfl other pc at_)
  · intro impossible
    cases impossible

theorem Inv.inside (inv : Inv size q hist place phase) {thread : ι} {pc target : Pc τ}
    (at_ : place thread = some pc) (locked : pc.Locked) {later : Hist ι τ}
    (same : after.lock = q.lock)
    (contents : Contents size after.tasks after.rear after.front later (some target))
    (stays : target.Locked) :
    Inv size after later (Function.update place thread (some target)) (some target) := by
  refine
    { mutex := ?_
      owner := ?_
      unowned := ?_
      contents := contents }
  · rw [same]
    exact inv.mutex.stay at_ locked stays
  · intro other standing otherAt holds
    by_cases mine : other = thread
    · rw [mine, Function.update_self] at otherAt
      exact otherAt
    · rw [Function.update_of_ne mine] at otherAt
      exact absurd holds (inv.mutex.other_outside at_ locked mine otherAt)
  · intro unlocked
    rw [same, inv.mutex.held at_ locked] at unlocked
    cases unlocked

theorem Inv.release (inv : Inv size q hist place phase) {thread : ι} {pc target : Pc τ}
    (at_ : place thread = some pc) (locked : pc.Locked) (leaves : ¬ target.Locked)
    {later : Hist ι τ}
    (contents : Contents size q.tasks q.rear q.front later none) :
    Inv size { q with lock := false } later (Function.update place thread (some target))
      none := by
  have gone : ∀ other, some target = some other → ¬ other.Locked := by
    intro other same
    cases same
    exact leaves
  refine
    { mutex := inv.mutex.release at_ locked gone
      owner := ?_
      unowned := fun _ => rfl
      contents := contents }
  intro other standing otherAt holds
  by_cases mine : other = thread
  · rw [mine, Function.update_self] at otherAt
    exact absurd holds (gone standing otherAt)
  · rw [Function.update_of_ne mine] at otherAt
    exact absurd holds (inv.mutex.other_outside at_ locked mine otherAt)

theorem Inv.step (inv : Inv size q hist place phase) {thread : ι} {pc : Pc τ}
    {outcome : Outcome (Pc τ) (Option τ)} (at_ : place thread = some pc)
    (counts : Counts q pc) (filled : 0 ≤ q.rear - q.front) (room : q.rear - q.front ≤ size)
    (stepped : step size pc q = some (after, outcome)) :
    ∃ next, Inv size after (record thread pc q hist)
      (Function.update place thread outcome.pc?) next := by
  have was : ¬ pc.Locked → ∀ other, place thread = some other → ¬ other.Locked := by
    intro outside other same
    rw [at_] at same
    cases same
    exact outside
  cases pc with
  | enqWait task =>
      simp only [BlockingQueue.step] at stepped
      split at stepped
      · cases stepped
      · cases stepped
        exact ⟨phase, inv.outside thread (was id) (by intro pc same; cases same; exact id) _ _⟩
  | enqLock task =>
      simp only [BlockingQueue.step] at stepped
      cases unlocked : q.lock with
      | true => rw [unlocked] at stepped; cases stepped
      | false =>
          rw [unlocked] at stepped
          cases stepped
          exact ⟨_, inv.acquire unlocked trivial rfl rfl rfl⟩
  | enqInc task =>
      cases stepped
      rw [inv.rear_next counts]
      exact ⟨_, inv.inside at_ trivial rfl (inv.contents_at at_ trivial).inc_rear trivial⟩
  | enqStore task last =>
      cases stepped
      exact ⟨_, inv.inside at_ trivial rfl ((inv.contents_at at_ trivial).store room) trivial⟩
  | enqUnlock =>
      cases stepped
      have contents : Contents size q.tasks q.rear q.front hist none :=
        (inv.contents_at at_ trivial).rephase rfl rfl rfl rfl rfl rfl
      exact ⟨_, inv.release at_ trivial id contents⟩
  | enqPost =>
      cases stepped
      exact ⟨phase, inv.outside thread (was id) (by intro pc same; cases same) _ _⟩
  | deqWait =>
      simp only [BlockingQueue.step] at stepped
      split at stepped
      · cases stepped
      · cases stepped
        exact ⟨phase, inv.outside thread (was id) (by intro pc same; cases same; exact id) _ _⟩
  | deqLock =>
      simp only [BlockingQueue.step] at stepped
      cases unlocked : q.lock with
      | true => rw [unlocked] at stepped; cases stepped
      | false =>
          rw [unlocked] at stepped
          cases stepped
          exact ⟨_, inv.acquire unlocked trivial rfl rfl rfl⟩
  | deqInc =>
      cases stepped
      rw [inv.front_next counts]
      exact ⟨_, inv.inside at_ trivial rfl (inv.contents_at at_ trivial).inc_front trivial⟩
  | deqRead first =>
      cases stepped
      exact ⟨_, inv.inside at_ trivial rfl ((inv.contents_at at_ trivial).read filled) trivial⟩
  | deqUnlock task =>
      cases stepped
      exact ⟨_, inv.release at_ trivial id ((inv.contents_at at_ trivial).carry thread)⟩
  | deqPost task =>
      cases stepped
      exact ⟨phase, inv.outside thread (was id) (by intro pc same; cases same) _ _⟩

end Steps

/-! ### What the semaphores count -/

/-- One for a thread that holds a free slot: a producer before it counts its task, or
a consumer after it has counted its own and before it posts. -/
def Pc.heldSpace : Pc τ → ℤ
  | .enqLock _ | .enqInc _ | .deqRead _ | .deqUnlock _ | .deqPost _ => 1
  | _ => 0

/-- One for a thread that holds a counted task: a producer before it posts, or a
consumer before it counts. -/
def Pc.heldTask : Pc τ → ℤ
  | .enqStore _ _ | .enqUnlock | .enqPost | .deqLock | .deqInc => 1
  | _ => 0

def spaces (q : Queue τ) (_hist : Hist ι τ) : ℤ := q.spaces_sem + (q.rear - q.front)

def waiting (q : Queue τ) (_hist : Hist ι τ) : ℤ := q.task_sem - (q.rear - q.front)

theorem step_balance {q after : Queue τ} {hist later : Hist ι τ} {pc : Pc τ}
    {outcome : Outcome (Pc τ) (Option τ)} (counts : Counts q pc) (rearLow : 0 ≤ q.rear)
    (frontLow : 0 ≤ q.front) (stepped : step size pc q = some (after, outcome)) :
    spaces after later + outcome.pc?.elim 0 Pc.heldSpace = spaces q hist + pc.heldSpace ∧
      waiting after later + outcome.pc?.elim 0 Pc.heldTask = waiting q hist + pc.heldTask := by
  cases pc with
  | enqWait task =>
      simp only [step] at stepped
      split at stepped
      · cases stepped
      · cases stepped
        simp only [spaces, waiting, Outcome.pc?, Option.elim_some, Pc.heldSpace, Pc.heldTask,
          and_true]
        omega
  | deqWait =>
      simp only [step] at stepped
      split at stepped
      · cases stepped
      · cases stepped
        simp only [spaces, waiting, Outcome.pc?, Option.elim_some, Pc.heldSpace, Pc.heldTask,
          true_and]
        omega
  | enqLock task =>
      simp only [step] at stepped
      split at stepped
      · cases stepped
      · cases stepped
        exact ⟨rfl, rfl⟩
  | deqLock =>
      simp only [step] at stepped
      split at stepped
      · cases stepped
      · cases stepped
        exact ⟨rfl, rfl⟩
  | enqInc task =>
      have grown : addAndFetch q.rear = q.rear + 1 := addAndFetch_eq (by omega) counts
      cases stepped
      simp only [spaces, waiting, Outcome.pc?, Option.elim_some, Pc.heldSpace, Pc.heldTask, grown]
      omega
  | deqInc =>
      have grown : addAndFetch q.front = q.front + 1 := addAndFetch_eq (by omega) counts
      cases stepped
      simp only [spaces, waiting, Outcome.pc?, Option.elim_some, Pc.heldSpace, Pc.heldTask, grown]
      omega
  | enqPost =>
      cases stepped
      simp only [spaces, waiting, Outcome.pc?, Option.elim_none, Pc.heldSpace, Pc.heldTask,
        true_and]
      omega
  | deqPost task =>
      cases stepped
      simp only [spaces, waiting, Outcome.pc?, Option.elim_none, Pc.heldSpace, Pc.heldTask,
        and_true]
      omega
  | enqStore task last => cases stepped; exact ⟨rfl, rfl⟩
  | enqUnlock => cases stepped; exact ⟨rfl, rfl⟩
  | deqRead first => cases stepped; exact ⟨rfl, rfl⟩
  | deqUnlock task => cases stepped; exact ⟨rfl, rfl⟩

variable [Fintype ι]

structure Held (size : ℕ) (state : Pool ι (Queue τ) (Pc τ) Unit (Hist ι τ)) : Prop where
  shaped : ∃ phase, Inv size state.mem state.hist state.at phase
  slots : state.total spaces (Thread.weight Pc.heldSpace) = size
  queued : state.total waiting (Thread.weight Pc.heldTask) = 0

variable {state next : Pool ι (Queue τ) (Pc τ) Unit (Hist ι τ)} {act : Act ι (Pc τ)}

theorem heldSpace_nonneg (pc : Pc τ) : 0 ≤ pc.heldSpace := by
  cases pc <;> simp only [Pc.heldSpace] <;> omega

theorem heldTask_nonneg (pc : Pc τ) : 0 ≤ pc.heldTask := by
  cases pc <;> simp only [Pc.heldTask] <;> omega

theorem Held.window (held : Held size state) :
    0 ≤ state.mem.rear - state.mem.front ∧ state.mem.rear - state.mem.front ≤ size := by
  have slots := held.slots
  have queued := held.queued
  have spare := Finset.sum_nonneg (s := Finset.univ)
    (fun thread _ => Thread.weight_nonneg heldSpace_nonneg (state.thread thread))
  have busy := Finset.sum_nonneg (s := Finset.univ)
    (fun thread _ => Thread.weight_nonneg heldTask_nonneg (state.thread thread))
  simp only [Pool.total, spaces, waiting] at slots queued
  omega

theorem held_start (junk : ℤ → τ) :
    Held size (BlockingQueue.start (ι := ι) (create_queue_blocking size junk)) := by
  refine
    { shaped := ⟨none, Inv.start size junk⟩
      slots := ?_
      queued := ?_ }
  · simp only [Pool.total, BlockingQueue.start, create_queue_blocking, spaces, Thread.weight,
      Thread.pc?, Option.elim_none, Finset.sum_const_zero]
    omega
  · simp only [Pool.total, BlockingQueue.start, create_queue_blocking, waiting, Thread.weight,
      Thread.pc?, Option.elim_none, Finset.sum_const_zero]
    omega

/-! ### Whole runs -/

variable [DecidableEq ι]

theorem held_next (held : Held size state) (counted : Counted state act)
    (moved : (program size).next state act = some next) : Held size next := by
  obtain ⟨phase, inv⟩ := held.shaped
  have nonneg := inv.contents.nonneg
  have window := held.window
  -- A call enters outside the lock and holds nothing yet.
  have fresh : ∀ script (entry : Pc τ) left, client.call script entry = some left →
      ¬ entry.Locked ∧ entry.heldSpace = 0 ∧ entry.heldTask = 0 := by
    intro script entry left called
    cases entry with
    | enqWait task => exact ⟨id, rfl, rfl⟩
    | deqWait => exact ⟨id, rfl, rfl⟩
    | _ => cases called
  have balance : ∀ thread pc script mem outcome, act = .move thread →
      state.thread thread = .busy pc script →
      (program (ι := ι) size).step pc state.mem = some (mem, outcome) → ∀ later : Hist ι τ,
      spaces mem later + outcome.pc?.elim 0 Pc.heldSpace =
          spaces state.mem state.hist + pc.heldSpace ∧
        waiting mem later + outcome.pc?.elim 0 Pc.heldTask =
          waiting state.mem state.hist + pc.heldTask := by
    intro thread pc script mem outcome same standing stepped later
    subst same
    have counts := counted pc (Pool.at_busy standing)
    exact step_balance counts nonneg.1 nonneg.2 stepped
  refine
    { shaped := ?_
      slots := ?_
      queued := ?_ }
  · unfold Pool.at at inv ⊢
    rcases Program.next_cases moved with
      ⟨thread, entry, script, left, rfl, standing, called, rfl⟩ |
      ⟨thread, script, left, rfl, standing, left?, rfl⟩ |
      ⟨thread, pc, script, mem, outcome, rfl, standing, stepped, rfl⟩
    · rw [Machine.at_update]
      refine ⟨phase, inv.outside thread ?_ ?_ _ _⟩
      · intro pc impossible
        rw [standing] at impossible
        cases impossible
      · intro pc same
        cases same
        exact (fresh script entry left called).1
    · cases left?
    · have at_ : state.at thread = some pc := Pool.at_busy standing
      rw [Machine.at_update, Program.resume_pc]
      exact inv.step at_ (counted pc at_) window.1 window.2 stepped
  · rw [← held.slots]
    apply Program.total_next moved
    · intro thread script entry left _ called
      exact (fresh script entry left called).2.1
    · intro thread script left _ impossible
      cases impossible
    · intro thread pc script mem outcome same standing stepped
      rw [Thread.weight, Program.resume_pc]
      exact (balance thread pc script mem outcome same standing stepped _).1
  · rw [← held.queued]
    apply Program.total_next moved
    · intro thread script entry left _ called
      exact (fresh script entry left called).2.2
    · intro thread script left _ impossible
      cases impossible
    · intro thread pc script mem outcome same standing stepped
      rw [Thread.weight, Program.resume_pc]
      exact (balance thread pc script mem outcome same standing stepped _).2

theorem held_of_run {junk : ℤ → τ} {trace : List (Pool ι (Queue τ) (Pc τ) Unit (Hist ι τ) ×
      Act ι (Pc τ))}
    (run : Run (program size).next
      (BlockingQueue.start (create_queue_blocking size junk)) trace state)
    (meets : Meets Counted trace) : Held size state :=
  run.invariant meets (held_start junk)
    (fun _ _ _ held counted moved => held_next held counted moved)

def Blocked (size : ℕ) (q : Queue τ) (pc : Pc τ) : Prop := step size pc q = none

omit [Fintype ι] [DecidableEq ι] in
theorem not_blocked_of_locked {q : Queue τ} {pc : Pc τ} (locked : pc.Locked) :
    ¬ Blocked size q pc := by
  intro blocked
  cases pc with
  | enqWait task => exact locked
  | enqLock task => exact locked
  | enqPost => exact locked
  | deqWait => exact locked
  | deqLock => exact locked
  | deqPost task => exact locked
  | _ => cases blocked

omit [DecidableEq ι] in
theorem Held.blocked_waits (held : Held size state)
    (blocked : ∀ thread pc, state.at thread = some pc → Blocked size state.mem pc) :
    ∀ thread pc, state.at thread = some pc →
      ((∃ task, pc = .enqWait task) ∧ state.mem.spaces_sem = 0) ∨
      (pc = .deqWait ∧ state.mem.task_sem = 0) := by
  obtain ⟨phase, inv⟩ := held.shaped
  have unlocked : state.mem.lock = false := by
    cases locked : state.mem.lock with
    | false => rfl
    | true =>
        obtain ⟨owner, pc, standing, inside⟩ := inv.mutex.owned locked
        exact absurd (blocked owner pc standing) (not_blocked_of_locked inside)
  intro thread pc standing
  have stuck := blocked thread pc standing
  unfold Blocked at stuck
  cases pc with
  | enqWait task =>
      simp only [step] at stuck
      split at stuck
      · rename_i empty
        exact Or.inl ⟨⟨task, rfl⟩, empty⟩
      · cases stuck
  | deqWait =>
      simp only [step] at stuck
      split at stuck
      · rename_i empty
        exact Or.inr ⟨rfl, empty⟩
      · cases stuck
  | enqLock task =>
      simp only [step, unlocked] at stuck
      cases stuck
  | deqLock =>
      simp only [step, unlocked] at stuck
      cases stuck
  | _ => cases stuck

omit [DecidableEq ι] in
/-- If everybody inside a call is blocked, either only producers are, in front of a
full queue, or only consumers are, in front of an empty one. -/
theorem Held.deadlock (positive : 0 < size) (held : Held size state)
    (blocked : ∀ thread pc, state.at thread = some pc → Blocked size state.mem pc)
    (someone : ∃ thread pc, state.at thread = some pc) :
    ((∀ thread pc, state.at thread = some pc → ∃ task, pc = .enqWait task) ∧
        state.mem.rear - state.mem.front = size) ∨
    ((∀ thread pc, state.at thread = some pc → pc = .deqWait) ∧
        state.mem.rear - state.mem.front = 0) := by
  have waits := held.blocked_waits blocked
  -- Nobody holds a token, so the semaphores say everything.
  have none_held : ∀ (weigh : Pc τ → ℤ), (∀ task, weigh (.enqWait task) = 0) →
      weigh .deqWait = 0 → ∑ thread, (state.thread thread).weight weigh = 0 := by
    intro weigh producer consumer
    apply Finset.sum_eq_zero
    intro thread _
    unfold Thread.weight
    change (state.at thread).elim 0 weigh = 0
    cases standing : state.at thread with
    | none => rfl
    | some pc =>
        rcases waits thread pc standing with ⟨⟨task, rfl⟩, _⟩ | ⟨rfl, _⟩
        · exact producer task
        · exact consumer
  have slots : (state.mem.spaces_sem : ℤ) + (state.mem.rear - state.mem.front) = size := by
    have total := held.slots
    rw [Pool.total, none_held Pc.heldSpace (fun _ => rfl) rfl, add_zero] at total
    exact total
  have queued : (state.mem.task_sem : ℤ) = state.mem.rear - state.mem.front := by
    have total := held.queued
    rw [Pool.total, none_held Pc.heldTask (fun _ => rfl) rfl, add_zero] at total
    exact Int.sub_eq_zero.mp total
  obtain ⟨witness, pc, standing⟩ := someone
  rcases waits witness pc standing with ⟨_, full⟩ | ⟨_, empty⟩
  · left
    refine ⟨?_, by omega⟩
    intro thread other otherAt
    rcases waits thread other otherAt with ⟨producer, _⟩ | ⟨_, empty⟩
    · exact producer
    · omega
  · right
    refine ⟨?_, by omega⟩
    intro thread other otherAt
    rcases waits thread other otherAt with ⟨_, full⟩ | ⟨consumer, _⟩
    · omega
    · exact consumer

/-- One slot: a task goes through, the next one fills the queue and a third waits. -/
def fillsUp : List (Act Bool (Pc ℕ)) :=
  [.call false dequeue_blocking, .call true (enqueue_blocking 5),
    .move true, .move true, .move true, .move true, .move true, .move true,
    .move false, .move false, .move false, .move false, .move false, .move false,
    .call true (enqueue_blocking 6),
    .move true, .move true, .move true, .move true, .move true, .move true,
    .call true (enqueue_blocking 7)]

end QueueBench.BlockingQueue
