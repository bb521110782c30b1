import QueueBench.Lib.RingContents
import QueueBench.BlockingQueue
import QueueBench.SequentialFifo

/-! The task queues of SimpleQueueImpl as created with a given size. The array is allocated and
the semaphore initialised with the size, but the index of a slot is taken modulo the constant
QUEUE_SIZE. -/

namespace QueueBench.CreatedSize
open AtomicQueue (TaskDesc EmptyTask benchTask)
open Fifo (Op Admits Answers Deterministic Refines Serves puts gets puts_append gets_append
  admits_append)

def QUEUE_SIZE : ℕ := 32 * 1024 * 1024

def InArray (size : ℕ) (index : ℤ) : Prop := 0 ≤ index ∧ index < size

instance (size : ℕ) (index : ℤ) : Decidable (InArray size index) :=
  inferInstanceAs (Decidable (0 ≤ index ∧ index < size))

abbrev Task : Type := { task : TaskDesc // task.task_id ≠ 0 }

/-- The sequences of calls with at most `size` tasks outstanding. -/
def Within (size : ℕ) (ops : List (Op Task)) : Prop :=
  Admits size (fun _ _ => True) [] ops ∧ ops.length < 2 ^ 31

/-- All such sequences are served, and the tasks come out in the order they went in. Below, a
call that accesses `tasks` outside the array does not take place. -/
def Honours {σ : Type*} (size : ℕ) (put : Task → σ → σ → Prop) (get : TaskDesc → σ → σ → Prop)
    (created : σ) : Prop :=
  ∀ ops, Within size ops →
    Answers put get created ops (((puts ops).take (gets ops)).map Subtype.val)

section Failures
variable {σ : Type*} {size : ℕ} {put : Task → σ → σ → Prop} {get : TaskDesc → σ → σ → Prop}
variable {created middle : σ} {first second : Task}

theorem within_fill {news : List Task} {rest : List (Op Task)} (room : news.length ≤ size)
    (admits : Admits size (fun _ _ => True) news rest) (few : news.length + rest.length < 2 ^ 31) :
    Within size (news.map .put ++ rest) := by
  refine ⟨admits_append (fun _ _ => trivial) ?_ ?_, ?_⟩
  · exact (Nat.zero_add _).trans_le room
  · rw [List.nil_append]
    exact admits
  · rw [List.length_append, List.length_map]
    exact few

theorem fills_copies {capacity limit count : ℕ} {rep : ℕ → σ → List Task → Prop}
    (refines : Refines capacity limit (fun _ _ => True) put get Subtype.val rep)
    (empty : rep 0 created []) (room : count ≤ capacity) (few : count ≤ limit) (first : Task) :
    ∃ middle, Serves put get created ((List.replicate count first).map .put) [] middle ∧
      rep count middle (List.replicate count first) := by
  have length : (List.replicate count first).length = count := List.length_replicate
  have filled := refines.fills (fun _ _ => trivial) empty
    (show ([] : List Task).length + (List.replicate count first).length ≤ capacity by
      rw [length, List.length_nil, Nat.zero_add]
      exact room)
    (show 0 + (List.replicate count first).length ≤ limit by
      rw [length, Nat.zero_add]
      exact few)
  rwa [List.nil_append, length, Nat.zero_add] at filled

theorem not_honours_of_stuck (det : Deterministic put get) {early : List (Op Task)}
    {outs : List TaskDesc} (within : Within size (early ++ [.put first]))
    (served : Serves put get created early outs middle) (stuck : ∀ next, ¬ put first middle next) :
    ¬ Honours size put get created := by
  intro honours
  obtain ⟨⟨final, all⟩, -⟩ := honours _ within
  obtain ⟨state, before, after, -, start, last⟩ := all.split
  obtain ⟨-, rfl⟩ := served.unique det start
  cases last with
  | put done _ => exact stuck _ done

theorem not_honours_of_short (det : Deterministic put get) {count : ℕ} (room : count < size)
    (few : count + 1 < 2 ^ 31)
    (filled : Serves put get created ((List.replicate count first).map .put) [] middle)
    (stuck : ∀ next, ¬ put first middle next) : ¬ Honours size put get created := by
  have within : Within size ((List.replicate count first).map .put ++ [.put first]) := by
    have length : (List.replicate count first).length = count := List.length_replicate
    refine within_fill (length.trans_le room.le) ⟨length.trans_lt room, trivial, trivial⟩ ?_
    rw [length]
    exact few
  exact not_honours_of_stuck det within filled stuck

theorem not_honours_of_wrong {ops : List (Op Task)} {outs : List TaskDesc}
    (within : Within size ops) (served : Serves put get created ops outs middle)
    (wrong : outs ≠ ((puts ops).take (gets ops)).map Subtype.val) :
    ¬ Honours size put get created :=
  fun honours => wrong ((honours ops within).2 outs middle served)

/-- A full ring that takes one task more has lost the oldest one. -/
theorem not_honours_of_lost {count : ℕ} {last final : σ} (different : first ≠ second)
    (room : count < size) (positive : 0 < count) (few : count + 2 < 2 ^ 31)
    (filled : Serves put get created ((List.replicate count first).map .put) [] middle)
    (pushed : put second middle last) (got : get second.val last final) :
    ¬ Honours size put get created := by
  obtain ⟨count, rfl⟩ := Nat.exists_eq_succ_of_ne_zero (Nat.ne_of_gt positive)
  have within : Within size
      ((List.replicate (count + 1) first).map .put ++ [.put second, .get]) := by
    have length : (List.replicate (count + 1) first).length = count + 1 := List.length_replicate
    refine within_fill (length.trans_le room.le) ⟨length.trans_lt room, trivial, trivial⟩ ?_
    rw [length]
    exact few
  apply not_honours_of_wrong within (filled.append (.put pushed (.get got (.nil final))))
  rw [puts_append, gets_append]
  intro same
  exact different (Subtype.ext (List.cons.inj same).1.symm)

end Failures

/-! ### queue.c -/

section Plain
open PlainQueue (Holds create_queue)
open SequentialFifo (queuePut queueGet queue_deterministic)
open RingArith (wrap32 wrap32_eq tmod_of_nonneg tmod_add_lap slot_range)

def plainPut (QUEUE_SIZE size : ℕ) (task : Task) (q after : AtomicQueue.Queue) : Prop :=
  InArray size ((wrap32 (q.rear + 1)).tmod QUEUE_SIZE) ∧ queuePut QUEUE_SIZE Subtype.val task q after

def plainGet (QUEUE_SIZE size : ℕ) (out : TaskDesc) (q after : AtomicQueue.Queue) : Prop :=
  InArray size ((wrap32 (q.front + 1)).tmod QUEUE_SIZE) ∧ queueGet QUEUE_SIZE out q after

variable {ring size limit : ℕ}

/-- Either the ring lies in the array, or there are too few calls to leave it. -/
def Stays (ring size limit : ℕ) : Prop := ring ≤ size ∨ limit < size ∧ limit < ring

theorem Stays.inArray (stays : Stays ring size limit) (positive : 0 < ring) {index : ℤ}
    (low : 0 ≤ index) (high : index ≤ limit) : InArray size (index % ring) := by
  have range := slot_range (show (0 : ℤ) < ring by omega) index
  rcases stays with inside | ⟨short, small⟩
  · exact ⟨range.1, by omega⟩
  · rw [Int.emod_eq_of_lt low (by omega)]
    exact ⟨low, by omega⟩

theorem Stays.wrapped (stays : Stays ring size limit) (positive : 0 < ring) {index : ℤ}
    (low : 0 ≤ index) (high : index ≤ limit) (few : index < 2 ^ 31) :
    InArray size ((wrap32 index).tmod ring) := by
  rw [wrap32_eq (by omega) few, tmod_of_nonneg low]
  exact stays.inArray positive low high

theorem plain_deterministic (ring size : ℕ) :
    Deterministic (plainPut ring size) (plainGet ring size) := by
  have det := queue_deterministic ring (Subtype.val : Task → TaskDesc)
  constructor
  · intro item state next other left right
    exact det.put_eq _ _ _ _ left.2 right.2
  · intro out result state next other left right
    exact det.get_eq _ _ _ _ _ left.2 right.2

theorem plain_refines (stays : Stays ring size limit) (positive : 0 < ring)
    (low : limit < 2 ^ 31) :
    Refines ring limit (fun _ _ => True) (plainPut ring size) (plainGet ring size) Subtype.val
      (fun calls q items => Holds ring q (items.map Subtype.val) ∧
        q.rear ≤ calls ∧ q.front ≤ calls) := by
  constructor
  · intro calls q items item rep few room _
    obtain ⟨holds, rearLe, frontLe⟩ := rep
    have frontGe := holds.front_ge
    have counters := holds.counters
    rw [← List.length_map Subtype.val] at room
    obtain ⟨kept, rear, front⟩ := holds.enqueue room (by omega) item.val
    rw [← List.map_singleton, ← List.map_append] at kept
    have inside := stays.wrapped positive (show 0 ≤ q.rear + 1 by omega) (by omega) (by omega)
    exact ⟨_, ⟨inside, rfl⟩, kept, by push_cast; omega, by push_cast; omega⟩
  · intro calls q items item rep few
    obtain ⟨holds, rearLe, frontLe⟩ := rep
    have frontGe := holds.front_ge
    obtain ⟨out, kept, rear, front⟩ := holds.dequeue (by omega)
    have inside := stays.wrapped positive (show 0 ≤ q.front + 1 by omega) (by omega) (by omega)
    exact ⟨(PlainQueue.dequeue ring q).1, ⟨inside, Prod.ext rfl out⟩, kept, by push_cast; omega,
      by push_cast; omega⟩

theorem plain_overwrites {q : AtomicQueue.Queue} {items : List TaskDesc}
    (holds : Holds ring q items) (full : items.length = ring) (low : q.rear + 1 < 2 ^ 31)
    (task : TaskDesc) : (PlainQueue.dequeue ring (PlainQueue.enqueue ring task q)).2 = task := by
  have frontGe := holds.front_ge
  have counters := holds.counters
  have lap : (q.rear + 1).tmod ring = (q.front + 1).tmod ring := by
    rw [counters, full, add_right_comm]
    exact tmod_add_lap (by omega) ring
  change Function.update q.tasks ((wrap32 (q.rear + 1)).tmod ring) task
    ((wrap32 (q.front + 1)).tmod ring) = task
  rw [wrap32_eq (by omega) low, wrap32_eq (by omega) (by omega), lap, Function.update_self]

theorem plain_created (ring size : ℕ) (junk : ℤ → TaskDesc) :
    Holds ring (create_queue size junk) (([] : List Task).map Subtype.val) ∧
      (create_queue size junk).rear ≤ (0 : ℕ) ∧ (create_queue size junk).front ≤ (0 : ℕ) := by
  refine ⟨?_, Int.le_refl 0, Int.le_refl 0⟩
  exact
    { ring := RingList.empty ring _ _
      counters := rfl
      front_ge := Int.le_refl 0 }

theorem plain_honours_iff (few : ring + 2 < 2 ^ 31) (positive : 1 ≤ size)
    (large : 1 ≤ ring) {first second : Task} (different : first ≠ second) (junk : ℤ → TaskDesc) :
    Honours size (plainPut ring size) (plainGet ring size) (create_queue size junk) ↔
      size = ring := by
  constructor
  · intro honours
    by_contra other
    rcases Nat.lt_or_gt_of_ne other with less | more
    · -- Slot `size` of the ring is behind the array.
      have stays : Stays ring size (size - 1) := Or.inr ⟨by omega, by omega⟩
      obtain ⟨middle, filled, holds, rear, front⟩ :=
        fills_copies (plain_refines stays large (by omega)) (plain_created ring size junk)
          (by omega) le_rfl first
      apply not_honours_of_short (plain_deterministic ring size) _ _ filled _ honours
      · omega
      · omega
      · intro next done
        have counters := holds.counters
        have frontGe := holds.front_ge
        rw [List.length_map, List.length_replicate] at counters
        have last : middle.rear + 1 = size := by omega
        have outside := done.1.2
        rw [last, wrap32_eq (by omega) (by omega), tmod_of_nonneg (by omega),
          Int.emod_eq_of_lt (by omega) (by omega)] at outside
        exact Int.lt_irrefl _ outside
    · -- The put after a whole lap falls on the oldest task.
      have stays : Stays ring size (ring + 2) := Or.inl more.le
      obtain ⟨middle, filled, holds, rear, front⟩ :=
        fills_copies (plain_refines stays large few) (plain_created ring size junk)
          le_rfl (by omega) first
      have full : ((List.replicate ring first).map Subtype.val).length = ring := by
        rw [List.length_map, List.length_replicate]
      have counters := holds.counters
      have frontGe := holds.front_ge
      have pushed : plainPut ring size second middle
          (PlainQueue.enqueue ring second.val middle) :=
        ⟨stays.wrapped large (by omega) (by push_cast; omega) (by omega), rfl⟩
      have got : plainGet ring size second.val (PlainQueue.enqueue ring second.val middle)
          (PlainQueue.dequeue ring (PlainQueue.enqueue ring second.val middle)).1 := by
        have inside := stays.wrapped large (show 0 ≤ middle.front + 1 by omega)
          (by push_cast; omega) (by omega)
        exact ⟨inside, Prod.ext rfl (plain_overwrites holds full (by omega) second.val)⟩
      exact not_honours_of_lost different more large few filled pushed got honours
  · rintro rfl ops ⟨admits, short⟩
    exact (plain_refines (Or.inl le_rfl : Stays size size (2 ^ 31 - 1)) large
      (by omega)).answers_fifo (plain_deterministic size size) (plain_created size size junk)
      admits (by omega)

end Plain

/-! ### blockingqueue.c -/

section Blocking
open BlockingQueue (Pc Queue step enqueue_blocking dequeue_blocking create_queue_blocking)
open Machine (Returns guarded guarded_eq)
open RingArith (addAndFetch_eq tmod_of_nonneg tmod_add_lap)

def Inside (QUEUE_SIZE size : ℕ) : Pc TaskDesc → Prop
  | .enqStore _ last => InArray size (last.tmod QUEUE_SIZE)
  | .deqRead first => InArray size (first.tmod QUEUE_SIZE)
  | _ => True

instance (QUEUE_SIZE size : ℕ) : DecidablePred (Inside QUEUE_SIZE size) := fun pc =>
  match pc with
  | .enqStore _ last => inferInstanceAs (Decidable (InArray size (last.tmod QUEUE_SIZE)))
  | .deqRead first => inferInstanceAs (Decidable (InArray size (first.tmod QUEUE_SIZE)))
  | .enqWait _ | .enqLock _ | .enqInc _ | .enqUnlock | .enqPost | .deqWait | .deqLock | .deqInc
  | .deqUnlock _ | .deqPost _ => isTrue trivial

def blockingPut (QUEUE_SIZE size : ℕ) (task : Task) (q after : Queue TaskDesc) : Prop :=
  Returns (guarded (Inside QUEUE_SIZE size) (step QUEUE_SIZE)) (enqueue_blocking task.val) q after
    none 0

def blockingGet (QUEUE_SIZE size : ℕ) (out : TaskDesc) (q after : Queue TaskDesc) : Prop :=
  Returns (guarded (Inside QUEUE_SIZE size) (step QUEUE_SIZE)) dequeue_blocking q after
    (some out) 0

variable {ring size limit : ℕ} {q : Queue TaskDesc} {items : List TaskDesc}

/-- The slots between the two counters hold the items, and the semaphores count them and the
rest of the size. -/
structure BlockingHolds (ring size : ℕ) (q : Queue TaskDesc) (items : List TaskDesc) : Prop where
  ring : RingList ring q.tasks (q.front + 1) items
  counters : q.rear = q.front + items.length
  front_ge : 0 ≤ q.front
  unlocked : q.lock = false
  available : q.task_sem = items.length
  spaces : q.spaces_sem + items.length = size

theorem enqueue_reaches (unlocked : q.lock = false) (space : q.spaces_sem ≠ 0)
    (low : -1 ≤ q.rear) (high : q.rear + 1 < 2 ^ 31) (task : Task) (after : Queue TaskDesc) :
    blockingPut ring size task q after ↔
      Returns (guarded (Inside ring size) (step ring)) (.enqStore task.val (q.rear + 1)) { q with
        spaces_sem := q.spaces_sem - 1
        lock := true
        rear := q.rear + 1 } after none 0 := by
  have waited : guarded (Inside ring size) (step ring) (.enqWait task.val) q =
      some ({ q with spaces_sem := q.spaces_sem - 1 }, .goto (.enqLock task.val)) := by
    rw [guarded_eq trivial]
    exact if_neg space
  have locked : guarded (Inside ring size) (step ring) (.enqLock task.val) { q with
      spaces_sem := q.spaces_sem - 1 } =
      some ({ q with
        spaces_sem := q.spaces_sem - 1
        lock := true }, .goto (.enqInc task.val)) := by
    rw [guarded_eq trivial]
    exact if_neg (by rw [unlocked]; exact Bool.false_ne_true)
  have drawn : guarded (Inside ring size) (step ring) (.enqInc task.val) { q with
      spaces_sem := q.spaces_sem - 1
      lock := true } =
      some ({ q with
        spaces_sem := q.spaces_sem - 1
        lock := true
        rear := q.rear + 1 }, .goto (.enqStore task.val (q.rear + 1))) := by
    rw [guarded_eq trivial]
    simp only [step, addAndFetch_eq low high]
  constructor
  · intro returns
    exact ((returns.goto_inv waited).goto_inv locked).goto_inv drawn
  · intro returns
    exact .of_goto waited (.of_goto locked (.of_goto drawn returns))

theorem blocking_put (unlocked : q.lock = false) (space : q.spaces_sem ≠ 0)
    (low : -1 ≤ q.rear) (high : q.rear + 1 < 2 ^ 31)
    (inside : InArray size ((q.rear + 1).tmod ring)) (task : Task) :
    blockingPut ring size task q { q with
      tasks := Function.update q.tasks ((q.rear + 1).tmod ring) task.val
      rear := q.rear + 1
      lock := false
      task_sem := q.task_sem + 1
      spaces_sem := q.spaces_sem - 1 } := by
  rw [enqueue_reaches unlocked space low high]
  exact .of_goto (guarded_eq inside) (.of_goto (guarded_eq trivial) (.of_ret (guarded_eq trivial)))

theorem blocking_get (unlocked : q.lock = false) (task : q.task_sem ≠ 0)
    (low : -1 ≤ q.front) (high : q.front + 1 < 2 ^ 31)
    (inside : InArray size ((q.front + 1).tmod ring)) :
    blockingGet ring size (q.tasks ((q.front + 1).tmod ring)) q { q with
      front := q.front + 1
      lock := false
      task_sem := q.task_sem - 1
      spaces_sem := q.spaces_sem + 1 } := by
  have waited : guarded (Inside ring size) (step ring) .deqWait q =
      some ({ q with task_sem := q.task_sem - 1 }, .goto .deqLock) := by
    rw [guarded_eq trivial]
    exact if_neg task
  have locked : guarded (Inside ring size) (step ring) .deqLock { q with
      task_sem := q.task_sem - 1 } =
      some ({ q with
        task_sem := q.task_sem - 1
        lock := true }, .goto .deqInc) := by
    rw [guarded_eq trivial]
    exact if_neg (by rw [unlocked]; exact Bool.false_ne_true)
  have drawn : guarded (Inside ring size) (step ring) .deqInc { q with
      task_sem := q.task_sem - 1
      lock := true } =
      some ({ q with
        task_sem := q.task_sem - 1
        lock := true
        front := q.front + 1 }, .goto (.deqRead (q.front + 1))) := by
    rw [guarded_eq trivial]
    simp only [step, addAndFetch_eq low high]
  exact .of_goto waited (.of_goto locked (.of_goto drawn (.of_goto (guarded_eq inside)
    (.of_goto (guarded_eq trivial) (.of_ret (guarded_eq trivial))))))

theorem blocking_deterministic (ring size : ℕ) :
    Deterministic (blockingPut ring size) (blockingGet ring size) := by
  constructor
  · intro item state next other left right
    exact (right.unique left).1
  · intro out result state next other left right
    exact ⟨Option.some.inj (right.unique left).2.1, (right.unique left).1⟩

theorem BlockingHolds.put (holds : BlockingHolds ring size q items) (room : items.length < ring)
    (space : items.length < size) (low : q.rear + 1 < 2 ^ 31)
    (inside : InArray size ((q.rear + 1) % ring)) (task : Task) :
    ∃ after, blockingPut ring size task q after ∧
      BlockingHolds ring size after (items ++ [task.val]) ∧ after.rear = q.rear + 1 ∧
      after.front = q.front := by
  have counters := holds.counters
  have frontGe := holds.front_ge
  have available := holds.available
  have spaces := holds.spaces
  have slot : (q.rear + 1).tmod ring = (q.rear + 1) % ring := tmod_of_nonneg (by omega) ring
  have cell : (q.rear + 1) % ring = (q.front + 1 + items.length) % ring := by
    rw [counters, add_right_comm]
  have done := blocking_put holds.unlocked (by omega) (by omega) low (slot ▸ inside) task
  refine ⟨_, done, ?_, rfl, rfl⟩
  have longer : (items ++ [task.val]).length = items.length + 1 := by
    rw [List.length_append, List.length_singleton]
  refine
    { ring := ?_
      counters := ?_
      front_ge := frontGe
      unlocked := rfl
      available := ?_
      spaces := ?_ }
  · rw [slot, cell]
    exact holds.ring.push room task.val
  · rw [longer]
    change q.rear + 1 = q.front + ((items.length + 1 : ℕ) : ℤ)
    omega
  · rw [longer]
    change q.task_sem + 1 = _
    omega
  · rw [longer]
    change q.spaces_sem - 1 + _ = _
    omega

theorem BlockingHolds.get {task : TaskDesc} (holds : BlockingHolds ring size q (task :: items))
    (low : q.front + 1 < 2 ^ 31) (inside : InArray size ((q.front + 1) % ring)) :
    ∃ after, blockingGet ring size task q after ∧ BlockingHolds ring size after items ∧
      after.rear = q.rear ∧ after.front = q.front + 1 := by
  have counters := holds.counters
  have frontGe := holds.front_ge
  have available := holds.available
  have spaces := holds.spaces
  rw [List.length_cons] at counters available spaces
  have slot : (q.front + 1).tmod ring = (q.front + 1) % ring := tmod_of_nonneg (by omega) ring
  have done := blocking_get holds.unlocked (by omega) (by omega) low (slot ▸ inside)
  rw [slot, holds.ring.head] at done
  refine ⟨_, done, ?_, rfl, rfl⟩
  refine
    { ring := holds.ring.pop
      counters := ?_
      front_ge := ?_
      unlocked := rfl
      available := ?_
      spaces := ?_ }
  · change q.rear = q.front + 1 + items.length
    omega
  · change 0 ≤ q.front + 1
    omega
  · change q.task_sem - 1 = items.length
    omega
  · change q.spaces_sem + 1 + items.length = size
    omega

theorem blocking_refines {capacity : ℕ} (stays : Stays ring size limit) (positive : 0 < ring)
    (low : limit < 2 ^ 31) (ringFits : capacity ≤ ring) (sizeFits : capacity ≤ size) :
    Refines capacity limit (fun _ _ => True) (blockingPut ring size) (blockingGet ring size)
      Subtype.val
      (fun calls q items => BlockingHolds ring size q (items.map Subtype.val) ∧
        q.rear ≤ calls ∧ q.front ≤ calls) := by
  constructor
  · intro calls q items item rep few room _
    obtain ⟨holds, rearLe, frontLe⟩ := rep
    have frontGe := holds.front_ge
    have counters := holds.counters
    rw [← List.length_map Subtype.val] at room
    obtain ⟨after, done, kept, rear, front⟩ := holds.put (by omega) (by omega) (by omega)
      (stays.inArray positive (by omega) (by omega)) item
    rw [← List.map_singleton, ← List.map_append] at kept
    exact ⟨after, done, kept, by push_cast; omega, by push_cast; omega⟩
  · intro calls q items item rep few
    obtain ⟨holds, rearLe, frontLe⟩ := rep
    have frontGe := holds.front_ge
    obtain ⟨after, done, kept, rear, front⟩ := holds.get (by omega)
      (stays.inArray positive (by omega) (by omega))
    exact ⟨after, done, kept, by push_cast; omega, by push_cast; omega⟩

theorem blocking_overwrites (unlocked : q.lock = false) (space : q.spaces_sem ≠ 0)
    (lap : (q.rear + 1).tmod ring = (q.front + 1).tmod ring) (rearLow : -1 ≤ q.rear)
    (rearHigh : q.rear + 1 < 2 ^ 31) (frontLow : -1 ≤ q.front) (frontHigh : q.front + 1 < 2 ^ 31)
    (inside : InArray size ((q.front + 1).tmod ring)) (task : Task) :
    ∃ last final, blockingPut ring size task q last ∧
      blockingGet ring size task.val last final := by
  have pushed := blocking_put unlocked space rearLow rearHigh (lap ▸ inside) task
  rw [lap] at pushed
  have got := blocking_get (q := { q with
    tasks := Function.update q.tasks ((q.front + 1).tmod ring) task.val
    rear := q.rear + 1
    lock := false
    task_sem := q.task_sem + 1
    spaces_sem := q.spaces_sem - 1 }) rfl (Nat.succ_ne_zero _) frontLow frontHigh inside
  dsimp only at got
  rw [Function.update_self] at got
  exact ⟨_, _, pushed, got⟩

theorem blocking_created (ring size : ℕ) (junk : ℤ → TaskDesc) :
    BlockingHolds ring size (create_queue_blocking size junk)
        (([] : List Task).map Subtype.val) ∧
      (create_queue_blocking size junk).rear ≤ (0 : ℕ) ∧
      (create_queue_blocking size junk).front ≤ (0 : ℕ) := by
  refine ⟨?_, Int.le_refl 0, Int.le_refl 0⟩
  exact
    { ring := RingList.empty ring _ _
      counters := rfl
      front_ge := Int.le_refl 0
      unlocked := rfl
      available := rfl
      spaces := rfl }

theorem blocking_honours_iff (few : ring + 2 < 2 ^ 31) (positive : 1 ≤ size) (large : 1 ≤ ring)
    {first second : Task} (different : first ≠ second) (junk : ℤ → TaskDesc) :
    Honours size (blockingPut ring size) (blockingGet ring size)
      (create_queue_blocking size junk) ↔ size = ring := by
  constructor
  · intro honours
    by_contra other
    rcases Nat.lt_or_gt_of_ne other with less | more
    · -- The semaphore lets the last of `size` tasks in, but its slot is behind the array.
      have stays : Stays ring size (size - 1) := Or.inr ⟨by omega, by omega⟩
      obtain ⟨middle, filled, holds, rear, front⟩ :=
        fills_copies (blocking_refines stays large (by omega) (by omega) (by omega))
          (blocking_created ring size junk) le_rfl le_rfl first
      apply not_honours_of_short (blocking_deterministic ring size) _ _ filled _ honours
      · omega
      · omega
      · intro next done
        have counters := holds.counters
        have frontGe := holds.front_ge
        have spaces := holds.spaces
        rw [List.length_map, List.length_replicate] at counters spaces
        have last : middle.rear + 1 = size := by omega
        rw [enqueue_reaches holds.unlocked (by omega) (by omega) (by omega), last] at done
        refine done.not_stuck (if_neg ?_)
        change ¬ InArray size ((size : ℤ).tmod ring)
        rw [tmod_of_nonneg (by omega), Int.emod_eq_of_lt (by omega) (by omega)]
        exact fun outside => Int.lt_irrefl _ outside.2
    · have stays : Stays ring size (ring + 2) := Or.inl more.le
      obtain ⟨middle, filled, holds, rear, front⟩ :=
        fills_copies (blocking_refines stays large few le_rfl more.le)
          (blocking_created ring size junk) le_rfl (by omega) first
      have counters := holds.counters
      have frontGe := holds.front_ge
      have spaces := holds.spaces
      rw [List.length_map, List.length_replicate] at counters spaces
      -- The next position has gone round to the slot of the oldest task.
      have lap : (middle.rear + 1).tmod ring = (middle.front + 1).tmod ring := by
        rw [counters, add_right_comm]
        exact tmod_add_lap (by omega) ring
      have inside : InArray size ((middle.front + 1).tmod ring) := by
        rw [tmod_of_nonneg (by omega)]
        exact stays.inArray large (by omega) (by omega)
      obtain ⟨last, final, pushed, got⟩ := blocking_overwrites holds.unlocked (by omega) lap
        (by omega) (by omega) (by omega) (by omega) inside second
      exact not_honours_of_lost different more large few filled pushed got honours
  · rintro rfl ops ⟨admits, short⟩
    exact (blocking_refines (Or.inl le_rfl : Stays size size (2 ^ 31 - 1)) large (by omega) le_rfl
      le_rfl).answers_fifo (blocking_deterministic size size) (blocking_created size size junk)
      admits (by omega)

end Blocking

/-! ### queue_atomic.c -/

section Atomic
open AtomicQueue (Pc Queue Holds step enqueue_atomic dequeue_atomic create_queue_atomic)
open Machine (Returns guarded guarded_eq)
open RingArith (addAndFetch addAndFetch_eq tmod_of_nonneg slot_range next_slot_ne)

def InsideAtomic (QUEUE_SIZE size : ℕ) : Pc → Prop
  | .enqCas _ _ last => InArray size (last.tmod QUEUE_SIZE)
  | .deqXchg first => InArray size (first.tmod QUEUE_SIZE)
  | _ => True

instance (QUEUE_SIZE size : ℕ) : DecidablePred (InsideAtomic QUEUE_SIZE size) := fun pc =>
  match pc with
  | .enqCas _ _ last => inferInstanceAs (Decidable (InArray size (last.tmod QUEUE_SIZE)))
  | .deqXchg first => inferInstanceAs (Decidable (InArray size (first.tmod QUEUE_SIZE)))
  | .enqDraw _ _ | .deqDraw => isTrue trivial

/-- A step of a call whose accesses stay inside the array. -/
def stepInside (QUEUE_SIZE size : ℕ) :
    Pc → Queue → Option (Queue × Machine.Outcome Pc (Option TaskDesc)) :=
  guarded (InsideAtomic QUEUE_SIZE size) (step QUEUE_SIZE)

def atomicPut (QUEUE_SIZE size : ℕ) (task : Task) (q after : Queue) : Prop :=
  ∃ retries, Returns (stepInside QUEUE_SIZE size) (enqueue_atomic task.val) q after none retries

def atomicGet (QUEUE_SIZE size : ℕ) (out : TaskDesc) (q after : Queue) : Prop :=
  ∃ retries, Returns (stepInside QUEUE_SIZE size) dequeue_atomic q after (some out) retries

variable {ring size retries : ℕ} {q after : Queue} {task expected : TaskDesc}

theorem cas_inside {last : ℤ} (inside : InArray size (last.tmod ring)) :
    stepInside ring size (.enqCas task expected last) q =
      step ring (.enqCas task expected last) q := if_pos inside

theorem xchg_inside {first : ℤ} (inside : InArray size (first.tmod ring)) :
    stepInside ring size (.deqXchg first) q = step ring (.deqXchg first) q := if_pos inside

theorem atomic_deterministic (ring size : ℕ) :
    Deterministic (atomicPut ring size) (atomicGet ring size) := by
  constructor
  · rintro item state next other ⟨_, left⟩ ⟨_, right⟩
    exact (right.unique left).1
  · rintro out result state next other ⟨_, left⟩ ⟨_, right⟩
    exact ⟨Option.some.inj (right.unique left).2.1, (right.unique left).1⟩

theorem atomic_refines (positive : 0 < ring) :
    Refines ring (2 ^ 31 - 1) (fun _ _ => True) (atomicPut ring ring) (atomicGet ring ring)
      Subtype.val
      (fun calls q items => Holds ring q (items.map Subtype.val) ∧ q.rear + 1 ≤ calls ∧
        q.front + 1 ≤ calls) := by
  have inside : ∀ ticket : ℤ, 0 ≤ ticket → InArray ring (ticket.tmod ring) := by
    intro ticket low
    rw [tmod_of_nonneg low]
    exact slot_range (show (0 : ℤ) < ring by omega) ticket
  constructor
  · intro calls q items item rep few room _
    obtain ⟨holds, rearLe, frontLe⟩ := rep
    have frontGe := holds.front_ge
    have counters := holds.counters
    rw [← List.length_map Subtype.val] at room
    obtain ⟨after, drawn, stored, kept, rear, front⟩ :=
      holds.enqueue_steps room (by omega) item.val
    rw [← List.map_singleton, ← List.map_append] at kept
    have returns : atomicPut ring ring item q after :=
      ⟨0, .of_goto ((guarded_eq trivial).trans drawn)
        (.of_ret ((cas_inside (inside (q.rear + 1) (by omega))).trans stored))⟩
    exact ⟨after, returns, kept, by push_cast; omega, by push_cast; omega⟩
  · intro calls q items item rep few
    obtain ⟨holds, rearLe, frontLe⟩ := rep
    have frontGe := holds.front_ge
    obtain ⟨after, drawn, taken, kept, rear, front⟩ := holds.dequeue_steps item.property (by omega)
    have returns : atomicGet ring ring item.val q after :=
      ⟨0, .of_goto ((guarded_eq trivial).trans drawn)
        (.of_ret ((xchg_inside (inside (q.front + 1) (by omega))).trans taken))⟩
    exact ⟨after, returns, kept, by push_cast; omega, by push_cast; omega⟩

theorem enqueue_round (returns : Returns (stepInside ring size) (.enqDraw task expected) q after none
      retries) :
    InArray size ((addAndFetch q.rear).tmod ring) ∧
      ((q.tasks ((addAndFetch q.rear).tmod ring) = expected ∧ after = { q with
          rear := addAndFetch q.rear
          tasks := Function.update q.tasks ((addAndFetch q.rear).tmod ring) task }) ∨
        ∃ fewer, retries = fewer + 1 ∧ Returns (stepInside ring size)
          (.enqDraw task (q.tasks ((addAndFetch q.rear).tmod ring)))
          { q with rear := addAndFetch q.rear } after none fewer) := by
  have drawn : stepInside ring size (.enqDraw task expected) q =
      some ({ q with rear := addAndFetch q.rear },
        .goto (.enqCas task expected (addAndFetch q.rear))) := guarded_eq trivial
  have compares := returns.goto_inv drawn
  have inside : InArray size ((addAndFetch q.rear).tmod ring) := by
    by_contra outside
    exact compares.not_stuck (if_neg outside)
  refine ⟨inside, ?_⟩
  by_cases fits : q.tasks ((addAndFetch q.rear).tmod ring) = expected
  · have stored : stepInside ring size (.enqCas task expected (addAndFetch q.rear))
        { q with rear := addAndFetch q.rear } =
        some ({ q with
          rear := addAndFetch q.rear
          tasks := Function.update q.tasks ((addAndFetch q.rear).tmod ring) task }, .ret none) :=
      (cas_inside inside).trans (if_pos fits)
    exact Or.inl ⟨fits, ((Returns.of_ret stored).unique compares).1⟩
  · have failed : stepInside ring size (.enqCas task expected (addAndFetch q.rear))
        { q with rear := addAndFetch q.rear } =
        some ({ q with rear := addAndFetch q.rear },
          .retry (.enqDraw task (q.tasks ((addAndFetch q.rear).tmod ring)))) :=
      (cas_inside inside).trans (if_neg fits)
    exact Or.inr (compares.retry_inv failed)

theorem dequeue_rear {out : TaskDesc}
    (returns : Returns (stepInside ring size) .deqDraw q after (some out) retries) :
    after.rear = q.rear := by
  induction retries using Nat.strong_induction_on generalizing q with
  | _ retries ih =>
      have drawn : stepInside ring size .deqDraw q =
          some ({ q with front := addAndFetch q.front }, .goto (.deqXchg (addAndFetch q.front))) :=
        guarded_eq trivial
      have exchanges := returns.goto_inv drawn
      have inside : InArray size ((addAndFetch q.front).tmod ring) := by
        by_contra outside
        exact exchanges.not_stuck (if_neg outside)
      by_cases empty : (q.tasks ((addAndFetch q.front).tmod ring)).task_id = 0
      · have failed : stepInside ring size (.deqXchg (addAndFetch q.front))
            { q with front := addAndFetch q.front } =
            some ({ q with
              front := addAndFetch q.front
              tasks := Function.update q.tasks ((addAndFetch q.front).tmod ring) EmptyTask },
              .retry .deqDraw) := by
          rw [xchg_inside inside]
          simp only [step, if_pos empty]
        obtain ⟨fewer, rfl, rest⟩ := exchanges.retry_inv failed
        have later := ih fewer (Nat.lt_succ_self fewer) rest
        exact later
      · have taken : stepInside ring size (.deqXchg (addAndFetch q.front))
            { q with front := addAndFetch q.front } =
            some ({ q with
              front := addAndFetch q.front
              tasks := Function.update q.tasks ((addAndFetch q.front).tmod ring) EmptyTask },
              .ret (some (q.tasks ((addAndFetch q.front).tmod ring)))) := by
          rw [xchg_inside inside]
          simp only [step, if_neg empty]
        rw [((Returns.of_ret taken).unique exchanges).1]

theorem enqueue_rear (short : size < ring) (few : size < 2 ^ 31) (low : -1 ≤ q.rear)
    (high : q.rear < size)
    (returns : Returns (stepInside ring size) (.enqDraw task expected) q after none retries) :
    q.rear < after.rear ∧ after.rear < size := by
  induction retries using Nat.strong_induction_on generalizing q expected with
  | _ retries ih =>
      have ticket : addAndFetch q.rear = q.rear + 1 := addAndFetch_eq low (by omega)
      obtain ⟨inside, round⟩ := enqueue_round returns
      rw [ticket, tmod_of_nonneg (by omega), Int.emod_eq_of_lt (by omega) (by omega)] at inside
      have bound := inside.2
      rcases round with ⟨_, rfl⟩ | ⟨fewer, rfl, rest⟩
      · change q.rear < addAndFetch q.rear ∧ addAndFetch q.rear < size
        omega
      · have later := ih fewer (Nat.lt_succ_self fewer)
          (show -1 ≤ addAndFetch q.rear by omega) (show addAndFetch q.rear < size by omega) rest
        change addAndFetch q.rear < after.rear ∧ after.rear < size at later
        omega

def Held (ring : ℕ) (q : Queue) (task : TaskDesc) : Prop :=
  ∃ slot : ℕ, slot < ring ∧ q.tasks slot = task

/-- An enqueue overwrites nothing but the empty task and copies: what it expects is either
the empty task or what the slot before holds. -/
theorem enqueue_held (large : 2 ≤ ring) (divides : (ring : ℤ) ∣ 2 ^ 32)
    (returns : Returns (stepInside ring size) (.enqDraw task expected) q after none retries)
    (copy : expected = EmptyTask ∨ 0 ≤ q.rear.tmod ring ∧ q.tasks (q.rear.tmod ring) = expected) :
    Held ring after task ∧ ∀ other ≠ EmptyTask, Held ring q other → Held ring after other := by
  induction retries using Nat.strong_induction_on generalizing q expected with
  | _ retries ih =>
      obtain ⟨inside, round⟩ := enqueue_round returns
      have slotLow := inside.1
      have slotHigh := Int.tmod_lt_of_pos (addAndFetch q.rear) (show (0 : ℤ) < ring by omega)
      rcases round with ⟨fits, rfl⟩ | ⟨fewer, rfl, rest⟩
      · constructor
        · refine ⟨((addAndFetch q.rear).tmod ring).toNat, by omega, ?_⟩
          rw [Int.toNat_of_nonneg slotLow]
          exact Function.update_self _ _ q.tasks
        · rintro other real ⟨slot, low, holds⟩
          by_cases same : (slot : ℤ) = (addAndFetch q.rear).tmod ring
          · rw [same, fits] at holds
            subst holds
            rcases copy with empty | ⟨before, content⟩
            · exact absurd empty real
            · have previous := Int.tmod_lt_of_pos q.rear (show (0 : ℤ) < ring by omega)
              refine ⟨(q.rear.tmod ring).toNat, by omega, ?_⟩
              rw [Int.toNat_of_nonneg before]
              change Function.update q.tasks _ task (q.rear.tmod ring) = expected
              rw [Function.update_of_ne (next_slot_ne large divides q.rear).symm, content]
          · refine ⟨slot, low, ?_⟩
            change Function.update q.tasks _ task slot = other
            rw [Function.update_of_ne same, holds]
      · have later := ih fewer (Nat.lt_succ_self fewer) rest (Or.inr ⟨slotLow, rfl⟩)
        exact later

theorem distinct_tasks (size : ℕ) (other : TaskDesc) :
    ∃ news : List Task, news.length = size ∧ (other :: news.map Subtype.val).Nodup := by
  have nonzero : ∀ index : ℕ, (benchTask (other.task_id.natAbs + 1 + index)).task_id ≠ 0 := by
    intro index
    change (other.task_id.natAbs : ℤ) + 1 + index ≠ 0
    omega
  refine ⟨(List.range size).map fun index => ⟨_, nonzero index⟩, ?_, ?_⟩
  · rw [List.length_map, List.length_range]
  · rw [List.map_map, List.nodup_cons]
    constructor
    · intro member
      obtain ⟨index, _, same⟩ := List.mem_map.mp member
      have identifiers : (other.task_id.natAbs : ℤ) + 1 + index = other.task_id :=
        congrArg TaskDesc.task_id same
      omega
    · apply List.nodup_range.map
      intro left right same
      have identifiers : (other.task_id.natAbs : ℤ) + 1 + left = other.task_id.natAbs + 1 + right :=
        congrArg TaskDesc.task_id same
      omega

/-- A queue that serves the puts still holds what was in the ring before the first of them. -/
theorem atomic_fill_held (large : 2 ≤ ring) (divides : (ring : ℤ) ∣ 2 ^ 32) {news : List Task}
    {outs : List TaskDesc} (served : Serves (atomicPut ring size) (atomicGet ring size) q
      (news.map .put) outs after) {values : List TaskDesc}
    (held : ∀ value ∈ values, value ≠ EmptyTask ∧ Held ring q value) :
    ∀ value ∈ values ++ news.map Subtype.val, Held ring after value := by
  let inv (items : List Task) (state : Queue) : Prop :=
    ∀ value ∈ values ++ items.map Subtype.val, value ≠ EmptyTask ∧ Held ring state value
  have keeps : ∀ items state item next, inv items state → atomicPut ring size item state next →
      inv (items ++ [item]) next := by
    rintro items state item next holds ⟨retries, returns⟩ value member
    obtain ⟨stored, others⟩ := enqueue_held large divides returns (Or.inl rfl)
    rw [List.map_append, ← List.append_assoc] at member
    rcases List.mem_append.mp member with old | new
    · exact ⟨(holds value old).1, others value (holds value old).1 (holds value old).2⟩
    · rw [List.map_singleton, List.mem_singleton] at new
      rw [new]
      refine ⟨?_, stored⟩
      intro empty
      exact item.property (congrArg TaskDesc.task_id empty)
  have empty : inv [] q := by
    intro value member
    rw [List.map_nil, List.append_nil] at member
    exact held value member
  intro value member
  exact (served.fill_invariant keeps empty value member).2

theorem atomic_fits (large : 2 ≤ ring) (divides : (ring : ℤ) ∣ 2 ^ 32)
    (honours : Honours size (atomicPut ring size) (atomicGet ring size) q) {news : List Task}
    (room : news.length ≤ size) (few : news.length < 2 ^ 31) {values : List TaskDesc}
    (nodup : (values ++ news.map Subtype.val).Nodup)
    (held : ∀ value ∈ values, value ≠ EmptyTask ∧ Held ring q value) :
    values.length + news.length ≤ ring := by
  have within : Within size (news.map .put ++ []) := within_fill room trivial few
  obtain ⟨⟨final, served⟩, -⟩ := honours _ within
  rw [List.append_nil] at served
  have count := distinct_le_size nodup (atomic_fill_held large divides served held)
  rwa [List.length_append, List.length_map] at count

theorem atomic_short (short : size < ring) (few : size + 2 < 2 ^ 31) (positive : 1 ≤ size)
    (first : Task) (rear : q.rear = -1) :
    ¬ Honours size (atomicPut ring size) (atomicGet ring size) q := by
  intro honours
  have length : (List.replicate size first).length = size := List.length_replicate
  have within : Within size
      ((List.replicate size first).map .put ++ [.get, .put first]) := by
    apply within_fill length.le _ (by rw [length]; exact few)
    obtain ⟨size, rfl⟩ := Nat.exists_eq_succ_of_ne_zero (Nat.ne_of_gt positive)
    refine ⟨?_, trivial, trivial⟩
    rw [List.length_replicate]
    exact Nat.lt_succ_self size
  obtain ⟨⟨final, served⟩, -⟩ := honours _ within
  obtain ⟨middle, before, after, -, start, last⟩ := served.split
  let inv (items : List Task) (state : Queue) : Prop :=
    (items.length : ℤ) ≤ state.rear + 1 ∧ state.rear < size
  have keeps : ∀ items state item next, inv items state → atomicPut ring size item state next →
      inv (items ++ [item]) next := by
    rintro items state item next ⟨low, high⟩ ⟨retries, returns⟩
    have later := enqueue_rear short (by omega) (by omega) high returns
    refine ⟨?_, later.2⟩
    rw [List.length_append, List.length_singleton]
    push_cast
    omega
  have empty : inv [] q := by
    refine ⟨?_, ?_⟩
    · rw [rear]
      exact Int.le_refl 0
    · omega
  obtain ⟨low, high⟩ := start.fill_invariant keeps empty
  rw [List.nil_append, length] at low
  cases last with
  | get got rest =>
      cases rest with
      | put done _ =>
          obtain ⟨_, dequeued⟩ := got
          obtain ⟨_, enqueued⟩ := done
          have same := dequeue_rear dequeued
          have later := enqueue_rear short (by omega) (by omega) (by omega) enqueued
          omega

theorem atomic_honours_iff (large : 2 ≤ ring) (divides : (ring : ℤ) ∣ 2 ^ 32)
    (few : ring + 2 < 2 ^ 31) (positive : 1 ≤ size) (first : Task) (tasks : ℤ → TaskDesc) :
    Honours size (atomicPut ring size) (atomicGet ring size) (create_queue_atomic size tasks) ↔
      size = ring ∧ ∀ index, InArray size index → tasks index = EmptyTask := by
  constructor
  · intro honours
    have fits : size ≤ ring := by
      by_contra more
      obtain ⟨news, length, nodup⟩ := distinct_tasks (ring + 1) EmptyTask
      have distinct : ([] ++ news.map Subtype.val).Nodup := (List.nodup_cons.mp nodup).2
      have slots := atomic_fits large divides honours (by omega) (by omega) distinct
        (fun value member => absurd member List.not_mem_nil)
      rw [length, List.length_nil] at slots
      omega
    have same : size = ring := by
      by_contra other
      exact atomic_short (by omega) (by omega) positive first rfl honours
    refine ⟨same, ?_⟩
    rintro index ⟨low, high⟩
    by_contra real
    obtain ⟨news, length, nodup⟩ := distinct_tasks size (tasks index)
    have distinct : ([tasks index] ++ news.map Subtype.val).Nodup := nodup
    have slots := atomic_fits large divides honours (by omega) (by omega) distinct (by
      intro value member
      rw [List.mem_singleton.mp member]
      refine ⟨real, index.toNat, by omega, ?_⟩
      rw [Int.toNat_of_nonneg low]
      rfl)
    rw [length, List.length_singleton] at slots
    omega
  · rintro ⟨rfl, blank⟩ ops ⟨admits, short⟩
    have created : Holds size (create_queue_atomic size tasks)
        (([] : List Task).map Subtype.val) :=
      { ring := { RingList.empty size tasks 0 with
          blank := fun cell low high _ => blank cell ⟨low, high⟩ }
        counters := rfl
        front_ge := Int.le_refl _ }
    exact (atomic_refines (by omega)).answers_fifo (atomic_deterministic size size)
      ⟨created, Int.le_refl 0, Int.le_refl 0⟩ admits (by omega)

end Atomic

/-! ### The size they were created with -/

section Created
open PlainQueue (create_queue)
open BlockingQueue (create_queue_blocking)
open AtomicQueue (create_queue_atomic)

/-- `junk` is what the allocated block holds. The queues honour the size of their rings and no
other one, and the ring of tickets moreover has to be empty to begin with. -/
theorem created_size_iff (size : ℕ) (positive : 1 ≤ size) (junk : ℤ → TaskDesc) :
    (Honours size (plainPut QUEUE_SIZE size) (plainGet QUEUE_SIZE size)
      (create_queue size junk) ↔ size = QUEUE_SIZE) ∧
    (Honours size (blockingPut QUEUE_SIZE size) (blockingGet QUEUE_SIZE size)
      (create_queue_blocking size junk) ↔ size = QUEUE_SIZE) ∧
    (Honours size (atomicPut QUEUE_SIZE size) (atomicGet QUEUE_SIZE size)
      (create_queue_atomic size junk) ↔
        size = QUEUE_SIZE ∧ ∀ index, InArray size index → junk index = EmptyTask) := by
  have few : QUEUE_SIZE + 2 < 2 ^ 31 := by decide
  have large : 2 ≤ QUEUE_SIZE := by decide
  have divides : (QUEUE_SIZE : ℤ) ∣ 2 ^ 32 := ⟨128, rfl⟩
  obtain ⟨news, length, nodup⟩ := distinct_tasks 2 EmptyTask
  obtain ⟨first, second, rfl⟩ := List.length_eq_two.mp length
  have different : first ≠ second := by
    rintro rfl
    exact (List.nodup_cons.mp (List.nodup_cons.mp nodup).2).1 List.mem_cons_self
  exact ⟨plain_honours_iff few positive (by omega) different junk,
    blocking_honours_iff few positive (by omega) different junk,
    atomic_honours_iff large divides few positive first junk⟩

theorem created_size_iff_ringSize :
    Honours QUEUE_SIZE (plainPut QUEUE_SIZE QUEUE_SIZE) (plainGet QUEUE_SIZE QUEUE_SIZE)
      (create_queue QUEUE_SIZE (fun _ => EmptyTask)) ∧
    Honours QUEUE_SIZE (blockingPut QUEUE_SIZE QUEUE_SIZE) (blockingGet QUEUE_SIZE QUEUE_SIZE)
      (create_queue_blocking QUEUE_SIZE (fun _ => EmptyTask)) ∧
    Honours QUEUE_SIZE (atomicPut QUEUE_SIZE QUEUE_SIZE) (atomicGet QUEUE_SIZE QUEUE_SIZE)
      (create_queue_atomic QUEUE_SIZE (fun _ => EmptyTask)) := by
  obtain ⟨plain, blocking, atomic⟩ :=
    created_size_iff QUEUE_SIZE (by decide) (fun _ => EmptyTask)
  exact ⟨plain.mpr rfl, blocking.mpr rfl, atomic.mpr ⟨rfl, fun _ _ => rfl⟩⟩

/-- A queue created for one task stores the first one behind its array. -/
theorem first_task_outside :
    (RingArith.wrap32 ((create_queue 1 (fun _ => EmptyTask)).rear + 1)).tmod QUEUE_SIZE = 1 ∧
      ¬ Honours 1 (plainPut QUEUE_SIZE 1) (plainGet QUEUE_SIZE 1)
        (create_queue 1 (fun _ => EmptyTask)) := by
  have slot : (RingArith.wrap32 ((create_queue 1 (fun _ => EmptyTask)).rear + 1)).tmod
      QUEUE_SIZE = 1 := by decide
  refine ⟨slot, ?_⟩
  intro honours
  have within : Within 1 [.put ⟨benchTask 1, by decide⟩] :=
    ⟨⟨Nat.one_pos, trivial, trivial⟩, by decide⟩
  obtain ⟨⟨final, served⟩, -⟩ := honours _ within
  cases served with
  | put done _ =>
      have inside := done.1
      rw [slot] at inside
      exact Int.lt_irrefl 1 inside.2

end Created

end QueueBench.CreatedSize
