import QueueBench.Lib.Fifo
import QueueBench.Lib.LinkedList
import QueueBench.TicketFifo
import QueueBench.SemiBlockingQueue
import QueueBench.PlainQueue

/-! The benchmarked queues used by one thread. Each of them represents the list of the
elements outstanding, so all of them answer like the abstract queue. -/

/-! ### SimpleQueueImpl/queue_atomic.c -/

namespace QueueBench.AtomicQueue
open Machine (Returns)
open RingArith (addAndFetch addAndFetch_eq tmod_of_nonneg fill)

structure Holds (size : ℕ) (q : Queue) (items : List TaskDesc) : Prop where
  ring : MarkedRing size EmptyTask q.tasks (q.front + 1) items
  counters : q.rear = q.front + items.length
  front_ge : -1 ≤ q.front

variable {size : ℕ} {q : Queue} {items : List TaskDesc} {task : TaskDesc}

theorem holds_create (size : ℕ) (junk : ℤ → TaskDesc) :
    Holds size (create_queue_atomic size (fill size EmptyTask junk)) [] :=
  { ring := MarkedRing.start size EmptyTask junk _
    counters := rfl
    front_ge := Int.le_refl _ }

theorem Holds.enqueue_steps (holds : Holds size q items) (room : items.length < size)
    (low : q.rear + 1 < 2 ^ 31) (task : TaskDesc) :
    ∃ after, step size (.enqDraw task EmptyTask) q =
        some ({ q with rear := q.rear + 1 }, .goto (.enqCas task EmptyTask (q.rear + 1))) ∧
      step size (.enqCas task EmptyTask (q.rear + 1)) { q with rear := q.rear + 1 } =
        some (after, .ret none) ∧
      Holds size after (items ++ [task]) ∧ after.rear = q.rear + 1 ∧ after.front = q.front := by
  have counters := holds.counters
  have frontGe := holds.front_ge
  have ticket : addAndFetch q.rear = q.rear + 1 := addAndFetch_eq (by omega) low
  have cell : (q.rear + 1).tmod size = (q.front + 1 + items.length) % size := by
    rw [tmod_of_nonneg (by omega), counters, add_right_comm]
  have empty := holds.ring.next_blank room
  have drawn : step size (.enqDraw task EmptyTask) q =
      some ({ q with rear := q.rear + 1 }, .goto (.enqCas task EmptyTask (q.rear + 1))) := by
    simp only [step, ticket]
  have stored : step size (.enqCas task EmptyTask (q.rear + 1)) { q with rear := q.rear + 1 } =
      some ({ q with
        rear := q.rear + 1
        tasks := Function.update q.tasks ((q.front + 1 + items.length) % size) task },
        .ret none) := by
    simp only [step, cell, if_pos empty]
  refine ⟨_, drawn, stored, ?_, rfl, rfl⟩
  refine
    { ring := holds.ring.push room task
      counters := ?_
      front_ge := frontGe }
  change q.rear + 1 = q.front + (items ++ [task]).length
  rw [List.length_append, List.length_singleton]
  push_cast
  omega

theorem Holds.enqueue_atomic (holds : Holds size q items) (room : items.length < size)
    (low : q.rear + 1 < 2 ^ 31) (task : TaskDesc) :
    ∃ after, Returns (step size) (AtomicQueue.enqueue_atomic task) q after none 0 ∧
      Holds size after (items ++ [task]) ∧ after.rear = q.rear + 1 ∧ after.front = q.front := by
  obtain ⟨after, drawn, stored, kept⟩ := holds.enqueue_steps room low task
  exact ⟨after, Returns.of_goto drawn (Returns.of_ret stored), kept⟩

theorem Holds.dequeue_steps (holds : Holds size q (task :: items)) (nonzero : task.task_id ≠ 0)
    (low : q.front + 1 < 2 ^ 31) :
    ∃ after, step size .deqDraw q =
        some ({ q with front := q.front + 1 }, .goto (.deqXchg (q.front + 1))) ∧
      step size (.deqXchg (q.front + 1)) { q with front := q.front + 1 } =
        some (after, .ret (some task)) ∧
      Holds size after items ∧ after.rear = q.rear ∧ after.front = q.front + 1 := by
  have counters := holds.counters
  have frontGe := holds.front_ge
  have ticket : addAndFetch q.front = q.front + 1 := addAndFetch_eq frontGe low
  have cell : (q.front + 1).tmod size = (q.front + 1) % size := tmod_of_nonneg (by omega) size
  have first := holds.ring.head
  have drawn : step size .deqDraw q =
      some ({ q with front := q.front + 1 }, .goto (.deqXchg (q.front + 1))) := by
    simp only [step, ticket]
  have taken : step size (.deqXchg (q.front + 1)) { q with front := q.front + 1 } =
      some ({ q with
        front := q.front + 1
        tasks := Function.update q.tasks ((q.front + 1) % size) EmptyTask },
        .ret (some task)) := by
    simp only [step, cell, first, if_neg nonzero]
  refine ⟨_, drawn, taken, ?_, rfl, rfl⟩
  refine
    { ring := holds.ring.pop
      counters := ?_
      front_ge := by change -1 ≤ q.front + 1; omega }
  rw [List.length_cons] at counters
  push_cast at counters
  change q.rear = q.front + 1 + items.length
  omega

theorem Holds.dequeue_atomic (holds : Holds size q (task :: items)) (nonzero : task.task_id ≠ 0)
    (low : q.front + 1 < 2 ^ 31) :
    ∃ after, Returns (step size) AtomicQueue.dequeue_atomic q after (some task) 0 ∧
      Holds size after items ∧ after.rear = q.rear ∧ after.front = q.front + 1 := by
  obtain ⟨after, drawn, taken, kept⟩ := holds.dequeue_steps nonzero low
  exact ⟨after, Returns.of_goto drawn (Returns.of_ret taken), kept⟩

end QueueBench.AtomicQueue

/-! ### SimpleQueueImpl/semiblockingqueue.c -/

namespace QueueBench.SemiBlockingQueue
open LinkedList (Links links_nil links_cons)
open Machine (Returns)

/-- Between calls: `in_queue` lists the newer nodes from the newest on, `out_queue` the
older ones from the oldest on. -/
structure Chains {α : Type*} (root : QueueRoot α) (fresh old : List α) : Prop where
  in_links : Links root.next root.in_queue fresh
  out_links : Links root.next root.out_queue old
  nodup : (old ++ fresh.reverse).Nodup
  unlocked : root.lock = false

variable {α : Type*} {root : QueueRoot α} {fresh old items : List α} {new head : α}

theorem chains_alloc (next : α → Option α) : Chains (ALLOC_QUEUE_ROOT next) [] [] :=
  { in_links := links_nil next
    out_links := links_nil next
    nodup := List.nodup_nil
    unlocked := rfl }

variable [DecidableEq α]

theorem Chains.queue_put (chains : Chains root fresh old) (apart : new ∉ old ++ fresh.reverse) :
    ∃ after, Returns step (SemiBlockingQueue.queue_put new) root after none 0 ∧
      Chains after (new :: fresh) old := by
  have outside : new ∉ old ∧ new ∉ fresh := by
    rw [List.mem_append, List.mem_reverse] at apart
    exact not_or.mp apart
  have linked : step (.putCas new root.in_queue)
      { root with next := Function.update root.next new root.in_queue } =
      some ({ root with
        in_queue := some new
        next := Function.update root.next new root.in_queue }, .ret none) :=
    if_pos rfl
  refine ⟨_, Returns.of_goto rfl (Returns.of_goto rfl (Returns.of_ret linked)), ?_⟩
  refine
    { in_links := chains.in_links.push outside.2
      out_links := chains.out_links.frame _ outside.1
      nodup := ?_
      unlocked := chains.unlocked }
  · rw [List.reverse_cons, ← List.append_assoc]
    exact List.nodup_append.mpr ⟨chains.nodup, List.nodup_singleton new, by
      intro node member other newest same
      rw [List.mem_singleton.mp newest] at same
      exact apart (same ▸ member)⟩

theorem getHead_returns (some_out : root.out_queue = some head) :
    Returns step .getHead root { root with
      out_queue := root.next head
      lock := false } (some head) 0 := by
  have seen : step .getHead root = some (root, .goto (.getPop head)) := by
    simp only [step, some_out]
  exact Returns.of_goto seen (Returns.of_goto rfl (Returns.of_ret rfl))

/-- The reversing loop moves the rest of the list over to `out_queue`. -/
theorem reverse_loop (root : QueueRoot α) {rest : List α}
    (links : Links root.next (some head) (head :: rest))
    (out_links : Links root.next root.out_queue old) (nodup : (head :: rest ++ old).Nodup) :
    ∃ middle : QueueRoot α, middle.in_queue = root.in_queue ∧
      Links middle.next middle.out_queue ((head :: rest).reverse ++ old) ∧
      ∀ after value, Returns step .getHead middle after value 0 →
        Returns step (.revNext head) root after value 0 := by
  induction rest generalizing head root old with
  | nil =>
      have last : root.next head = none := links.2
      have outside : head ∉ old := (List.nodup_cons.mp nodup).1
      refine ⟨{ root with
        next := Function.update root.next head root.out_queue
        out_queue := some head }, rfl, out_links.push outside, ?_⟩
      · intro after value rest
        refine Returns.of_goto rfl (Returns.of_goto rfl (Returns.of_goto ?_ rest))
        simp only [step, last]
  | cons following rest ih =>
      have onward : root.next head = some following := links.2.1
      obtain ⟨outside, nodupRest⟩ := List.nodup_cons.mp nodup
      have outsideRest : head ∉ following :: rest :=
        fun member => outside (List.mem_append_left old member)
      have outsideOld : head ∉ old := fun member => outside (List.mem_append_right _ member)
      have moved : Links (Function.update root.next head root.out_queue) (some head)
          (head :: old) := out_links.push outsideOld
      have left : Links (Function.update root.next head root.out_queue) (some following)
          (following :: rest) := by
        have shorter : Links root.next (root.next head) (following :: rest) := links.2
        rw [onward] at shorter
        exact shorter.frame _ outsideRest
      have apart : (following :: rest ++ head :: old).Nodup :=
        (List.perm_middle.symm.nodup_iff.mp nodup)
      obtain ⟨middle, same, whole, returns⟩ := ih { root with
        next := Function.update root.next head root.out_queue
        out_queue := some head } left moved apart
      refine ⟨middle, same, ?_, ?_⟩
      · rw [List.reverse_cons, List.append_assoc, List.singleton_append]
        exact whole
      · intro after value rest
        refine Returns.of_goto rfl (Returns.of_goto rfl (Returns.of_goto ?_
          (returns after value rest)))
        simp only [step, onward]

theorem Chains.queue_get (chains : Chains root fresh old)
    (content : old ++ fresh.reverse = head :: items) :
    ∃ after, Returns step SemiBlockingQueue.queue_get root after (some head) 0 ∧
      ∃ fresh' old', Chains after fresh' old' ∧ old' ++ fresh'.reverse = items := by
  have nodup := chains.nodup
  rw [content] at nodup
  have locks : step .getLock root = some ({ root with lock := true }, .goto .getOut) := by
    simp only [step, chains.unlocked, Bool.false_eq_true, if_false]
  cases old with
  | cons first rest =>
      rw [List.cons_append] at content
      cases content
      obtain ⟨some_out, links⟩ := links_cons.mp chains.out_links
      have passes : step .getOut { root with lock := true } =
          some ({ root with lock := true }, .goto .getHead) := by
        simp only [step, some_out]
        rfl
      refine ⟨_, Returns.of_goto locks (Returns.of_goto passes (getHead_returns some_out)),
        fresh, rest, ?_, rfl⟩
      exact
        { in_links := chains.in_links
          out_links := links
          nodup := (List.nodup_cons.mp nodup).2
          unlocked := rfl }
  | nil =>
      have none_out : root.out_queue = none := chains.out_links
      cases fresh with
      | nil => cases content
      | cons newest rest =>
          have some_in : root.in_queue = some newest := chains.in_links.1
          have tests : step .getOut { root with lock := true } =
              some ({ root with lock := true }, .goto .getIn) := by
            simp only [step, none_out]
            rfl
          have reads : step .getIn { root with lock := true } =
              some ({ root with lock := true }, .goto (.getCas newest)) := by
            simp only [step, some_in]
          have takes : step (.getCas newest) { root with lock := true } =
              some ({ root with
                lock := true
                in_queue := none }, .goto (.revNext newest)) := by
            simp only [step, if_pos some_in]
          have links := chains.in_links
          rw [some_in] at links
          have distinct := chains.nodup
          rw [List.nil_append, List.nodup_reverse, ← List.append_nil (newest :: rest)] at distinct
          obtain ⟨middle, same, whole, returns⟩ := reverse_loop { root with
            lock := true
            in_queue := none } links chains.out_links distinct
          rw [List.nil_append] at content
          rw [List.append_nil, content] at whole
          obtain ⟨some_out, behind⟩ := links_cons.mp whole
          refine ⟨_, Returns.of_goto locks (Returns.of_goto tests (Returns.of_goto reads
            (Returns.of_goto takes (returns _ _ (getHead_returns some_out))))),
            [], items, ?_, List.append_nil items⟩
          exact
            { in_links := same
              out_links := behind
              nodup := by rw [List.reverse_nil, List.append_nil]; exact (List.nodup_cons.mp nodup).2
              unlocked := rfl }

end QueueBench.SemiBlockingQueue

/-! ### The common list -/

namespace QueueBench.SequentialFifo
open AtomicQueue (TaskDesc EmptyTask)
open Fifo (Op Admits Answers Deterministic Refines puts gets)
open Machine (Returns)
open RingArith (fill)

variable {α ν : Type*}

/-! An item is an `atom` for squeue.c, a task for queue.c and queue_atomic.c, and a node
for semiblockingqueue.c. A call is one run of the code without a failed spin or retry. -/

def squeuePut (MAX_SIZE : ℕ) (headFirst : Bool) (atom : α → ℤ) (item : α)
    (q after : TicketQueue.Queue) : Prop :=
  Returns (TicketQueue.step MAX_SIZE headFirst) (TicketQueue.Enqueue (atom item)) q after
    TicketQueue.TRUE 0

def squeueGet (MAX_SIZE : ℕ) (headFirst : Bool) (elem : ℤ) (q after : TicketQueue.Queue) : Prop :=
  Returns (TicketQueue.step MAX_SIZE headFirst) TicketQueue.Dequeue q after elem 0

def queuePut (QUEUE_SIZE : ℕ) (task : α → TaskDesc) (item : α) (q after : AtomicQueue.Queue) :
    Prop :=
  PlainQueue.enqueue QUEUE_SIZE (task item) q = after

def queueGet (QUEUE_SIZE : ℕ) (out : TaskDesc) (q after : AtomicQueue.Queue) : Prop :=
  PlainQueue.dequeue QUEUE_SIZE q = (after, out)

def atomicPut (QUEUE_SIZE : ℕ) (task : α → TaskDesc) (item : α) (q after : AtomicQueue.Queue) :
    Prop :=
  Returns (AtomicQueue.step QUEUE_SIZE) (AtomicQueue.enqueue_atomic (task item)) q after none 0

def atomicGet (QUEUE_SIZE : ℕ) (out : TaskDesc) (q after : AtomicQueue.Queue) : Prop :=
  Returns (AtomicQueue.step QUEUE_SIZE) AtomicQueue.dequeue_atomic q after (some out) 0

def rootPut [DecidableEq ν] (node : α → ν) (item : α)
    (root after : SemiBlockingQueue.QueueRoot ν) : Prop :=
  Returns SemiBlockingQueue.step (SemiBlockingQueue.queue_put (node item)) root after none 0

def rootGet [DecidableEq ν] (out : ν) (root after : SemiBlockingQueue.QueueRoot ν) : Prop :=
  Returns SemiBlockingQueue.step SemiBlockingQueue.queue_get root after (some out) 0

variable {size : ℕ} {joins : List α → α → Prop}

theorem squeue_refines (size : ℕ) (headFirst : Bool) (joins : List α → α → Prop) {atom : α → ℤ}
    (nonzero : ∀ item, atom item ≠ 0) :
    Refines size (2 ^ 31 - 1) joins (squeuePut size headFirst atom) (squeueGet size headFirst) atom
      (fun calls q items => TicketQueue.Holds size q (items.map atom) ∧
        q.tail + 1 ≤ calls ∧ q.head + 1 ≤ calls) := by
  constructor
  · intro calls q items item rep few room _
    obtain ⟨holds, tailLe, headLe⟩ := rep
    rw [← List.length_map atom] at room
    obtain ⟨after, returns, kept, head, tail⟩ :=
      holds.enqueue headFirst room (nonzero item) (by omega)
    rw [← List.map_singleton, ← List.map_append] at kept
    exact ⟨after, returns, kept, by push_cast; omega, by push_cast; omega⟩
  · intro calls q items item rep few
    obtain ⟨holds, tailLe, headLe⟩ := rep
    obtain ⟨after, returns, kept, head, tail⟩ := holds.gate headFirst (by omega)
    exact ⟨after, returns, kept, by push_cast; omega, by push_cast; omega⟩

theorem queue_refines (size : ℕ) (joins : List α → α → Prop) (task : α → TaskDesc) :
    Refines size (2 ^ 31 - 1) joins (queuePut size task) (queueGet size) task
      (fun calls q items => PlainQueue.Holds size q (items.map task) ∧
        q.rear ≤ calls ∧ q.front ≤ calls) := by
  constructor
  · intro calls q items item rep few room _
    obtain ⟨holds, rearLe, frontLe⟩ := rep
    rw [← List.length_map task] at room
    obtain ⟨kept, rear, front⟩ := holds.enqueue room (by omega) (task item)
    rw [← List.map_singleton, ← List.map_append] at kept
    exact ⟨_, rfl, kept, by push_cast; omega, by push_cast; omega⟩
  · intro calls q items item rep few
    obtain ⟨holds, rearLe, frontLe⟩ := rep
    obtain ⟨out, kept, rear, front⟩ := holds.dequeue (by omega)
    exact ⟨(PlainQueue.dequeue size q).1, Prod.ext rfl out, kept, by push_cast; omega,
      by push_cast; omega⟩

theorem atomic_refines (size : ℕ) (joins : List α → α → Prop) {task : α → TaskDesc}
    (nonzero : ∀ item, (task item).task_id ≠ 0) :
    Refines size (2 ^ 31 - 1) joins (atomicPut size task) (atomicGet size) task
      (fun calls q items => AtomicQueue.Holds size q (items.map task) ∧
        q.rear + 1 ≤ calls ∧ q.front + 1 ≤ calls) := by
  constructor
  · intro calls q items item rep few room _
    obtain ⟨holds, rearLe, frontLe⟩ := rep
    rw [← List.length_map task] at room
    obtain ⟨after, returns, kept, rear, front⟩ :=
      holds.enqueue_atomic room (by omega) (task item)
    rw [← List.map_singleton, ← List.map_append] at kept
    exact ⟨after, returns, kept, by push_cast; omega, by push_cast; omega⟩
  · intro calls q items item rep few
    obtain ⟨holds, rearLe, frontLe⟩ := rep
    obtain ⟨after, returns, kept, rear, front⟩ :=
      holds.dequeue_atomic (nonzero item) (by omega)
    exact ⟨after, returns, kept, by push_cast; omega, by push_cast; omega⟩

theorem root_refines [DecidableEq ν] (size limit : ℕ) (node : α → ν) :
    Refines size limit (fun items item => node item ∉ items.map node) (rootPut node) rootGet node
      (fun _ root items => ∃ fresh old, SemiBlockingQueue.Chains root fresh old ∧
        old ++ fresh.reverse = items.map node) := by
  constructor
  · intro calls root items item rep _ _ apart
    obtain ⟨fresh, old, chains, content⟩ := rep
    rw [← content] at apart
    obtain ⟨after, returns, kept⟩ := chains.queue_put apart
    refine ⟨after, returns, node item :: fresh, old, kept, ?_⟩
    rw [List.reverse_cons, ← List.append_assoc, content, List.map_append, List.map_singleton]
  · intro calls root items item rep _
    obtain ⟨fresh, old, chains, content⟩ := rep
    obtain ⟨after, returns, left, older, kept, rest⟩ := chains.queue_get content
    exact ⟨after, returns, left, older, kept, rest⟩

theorem squeue_deterministic (size : ℕ) (headFirst : Bool) (atom : α → ℤ) :
    Deterministic (squeuePut size headFirst atom) (squeueGet size headFirst) := by
  constructor
  · intro item state next other left right
    exact (right.unique left).1
  · intro out result state next other left right
    exact ⟨(right.unique left).2.1, (right.unique left).1⟩

theorem queue_deterministic (size : ℕ) (task : α → TaskDesc) :
    Deterministic (queuePut size task) (queueGet size) := by
  constructor
  · intro item state next other left right
    exact left.symm.trans right
  · intro out result state next other left right
    cases left.symm.trans right
    exact ⟨rfl, rfl⟩

theorem atomic_deterministic (size : ℕ) (task : α → TaskDesc) :
    Deterministic (atomicPut size task) (atomicGet size) := by
  constructor
  · intro item state next other left right
    exact (right.unique left).1
  · intro out result state next other left right
    exact ⟨Option.some.inj (right.unique left).2.1, (right.unique left).1⟩

theorem root_deterministic [DecidableEq ν] (node : α → ν) :
    Deterministic (rootPut node) (rootGet (ν := ν)) := by
  constructor
  · intro item state next other left right
    exact (right.unique left).1
  · intro out result state next other left right
    exact ⟨Option.some.inj (right.unique left).2.1, (right.unique left).1⟩

/-- The four queues, used by one thread within the capacity, all return the items in the
order in which they were put. -/
theorem queues_agree [DecidableEq ν] {size : ℕ} (headFirst : Bool) {atom : α → ℤ}
    {task : α → TaskDesc} {node : α → ν} (atoms : ∀ item, atom item ≠ 0)
    (tasks : ∀ item, (task item).task_id ≠ 0) (atomJunk : ℤ → ℤ) (taskJunk : ℤ → TaskDesc)
    (next : ν → Option ν) {ops : List (Op α)}
    (admits : Admits size (fun items item => node item ∉ items.map node) [] ops)
    (few : ops.length < 2 ^ 31 - 1) :
    Answers (squeuePut size headFirst atom) (squeueGet size headFirst)
      (TicketQueue.InitQueue size atomJunk) ops (((puts ops).take (gets ops)).map atom) ∧
    Answers (queuePut size task) (queueGet size) (PlainQueue.create_queue size taskJunk) ops
      (((puts ops).take (gets ops)).map task) ∧
    Answers (atomicPut size task) (atomicGet size)
      (AtomicQueue.create_queue_atomic size (fill size EmptyTask taskJunk)) ops
      (((puts ops).take (gets ops)).map task) ∧
    Answers (rootPut node) rootGet (SemiBlockingQueue.ALLOC_QUEUE_ROOT next) ops
      (((puts ops).take (gets ops)).map node) := by
  refine ⟨?_, ?_, ?_, ?_⟩
  · apply (squeue_refines size headFirst _ atoms).answers_fifo
      (squeue_deterministic size headFirst atom) _ admits (by omega)
    exact ⟨TicketQueue.holds_init size atomJunk, Int.le_refl 0, Int.le_refl 0⟩
  · apply (queue_refines size _ task).answers_fifo (queue_deterministic size task) _ admits
      (by omega)
    exact ⟨PlainQueue.holds_create size taskJunk, Int.le_refl 0, Int.le_refl 0⟩
  · apply (atomic_refines size _ tasks).answers_fifo (atomic_deterministic size task) _ admits
      (by omega)
    exact ⟨AtomicQueue.holds_create size taskJunk, Int.le_refl 0, Int.le_refl 0⟩
  · apply (root_refines size (2 ^ 31 - 1) node).answers_fifo (root_deterministic node) _ admits
      (by omega)
    exact ⟨[], [], SemiBlockingQueue.chains_alloc next, rfl⟩

private def lap : List (Op ℕ) := [.put 0, .put 1, .get, .put 2, .get, .get, .put 0]

theorem queues_agree_lap :
    Answers (squeuePut 2 true (fun item : ℕ => (item : ℤ) + 1)) (squeueGet 2 true)
      (TicketQueue.InitQueue 2 (fun _ => 7)) lap [1, 2, 3] ∧
    Answers (queuePut 2 (fun item : ℕ => AtomicQueue.benchTask (item + 1))) (queueGet 2)
      (PlainQueue.create_queue 2 (fun _ => EmptyTask)) lap
      [AtomicQueue.benchTask 1, AtomicQueue.benchTask 2, AtomicQueue.benchTask 3] ∧
    Answers (atomicPut 2 (fun item : ℕ => AtomicQueue.benchTask (item + 1))) (atomicGet 2)
      (AtomicQueue.create_queue_atomic 2 (fill 2 EmptyTask (fun _ => EmptyTask))) lap
      [AtomicQueue.benchTask 1, AtomicQueue.benchTask 2, AtomicQueue.benchTask 3] ∧
    Answers (rootPut (fun item : ℕ => item)) rootGet
      (SemiBlockingQueue.ALLOC_QUEUE_ROOT (fun _ => none)) lap [0, 1, 2] :=
  queues_agree true (fun item => by omega)
    (fun item => by change (item : ℤ) + 1 ≠ 0; omega) _ _ _
    ⟨by decide, by decide, by decide, by decide, by decide, by decide, by decide, by decide,
      trivial⟩ (by decide)

end QueueBench.SequentialFifo
