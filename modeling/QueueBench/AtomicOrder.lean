import QueueBench.Lib.RingList
import QueueBench.AtomicQueue

/-! One producer and one consumer of the atomic queue. A consumer that has given up
tickets may stand at the slot of the newest task while older ones are still in the ring;
tasks are received in order as long as none is stored there then. -/

namespace QueueBench.AtomicQueue
open Machine (Outcome Pool Program Client Act Thread)
open RingArith (addAndFetch addAndFetch_eq tmod_of_nonneg slot_range)
open Transition (Run Meets Reaches run_of_play)

inductive Party where
  | producer
  | consumer
deriving DecidableEq, Repr

inductive Script where
  | produce (rest : List TaskDesc)
  | consume
deriving DecidableEq, Repr

def passClient : Client Pc (Option TaskDesc) Script :=
  { call := fun script pc =>
      match script with
      | .produce [] => none
      | .produce (task :: rest) =>
          if pc = enqueue_atomic task then some (.produce rest) else none
      | .consume => if pc = dequeue_atomic then some .consume else none
    quit := fun _ => none
    done := fun script _ => script }

def scripts (tasks : List TaskDesc) : Party → Script
  | .producer => .produce tasks
  | .consumer => .consume

/-- The slot of the next exchange, given where the consumer stands. -/
def lookout (size : ℕ) (front : ℤ) : Option Pc → ℤ
  | some (.deqXchg first) => first.tmod size
  | _ => (front + 1).tmod size

/-- A task is not stored in the slot the consumer looks at next, unless the ring is
empty. -/
def Queued (size : ℕ) (q : Queue) (consumer : Option Pc) : Pc → Prop
  | .enqCas _ _ last => lookout size q.front consumer = last.tmod size →
      ∀ slot < size, q.tasks (slot : ℕ) = EmptyTask
  | _ => True

instance (size : ℕ) (q : Queue) (consumer : Option Pc) :
    DecidablePred (Queued size q consumer) := fun pc =>
  match pc with
  | .enqCas _ _ last =>
      inferInstanceAs (Decidable (lookout size q.front consumer = last.tmod size →
        ∀ slot < size, q.tasks (slot : ℕ) = EmptyTask))
  | .enqDraw _ _ | .deqDraw | .deqXchg _ => isTrue trivial

def Unovertaken (size : ℕ) (state : Pool Party Queue Pc Script Hist) : Act Party Pc → Prop :=
  state.Moving (fun pc => Counts state.mem pc ∧ Queued size state.mem (state.at .consumer) pc)

instance (size : ℕ) (state : Pool Party Queue Pc Script Hist) (act : Act Party Pc) :
    Decidable (Unovertaken size state act) :=
  inferInstanceAs (Decidable (state.Moving _ act))

def Feeds (tasks stored : List TaskDesc) (rear : ℤ) : Thread Pc Script → Prop
  | .idle (.produce rest) => stored ++ rest = tasks ∧ rear + 1 = stored.length
  | .busy (.enqDraw task expected) (.produce rest) =>
      expected = EmptyTask ∧ stored ++ task :: rest = tasks ∧ rear + 1 = stored.length
  | .busy (.enqCas task expected last) (.produce rest) =>
      expected = EmptyTask ∧ stored ++ task :: rest = tasks ∧ last = stored.length ∧ rear = last
  | _ => False

def Looks (front : ℤ) : Thread Pc Script → Prop
  | .idle .consume => -1 ≤ front
  | .busy .deqDraw .consume => -1 ≤ front
  | .busy (.deqXchg first) .consume => first = front ∧ 0 ≤ first
  | _ => False

/-- The items are the stored tasks not yet received, and the consumer does not stand
behind the first of them. -/
structure Ordered (size : ℕ) (tasks : List TaskDesc) (state : Pool Party Queue Pc Script Hist)
    (items : List TaskDesc) : Prop where
  stored_eq : state.hist.stored = state.hist.taken ++ items
  ring : MarkedRing size EmptyTask state.mem.tasks state.hist.taken.length items
  producer : Feeds tasks state.hist.stored state.mem.rear (state.thread .producer)
  consumer : Looks state.mem.front (state.thread .consumer)
  ahead : items = [] ∨
    lookout size state.mem.front (state.at .consumer) ≤ state.hist.taken.length ∨
    state.hist.stored.length ≤ lookout size state.mem.front (state.at .consumer)

variable {size : ℕ} {tasks items : List TaskDesc} {state next : Pool Party Queue Pc Script Hist}
variable {act : Act Party Pc}

theorem ordered_start (size : ℕ) (tasks : List TaskDesc) :
    Ordered size tasks (AtomicQueue.start size (scripts tasks)) [] :=
  { stored_eq := rfl
    ring :=
      { RingList.empty size _ _ with
        blank := fun _ _ _ _ => rfl }
    producer := ⟨rfl, rfl⟩
    consumer := Int.le_refl _
    ahead := Or.inl rfl }

theorem Feeds.stored_prefix {stored : List TaskDesc} {rear : ℤ} {standing : Thread Pc Script}
    (feeds : Feeds tasks stored rear standing) : stored <+: tasks := by
  cases standing with
  | idle script =>
      cases script with
      | produce rest => exact ⟨rest, feeds.1⟩
      | consume => exact feeds.elim
  | busy pc script =>
      cases script with
      | consume => cases pc <;> exact feeds.elim
      | produce rest =>
          cases pc with
          | enqDraw task expected => exact ⟨task :: rest, feeds.2.1⟩
          | enqCas task expected last => exact ⟨task :: rest, feeds.2.1⟩
          | deqDraw => exact feeds.elim
          | deqXchg first => exact feeds.elim

theorem Ordered.length_le (ordered : Ordered size tasks state items)
    (short : tasks.length < size) : state.hist.taken.length + items.length < size := by
  have whole := ordered.producer.stored_prefix.length_le
  rw [ordered.stored_eq, List.length_append] at whole
  omega

theorem Ordered.stored_length (ordered : Ordered size tasks state items) :
    (state.hist.stored.length : ℤ) = state.hist.taken.length + items.length := by
  rw [ordered.stored_eq, List.length_append]
  push_cast
  rfl

theorem Ordered.nonzero (ordered : Ordered size tasks state items)
    (nonzero : ∀ task ∈ tasks, task.task_id ≠ 0) : ∀ task ∈ items, task.task_id ≠ 0 := by
  intro task member
  apply nonzero task
  apply ordered.producer.stored_prefix.subset
  rw [ordered.stored_eq]
  exact List.mem_append_right _ member

theorem slot_of_lt {ticket : ℤ} (low : 0 ≤ ticket) (high : ticket < size) :
    ticket.tmod size = ticket := by
  rw [tmod_of_nonneg low]
  exact Int.emod_eq_of_lt low high

theorem Ordered.keep (ordered : Ordered size tasks state items) (hist : next.hist = state.hist)
    (same : next.mem.tasks = state.mem.tasks)
    (producer : Feeds tasks state.hist.stored next.mem.rear (next.thread .producer))
    (consumer : Looks next.mem.front (next.thread .consumer))
    (ahead : items = [] ∨
      lookout size next.mem.front (next.at .consumer) ≤ state.hist.taken.length ∨
      state.hist.stored.length ≤ lookout size next.mem.front (next.at .consumer)) :
    Ordered size tasks next items := by
  rw [← hist] at producer ahead
  have stored := ordered.stored_eq
  have ring := ordered.ring
  rw [← hist] at stored ring
  rw [← same] at ring
  exact
    { stored_eq := stored
      ring := ring
      producer := producer
      consumer := consumer
      ahead := ahead }

/-! ### What the producer does -/

theorem Ordered.draw (ordered : Ordered size tasks state items) {task expected : TaskDesc}
    {rest : List TaskDesc}
    (busy : state.thread .producer = .busy (.enqDraw task expected) (.produce rest))
    (counts : state.mem.rear + 1 < 2 ^ 31)
    (moved : (program size passClient).next state (.move .producer) = some next) :
    Ordered size tasks next items := by
  have feeds := ordered.producer
  rw [busy] at feeds
  obtain ⟨fresh, whole, rear⟩ := feeds
  have ticket : addAndFetch state.mem.rear = state.mem.rear + 1 :=
    addAndFetch_eq (by omega) counts
  have stepped : (program (ι := Party) size passClient).step (.enqDraw task expected) state.mem =
      some ({ state.mem with rear := state.mem.rear + 1 },
        .goto (.enqCas task expected (state.mem.rear + 1))) := by
    simp only [program, step, ticket]
  have facts := Program.moved_of busy stepped moved
  have consumer : next.thread .consumer = state.thread .consumer := facts.others _ (by decide)
  apply ordered.keep facts.hist_eq
  · rw [facts.mem_eq]
  · rw [facts.thread_eq, facts.mem_eq]
    exact ⟨fresh, whole, rear, rfl⟩
  · rw [consumer, facts.mem_eq]
    exact ordered.consumer
  · rw [Pool.at, consumer, facts.mem_eq]
    exact ordered.ahead

theorem Ordered.slot_empty (ordered : Ordered size tasks state items)
    (short : tasks.length < size) {task expected : TaskDesc} {last : ℤ} {rest : List TaskDesc}
    (busy : state.thread .producer = .busy (.enqCas task expected last) (.produce rest)) :
    expected = EmptyTask ∧ last.tmod size = last ∧
      ((state.hist.taken.length : ℤ) + items.length) % size = last ∧
      state.mem.tasks last = EmptyTask := by
  have feeds := ordered.producer
  rw [busy] at feeds
  obtain ⟨fresh, _, position, _⟩ := feeds
  have room := ordered.length_le short
  have stored := ordered.stored_length
  have cell : ((state.hist.taken.length : ℤ) + items.length) % size = last := by
    rw [← stored, ← position]
    exact Int.emod_eq_of_lt (by omega) (by omega)
  refine ⟨fresh, slot_of_lt (by omega) (by omega), cell, ?_⟩
  rw [← cell]
  exact ordered.ring.next_blank (by omega)

/-- A store always succeeds, and keeps the order unless the consumer stands at its slot
with older tasks in the ring. -/
theorem Ordered.store (ordered : Ordered size tasks state items)
    (short : tasks.length < size) (nonzero : ∀ task ∈ tasks, task.task_id ≠ 0)
    {task expected : TaskDesc} {last : ℤ} {rest : List TaskDesc}
    (busy : state.thread .producer = .busy (.enqCas task expected last) (.produce rest))
    (queued : Queued size state.mem (state.at .consumer) (.enqCas task expected last))
    (moved : (program size passClient).next state (.move .producer) = some next) :
    Ordered size tasks next (items ++ [task]) := by
  have feeds := ordered.producer
  rw [busy] at feeds
  obtain ⟨_, whole, position, rear⟩ := feeds
  obtain ⟨rfl, slot, cell, empty⟩ := ordered.slot_empty short busy
  have room := ordered.length_le short
  have stored := ordered.stored_length
  have stepped : (program (ι := Party) size passClient).step (.enqCas task EmptyTask last)
      state.mem = some ({ state.mem with
        tasks := Function.update state.mem.tasks last task }, .ret none) := by
    simp only [program, step, slot, if_pos empty]
  have facts := Program.moved_of busy stepped moved
  have consumer : next.thread .consumer = state.thread .consumer := facts.others _ (by decide)
  have hist : next.hist = { state.hist with stored := state.hist.stored ++ [task] } := by
    rw [facts.hist_eq]
    simp only [program, record, slot, if_pos empty]
  have grown : (state.hist.stored ++ [task]).length = state.hist.stored.length + 1 := by
    rw [List.length_append, List.length_singleton]
  refine
    { stored_eq := ?_
      ring := ?_
      producer := ?_
      consumer := ?_
      ahead := ?_ }
  · rw [hist]
    change state.hist.stored ++ [task] = state.hist.taken ++ (items ++ [task])
    rw [ordered.stored_eq, List.append_assoc]
  · rw [hist, facts.mem_eq]
    have pushed := ordered.ring.push (by omega) task
    rw [cell] at pushed
    exact pushed
  · rw [facts.thread_eq, hist, facts.mem_eq]
    refine ⟨?_, ?_⟩
    · rw [List.append_assoc]
      exact whole
    · change state.mem.rear + 1 = ((state.hist.stored ++ [task]).length : ℤ)
      rw [grown, rear, position]
      push_cast
      rfl
  · rw [consumer, facts.mem_eq]
    exact ordered.consumer
  · right
    rw [Pool.at, consumer, hist, facts.mem_eq]
    change lookout size state.mem.front (state.at .consumer) ≤ state.hist.taken.length ∨
      ((state.hist.stored ++ [task]).length : ℤ) ≤
        lookout size state.mem.front (state.at .consumer)
    rw [grown]
    push_cast
    have none_left : lookout size state.mem.front (state.at .consumer) = last → items = [] := by
      intro same
      have blank := queued (by rw [slot]; exact same)
      cases items with
      | nil => rfl
      | cons first items =>
          exfalso
          have head := ordered.ring.head
          rw [Int.emod_eq_of_lt (by omega) (by omega)] at head
          apply ordered.nonzero nonzero first List.mem_cons_self
          rw [← head, blank _ (by omega)]
          rfl
    rcases ordered.ahead with nothing | behind | beyond
    · rw [nothing, List.length_nil] at stored
      push_cast at stored
      omega
    · exact Or.inl behind
    · by_cases same : lookout size state.mem.front (state.at .consumer) = last
      · rw [none_left same, List.length_nil] at stored
        push_cast at stored
        omega
      · omega

/-! ### What the consumer does -/

theorem Ordered.take_ticket (ordered : Ordered size tasks state items) {script : Script}
    (busy : state.thread .consumer = .busy .deqDraw script)
    (counts : state.mem.front + 1 < 2 ^ 31)
    (moved : (program size passClient).next state (.move .consumer) = some next) :
    Ordered size tasks next items := by
  have looks := ordered.consumer
  rw [busy] at looks
  cases script with
  | produce rest => exact looks.elim
  | consume =>
      have low : -1 ≤ state.mem.front := looks
      have ticket : addAndFetch state.mem.front = state.mem.front + 1 :=
        addAndFetch_eq low counts
      have stepped : (program (ι := Party) size passClient).step .deqDraw state.mem =
          some ({ state.mem with front := state.mem.front + 1 },
            .goto (.deqXchg (state.mem.front + 1))) := by
        simp only [program, step, ticket]
      have facts := Program.moved_of busy stepped moved
      have producer : next.thread .producer = state.thread .producer :=
        facts.others _ (by decide)
      have ahead := ordered.ahead
      rw [Pool.at, busy] at ahead
      apply ordered.keep facts.hist_eq
      · rw [facts.mem_eq]
      · rw [producer, facts.mem_eq]
        exact ordered.producer
      · rw [facts.thread_eq, facts.mem_eq]
        exact ⟨rfl, by omega⟩
      · rw [Pool.at, facts.thread_eq, facts.mem_eq]
        exact ahead

theorem next_slot {first : ℤ} (low : 0 ≤ first) (positive : 0 < size) :
    (first + 1).tmod size = first.tmod size + 1 ∨ (first + 1).tmod size = 0 := by
  rw [tmod_of_nonneg low, tmod_of_nonneg (by omega)]
  have range := slot_range (show (0 : ℤ) < size from by omega) first
  have shifted : (first + 1) % size = (first % size + 1) % size := by
    rw [Int.emod_add_emod]
  rw [shifted]
  by_cases last : first % size + 1 < size
  · exact Or.inl (Int.emod_eq_of_lt (by omega) last)
  · right
    have wraps : first % size + 1 = size := by omega
    rw [wraps, Int.emod_self]

theorem Ordered.take_first {first : TaskDesc}
    (ordered : Ordered size tasks state (first :: items)) (short : tasks.length < size)
    (nonzero : ∀ task ∈ tasks, task.task_id ≠ 0) {ticket : ℤ} {script : Script}
    (busy : state.thread .consumer = .busy (.deqXchg ticket) script)
    (here : ticket.tmod size = state.hist.taken.length)
    (moved : (program size passClient).next state (.move .consumer) = some next) :
    Ordered size tasks next items := by
  have looks := ordered.consumer
  rw [busy] at looks
  cases script with
  | produce rest => exact looks.elim
  | consume =>
      obtain ⟨current, low⟩ := looks
      have room := ordered.length_le short
      rw [List.length_cons] at room
      have cell : (state.hist.taken.length : ℤ) % size = state.hist.taken.length :=
        Int.emod_eq_of_lt (by omega) (by omega)
      have found : state.mem.tasks state.hist.taken.length = first := by
        have head := ordered.ring.head
        rw [cell] at head
        exact head
      have known : first.task_id ≠ 0 := ordered.nonzero nonzero first List.mem_cons_self
      have stepped : (program (ι := Party) size passClient).step (.deqXchg ticket) state.mem =
          some ({ state.mem with
            tasks := Function.update state.mem.tasks state.hist.taken.length EmptyTask },
            .ret (some first)) := by
        simp only [program, step, here, found, if_neg known]
      have facts := Program.moved_of busy stepped moved
      have producer : next.thread .producer = state.thread .producer :=
        facts.others _ (by decide)
      have hist : next.hist = { state.hist with taken := state.hist.taken ++ [first] } := by
        rw [facts.hist_eq]
        simp only [program, record, here, found, if_neg known]
      have grown : ((state.hist.taken ++ [first]).length : ℤ) = state.hist.taken.length + 1 := by
        rw [List.length_append, List.length_singleton]
        push_cast
        rfl
      refine
        { stored_eq := ?_
          ring := ?_
          producer := ?_
          consumer := ?_
          ahead := ?_ }
      · rw [hist]
        change state.hist.stored = state.hist.taken ++ [first] ++ items
        rw [ordered.stored_eq, List.append_assoc, List.singleton_append]
      · rw [hist, facts.mem_eq]
        have popped := ordered.ring.pop
        rw [cell, ← grown] at popped
        exact popped
      · rw [producer, hist, facts.mem_eq]
        exact ordered.producer
      · rw [facts.thread_eq, facts.mem_eq]
        change -1 ≤ state.mem.front
        omega
      · right; left
        rw [Pool.at, facts.thread_eq, hist, facts.mem_eq]
        change (state.mem.front + 1).tmod size ≤ ((state.hist.taken ++ [first]).length : ℤ)
        rw [grown, ← current]
        rcases next_slot low (show 0 < size from by omega) with up | wraps
        · omega
        · omega

theorem Ordered.look_on (ordered : Ordered size tasks state items)
    (short : tasks.length < size) {ticket : ℤ} {script : Script}
    (busy : state.thread .consumer = .busy (.deqXchg ticket) script)
    (elsewhere : items = [] ∨ ticket.tmod size ≠ state.hist.taken.length)
    (moved : (program size passClient).next state (.move .consumer) = some next) :
    Ordered size tasks next items := by
  have looks := ordered.consumer
  rw [busy] at looks
  cases script with
  | produce rest => exact looks.elim
  | consume =>
      obtain ⟨current, low⟩ := looks
      have room := ordered.length_le short
      have positive : 0 < size := by omega
      have range := slot_range (show (0 : ℤ) < size from by omega) ticket
      rw [← tmod_of_nonneg low] at range
      have stored := ordered.stored_length
      have ahead := ordered.ahead
      rw [Pool.at, busy] at ahead
      change items = [] ∨ ticket.tmod size ≤ state.hist.taken.length ∨
        state.hist.stored.length ≤ ticket.tmod size at ahead
      have blank : state.mem.tasks (ticket.tmod size) = EmptyTask := by
        apply ordered.ring.blank _ range.1 range.2
        intro index inside
        rw [Int.emod_eq_of_lt (by omega) (by omega)]
        rcases elsewhere with rfl | elsewhere
        · cases inside
        · rcases ahead with rfl | behind | beyond
          · cases inside
          · omega
          · omega
      have stepped : (program (ι := Party) size passClient).step (.deqXchg ticket) state.mem =
          some (state.mem, .retry .deqDraw) := by
        have same : Function.update state.mem.tasks (ticket.tmod size) EmptyTask =
            state.mem.tasks := Function.update_eq_self_iff.mpr blank.symm
        simp only [program, step, blank, same]
        rfl
      have facts := Program.moved_of busy stepped moved
      have producer : next.thread .producer = state.thread .producer :=
        facts.others _ (by decide)
      have hist : next.hist = state.hist := by
        rw [facts.hist_eq]
        simp only [program, record, blank]
        rfl
      apply ordered.keep hist
      · rw [facts.mem_eq]
      · rw [producer, facts.mem_eq]
        exact ordered.producer
      · rw [facts.thread_eq, facts.mem_eq]
        change -1 ≤ state.mem.front
        omega
      · rw [Pool.at, facts.thread_eq, facts.mem_eq]
        change items = [] ∨ (state.mem.front + 1).tmod size ≤ state.hist.taken.length ∨
          state.hist.stored.length ≤ (state.mem.front + 1).tmod size
        rw [← current]
        rcases elsewhere with nothing | elsewhere
        · exact Or.inl nothing
        · rcases ahead with nothing | behind | beyond
          · exact Or.inl nothing
          · right; left
            rcases next_slot low positive with up | wraps
            · omega
            · omega
          · rcases next_slot low positive with up | wraps
            · omega
            · omega

/-! ### Runs -/

def InOrder (size : ℕ) (tasks : List TaskDesc) (state : Pool Party Queue Pc Script Hist) : Prop :=
  ∃ items, Ordered size tasks state items

theorem Ordered.call (ordered : Ordered size tasks state items) {thread : Party} {entry : Pc}
    {script left : Script} (idle : state.thread thread = .idle script)
    (called : passClient.call script entry = some left) :
    Ordered size tasks
      { state with thread := Function.update state.thread thread (.busy entry left) } items := by
  cases thread with
  | producer =>
      have feeds := ordered.producer
      rw [idle] at feeds
      cases script with
      | consume => exact feeds.elim
      | produce rest =>
          cases rest with
          | nil => cases called
          | cons task rest =>
              simp only [passClient] at called
              split at called
              · rename_i same
                cases called
                subst same
                exact { ordered with producer := ⟨rfl, feeds.1, feeds.2⟩ }
              · cases called
  | consumer =>
      have looks := ordered.consumer
      have ahead := ordered.ahead
      rw [idle] at looks
      rw [Pool.at, idle] at ahead
      cases script with
      | produce rest => exact looks.elim
      | consume =>
          simp only [passClient] at called
          split at called
          · rename_i same
            cases called
            subst same
            exact
              { ordered with
                consumer := looks
                ahead := ahead }
          · cases called

theorem inOrder_next (short : tasks.length < size)
    (nonzero : ∀ task ∈ tasks, task.task_id ≠ 0) (inOrder : InOrder size tasks state)
    (met : Unovertaken size state act)
    (moved : (program size passClient).next state act = some next) : InOrder size tasks next := by
  obtain ⟨items, ordered⟩ := inOrder
  rcases Program.next_cases moved with
    ⟨thread, entry, script, left, rfl, idle, called, rfl⟩ |
    ⟨thread, script, left, rfl, idle, left?, rfl⟩ |
    ⟨thread, pc, script, mem, outcome, rfl, busy, stepped, same⟩
  · exact ⟨items, ordered.call idle called⟩
  · cases left?
  · have at_ : state.at thread = some pc := Pool.at_busy busy
    obtain ⟨counts, queued⟩ := met pc at_
    cases thread with
    | producer =>
        have feeds := ordered.producer
        rw [busy] at feeds
        cases script with
        | consume => cases pc <;> exact feeds.elim
        | produce rest =>
            cases pc with
            | enqDraw task expected => exact ⟨items, ordered.draw busy counts moved⟩
            | enqCas task expected last =>
                exact ⟨items ++ [task], ordered.store short nonzero busy queued moved⟩
            | deqDraw => exact feeds.elim
            | deqXchg first => exact feeds.elim
    | consumer =>
        have looks := ordered.consumer
        rw [busy] at looks
        cases pc with
        | enqDraw task expected => cases script <;> exact looks.elim
        | enqCas task expected last => cases script <;> exact looks.elim
        | deqDraw => exact ⟨items, ordered.take_ticket busy counts moved⟩
        | deqXchg ticket =>
            cases items with
            | nil => exact ⟨[], ordered.look_on short busy (Or.inl rfl) moved⟩
            | cons first items =>
                by_cases here : ticket.tmod size = state.hist.taken.length
                · exact ⟨items, ordered.take_first short nonzero busy here moved⟩
                · exact ⟨first :: items, ordered.look_on short busy (Or.inr here) moved⟩

/-- The consumer receives the tasks in the order in which the producer has passed them,
in every run in which no task is stored where the consumer looks next while older tasks
are in the ring. -/
theorem received_in_order {QUEUE_SIZE : ℕ} {tasks : List TaskDesc}
    (short : tasks.length < QUEUE_SIZE) (nonzero : ∀ task ∈ tasks, task.task_id ≠ 0)
    {state : Pool Party Queue Pc Script Hist}
    {trace : List (Pool Party Queue Pc Script Hist × Act Party Pc)}
    (run : Run (program QUEUE_SIZE passClient).next
      (AtomicQueue.start QUEUE_SIZE (scripts tasks)) trace state)
    (unovertaken : Meets (Unovertaken QUEUE_SIZE) trace) :
    state.hist.taken <+: state.hist.stored ∧ state.hist.stored <+: tasks := by
  have inOrder : InOrder QUEUE_SIZE tasks state :=
    run.invariant unovertaken ⟨[], ordered_start QUEUE_SIZE tasks⟩
      (fun _ _ _ now met moved => inOrder_next short nonzero now met moved)
  obtain ⟨items, ordered⟩ := inOrder
  exact ⟨⟨items, ordered.stored_eq.symm⟩, ordered.producer.stored_prefix⟩

/-- On two slots the consumer gives up ticket 0, and then ticket 1 too, so it comes back
to the first slot in time. -/
private def givesUpTwice : List (Act Party Pc) :=
  [.call .consumer dequeue_atomic, .move .consumer, .move .consumer,
    .move .consumer, .move .consumer,
    .call .producer (enqueue_atomic (benchTask 1)), .move .producer, .move .producer,
    .move .consumer, .move .consumer]

theorem received_in_order_givesUpTwice :
    ∃ (trace : _) (state : Pool Party Queue Pc Script Hist),
      Run (program 2 passClient).next (AtomicQueue.start 2 (scripts [benchTask 1])) trace state ∧
      Meets (Unovertaken 2) trace ∧ state.mem.front = 2 ∧
      state.hist.taken = [benchTask 1] ∧ state.hist.taken <+: state.hist.stored := by
  have run : Run (program 2 passClient).next (AtomicQueue.start 2 (scripts [benchTask 1])) _ _ :=
    run_of_play givesUpTwice rfl
  have inOrder := received_in_order (by decide) (by decide) run (by decide)
  exact ⟨_, _, run, by decide, rfl, rfl, inOrder.1⟩

/-! ### The consumer that overtakes the producer -/

private theorem exchange_takes (size : ℕ) {ticket : ℤ} {task : TaskDesc} {script : Script}
    (busy : state.thread .consumer = .busy (.deqXchg ticket) script)
    (holds : state.mem.tasks (ticket.tmod size) = task) (known : task.task_id ≠ 0) :
    ∃ next, Reaches (program size passClient).next Counted state next ∧
      next.hist = { state.hist with taken := state.hist.taken ++ [task] } := by
  have stepped : (program (ι := Party) size passClient).step (.deqXchg ticket) state.mem =
      some ({ state.mem with
        tasks := Function.update state.mem.tasks (ticket.tmod size) EmptyTask },
        .ret (some task)) := by
    simp only [program, step, holds, if_neg known]
  obtain ⟨next, moved, facts⟩ := Program.move_exists busy stepped
  have counted : Counted state (.move .consumer) := by
    intro pc at_
    rw [Pool.at, busy] at at_
    cases at_
    trivial
  refine ⟨next, (Reaches.refl _ _ state).tail counted moved, ?_⟩
  rw [facts.hist_eq]
  simp only [program, record, holds, if_neg known]

private theorem draw_takes (size : ℕ) {task : TaskDesc} {script : Script}
    (busy : state.thread .consumer = .busy .deqDraw script) (low : -1 ≤ state.mem.front)
    (counts : state.mem.front + 1 < 2 ^ 31)
    (holds : state.mem.tasks ((state.mem.front + 1).tmod size) = task)
    (known : task.task_id ≠ 0) :
    ∃ next, Reaches (program size passClient).next Counted state next ∧
      next.hist = { state.hist with taken := state.hist.taken ++ [task] } := by
  have ticket : addAndFetch state.mem.front = state.mem.front + 1 := addAndFetch_eq low counts
  have stepped : (program (ι := Party) size passClient).step .deqDraw state.mem =
      some ({ state.mem with front := state.mem.front + 1 },
        .goto (.deqXchg (state.mem.front + 1))) := by
    simp only [program, step, ticket]
  obtain ⟨middle, drew, facts⟩ := Program.move_exists busy stepped
  have counted : Counted state (.move .consumer) := by
    intro pc at_
    rw [Pool.at, busy] at at_
    cases at_
    exact counts
  obtain ⟨next, reached, hist⟩ := exchange_takes size facts.thread_eq
    (by rw [facts.mem_eq]; exact holds) known
  refine ⟨next, ((Reaches.refl _ _ state).tail counted drew).trans reached, ?_⟩
  rw [hist, facts.hist_eq]
  rfl

theorem lookout_takes {task : TaskDesc}
    (looks : Looks state.mem.front (state.thread .consumer))
    (counts : state.mem.front + 1 < 2 ^ 31)
    (holds : state.mem.tasks (lookout size state.mem.front (state.at .consumer)) = task)
    (known : task.task_id ≠ 0) :
    ∃ next, Reaches (program size passClient).next Counted state next ∧
      next.hist = { state.hist with taken := state.hist.taken ++ [task] } := by
  cases standing : state.thread .consumer with
  | idle script =>
      rw [standing] at looks
      rw [Pool.at, standing] at holds
      cases script with
      | produce rest => exact looks.elim
      | consume =>
          have called : (program (ι := Party) size passClient).call .consume dequeue_atomic =
            some .consume := rfl
          obtain ⟨middle, entered, facts⟩ := Program.call_exists standing called
          have free : Counted state (.call .consumer dequeue_atomic) := trivial
          obtain ⟨next, reached, hist⟩ := draw_takes size facts.thread_eq
            (by rw [facts.mem_eq]; exact looks) (by rw [facts.mem_eq]; exact counts)
            (by rw [facts.mem_eq]; exact holds) known
          refine ⟨next, ((Reaches.refl _ _ state).tail free entered).trans reached, ?_⟩
          rw [hist, facts.hist_eq]
  | busy pc script =>
      rw [standing] at looks
      rw [Pool.at, standing] at holds
      cases pc with
      | enqDraw task expected => cases script <;> exact looks.elim
      | enqCas task expected last => cases script <;> exact looks.elim
      | deqXchg ticket => exact exchange_takes size standing holds known
      | deqDraw =>
          cases script with
          | produce rest => exact looks.elim
          | consume => exact draw_takes size standing looks counts holds known

/-- Conversely, after a store that breaks the condition the next task received is out of
order, if the tasks differ. -/
theorem order_breaks {QUEUE_SIZE : ℕ} {tasks : List TaskDesc}
    (short : tasks.length < QUEUE_SIZE) (nonzero : ∀ task ∈ tasks, task.task_id ≠ 0)
    (distinct : tasks.Nodup) {state : Pool Party Queue Pc Script Hist}
    {trace : List (Pool Party Queue Pc Script Hist × Act Party Pc)}
    (run : Run (program QUEUE_SIZE passClient).next
      (AtomicQueue.start QUEUE_SIZE (scripts tasks)) trace state)
    (unovertaken : Meets (Unovertaken QUEUE_SIZE) trace)
    {pc : Pc} (at_ : state.at .producer = some pc)
    (overtaken : ¬ Queued QUEUE_SIZE state.mem (state.at .consumer) pc)
    (counts : state.mem.front + 1 < 2 ^ 31) :
    ∃ final, Reaches (program QUEUE_SIZE passClient).next Counted state final ∧
      ¬ final.hist.taken <+: final.hist.stored := by
  have inOrder : InOrder QUEUE_SIZE tasks state :=
    run.invariant unovertaken ⟨[], ordered_start QUEUE_SIZE tasks⟩
      (fun _ _ _ now met moved => inOrder_next short nonzero now met moved)
  obtain ⟨items, ordered⟩ := inOrder
  have busy := Pool.at_eq_some at_
  have feeds := ordered.producer
  rw [busy] at feeds
  cases pc with
  | enqDraw task expected => exact absurd trivial overtaken
  | deqDraw => exact absurd trivial overtaken
  | deqXchg first => exact absurd trivial overtaken
  | enqCas task expected last =>
      generalize (state.thread .producer).script = script at busy feeds
      cases script with
      | consume => exact feeds.elim
      | produce rest =>
          obtain ⟨_, whole, _, _⟩ := feeds
          obtain ⟨rfl, slot, cell, empty⟩ := ordered.slot_empty short busy
          obtain ⟨same, full⟩ := Classical.not_imp.mp overtaken
          rw [slot] at same
          have member : task ∈ tasks := by
            rw [← whole]
            exact List.mem_append_right _ List.mem_cons_self
          have stepped : (program (ι := Party) QUEUE_SIZE passClient).step
              (.enqCas task EmptyTask last) state.mem = some ({ state.mem with
                tasks := Function.update state.mem.tasks last task }, .ret none) := by
            simp only [program, step, slot, if_pos empty]
          obtain ⟨middle, moved, facts⟩ := Program.move_exists busy stepped
          have counted : Counted state (.move .producer) := by
            intro pc here
            rw [at_] at here
            cases here
            trivial
          have consumer : middle.thread .consumer = state.thread .consumer :=
            facts.others _ (by decide)
          have hist : middle.hist =
              { state.hist with stored := state.hist.stored ++ [task] } := by
            rw [facts.hist_eq]
            simp only [program, record, slot, if_pos empty]
          have holds : middle.mem.tasks
              (lookout QUEUE_SIZE middle.mem.front (middle.at .consumer)) = task := by
            rw [facts.mem_eq, Pool.at, consumer]
            change Function.update state.mem.tasks last task
              (lookout QUEUE_SIZE state.mem.front (state.at .consumer)) = task
            rw [same, Function.update_self]
          obtain ⟨final, reached, ending⟩ := lookout_takes
            (by rw [consumer, facts.mem_eq]; exact ordered.consumer)
            (by rw [facts.mem_eq]; exact counts) holds (nonzero task member)
          refine ⟨final, ((Reaches.refl _ _ state).tail counted moved).trans reached, ?_⟩
          rw [ending, hist]
          change ¬ state.hist.taken ++ [task] <+: state.hist.stored ++ [task]
          cases items with
          | nil =>
              -- An empty ring is no breach of the condition.
              exfalso
              apply full
              intro cell inside
              exact ordered.ring.blank cell (by omega) (by omega)
                (by intro index impossible; cases impossible)
          | cons first items =>
              intro early
              rw [ordered.stored_eq, List.append_assoc, List.prefix_append_right_inj] at early
              have equal : task = first := (List.cons_prefix_cons.mp early).1
              rw [← whole, ordered.stored_eq, List.nodup_append] at distinct
              exact distinct.2.2 first
                (List.mem_append_right _ List.mem_cons_self) task List.mem_cons_self equal.symm

/-- The consumer gives up ticket 0 and then meets the second task with ticket 1. -/
private def givesUpOnce : List (Act Party Pc) :=
  [.call .consumer dequeue_atomic, .move .consumer, .move .consumer,
    .call .producer (enqueue_atomic (benchTask 1)), .move .producer, .move .producer,
    .call .producer (enqueue_atomic (benchTask 2)), .move .producer, .move .producer,
    .move .consumer, .move .consumer]

theorem second_task_first :
    ∃ (trace : _) (state : Pool Party Queue Pc Script Hist),
      Run (program (32 * 1024 * 1024) passClient).next
        (AtomicQueue.start (32 * 1024 * 1024) (scripts [benchTask 1, benchTask 2])) trace state ∧
      Meets Counted trace ∧ state.hist.stored = [benchTask 1, benchTask 2] ∧
      state.hist.taken = [benchTask 2] ∧ ¬ state.hist.taken <+: state.hist.stored := by
  have run : Run (program (32 * 1024 * 1024) passClient).next
      (AtomicQueue.start (32 * 1024 * 1024) (scripts [benchTask 1, benchTask 2])) _ _ :=
    run_of_play givesUpOnce rfl
  exact ⟨_, _, run, by decide, rfl, rfl, by decide⟩

end QueueBench.AtomicQueue
