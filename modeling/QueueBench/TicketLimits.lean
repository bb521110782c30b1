import QueueBench.Lib.Fifo
import QueueBench.TicketFifo

/-! The two ends of a ticket ring used by one thread. Enqueue never looks whether the ring
is full, and the emptiness test of Dequeue is switched off during the first lap. -/

namespace QueueBench.TicketQueue
open Fifo (Op Admits Attended Lawful puts)
open Machine (Returns)
open RingArith (addAndFetch addAndFetch_eq wrap32 tmod_of_nonneg)

def FALSE : ℤ := 0

/-! ### The tests as functions of a resting queue -/

/-- `isEmpty` of QueueBenchmarks/squeue.c, and the test inlined in DequeueMultiple. -/
def isEmpty (MAX_SIZE : ℕ) (q : Queue) : Bool :=
  decide (q.tail - MAX_SIZE > 0) && decide (q.head = q.tail)

def isFull (MAX_SIZE : ℕ) (q : Queue) : Bool := decide (q.tail - MAX_SIZE ≥ q.head)

/-- A ring of one of the programs: what its functions take as its size, how it starts, where
its dequeue begins, and its test for a full ring. -/
structure Ring where
  size : ℕ
  start : Queue
  dequeue : Pc
  full : Queue → Prop

def squeue (MAX_SIZE : ℕ) (junk : ℤ → ℤ) : Ring :=
  { size := MAX_SIZE
    start := InitQueue MAX_SIZE junk
    dequeue := Dequeue
    full := fun q => isFull MAX_SIZE q = true }

def xtaskqueue (MAX_SIZE : ℕ) (junk : ℤ → ℤ) : Ring :=
  { size := MAX_SIZE
    start := InitXTaskQueue MAX_SIZE junk
    dequeue := DequeueFromQ
    full := fun q => isFull MAX_SIZE q = true }

/-- `EnqueueMultiple` and `DequeueMultiple` on one queue of InitQueues; the file has no test
for a full one. -/
def squeuemultiple (MAX_SIZE numQueues : ℕ) (junk : ℤ → ℤ) (queue : ℕ) : Ring :=
  { size := QUEUE_SIZE MAX_SIZE numQueues
    start := InitQueues MAX_SIZE numQueues junk queue
    dequeue := DequeueMultiple
    full := fun _ => True }

inductive Ring.Source : Ring → Prop where
  | squeue (MAX_SIZE : ℕ) (junk : ℤ → ℤ) : Ring.Source (squeue MAX_SIZE junk)
  | xtaskqueue (MAX_SIZE : ℕ) (junk : ℤ → ℤ) : Ring.Source (xtaskqueue MAX_SIZE junk)
  | squeuemultiple (MAX_SIZE numQueues : ℕ) (junk : ℤ → ℤ) (queue : ℕ) :
      Ring.Source (squeuemultiple MAX_SIZE numQueues junk queue)

variable {size : ℕ} {headFirst : Bool} {q after : Queue} {items : List ℤ} {elem : ℤ}

def enqueueCall (size : ℕ) (headFirst : Bool) (elem : ℤ) (accepted : Bool) (q after : Queue) :
    Prop :=
  ∃ retries, Returns (step size headFirst) (Enqueue elem) q after
    (if accepted then TRUE else FALSE) retries

def dequeueCall (size : ℕ) (headFirst : Bool) (pc : Pc) (elem : ℤ) (q after : Queue) : Prop :=
  ∃ retries, Returns (step size headFirst) pc q after elem retries

def Ring.Respects (ring : Ring) (headFirst : Bool) (ops : List (Op ℤ)) : Prop :=
  Lawful ring.size (enqueueCall ring.size headFirst) (dequeueCall ring.size headFirst ring.dequeue)
    ring.full (Holds ring.size) ring.start [] ops

/-- No enqueue is made on a full ring, and no tail ticket reaches 2^31. -/
def Ring.Roomy (ring : Ring) (ops : List (Op ℤ)) : Prop :=
  Admits ring.size (fun _ _ => True) [] ops ∧ (puts ops).length ≤ 2 ^ 31

/-! ### A full ring -/

theorem Holds.isFull_iff (holds : Holds size q items) :
    isFull size q = true ↔ items.length = size := by
  have counters := holds.counters
  have fits := holds.ring.fits
  rw [isFull, decide_eq_true_iff]
  omega

theorem enqueue_returns (size : ℕ) (headFirst : Bool) (elem : ℤ) (q : Queue) :
    Returns (step size headFirst) (Enqueue elem) q
      { q with
        tail := addAndFetch q.tail
        data := Function.update q.data ((addAndFetch q.tail).tmod size) elem } TRUE 0 :=
  Returns.of_goto rfl (Returns.of_ret rfl)

theorem enqueue_accepts {accepted : Bool} (call : enqueueCall size headFirst elem accepted q after) :
    accepted = true ∧ after =
      { q with
        tail := addAndFetch q.tail
        data := Function.update q.data ((addAndFetch q.tail).tmod size) elem } := by
  obtain ⟨retries, returns⟩ := call
  obtain ⟨same, answer, _⟩ := (enqueue_returns size headFirst elem q).unique returns
  refine ⟨?_, same⟩
  cases accepted with
  | true => rfl
  | false => cases answer

/-- After the last ticket below 2^31 the ring represents no list. -/
theorem enqueue_overflows (last : q.tail = 2 ^ 31 - 1)
    (call : enqueueCall size headFirst elem true q after) : ¬ Holds size after (items ++ [elem]) := by
  intro kept
  obtain ⟨_, same⟩ := enqueue_accepts call
  have counters := kept.counters
  have headGe := kept.head_ge
  have wrapped : after.tail = -2 ^ 31 := by
    rw [same]
    change addAndFetch q.tail = -2 ^ 31
    rw [last]
    decide
  omega

theorem Holds.dequeue (holds : Holds size q (elem :: items)) (headFirst : Bool) {pc : Pc}
    (entry : pc = .gate ∨ pc = .draw) (low : q.head + 1 < 2 ^ 31) :
    ∃ after, Returns (step size headFirst) pc q after elem 0 ∧ Holds size after items ∧
      after.head = q.head + 1 ∧ after.tail = q.tail := by
  rcases entry with rfl | rfl
  · exact holds.gate headFirst low
  · exact holds.draw headFirst low

theorem Holds.lawful_iff {full : Queue → Prop} {pc : Pc} (entry : pc = .gate ∨ pc = .draw)
    (knows : ∀ q items, Holds size q items → items.length = size → full q)
    {ops : List (Op ℤ)} (holds : Holds size q items) (low : q.tail < 2 ^ 31)
    (nonzero : ∀ elem ∈ puts ops, elem ≠ 0) (attended : Attended size items.length ops) :
    Lawful size (enqueueCall size headFirst) (dequeueCall size headFirst pc) full (Holds size)
        q items ops ↔
      Admits size (fun _ _ => True) items ops ∧ q.tail + 1 + (puts ops).length ≤ 2 ^ 31 := by
  induction ops generalizing q items with
  | nil =>
      constructor
      · intro _
        refine ⟨trivial, ?_⟩
        rw [puts, List.length_nil]
        omega
      · intro _
        exact knows q items holds
  | cons op rest ih =>
      cases op with
      | put elem =>
          have fits := holds.ring.fits
          have counted : (puts (.put elem :: rest)).length = (puts rest).length + 1 := rfl
          have others : ∀ other ∈ puts rest, other ≠ 0 :=
            fun other member => nonzero other (List.mem_cons_of_mem elem member)
          rcases Nat.lt_or_ge items.length size with room | full?
          · have longer : (items ++ [elem]).length = items.length + 1 := List.length_append
            have attendedRest : Attended size (items ++ [elem]).length rest := by
              rw [Attended, if_pos room] at attended
              rw [longer]
              exact attended
            constructor
            · intro lawful
              obtain ⟨next, call, kept, onward⟩ := lawful.2 room
              by_cases last : q.tail + 1 < 2 ^ 31
              · obtain ⟨after, returns, _, _, tail⟩ :=
                  holds.enqueue headFirst room (nonzero elem List.mem_cons_self) last
                obtain ⟨retries, also⟩ := call
                obtain ⟨rfl, _⟩ := returns.unique also
                obtain ⟨admits, few⟩ := (ih kept (by omega) others attendedRest).mp onward
                refine ⟨⟨room, trivial, admits⟩, ?_⟩
                rw [counted]
                push_cast
                omega
              · exact absurd kept (enqueue_overflows (by omega) call)
            · rintro ⟨⟨_, _, admits⟩, few⟩
              rw [counted] at few
              push_cast at few
              obtain ⟨next, returns, kept, _, tail⟩ :=
                holds.enqueue headFirst room (nonzero elem List.mem_cons_self) (by omega)
              refine ⟨fun impossible => absurd impossible (by omega), fun _ => ?_⟩
              refine ⟨next, ⟨0, returns⟩, kept, ?_⟩
              exact (ih kept (by omega) others attendedRest).mpr ⟨admits, by omega⟩
          · constructor
            · intro lawful
              obtain ⟨_, call, _⟩ := lawful.1 (by omega)
              have impossible := (enqueue_accepts call).1
              cases impossible
            · rintro ⟨⟨room, _⟩, _⟩
              omega
      | get =>
          cases items with
          | nil => exact attended.elim
          | cons first items =>
              have counters := holds.counters
              rw [List.length_cons] at counters
              push_cast at counters
              obtain ⟨next, returns, kept, _, tail⟩ := holds.dequeue headFirst entry (by omega)
              have step := ih kept (by omega) nonzero attended
              rw [tail] at step
              constructor
              · rintro ⟨other, ⟨retries, also⟩, _, onward⟩
                obtain ⟨rfl, _⟩ := returns.unique also
                exact step.mp onward
              · intro admits
                exact ⟨next, ⟨0, returns⟩, kept, step.mpr admits⟩

/-- An enqueue keeps the documented capacity exactly as long as it is never made on a full
ring: it has no test, and overwrites the oldest element. -/
theorem capacity_respected_iff {ring : Ring} (source : ring.Source) (headFirst : Bool)
    {ops : List (Op ℤ)} (nonzero : ∀ elem ∈ puts ops, elem ≠ 0)
    (attended : Attended ring.size 0 ops) :
    ring.Respects headFirst ops ↔ ring.Roomy ops := by
  have int : ∀ (size : ℕ) (junk : ℤ → ℤ),
      (init size junk).tail + 1 + ((puts ops).length : ℤ) ≤ 2 ^ 31 ↔ (puts ops).length ≤ 2 ^ 31 := by
    intro size junk
    change (-1 : ℤ) + 1 + _ ≤ _ ↔ _
    omega
  have low : (-1 : ℤ) < 2 ^ 31 := by decide
  unfold Ring.Respects Ring.Roomy
  cases source with
  | squeue MAX_SIZE junk =>
      rw [← int MAX_SIZE junk]
      exact (holds_init MAX_SIZE junk).lawful_iff (Or.inl rfl)
        (fun _ _ holds => holds.isFull_iff.mpr) low nonzero attended
  | xtaskqueue MAX_SIZE junk =>
      rw [← int MAX_SIZE junk]
      exact (holds_init MAX_SIZE junk).lawful_iff (Or.inr rfl)
        (fun _ _ holds => holds.isFull_iff.mpr) low nonzero attended
  | squeuemultiple MAX_SIZE numQueues junk queue =>
      rw [← int (QUEUE_SIZE MAX_SIZE numQueues) junk]
      exact (holds_init _ junk).lawful_iff (Or.inl rfl) (fun _ _ _ _ => trivial) low nonzero
        attended

theorem capacity_respected_iff_lap :
    (squeue 2 (fun _ => 9)).Respects true [.put 5, .put 6, .get, .put 7, .get, .get] ↔
      (squeue 2 (fun _ => 9)).Roomy [.put 5, .put 6, .get, .put 7, .get, .get] :=
  capacity_respected_iff (.squeue 2 (fun _ => 9)) true (by decide) trivial

theorem attended_puts (capacity count n : ℕ) (elem : ℤ) :
    Attended capacity count (List.replicate n (Op.put elem)) := by
  induction n generalizing count with
  | zero => trivial
  | succ n ih => exact ih _

theorem admits_puts {capacity n : ℕ}
    (admits : Admits capacity (fun _ _ => True) items (List.replicate n (Op.put elem))) :
    n = 0 ∨ items.length + n ≤ capacity := by
  induction n generalizing items with
  | zero => exact Or.inl rfl
  | succ n ih =>
      obtain ⟨room, _, rest⟩ := admits
      rcases ih rest with last | more
      · omega
      · rw [List.length_append, List.length_singleton] at more
        omega

theorem mem_puts_replicate {other : ℤ} {n : ℕ}
    (member : other ∈ puts (List.replicate n (Op.put elem))) : other = elem := by
  induction n with
  | zero => cases member
  | succ n ih =>
      rcases List.mem_cons.mp member with same | later
      · exact same
      · exact ih later

theorem one_too_many (MAX_SIZE : ℕ) (headFirst : Bool) (junk : ℤ → ℤ) {n : ℕ}
    (more : MAX_SIZE < n) (nonzero : elem ≠ 0) :
    ¬ (squeue MAX_SIZE junk).Respects headFirst (List.replicate n (.put elem)) := by
  intro respects
  have roomy := ((holds_init MAX_SIZE junk).lawful_iff (Or.inl rfl)
    (fun _ _ holds => holds.isFull_iff.mpr) (show (-1 : ℤ) < 2 ^ 31 by decide)
    (fun other member => mem_puts_replicate member ▸ nonzero)
    (attended_puts MAX_SIZE 0 n elem)).mp respects
  rcases admits_puts roomy.1 with impossible | impossible
  · omega
  · rw [List.length_nil] at impossible
    omega

/-- One Enqueue more than the ring of QueueBenchmarks/squeue.h has slots. -/
theorem full_ring_accepts :
    ¬ (squeue 262144 (fun _ => 0)).Respects true (List.replicate 262145 (.put 1)) :=
  one_too_many 262144 true (fun _ => 0) (by decide) (by decide)

/-! ### An empty ring -/

/-- The states between the calls of one thread, with the numbers of elements enqueued and
dequeued so far. A Dequeue that returns at the emptiness test has drawn no ticket. -/
inductive Session (size : ℕ) (headFirst : Bool) (start : Queue) : ℕ → ℕ → Queue → Prop where
  | start : Session size headFirst start 0 0 start
  | enqueue {enqueued dequeued retries : ℕ} {q after : Queue} {elem : ℤ}
      (before : Session size headFirst start enqueued dequeued q) (nonzero : elem ≠ 0)
      (room : enqueued < dequeued + size)
      (call : Returns (step size headFirst) (Enqueue elem) q after TRUE retries) :
      Session size headFirst start (enqueued + 1) dequeued after
  | dequeue {enqueued dequeued retries : ℕ} {q after : Queue} {value : ℤ}
      (before : Session size headFirst start enqueued dequeued q)
      (call : Returns (step size headFirst) Dequeue q after value retries) :
      Session size headFirst start enqueued
        (if after.head = q.head then dequeued else dequeued + 1) after

def Exact (size : ℕ) (headFirst : Bool) (enqueued dequeued : ℕ) (q : Queue) : Prop :=
  (isEmpty size q = true ↔ enqueued = dequeued) ∧
    (enqueued = dequeued → Returns (step size headFirst) Dequeue q q (-1) 0)

theorem isEmpty_iff : isEmpty size q = true ↔ q.tail - size > 0 ∧ q.head = q.tail := by
  rw [isEmpty, Bool.and_eq_true, decide_eq_true_iff, decide_eq_true_iff]

theorem dequeue_empty (headFirst : Bool) (empty : isEmpty size q = true) :
    Returns (step size headFirst) Dequeue q q (-1) 0 := by
  obtain ⟨wrapped, equal⟩ := isEmpty_iff.mp empty
  have opens : step size headFirst .gate q = some (q, .goto .compare) := by
    simp only [step, if_pos wrapped]
  exact Returns.of_goto opens (compare_empty size headFirst equal)

/-- Before the tail has gone beyond one lap, a Dequeue on an empty ring never returns. -/
theorem dequeue_hangs (holds : Holds size q []) (positive : 0 < size)
    (firstLap : q.tail ≤ size) (low : q.head + 1 < 2 ^ 31) {value : ℤ} {retries : ℕ} :
    ¬ Returns (step size headFirst) Dequeue q after value retries := by
  intro returns
  have headGe := holds.head_ge
  have blank := holds.ring.next_blank positive
  rw [List.length_nil, Nat.cast_zero, add_zero] at blank
  have passes : step size headFirst .gate q = some (q, .goto .draw) := by
    simp only [step, if_neg (show ¬ q.tail - size > 0 from by omega)]
  have draws : step size headFirst .draw q =
      some ({ q with head := q.head + 1 }, .goto (.spin (q.head + 1))) := by
    simp only [step, addAndFetch_eq headGe low]
  obtain ⟨fuel, ran⟩ := (returns.goto_inv passes).goto_inv draws
  have zero : ({ q with head := q.head + 1 } : Queue).data ((q.head + 1).tmod size) = 0 := by
    rw [tmod_of_nonneg (by omega)]
    exact blank
  rw [exec_spin (q.head + 1) fuel zero] at ran
  cases ran

structure Rested (size enqueued dequeued : ℕ) (q : Queue) (items : List ℤ) : Prop where
  holds : Holds size q items
  tail_eq : q.tail + 1 = enqueued
  head_eq : q.head + 1 = dequeued

theorem Rested.dequeue {enqueued dequeued retries : ℕ} {value : ℤ} (positive : 0 < size)
    (rested : Rested size enqueued dequeued q items) (low : enqueued < 2 ^ 31)
    (call : Returns (step size headFirst) Dequeue q after value retries) :
    ∃ left, Rested size enqueued (if after.head = q.head then dequeued else dequeued + 1) after
      left := by
  have tail := rested.tail_eq
  have head := rested.head_eq
  have counters := rested.holds.counters
  cases items with
  | cons first items =>
      rw [List.length_cons] at counters
      push_cast at counters
      obtain ⟨next, returns, kept, headNext, tailNext⟩ := rested.holds.gate headFirst (by omega)
      obtain ⟨same, _⟩ := returns.unique call
      subst same
      rw [if_neg (by omega)]
      exact ⟨items,
        { holds := kept
          tail_eq := by omega
          head_eq := by push_cast; omega }⟩
  | nil =>
      rw [List.length_nil] at counters
      by_cases wrapped : q.tail - size > 0
      · have empty := isEmpty_iff.mpr ⟨wrapped, rested.holds.empty_iff.mpr rfl⟩
        obtain ⟨same, _⟩ := (dequeue_empty headFirst empty).unique call
        subst same
        rw [if_pos rfl]
        exact ⟨[], rested⟩
      · exact absurd call (dequeue_hangs rested.holds positive (by omega) (by omega))

theorem Session.rested (positive : 0 < size) (junk : ℤ → ℤ) {enqueued dequeued : ℕ}
    (session : Session size headFirst (init size junk) enqueued dequeued q)
    (low : enqueued < 2 ^ 31) : ∃ items, Rested size enqueued dequeued q items := by
  induction session with
  | start =>
      exact ⟨[],
        { holds := holds_init size junk
          tail_eq := rfl
          head_eq := rfl }⟩
  | enqueue before nonzero room call ih =>
      obtain ⟨items, rested⟩ := ih (by omega)
      have tail := rested.tail_eq
      have head := rested.head_eq
      have counters := rested.holds.counters
      obtain ⟨next, returns, kept, headNext, tailNext⟩ :=
        rested.holds.enqueue headFirst (by omega) nonzero (by omega)
      obtain ⟨same, _⟩ := returns.unique call
      subst same
      exact ⟨_,
        { holds := kept
          tail_eq := by push_cast; omega
          head_eq := by omega }⟩
  | dequeue before call ih =>
      obtain ⟨items, rested⟩ := ih low
      exact rested.dequeue positive low call

/-- The emptiness test is exact except on a ring that is empty during its first lap. -/
theorem Session.exact_iff (positive : 0 < size) (junk : ℤ → ℤ) {enqueued dequeued : ℕ}
    (session : Session size headFirst (init size junk) enqueued dequeued q)
    (low : enqueued < 2 ^ 31) :
    Exact size headFirst enqueued dequeued q ↔ enqueued ≠ dequeued ∨ size + 2 ≤ enqueued := by
  obtain ⟨items, rested⟩ := session.rested positive junk low
  have tail := rested.tail_eq
  have head := rested.head_eq
  constructor
  · intro exact_
    by_contra neither
    obtain ⟨same, early⟩ := not_or.mp neither
    obtain ⟨wrapped, _⟩ := isEmpty_iff.mp (exact_.1.mpr (not_not.mp same))
    omega
  · intro either
    have test : isEmpty size q = true ↔ enqueued = dequeued := by
      rw [isEmpty_iff]
      omega
    exact ⟨test, fun same => dequeue_empty headFirst (test.mpr same)⟩

/-- The test is exact in the same states for the ring of squeue.c and for each queue of
squeuemultiple.c. -/
theorem emptiness_exact_iff {MAX_SIZE : ℕ} (positive : 0 < MAX_SIZE) (headFirst : Bool)
    (junk : ℤ → ℤ) {enqueued dequeued : ℕ} (low : enqueued < 2 ^ 31) :
    (∀ q, Session MAX_SIZE headFirst (InitQueue MAX_SIZE junk) enqueued dequeued q →
      (Exact MAX_SIZE headFirst enqueued dequeued q ↔
        enqueued ≠ dequeued ∨ MAX_SIZE + 2 ≤ enqueued)) ∧
    ∀ numQueues queue q, 1 ≤ numQueues → numQueues ≤ MAX_SIZE →
      Session (QUEUE_SIZE MAX_SIZE numQueues) headFirst (InitQueues MAX_SIZE numQueues junk queue)
        enqueued dequeued q →
      (Exact (QUEUE_SIZE MAX_SIZE numQueues) headFirst enqueued dequeued q ↔
        enqueued ≠ dequeued ∨ QUEUE_SIZE MAX_SIZE numQueues + 2 ≤ enqueued) := by
  constructor
  · intro q session
    exact session.exact_iff positive junk low
  · intro numQueues queue q one few session
    exact session.exact_iff (Nat.div_pos few one) junk low

theorem session_laps (positive : 0 < size) (headFirst : Bool) (junk : ℤ → ℤ) {count : ℕ}
    (low : count < 2 ^ 31) : ∃ q, Session size headFirst (init size junk) count count q := by
  have stronger : ∃ q, Session size headFirst (init size junk) count count q ∧
      Rested size count count q [] := by
    induction count with
    | zero =>
        exact ⟨init size junk, .start,
          { holds := holds_init size junk
            tail_eq := rfl
            head_eq := rfl }⟩
    | succ count ih =>
        obtain ⟨q, session, rested⟩ := ih (by omega)
        have tail := rested.tail_eq
        have head := rested.head_eq
        obtain ⟨middle, put, full, headMiddle, tailMiddle⟩ :=
          rested.holds.enqueue headFirst positive (show (1 : ℤ) ≠ 0 by decide) (by omega)
        obtain ⟨after, got, empty, headAfter, tailAfter⟩ := full.gate headFirst (by omega)
        have stored : Session size headFirst (init size junk) (count + 1) count middle :=
          .enqueue session (by decide) (by omega) put
        have taken := Session.dequeue stored got
        rw [if_neg (by omega)] at taken
        exact ⟨after, taken,
          { holds := empty
            tail_eq := by push_cast; omega
            head_eq := by push_cast; omega }⟩
  obtain ⟨q, session, _⟩ := stronger
  exact ⟨q, session⟩

theorem emptiness_exact_iff_three :
    ∃ q, Session 1 true (InitQueue 1 (fun _ => 9)) 3 3 q ∧ Exact 1 true 3 3 q := by
  obtain ⟨q, session⟩ : ∃ q, Session 1 true (InitQueue 1 (fun _ => 9)) 3 3 q :=
    session_laps (by decide) true (fun _ => 9) (by decide)
  have exact_iff := (emptiness_exact_iff (by decide) true (fun _ => 9) (by decide)).1 q session
  exact ⟨q, session, exact_iff.mpr (Or.inr (by decide))⟩

/-- Right after InitQueue the ring of QueueBenchmarks/squeue.h is not reported empty, and a
Dequeue never returns. -/
theorem new_queue_not_empty :
    isEmpty 262144 (InitQueue 262144 (fun _ => 0)) = false ∧
      ∀ after value retries,
        ¬ Returns (step 262144 true) Dequeue (InitQueue 262144 (fun _ => 0)) after value retries :=
  ⟨rfl, fun _ _ _ => dequeue_hangs (holds_init 262144 (fun _ => 0)) (by decide) (by decide)
    (by decide)⟩

end QueueBench.TicketQueue
