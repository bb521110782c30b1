import QueueBench.Lib.Tickets
import QueueBench.AtomicQueue
import QueueBench.TicketQueue

/-! The slot indices of the ticket rings and of the atomic queue in runs of any length. The
counters are never reset: after 2^31 tickets they are negative, and so are the remainders of
most of them. -/

namespace QueueBench.TicketQueue
open Machine (Outcome Client)
open RingArith (addAndFetch)
open Tickets (Counter)

def tailCounter : Counter Pc Queue :=
  { value := Queue.tail
    draws := fun pc =>
      match pc with
      | .add _ => true
      | _ => false
    held := Pc.putTicket }

def headCounter : Counter Pc Queue :=
  { value := Queue.head
    draws := fun pc =>
      match pc with
      | .draw => true
      | _ => false
    held := Pc.getTicket }

/-- Callers of the enqueue and of every dequeue of a ticket ring, in any order. -/
def ringClient : Client Pc ℤ Unit :=
  { call := fun _ pc =>
      match pc with
      | .add _ => some ()
      | .gate | .compare | .draw => some ()
      | _ => none
    quit := fun _ => none
    done := fun _ _ => () }

variable {size : ℕ} {headFirst : Bool}

structure Draws (pc : Pc) (q after : Queue) (outcome : Outcome Pc ℤ) : Prop where
  tail_eq : after.tail = if tailCounter.draws pc then addAndFetch q.tail else q.tail
  head_eq : after.head = if headCounter.draws pc then addAndFetch q.head else q.head
  put_eq : ∀ next drawn, outcome.pc? = some next → next.putTicket = some drawn →
    pc.putTicket = some drawn ∨ tailCounter.draws pc = true ∧ drawn = addAndFetch q.tail
  get_eq : ∀ next drawn, outcome.pc? = some next → next.getTicket = some drawn →
    pc.getTicket = some drawn ∨ headCounter.draws pc = true ∧ drawn = addAndFetch q.head

theorem Draws.of_kept {pc : Pc} {q after : Queue} {outcome : Outcome Pc ℤ}
    (tail : after.tail = q.tail) (head : after.head = q.head)
    (noTail : tailCounter.draws pc = false) (noHead : headCounter.draws pc = false)
    (kept : ∀ next drawn, outcome.pc? = some next →
      (next.putTicket = some drawn → pc.putTicket = some drawn) ∧
        (next.getTicket = some drawn → pc.getTicket = some drawn)) :
    Draws pc q after outcome := by
  constructor
  · rw [noTail, tail]
    rfl
  · rw [noHead, head]
    rfl
  · intro next drawn reached holds
    exact Or.inl ((kept next drawn reached).1 holds)
  · intro next drawn reached holds
    exact Or.inl ((kept next drawn reached).2 holds)

theorem draws_of_step {pc : Pc} {q after : Queue} {outcome : Outcome Pc ℤ}
    (stepped : step size headFirst pc q = some (after, outcome)) : Draws pc q after outcome := by
  cases pc with
  | add elem =>
      cases stepped
      constructor
      · rfl
      · rfl
      · intro next drawn reached holds
        cases reached
        cases holds
        exact Or.inr ⟨rfl, rfl⟩
      · intro next drawn reached holds
        cases reached
        cases holds
  | draw =>
      cases stepped
      constructor
      · rfl
      · rfl
      · intro next drawn reached holds
        cases reached
        cases holds
      · intro next drawn reached holds
        cases reached
        cases holds
        exact Or.inr ⟨rfl, rfl⟩
  | spin ticket =>
      simp only [step] at stepped
      split at stepped <;> cases stepped
      · refine Draws.of_kept rfl rfl rfl rfl ?_
        intro next drawn reached
        cases reached
        exact ⟨id, id⟩
      · refine Draws.of_kept rfl rfl rfl rfl ?_
        intro next drawn reached
        cases reached
        exact ⟨id, id⟩
  | read ticket =>
      cases stepped
      refine Draws.of_kept rfl rfl rfl rfl ?_
      intro next drawn reached
      cases reached
      exact ⟨id, id⟩
  | store elem ticket =>
      cases stepped
      exact Draws.of_kept rfl rfl rfl rfl (by intro next drawn impossible; cases impossible)
  | clear ticket elem =>
      cases stepped
      exact Draws.of_kept rfl rfl rfl rfl (by intro next drawn impossible; cases impossible)
  | compare =>
      cases stepped
      refine Draws.of_kept rfl rfl rfl rfl ?_
      intro next drawn reached
      cases reached
      exact ⟨id, id⟩
  | gate =>
      cases stepped
      refine Draws.of_kept rfl rfl rfl rfl ?_
      intro next drawn reached
      split at reached <;> cases reached <;> exact ⟨id, id⟩
  | compareWith first =>
      cases stepped
      refine Draws.of_kept rfl rfl rfl rfl ?_
      intro next drawn reached
      split at reached <;> split at reached <;> cases reached <;> exact ⟨id, id⟩

theorem tailCounter_sound (size : ℕ) (headFirst : Bool) :
    tailCounter.Sound (step size headFirst) :=
  { moves := fun _ _ _ _ stepped => (draws_of_step stepped).tail_eq
    holds := fun _ _ _ _ next drawn stepped => (draws_of_step stepped).put_eq next drawn }

theorem headCounter_sound (size : ℕ) (headFirst : Bool) :
    headCounter.Sound (step size headFirst) :=
  { moves := fun _ _ _ _ stepped => (draws_of_step stepped).head_eq
    holds := fun _ _ _ _ next drawn stepped => (draws_of_step stepped).get_eq next drawn }

theorem ringClient_enters {script left : Unit} {entry : Pc}
    (called : ringClient.call script entry = some left) :
    entry.putTicket = none ∧ entry.getTicket = none := by
  cases entry with
  | add elem => exact ⟨rfl, rfl⟩
  | gate => exact ⟨rfl, rfl⟩
  | compare => exact ⟨rfl, rfl⟩
  | draw => exact ⟨rfl, rfl⟩
  | _ => cases called

end QueueBench.TicketQueue

namespace QueueBench.AtomicQueue
open Machine (Outcome Pool Act Client)
open RingArith (addAndFetch)
open Tickets (Counter)
open Transition (Run)

def rearCounter : Counter Pc Queue :=
  { value := Queue.rear
    draws := fun pc =>
      match pc with
      | .enqDraw _ _ => true
      | _ => false
    held := fun pc =>
      match pc with
      | .enqCas _ _ last => some last
      | _ => none }

def frontCounter : Counter Pc Queue :=
  { value := Queue.front
    draws := fun pc =>
      match pc with
      | .deqDraw => true
      | _ => false
    held := fun pc =>
      match pc with
      | .deqXchg first => some first
      | _ => none }

def ringClient : Client Pc (Option TaskDesc) Unit :=
  { call := fun _ pc =>
      match pc with
      | .enqDraw _ expected => if expected = EmptyTask then some () else none
      | .deqDraw => some ()
      | _ => none
    quit := fun _ => none
    done := fun _ _ => () }

variable {size n : ℕ}

theorem rearCounter_sound (size : ℕ) : rearCounter.Sound (step size) := by
  constructor
  · intro pc q after outcome stepped
    cases pc with
    | enqCas task expected last =>
        simp only [step] at stepped
        split at stepped <;> cases stepped <;> rfl
    | _ => cases stepped; rfl
  · intro pc q after outcome next drawn stepped reached holds
    cases pc with
    | enqDraw task expected =>
        cases stepped
        cases reached
        cases holds
        exact Or.inr ⟨rfl, rfl⟩
    | enqCas task expected last =>
        simp only [step] at stepped
        split at stepped <;> cases stepped <;> cases reached
        cases holds
    | deqDraw => cases stepped; cases reached; cases holds
    | deqXchg first =>
        simp only [step] at stepped
        split at stepped <;> cases stepped <;> cases reached
        cases holds

theorem frontCounter_sound (size : ℕ) : frontCounter.Sound (step size) := by
  constructor
  · intro pc q after outcome stepped
    cases pc with
    | enqCas task expected last =>
        simp only [step] at stepped
        split at stepped <;> cases stepped <;> rfl
    | _ => cases stepped; rfl
  · intro pc q after outcome next drawn stepped reached holds
    cases pc with
    | deqDraw =>
        cases stepped
        cases reached
        cases holds
        exact Or.inr ⟨rfl, rfl⟩
    | enqDraw task expected => cases stepped; cases reached; cases holds
    | enqCas task expected last =>
        simp only [step] at stepped
        split at stepped <;> cases stepped <;> cases reached
        cases holds
    | deqXchg first =>
        simp only [step] at stepped
        split at stepped <;> cases stepped <;> cases reached
        cases holds

theorem ringClient_enters {script left : Unit} {entry : Pc}
    (called : ringClient.call script entry = some left) :
    rearCounter.held entry = none ∧ frontCounter.held entry = none := by
  cases entry with
  | enqDraw task expected => exact ⟨rfl, rfl⟩
  | deqDraw => exact ⟨rfl, rfl⟩
  | _ => cases called

/-- A single thread has polled the empty ring `n` times without finding a task. -/
structure Polled (n : ℕ) (state : Pool Unit Queue Pc Unit Hist) : Prop where
  polling : state.thread () = .busy .deqDraw ()
  empty : ∀ slot, state.mem.tasks slot = EmptyTask

theorem polls (size n : ℕ) :
    ∃ trace state, Run (program size ringClient).next (start size (fun _ : Unit => ())) trace state ∧
      (frontCounter.tickets trace).length = n ∧ Polled n state := by
  induction n with
  | zero =>
      have called : (program size ringClient).next (start size (fun _ : Unit => ()))
          (.call () dequeue_atomic) = some _ := rfl
      refine ⟨_, _, .single called, rfl, ?_⟩
      exact
        { polling := rfl
          empty := fun _ => rfl }
  | succ n ih =>
      obtain ⟨trace, state, run, count, polled⟩ := ih
      have drawing : state.at () = some .deqDraw := by
        rw [Pool.at, polled.polling]
        rfl
      obtain ⟨drawn, drew, afterDraw⟩ :=
        (program (ι := Unit) size ringClient).move_exists polled.polling
          (show step size .deqDraw state.mem = _ from rfl)
      obtain ⟨next, swapped, afterSwap⟩ :=
        (program (ι := Unit) size ringClient).move_exists afterDraw.thread_eq
          (show step size (.deqXchg (addAndFetch state.mem.front)) drawn.mem = _ from rfl)
      have zero : ∀ slot, (drawn.mem.tasks slot).task_id = 0 := by
        intro slot
        rw [afterDraw.mem_eq]
        change (state.mem.tasks slot).task_id = 0
        rw [polled.empty]
        rfl
      refine ⟨_, next, .snoc (.snoc run drew) swapped, ?_, ?_⟩
      · rw [frontCounter.tickets_append, frontCounter.tickets_append, List.length_append,
          List.length_append, count]
        have first : frontCounter.drawn (state, Act.move ()) = some (addAndFetch state.mem.front) := by
          simp only [Counter.drawn, drawing, Option.bind_some]
          rfl
        have second : frontCounter.drawn (drawn, Act.move ()) = none := by
          have at_ : drawn.at () = some (.deqXchg (addAndFetch state.mem.front)) := by
            rw [Pool.at, afterDraw.thread_eq]
            rfl
          simp only [Counter.drawn, at_, Option.bind_some]
          rfl
        simp only [Counter.tickets, List.filterMap_cons, List.filterMap_nil, first, second,
          List.length_cons, List.length_nil]
      · constructor
        · rw [afterSwap.thread_eq, if_pos (zero _)]
          rfl
        · intro slot
          rw [afterSwap.mem_eq]
          by_cases same : slot = (addAndFetch state.mem.front).tmod size
          · rw [same]
            exact Function.update_self _ _ _
          · change Function.update drawn.mem.tasks _ EmptyTask slot = EmptyTask
            rw [Function.update_of_ne same, afterDraw.mem_eq]
            exact polled.empty slot

end QueueBench.AtomicQueue

namespace QueueBench.RingIndices
open Machine (Pool Act)
open Tickets (Lasts)
open Transition (Run run_of_play)

variable {ι : Type*} [DecidableEq ι]

/-- Every step of a run of a ticket ring stays inside the ring, and on each side consecutive
tickets have consecutive slots. -/
def RingInside (size : ℕ)
    (trace : List (Pool ι TicketQueue.Queue TicketQueue.Pc Unit (TicketQueue.Hist ι) ×
      Act ι TicketQueue.Pc)) : Prop :=
  TicketQueue.tailCounter.Inside size trace ∧ TicketQueue.headCounter.Inside size trace

def RingLasts (size : ℕ)
    (trace : List (Pool ι TicketQueue.Queue TicketQueue.Pc Unit (TicketQueue.Hist ι) ×
      Act ι TicketQueue.Pc)) : Prop :=
  Lasts size (TicketQueue.tailCounter.tickets trace).length ∧
    Lasts size (TicketQueue.headCounter.tickets trace).length

def AtomicInside (size : ℕ)
    (trace : List (Pool ι AtomicQueue.Queue AtomicQueue.Pc Unit AtomicQueue.Hist ×
      Act ι AtomicQueue.Pc)) : Prop :=
  AtomicQueue.rearCounter.Inside size trace ∧ AtomicQueue.frontCounter.Inside size trace

def AtomicLasts (size : ℕ)
    (trace : List (Pool ι AtomicQueue.Queue AtomicQueue.Pc Unit AtomicQueue.Hist ×
      Act ι AtomicQueue.Pc)) : Prop :=
  Lasts size (AtomicQueue.rearCounter.tickets trace).length ∧
    Lasts size (AtomicQueue.frontCounter.tickets trace).length

def RingRuns (size : ℕ) (headFirst : Bool) (start : TicketQueue.Queue)
    (trace : List (Pool ι TicketQueue.Queue TicketQueue.Pc Unit (TicketQueue.Hist ι) ×
      Act ι TicketQueue.Pc)) : Prop :=
  ∃ state, Run (TicketQueue.program size headFirst TicketQueue.ringClient).next
    (TicketQueue.start start (fun _ => ())) trace state

def AtomicRuns (QUEUE_SIZE : ℕ)
    (trace : List (Pool ι AtomicQueue.Queue AtomicQueue.Pc Unit AtomicQueue.Hist ×
      Act ι AtomicQueue.Pc)) : Prop :=
  ∃ state, Run (AtomicQueue.program QUEUE_SIZE AtomicQueue.ringClient).next
    (AtomicQueue.start QUEUE_SIZE (fun _ => ())) trace state

variable {size : ℕ} {headFirst : Bool}

theorem ring_inside_iff {junk : ℤ → ℤ}
    {trace : List (Pool ι TicketQueue.Queue TicketQueue.Pc Unit (TicketQueue.Hist ι) ×
      Act ι TicketQueue.Pc)}
    (runs : RingRuns size headFirst (TicketQueue.init size junk) trace) :
    RingInside size trace ↔ RingLasts size trace := by
  obtain ⟨state, run⟩ := runs
  have tail : TicketQueue.tailCounter.Inside size trace ↔ _ :=
    (TicketQueue.tailCounter_sound size headFirst).inside_iff rfl (fun _ => rfl)
      (fun _ _ _ called => (TicketQueue.ringClient_enters called).1) run
  have head : TicketQueue.headCounter.Inside size trace ↔ _ :=
    (TicketQueue.headCounter_sound size headFirst).inside_iff rfl (fun _ => rfl)
      (fun _ _ _ called => (TicketQueue.ringClient_enters called).2) run
  exact and_congr tail head

theorem atomic_inside_iff
    {trace : List (Pool ι AtomicQueue.Queue AtomicQueue.Pc Unit AtomicQueue.Hist ×
      Act ι AtomicQueue.Pc)}
    (runs : AtomicRuns size trace) : AtomicInside size trace ↔ AtomicLasts size trace := by
  obtain ⟨state, run⟩ := runs
  have rear : AtomicQueue.rearCounter.Inside size trace ↔ _ :=
    (AtomicQueue.rearCounter_sound size).inside_iff rfl (fun _ => rfl)
      (fun _ _ _ called => (AtomicQueue.ringClient_enters called).1) run
  have front : AtomicQueue.frontCounter.Inside size trace ↔ _ :=
    (AtomicQueue.frontCounter_sound size).inside_iff rfl (fun _ => rfl)
      (fun _ _ _ called => (AtomicQueue.ringClient_enters called).2) run
  exact and_congr rear front

/-- A run of any length stays inside the ring exactly if it draws at most 2^31 tickets on each
side, or one more where the ring divides 2^31, or the ring has one slot. -/
theorem indices_inside_iff (headFirst : Bool) :
    (∀ MAX_SIZE junk (trace : List (Pool ι TicketQueue.Queue TicketQueue.Pc Unit
          (TicketQueue.Hist ι) × Act ι TicketQueue.Pc)),
      RingRuns MAX_SIZE headFirst (TicketQueue.InitQueue MAX_SIZE junk) trace →
      (RingInside MAX_SIZE trace ↔ RingLasts MAX_SIZE trace)) ∧
    (∀ MAX_SIZE numQueues junk queue (trace : List (Pool ι TicketQueue.Queue TicketQueue.Pc Unit
          (TicketQueue.Hist ι) × Act ι TicketQueue.Pc)),
      RingRuns (TicketQueue.QUEUE_SIZE MAX_SIZE numQueues) headFirst
        (TicketQueue.InitQueues MAX_SIZE numQueues junk queue) trace →
      (RingInside (TicketQueue.QUEUE_SIZE MAX_SIZE numQueues) trace ↔
        RingLasts (TicketQueue.QUEUE_SIZE MAX_SIZE numQueues) trace)) ∧
    ∀ QUEUE_SIZE (trace : List (Pool ι AtomicQueue.Queue AtomicQueue.Pc Unit AtomicQueue.Hist ×
          Act ι AtomicQueue.Pc)),
      AtomicRuns QUEUE_SIZE trace → (AtomicInside QUEUE_SIZE trace ↔ AtomicLasts QUEUE_SIZE trace) := by
  refine ⟨?_, ?_, ?_⟩
  · intro MAX_SIZE junk trace runs
    exact ring_inside_iff runs
  · intro MAX_SIZE numQueues junk queue trace runs
    exact ring_inside_iff runs
  · intro QUEUE_SIZE trace runs
    exact atomic_inside_iff runs

private def fourPolls : List (Act Unit AtomicQueue.Pc) :=
  [.call () AtomicQueue.dequeue_atomic, .move (), .move (), .move (), .move (), .move (), .move (),
    .move (), .move ()]

theorem indices_inside_iff_fourPolls :
    ∃ trace : List (Pool Unit AtomicQueue.Queue AtomicQueue.Pc Unit AtomicQueue.Hist ×
        Act Unit AtomicQueue.Pc),
      AtomicRuns 3 trace ∧ AtomicQueue.frontCounter.tickets trace = [0, 1, 2, 3] ∧
        AtomicInside 3 trace := by
  have run : Run (AtomicQueue.program 3 AtomicQueue.ringClient).next
      (AtomicQueue.start 3 (fun _ : Unit => ())) _ _ := run_of_play fourPolls rfl
  refine ⟨_, ⟨_, run⟩, by decide, ((indices_inside_iff true).2.2 3 _ ⟨_, run⟩).mpr ?_⟩
  exact ⟨Or.inl (by decide), Or.inr ⟨by decide, Or.inr (Or.inl (by decide))⟩⟩

/-- The ring of queue_atomic.c, polled 2^31 + 2 times while it is empty. -/
theorem polling_leaves_ring :
    ∃ trace : List (Pool Unit AtomicQueue.Queue AtomicQueue.Pc Unit AtomicQueue.Hist ×
        Act Unit AtomicQueue.Pc),
      AtomicRuns (32 * 1024 * 1024) trace ∧ ¬ AtomicInside (32 * 1024 * 1024) trace := by
  obtain ⟨trace, state, run, count, _⟩ := AtomicQueue.polls (32 * 1024 * 1024) (2 ^ 31 + 2)
  refine ⟨trace, ⟨state, run⟩, ?_⟩
  intro inside
  obtain ⟨_, front⟩ := (atomic_inside_iff ⟨state, run⟩).mp inside
  rw [count] at front
  rcases front with impossible | ⟨_, impossible | impossible | ⟨impossible, _⟩⟩
  · omega
  · omega
  · omega
  · omega

end QueueBench.RingIndices
