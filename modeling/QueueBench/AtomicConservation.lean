import QueueBench.Lib.RingContents
import QueueBench.AtomicQueue

/-! What the atomic queue loses. The local `expected` of an enqueue is not reset after
a failed compare-exchange, so the next attempt may succeed against a slot that holds a
task. The queue loses nothing as long as every compare-exchange finds its slot empty. -/

namespace QueueBench.AtomicQueue
open Machine (Outcome Pool Program Client Act Thread)
open RingArith (addAndFetch addAndFetch_eq tmod_of_nonneg slot_range slot_reached)
open Transition (Run Meets Reaches meets_snoc run_of_play)

variable {ι : Type*}

def Sound : Pc → Prop
  | .enqDraw task _ => task.task_id ≠ 0
  | .enqCas task _ last => task.task_id ≠ 0 ∧ 0 ≤ last
  | .deqDraw => True
  | .deqXchg first => 0 ≤ first

structure Inv (q : Queue) (place : ι → Option Pc) : Prop where
  rear_ge : -1 ≤ q.rear
  front_ge : -1 ≤ q.front
  valid : ∀ slot, q.tasks slot = EmptyTask ∨ (q.tasks slot).task_id ≠ 0
  standing : ∀ thread pc, place thread = some pc → Sound pc

variable {size : ℕ} {q after : Queue} {hist : Hist} {place : ι → Option Pc}

theorem empty_of_id (valid : ∀ slot, q.tasks slot = EmptyTask ∨ (q.tasks slot).task_id ≠ 0)
    {slot : ℤ} : (q.tasks slot).task_id = 0 ↔ q.tasks slot = EmptyTask := by
  constructor
  · intro zero
    exact (valid slot).resolve_right (fun nonzero => nonzero zero)
  · intro empty
    rw [empty]
    rfl

theorem ne_empty {task : TaskDesc} (nonzero : task.task_id ≠ 0) : task ≠ EmptyTask := by
  intro empty
  apply nonzero
  rw [empty]
  rfl

private theorem valid_update
    (valid : ∀ slot, q.tasks slot = EmptyTask ∨ (q.tasks slot).task_id ≠ 0) (cell : ℤ)
    {task : TaskDesc} (written : task = EmptyTask ∨ task.task_id ≠ 0) :
    ∀ slot, Function.update q.tasks cell task slot = EmptyTask ∨
      (Function.update q.tasks cell task slot).task_id ≠ 0 := by
  intro slot
  by_cases same : slot = cell
  · rw [same, Function.update_self]
    exact written
  · rw [Function.update_of_ne same]
    exact valid slot

theorem step_sound {pc : Pc} {outcome : Outcome Pc (Option TaskDesc)}
    (rear_ge : -1 ≤ q.rear) (front_ge : -1 ≤ q.front)
    (valid : ∀ slot, q.tasks slot = EmptyTask ∨ (q.tasks slot).task_id ≠ 0)
    (sound : Sound pc) (counts : Counts q pc)
    (stepped : step size pc q = some (after, outcome)) :
    (-1 ≤ after.rear ∧ -1 ≤ after.front ∧
      ∀ slot, after.tasks slot = EmptyTask ∨ (after.tasks slot).task_id ≠ 0) ∧
    ∀ next, outcome.pc? = some next → Sound next := by
  cases pc with
  | enqDraw task expected =>
      have ticket : addAndFetch q.rear = q.rear + 1 := addAndFetch_eq rear_ge counts
      simp only [step, ticket] at stepped
      cases stepped
      refine ⟨⟨?_, front_ge, valid⟩, ?_⟩
      · change -1 ≤ q.rear + 1
        omega
      · intro next reached
        cases reached
        exact ⟨sound, by omega⟩
  | enqCas task expected last =>
      simp only [step] at stepped
      split at stepped
      · cases stepped
        refine ⟨⟨rear_ge, front_ge, valid_update valid _ (Or.inr sound.1)⟩, ?_⟩
        intro next impossible
        cases impossible
      · cases stepped
        refine ⟨⟨rear_ge, front_ge, valid⟩, ?_⟩
        intro next reached
        cases reached
        exact sound.1
  | deqDraw =>
      have ticket : addAndFetch q.front = q.front + 1 := addAndFetch_eq front_ge counts
      simp only [step, ticket] at stepped
      cases stepped
      refine ⟨⟨rear_ge, ?_, valid⟩, ?_⟩
      · change -1 ≤ q.front + 1
        omega
      · intro next reached
        cases reached
        change 0 ≤ q.front + 1
        omega
  | deqXchg first =>
      cases stepped
      refine ⟨⟨rear_ge, front_ge, valid_update valid _ (Or.inl rfl)⟩, ?_⟩
      intro next reached
      by_cases zero : (q.tasks (first.tmod size)).task_id = 0
      · rw [if_pos zero] at reached
        cases reached
        trivial
      · rw [if_neg zero] at reached
        cases reached

/-- The tasks stored are those in the slots and those taken out. -/
def Conserves (size : ℕ) (q : Queue) (hist : Hist) : Prop :=
  (hist.stored : Multiset TaskDesc) =
    contents size EmptyTask q.tasks + (hist.taken : Multiset TaskDesc)

/-- A compare-exchange does not meet, in its slot, the task its call's last failed
attempt has left in `expected`. -/
def Distinct (size : ℕ) (q : Queue) : Pc → Prop
  | .enqCas _ expected last => q.tasks (last.tmod size) = expected → expected = EmptyTask
  | _ => True

theorem conserves_step {pc : Pc} {outcome : Outcome Pc (Option TaskDesc)} (thread : ι)
    (positive : 0 < size) (sound : Sound pc)
    (valid : ∀ slot, q.tasks slot = EmptyTask ∨ (q.tasks slot).task_id ≠ 0)
    (conserves : Conserves size q hist) (stepped : step size pc q = some (after, outcome)) :
    Conserves size after (record size thread pc q hist) ↔ Distinct size q pc := by
  have range : ∀ ticket : ℤ, 0 ≤ ticket →
      0 ≤ ticket.tmod size ∧ ticket.tmod size < size := by
    intro ticket low
    rw [tmod_of_nonneg low]
    exact slot_range (by omega) ticket
  cases pc with
  | enqDraw task expected =>
      cases stepped
      exact iff_of_true conserves trivial
  | deqDraw =>
      cases stepped
      exact iff_of_true conserves trivial
  | enqCas task expected last =>
      obtain ⟨nonzero, low⟩ := sound
      obtain ⟨cellLow, cellHigh⟩ := range last low
      simp only [step] at stepped
      by_cases same : q.tasks (last.tmod size) = expected
      · rw [if_pos same] at stepped
        cases stepped
        have exchanged := contents_update EmptyTask q.tasks cellLow cellHigh task
        rw [occupant_of_ne (ne_empty nonzero), same] at exchanged
        have grown : ((hist.stored ++ [task] : List TaskDesc) : Multiset TaskDesc) =
            contents size EmptyTask q.tasks + {task} + (hist.taken : Multiset TaskDesc) := by
          rw [← Multiset.coe_add, conserves, Multiset.coe_singleton, add_right_comm]
        simp only [Conserves, record, if_pos same, Distinct]
        rw [grown, add_left_inj, ← exchanged]
        -- The balance is kept exactly if nothing was there to be overwritten.
        constructor
        · intro kept _
          exact occupant_eq_zero.mp (add_eq_left.mp kept)
        · intro distinct
          rw [distinct same, occupant_mark, add_zero]
      · rw [if_neg same] at stepped
        cases stepped
        simp only [record, if_neg same]
        exact iff_of_true conserves (fun equal => absurd equal same)
  | deqXchg first =>
      obtain ⟨cellLow, cellHigh⟩ := range first sound
      cases stepped
      have exchanged := contents_update EmptyTask q.tasks cellLow cellHigh EmptyTask
      rw [occupant_mark, add_zero] at exchanged
      refine iff_of_true ?_ trivial
      unfold Conserves at conserves ⊢
      rw [← exchanged] at conserves
      by_cases zero : (q.tasks (first.tmod size)).task_id = 0
      · simp only [record, if_pos zero]
        rw [(empty_of_id valid).mp zero, occupant_mark, add_zero] at conserves
        exact conserves
      · simp only [record, if_neg zero]
        rw [occupant_of_ne (ne_empty zero)] at conserves
        rw [← Multiset.coe_add, Multiset.coe_singleton, conserves, add_assoc,
          add_comm {q.tasks (first.tmod size)}]

/-! ### Whole runs -/

variable {κ : Type*} {client : Client Pc (Option TaskDesc) κ}
variable {state next : Pool ι Queue Pc κ Hist} {act : Act ι Pc}

def Enters (client : Client Pc (Option TaskDesc) κ) : Prop :=
  ∀ script pc left, client.call script pc = some left → pc.Entry

theorem Pc.Entry.sound {pc : Pc} (entry : pc.Entry) : Sound pc := by
  cases pc with
  | enqDraw task expected => exact entry.1
  | deqDraw => trivial
  | enqCas task expected last => exact entry.elim
  | deqXchg first => exact entry.elim

theorem taskClient_enters : Enters taskClient := by
  intro script pc left called
  cases pc with
  | enqDraw task expected =>
      by_contra bad
      have closed : ¬ (task.task_id ≠ 0 ∧ expected = EmptyTask) := bad
      simp only [taskClient, if_neg closed] at called
      cases called
  | deqDraw => trivial
  | _ => cases called

def Held (state : Pool ι Queue Pc κ Hist) : Prop := Inv state.mem state.at

theorem held_start (size : ℕ) (scripts : ι → κ) :
    Held (AtomicQueue.start size scripts) :=
  { rear_ge := Int.le_refl _
    front_ge := Int.le_refl _
    valid := fun _ => Or.inl rfl
    standing := by intro thread pc impossible; cases impossible }

variable [DecidableEq ι]

theorem held_next (enters : Enters client) (held : Held state) (counted : Counted state act)
    (moved : (program size client).next state act = some next) : Held next := by
  have standing : ∀ thread pc, (next.thread thread).pc? = some pc → Sound pc := by
    refine Program.each_next (fun _ busy => ∀ pc, busy.pc? = some pc → Sound pc) moved
      held.standing ?_ ?_ ?_
    · intro thread script entry left _ called pc reached
      cases reached
      exact (enters script entry left called).sound
    · intro thread script left _ _ pc impossible
      cases impossible
    · intro thread pc script mem outcome same busy stepped target reached
      subst same
      have at_ : state.at thread = some pc := Pool.at_busy busy
      rw [Program.resume_pc] at reached
      exact (step_sound held.rear_ge held.front_ge held.valid (held.standing thread pc at_)
        (counted pc at_) stepped).2 target reached
  rcases Program.next_cases moved with
    ⟨thread, entry, script, left, rfl, idle, called, rfl⟩ |
    ⟨thread, script, left, rfl, idle, left?, rfl⟩ |
    ⟨thread, pc, script, mem, outcome, rfl, busy, stepped, rfl⟩
  · exact { held with standing := standing }
  · exact { held with standing := standing }
  · have at_ : state.at thread = some pc := Pool.at_busy busy
    obtain ⟨rear, front, valid⟩ := (step_sound held.rear_ge held.front_ge held.valid
      (held.standing thread pc at_) (counted pc at_) stepped).1
    exact
      { rear_ge := rear
        front_ge := front
        valid := valid
        standing := standing }

def Conserved (size : ℕ) (state : Pool ι Queue Pc κ Hist) : Prop :=
  Conserves size state.mem state.hist

def Unrepeated (size : ℕ) (state : Pool ι Queue Pc κ Hist) : Act ι Pc → Prop :=
  state.Moving (Distinct size state.mem)

theorem conserved_next (positive : 0 < size) (held : Held state)
    (conserved : Conserved size state)
    (moved : (program size client).next state act = some next) :
    Conserved size next ↔ Unrepeated size state act := by
  rcases Program.next_cases moved with
    ⟨thread, entry, script, left, rfl, idle, called, rfl⟩ |
    ⟨thread, script, left, rfl, idle, left?, rfl⟩ |
    ⟨thread, pc, script, mem, outcome, rfl, busy, stepped, rfl⟩
  · exact iff_of_true conserved trivial
  · exact iff_of_true conserved trivial
  · have at_ : state.at thread = some pc := Pool.at_busy busy
    have kept := conserves_step thread positive (held.standing thread pc at_) held.valid
      conserved stepped
    constructor
    · intro balanced other otherAt
      rw [at_] at otherAt
      cases otherAt
      exact kept.mp balanced
    · intro unrepeated
      exact kept.mpr (unrepeated pc at_)

/-- The balance is kept throughout a run exactly if no compare-exchange of the run
succeeds against a task that the same call's last attempt found in its slot. -/
theorem conserved_iff_unrepeated {QUEUE_SIZE : ℕ} (positive : 0 < QUEUE_SIZE)
    {state : Pool ι Queue Pc Unit Hist} {trace : List (Pool ι Queue Pc Unit Hist × Act ι Pc)}
    (run : Run (program QUEUE_SIZE taskClient).next
      (AtomicQueue.start QUEUE_SIZE (fun _ => ())) trace state)
    (counted : Meets Counted trace) :
    ((∀ taken ∈ trace, Conserved QUEUE_SIZE taken.1) ∧ Conserved QUEUE_SIZE state) ↔
      Meets (Unrepeated QUEUE_SIZE) trace := by
  induction run with
  | nil =>
      refine iff_of_true ⟨?_, ?_⟩ (Transition.meets_nil _)
      · intro taken impossible
        cases impossible
      · change (([] : List TaskDesc) : Multiset TaskDesc) =
          contents QUEUE_SIZE EmptyTask (fun _ => EmptyTask) + _
        rw [contents_blank]
        rfl
  | @snoc earlier middle last label before moved ih =>
      rw [meets_snoc] at counted
      have held : Held middle := before.invariant counted.1 (held_start QUEUE_SIZE _)
        (fun _ _ _ now met stepped => held_next taskClient_enters now met stepped)
      rw [meets_snoc, ← ih counted.1]
      constructor
      · intro all
        have now : Conserved QUEUE_SIZE middle := all.1 (middle, label)
          (List.mem_append_right _ (List.mem_singleton_self _))
        exact ⟨⟨fun taken member => all.1 taken (List.mem_append_left _ member), now⟩,
          (conserved_next positive held now moved).mp all.2⟩
      · intro both
        refine ⟨?_, (conserved_next positive held both.1.2 moved).mpr both.2⟩
        intro taken member
        rcases List.mem_append.mp member with early | newest
        · exact both.1.1 taken early
        · rw [List.mem_singleton.mp newest]
          exact both.1.2

def MeetsEmpty (size : ℕ) (q : Queue) : Pc → Prop
  | .enqCas _ _ last => q.tasks (last.tmod size) = EmptyTask
  | _ => True

instance (size : ℕ) (q : Queue) : DecidablePred (MeetsEmpty size q) := fun pc =>
  match pc with
  | .enqCas _ _ last => inferInstanceAs (Decidable (q.tasks (last.tmod size) = EmptyTask))
  | .enqDraw _ _ | .deqDraw | .deqXchg _ => isTrue trivial

theorem MeetsEmpty.distinct {pc : Pc} (empty : MeetsEmpty size q pc) : Distinct size q pc := by
  cases pc with
  | enqCas task expected last =>
      intro same
      exact same.symm.trans empty
  | enqDraw task expected => trivial
  | deqDraw => trivial
  | deqXchg first => trivial

/-- The condition on a step: no ticket overflows, and a slot an enqueue addresses is
empty. -/
def Uncrowded (size : ℕ) (state : Pool ι Queue Pc κ Hist) : Act ι Pc → Prop :=
  state.Moving (fun pc => Counts state.mem pc ∧ MeetsEmpty size state.mem pc)

instance (size : ℕ) (state : Pool ι Queue Pc κ Hist) (act : Act ι Pc) :
    Decidable (Uncrowded size state act) :=
  inferInstanceAs (Decidable (state.Moving _ act))

omit [DecidableEq ι] in
theorem Uncrowded.parts (uncrowded : Uncrowded size state act) :
    Counted state act ∧ Unrepeated size state act := by
  cases act with
  | call thread entry => exact ⟨trivial, trivial⟩
  | quit thread => exact ⟨trivial, trivial⟩
  | move thread =>
      exact ⟨fun pc at_ => (uncrowded pc at_).1, fun pc at_ => (uncrowded pc at_).2.distinct⟩

/-- As long as every compare-exchange finds its slot empty, the tasks stored are at every
moment those in the slots and those taken out. -/
theorem tasks_conserved {QUEUE_SIZE : ℕ} (positive : 0 < QUEUE_SIZE)
    {state : Pool ι Queue Pc Unit Hist} {trace : List (Pool ι Queue Pc Unit Hist × Act ι Pc)}
    (run : Run (program QUEUE_SIZE taskClient).next
      (AtomicQueue.start QUEUE_SIZE (fun _ => ())) trace state)
    (uncrowded : Meets (Uncrowded QUEUE_SIZE) trace) :
    (∀ taken ∈ trace, Conserved QUEUE_SIZE taken.1) ∧ Conserved QUEUE_SIZE state := by
  have counted : Meets Counted trace := fun taken member => (uncrowded taken member).parts.1
  have unrepeated : Meets (Unrepeated QUEUE_SIZE) trace :=
    fun taken member => (uncrowded taken member).parts.2
  exact (conserved_iff_unrepeated positive run counted).mpr unrepeated

/-- Two slots: two enqueues store in the order opposite to their tickets, a third one
stores a lap later in the slot emptied before. -/
private def turnedRound : List (Act Bool Pc) :=
  [.call false (enqueue_atomic (benchTask 1)), .call true (enqueue_atomic (benchTask 2)),
    .move false, .move true, .move true, .move false,
    .call false dequeue_atomic, .move false, .move false,
    .call true (enqueue_atomic (benchTask 3)), .call false dequeue_atomic,
    .move true, .move false, .move true, .move false]

theorem tasks_conserved_turnedRound :
    ∃ (trace : _) (state : Pool Bool Queue Pc Unit Hist),
      Run (program 2 taskClient).next (AtomicQueue.start 2 (fun _ => ())) trace state ∧
      Meets (Uncrowded 2) trace ∧ state.mem.rear = 2 ∧
      state.hist.stored = [benchTask 2, benchTask 1, benchTask 3] ∧
      state.hist.taken = [benchTask 1, benchTask 2] ∧ Conserved 2 state := by
  have run : Run (program 2 taskClient).next (AtomicQueue.start 2 (fun _ => ())) _ _ :=
    run_of_play turnedRound rfl
  have conserved := tasks_conserved (by decide) run (by decide)
  exact ⟨_, _, run, by decide, rfl, rfl, rfl, conserved.2⟩

/-! ### A task overwritten

An attempt that fails leaves the task it has met in `expected`. While other threads draw
a lap of tickets the task stays where it is, and the next attempt finds it again. -/

theorem held_reaches (enters : Enters client) (held : Held state)
    (reached : Reaches (program size client).next Counted state next) : Held next := by
  obtain ⟨trace, run, counted⟩ := reached
  exact run.invariant counted held
    (fun _ _ _ now met moved => held_next enters now met moved)

omit [DecidableEq ι] in
private theorem counted_of {thread : ι} {pc : Pc} {script : κ}
    (busy : state.thread thread = .busy pc script) (counts : Counts state.mem pc) :
    Counted state (.move thread) := by
  intro other at_
  rw [Pool.at, busy] at at_
  cases at_
  exact counts

variable {task expected : TaskDesc} {last : ℤ} {script : κ} {thread : ι}

private theorem draw_step (client : Client Pc (Option TaskDesc) κ) (size : ℕ)
    (busy : state.thread thread = .busy (.enqDraw task expected) script)
    (low : -1 ≤ state.mem.rear) (high : state.mem.rear + 1 < 2 ^ 31) :
    ∃ next, (program size client).next state (.move thread) = some next ∧
      Counted state (.move thread) ∧
      Machine.Moved (program size client) state thread (.enqDraw task expected)
        { state.mem with rear := state.mem.rear + 1 }
        (.busy (.enqCas task expected (state.mem.rear + 1)) script) next := by
  have ticket : addAndFetch state.mem.rear = state.mem.rear + 1 := addAndFetch_eq low high
  have stepped : (program (ι := ι) size client).step (.enqDraw task expected) state.mem =
      some ({ state.mem with rear := state.mem.rear + 1 },
        .goto (.enqCas task expected (state.mem.rear + 1))) := by
    simp only [program, step, ticket]
  obtain ⟨next, moved, facts⟩ := Program.move_exists busy stepped
  exact ⟨next, moved, counted_of busy high, facts⟩

theorem store_breaks (positive : 0 < size) (held : Held state)
    (busy : state.thread thread = .busy (.enqCas task expected last) script)
    (same : state.mem.tasks (last.tmod size) = expected) (full : expected ≠ EmptyTask) :
    ∃ final, Reaches (program size client).next Counted state final ∧
      ¬ Conserved size final := by
  by_cases conserved : Conserved size state
  · have stepped : (program (ι := ι) size client).step (.enqCas task expected last) state.mem =
        some ({ state.mem with
          tasks := Function.update state.mem.tasks (last.tmod size) task }, .ret none) := by
      simp only [program, step, if_pos same]
    obtain ⟨final, moved, _⟩ := Program.move_exists busy stepped
    have counted : Counted state (.move thread) := counted_of busy trivial
    refine ⟨final, (Reaches.refl _ _ state).tail counted moved, ?_⟩
    rw [conserved_next positive held conserved moved]
    intro unrepeated
    exact full (unrepeated _ (Pool.at_busy busy) same)
  · exact ⟨state, Reaches.refl _ _ state, conserved⟩

theorem draw_breaks (enters : Enters client) (positive : 0 < size) (held : Held state)
    (busy : state.thread thread = .busy (.enqDraw task expected) script)
    (high : state.mem.rear + 1 < 2 ^ 31)
    (same : state.mem.tasks ((state.mem.rear + 1).tmod size) = expected)
    (full : expected ≠ EmptyTask) :
    ∃ final, Reaches (program size client).next Counted state final ∧
      ¬ Conserved size final := by
  obtain ⟨middle, moved, counted, facts⟩ := draw_step client size busy held.rear_ge high
  have drawn : Reaches (program size client).next Counted state middle :=
    (Reaches.refl _ _ state).tail counted moved
  have breaks : ∃ final, Reaches (program size client).next Counted middle final ∧
      ¬ Conserved size final :=
    store_breaks positive (held_reaches enters held drawn) facts.thread_eq
      (by rw [facts.mem_eq]; exact same) full
  obtain ⟨final, reached, broken⟩ := breaks
  exact ⟨final, drawn.trans reached, broken⟩

private theorem retry_step (client : Client Pc (Option TaskDesc) κ)
    (busy : state.thread thread = .busy (.enqCas task expected last) script)
    (different : state.mem.tasks (last.tmod size) ≠ expected) :
    ∃ next, (program size client).next state (.move thread) = some next ∧
      Counted state (.move thread) ∧
      Machine.Moved (program size client) state thread (.enqCas task expected last) state.mem
        (.busy (.enqDraw task (state.mem.tasks (last.tmod size))) script) next := by
  have stepped : (program (ι := ι) size client).step (.enqCas task expected last) state.mem =
      some (state.mem, .retry (.enqDraw task (state.mem.tasks (last.tmod size)))) := by
    simp only [program, step, if_neg different]
  obtain ⟨next, moved, facts⟩ := Program.move_exists busy stepped
  exact ⟨next, moved, counted_of busy trivial, facts⟩

def Free : Thread Pc Unit → Prop
  | .idle _ => True
  | .busy (.enqDraw _ _) _ => True
  | _ => False

/-- One thread expects the task in a cell, another one can draw tickets. -/
structure Stale (thread helper : ι) (cell : ℤ) (state : Pool ι Queue Pc Unit Hist) : Prop where
  expects : ∃ task, state.thread thread = .busy (.enqDraw task (state.mem.tasks cell)) ()
  full : state.mem.tasks cell ≠ EmptyTask
  free : Free (state.thread helper)

section Stale

variable {helper : ι} {cell : ℤ} {state next : Pool ι Queue Pc Unit Hist}

omit [DecidableEq ι] in
theorem Stale.keep (stale : Stale thread helper cell state)
    (place : next.thread thread = state.thread thread)
    (task : next.mem.tasks cell = state.mem.tasks cell) (free : Free (next.thread helper)) :
    Stale thread helper cell next := by
  obtain ⟨own, waits⟩ := stale.expects
  refine
    { expects := ⟨own, ?_⟩
      full := ?_
      free := free }
  · rw [place, task]
    exact waits
  · rw [task]
    exact stale.full

private theorem free_enters (size : ℕ) (free : Free (state.thread helper)) :
    ∃ next, Reaches (program size taskClient).next Counted state next ∧
      (∃ task expected, next.thread helper = .busy (.enqDraw task expected) ()) ∧
      next.mem = state.mem ∧ ∀ other, other ≠ helper → next.thread other = state.thread other := by
  cases standing : state.thread helper with
  | idle script =>
      have called : (program (ι := ι) size taskClient).call () (enqueue_atomic (benchTask 1)) =
          some () := rfl
      obtain ⟨next, moved, facts⟩ := Program.call_exists standing called
      have counted : Counted state (.call helper (enqueue_atomic (benchTask 1))) := trivial
      exact ⟨next, (Reaches.refl _ _ state).tail counted moved, ⟨_, _, facts.thread_eq⟩,
        facts.mem_eq, facts.others⟩
  | busy pc script =>
      rw [standing] at free
      cases pc with
      | enqDraw task expected =>
          exact ⟨state, Reaches.refl _ _ state, ⟨task, expected, standing⟩, rfl, fun _ _ => rfl⟩
      | enqCas task expected last => exact free.elim
      | deqDraw => exact free.elim
      | deqXchg first => exact free.elim

private theorem attempt_step (size : ℕ)
    (busy : state.thread helper = .busy (.enqCas task expected last) ()) :
    ∃ next, (program size taskClient).next state (.move helper) = some next ∧
      Counted state (.move helper) ∧ Free (next.thread helper) ∧
      next.mem.rear = state.mem.rear ∧
      (∀ cell, cell ≠ last.tmod size → next.mem.tasks cell = state.mem.tasks cell) ∧
      ∀ other, other ≠ helper → next.thread other = state.thread other := by
  by_cases same : state.mem.tasks (last.tmod size) = expected
  · have stepped : (program (ι := ι) size taskClient).step (.enqCas task expected last)
        state.mem = some ({ state.mem with
          tasks := Function.update state.mem.tasks (last.tmod size) task }, .ret none) := by
      simp only [program, step, if_pos same]
    obtain ⟨next, moved, facts⟩ := Program.move_exists busy stepped
    refine ⟨next, moved, counted_of busy trivial, ?_, ?_, ?_, facts.others⟩
    · rw [facts.thread_eq]
      trivial
    · rw [facts.mem_eq]
    · intro cell apart
      rw [facts.mem_eq]
      exact Function.update_of_ne apart _ _
  · obtain ⟨next, moved, counted, facts⟩ := retry_step taskClient busy same
    refine ⟨next, moved, counted, ?_, ?_, ?_, facts.others⟩
    · rw [facts.thread_eq]
      trivial
    · rw [facts.mem_eq]
    · intro cell apart
      rw [facts.mem_eq]

theorem Stale.pass (stale : Stale thread helper cell state) (apart : helper ≠ thread)
    (low : -1 ≤ state.mem.rear) (high : state.mem.rear + 1 < 2 ^ 31)
    (elsewhere : (state.mem.rear + 1).tmod size ≠ cell) :
    ∃ next, Reaches (program size taskClient).next Counted state next ∧
      Stale thread helper cell next ∧ next.mem.rear = state.mem.rear + 1 := by
  obtain ⟨first, entered, ⟨task, expected, busy⟩, mem, others⟩ := free_enters size stale.free
  rw [← mem] at low high elsewhere
  obtain ⟨second, drew, counted, drawn⟩ := draw_step taskClient size busy low high
  obtain ⟨third, tried, counts, free, rear, tasks, rest⟩ := attempt_step size drawn.thread_eq
  refine ⟨third, (entered.tail counted drew).tail counts tried, stale.keep ?_ ?_ free, ?_⟩
  · rw [rest thread apart.symm, drawn.others thread apart.symm, others thread apart.symm]
  · rw [tasks cell elsewhere.symm, drawn.mem_eq, mem]
  · rw [rear, drawn.mem_eq, mem]

/-- The induction is on the number of tickets drawn before the cell comes round. -/
theorem Stale.breaks (stale : Stale thread helper cell state) (apart : helper ≠ thread)
    (positive : 0 < size) (held : Held state) {distance : ℕ}
    (comes : (state.mem.rear + 1 + distance) % size = cell)
    (high : state.mem.rear + 1 + distance < 2 ^ 31) :
    ∃ final, Reaches (program size taskClient).next Counted state final ∧
      ¬ Conserved size final := by
  induction distance generalizing state with
  | zero =>
      obtain ⟨task, waits⟩ := stale.expects
      have low : -1 ≤ state.mem.rear := held.rear_ge
      rw [Nat.cast_zero, add_zero] at comes high
      rw [← tmod_of_nonneg (by omega)] at comes
      exact draw_breaks taskClient_enters positive held waits high (by rw [comes]) stale.full
  | succ distance ih =>
      have low : -1 ≤ state.mem.rear := held.rear_ge
      by_cases here : (state.mem.rear + 1).tmod size = cell
      · obtain ⟨task, waits⟩ := stale.expects
        exact draw_breaks taskClient_enters positive held waits (by omega) (by rw [here])
          stale.full
      · obtain ⟨next, reached, later, rear⟩ := stale.pass apart low (by omega) here
        have onward : next.mem.rear + 1 + (distance : ℤ) =
            state.mem.rear + 1 + ((distance + 1 : ℕ) : ℤ) := by
          rw [rear]
          push_cast
          omega
        rw [← onward] at comes high
        obtain ⟨final, after, broken⟩ :=
          ih later (held_reaches taskClient_enters held reached) comes high
        exact ⟨final, reached.trans after, broken⟩

end Stale

/-- Conversely, once a compare-exchange meets a task in its slot, the run can go on to
lose one: it takes another thread that is between calls, and a lap of tickets. -/
theorem conservation_breaks {QUEUE_SIZE : ℕ} (positive : 0 < QUEUE_SIZE)
    {state : Pool ι Queue Pc Unit Hist} {trace : List (Pool ι Queue Pc Unit Hist × Act ι Pc)}
    (run : Run (program QUEUE_SIZE taskClient).next
      (AtomicQueue.start QUEUE_SIZE (fun _ => ())) trace state)
    (counted : Meets Counted trace) {thread helper : ι} {pc : Pc}
    (at_ : state.at thread = some pc) (crowded : ¬ MeetsEmpty QUEUE_SIZE state.mem pc)
    (idle : state.at helper = none) (low : state.mem.rear + QUEUE_SIZE < 2 ^ 31) :
    ∃ final, Reaches (program QUEUE_SIZE taskClient).next Counted state final ∧
      ¬ Conserved QUEUE_SIZE final := by
  have held : Held state := held_reaches taskClient_enters (held_start QUEUE_SIZE _)
    ⟨trace, run, counted⟩
  have busy := Pool.at_eq_some at_
  cases pc with
  | enqDraw task expected => exact absurd trivial crowded
  | deqDraw => exact absurd trivial crowded
  | deqXchg first => exact absurd trivial crowded
  | enqCas task expected last =>
      change state.mem.tasks (last.tmod QUEUE_SIZE) ≠ EmptyTask at crowded
      by_cases same : state.mem.tasks (last.tmod QUEUE_SIZE) = expected
      · rw [same] at crowded
        exact store_breaks positive held busy same crowded
      · obtain ⟨next, moved, counts, facts⟩ := retry_step taskClient busy same
        have reached : Reaches (program QUEUE_SIZE taskClient).next Counted state next :=
          (Reaches.refl _ _ state).tail counts moved
        have apart : helper ≠ thread := by
          rintro rfl
          rw [idle] at at_
          cases at_
        have stale : Stale thread helper (last.tmod QUEUE_SIZE) next := by
          refine
            { expects := ⟨task, ?_⟩
              full := ?_
              free := ?_ }
          · rw [facts.thread_eq, facts.mem_eq]
          · rw [facts.mem_eq]
            exact crowded
          · rw [facts.others helper apart]
            unfold Pool.at at idle
            cases standing : state.thread helper with
            | idle script => trivial
            | busy place script =>
                rw [standing] at idle
                cases idle
        have ticket : 0 ≤ last := (held.standing thread _ at_).2
        have range := slot_range (show (0 : ℤ) < QUEUE_SIZE from by omega) last
        obtain ⟨distance, within, comes⟩ := slot_reached range.1 range.2 (next.mem.rear + 1)
        rw [← tmod_of_nonneg ticket] at comes
        have rear : next.mem.rear = state.mem.rear := by rw [facts.mem_eq]
        obtain ⟨final, after, broken⟩ := stale.breaks apart positive
          (held_reaches taskClient_enters held reached) comes (by omega)
        exact ⟨final, reached.trans after, broken⟩

/-! ### The ring that loses a task -/

structure Filled (size : ℕ) (task : TaskDesc) (count : ℕ)
    (state : Pool Unit Queue Pc Unit Hist) : Prop where
  idle : state.thread () = .idle ()
  rear_eq : state.mem.rear + 1 = count
  full : ∀ slot : ℤ, 0 ≤ slot → slot < count → state.mem.tasks slot = task
  blank : ∀ slot : ℤ, count ≤ slot → state.mem.tasks slot = EmptyTask

variable {count : ℕ}

private theorem call_enqueue (size : ℕ) (nonzero : task.task_id ≠ 0) :
    (program (ι := Unit) size taskClient).call () (enqueue_atomic task) = some () :=
  if_pos ⟨nonzero, rfl⟩

theorem Filled.draws {state : Pool Unit Queue Pc Unit Hist}
    (filled : Filled size task count state) (nonzero : task.task_id ≠ 0)
    (low : (count : ℤ) < 2 ^ 31) :
    ∃ next, Reaches (program size taskClient).next Counted state next ∧
      next.thread () = .busy (.enqCas task EmptyTask count) () ∧
      next.mem = { state.mem with rear := count } := by
  obtain ⟨first, entered, called⟩ :=
    Program.call_exists filled.idle (call_enqueue size nonzero)
  have free : Counted state (.call () (enqueue_atomic task)) := trivial
  have rear : first.mem.rear + 1 = count := by
    rw [called.mem_eq]
    exact filled.rear_eq
  obtain ⟨second, drew, counts, drawn⟩ :=
    draw_step taskClient size called.thread_eq (by omega) (by omega)
  refine ⟨second, ((Reaches.refl _ _ state).tail free entered).tail counts drew, ?_, ?_⟩
  · rw [← rear]
    exact drawn.thread_eq
  · rw [drawn.mem_eq, rear, called.mem_eq]

theorem Filled.fill {state : Pool Unit Queue Pc Unit Hist}
    (filled : Filled size task count state) (nonzero : task.task_id ≠ 0) (room : count < size)
    (low : (count : ℤ) < 2 ^ 31) :
    ∃ next, Reaches (program size taskClient).next Counted state next ∧
      Filled size task (count + 1) next := by
  obtain ⟨middle, reached, busy, mem⟩ := filled.draws nonzero low
  have slot : (count : ℤ).tmod size = count := by
    rw [tmod_of_nonneg (by omega)]
    exact Int.emod_eq_of_lt (by omega) (by omega)
  have empty : middle.mem.tasks count = EmptyTask := by
    rw [mem]
    exact filled.blank count (Int.le_refl _)
  have stored : (program (ι := Unit) size taskClient).step (.enqCas task EmptyTask count)
      middle.mem = some ({ middle.mem with
        tasks := Function.update middle.mem.tasks count task }, .ret none) := by
    simp only [program, step, slot, if_pos empty]
  obtain ⟨next, moved, facts⟩ := Program.move_exists busy stored
  have counted : Counted middle (.move ()) := counted_of busy trivial
  rw [mem] at facts
  refine ⟨next, reached.tail counted moved, ?_⟩
  refine
    { idle := facts.thread_eq
      rear_eq := ?_
      full := ?_
      blank := ?_ }
  · rw [facts.mem_eq]
    push_cast
    rfl
  · intro cell cellLow cellHigh
    rw [facts.mem_eq]
    change Function.update state.mem.tasks count task cell = task
    by_cases newest : cell = count
    · rw [newest, Function.update_self]
    · rw [Function.update_of_ne newest]
      exact filled.full cell cellLow (by push_cast at cellHigh; omega)
  · intro cell cellLow
    rw [facts.mem_eq]
    change Function.update state.mem.tasks count task cell = EmptyTask
    push_cast at cellLow
    rw [Function.update_of_ne (by omega)]
    exact filled.blank cell (by omega)

theorem fill_ring (nonzero : task.task_id ≠ 0) (room : count ≤ size)
    (low : (size : ℤ) < 2 ^ 31) :
    ∃ state, Reaches (program size taskClient).next Counted
      (AtomicQueue.start size (fun _ => ())) state ∧ Filled size task count state := by
  induction count with
  | zero =>
      refine ⟨_, Reaches.refl _ _ _, ?_⟩
      exact
        { idle := rfl
          rear_eq := rfl
          full := by intro slot slotLow slotHigh; push_cast at slotHigh; omega
          blank := fun _ _ => rfl }
  | succ count ih =>
      obtain ⟨state, reached, filled⟩ := ih (by omega)
      obtain ⟨next, onward, fuller⟩ := filled.fill nonzero (by omega) (by omega)
      exact ⟨next, reached.trans onward, fuller⟩

/-- The task found by the first attempt is what the second one expects, so a ring full
of equal tasks takes one more. -/
theorem Filled.overwrite {state : Pool Unit Queue Pc Unit Hist}
    (filled : Filled size task size state) (held : Held state) (nonzero : task.task_id ≠ 0)
    (positive : 0 < size) (low : (size : ℤ) + 1 < 2 ^ 31) :
    ∃ final, Reaches (program size taskClient).next Counted state final ∧
      ¬ Conserved size final := by
  have slotFull : ∀ ticket : ℤ, 0 ≤ ticket → state.mem.tasks (ticket.tmod size) = task := by
    intro ticket ticketLow
    have range := slot_range (show (0 : ℤ) < size from by omega) ticket
    rw [tmod_of_nonneg ticketLow]
    exact filled.full _ range.1 range.2
  obtain ⟨middle, drawn, busy, mem⟩ := filled.draws nonzero (by omega)
  have found : middle.mem.tasks ((size : ℤ).tmod size) = task := by
    rw [mem]
    exact slotFull size (by omega)
  have different : middle.mem.tasks ((size : ℤ).tmod size) ≠ EmptyTask := by
    rw [found]
    exact ne_empty nonzero
  obtain ⟨next, moved, counted, facts⟩ := retry_step taskClient busy different
  have reached : Reaches (program size taskClient).next Counted state next :=
    drawn.tail counted moved
  have rear : next.mem.rear = size := by
    rw [facts.mem_eq, mem]
  have repeated : next.mem.tasks ((next.mem.rear + 1).tmod size) =
      middle.mem.tasks ((size : ℤ).tmod size) := by
    rw [found, rear, facts.mem_eq, mem]
    exact slotFull (size + 1) (by omega)
  obtain ⟨final, after, broken⟩ := draw_breaks taskClient_enters positive
    (held_reaches taskClient_enters held reached) facts.thread_eq (by omega) repeated different
  exact ⟨final, reached.trans after, broken⟩

theorem full_ring_overwrites (positive : 0 < size) (nonzero : task.task_id ≠ 0)
    (low : (size : ℤ) + 1 < 2 ^ 31) :
    ∃ state, Reaches (program size taskClient).next Counted
      (AtomicQueue.start (ι := Unit) size (fun _ => ())) state ∧ ¬ Conserved size state := by
  obtain ⟨state, reached, filled⟩ := fill_ring nonzero (Nat.le_refl size) (by omega)
  obtain ⟨final, after, broken⟩ := filled.overwrite
    (held_reaches taskClient_enters (held_start size _) reached) nonzero positive low
  exact ⟨final, reached.trans after, broken⟩

/-- The ring of the benchmarks: 33554432 equal tasks fill it, and one more is too many. -/
theorem benchmark_ring_overwrites :
    ∃ state, Reaches (program (32 * 1024 * 1024) taskClient).next Counted
      (AtomicQueue.start (ι := Unit) (32 * 1024 * 1024) (fun _ => ())) state ∧
      ¬ Conserved (32 * 1024 * 1024) state := by
  have positive : 0 < 32 * 1024 * 1024 := by decide
  have low : ((32 * 1024 * 1024 : ℕ) : ℤ) + 1 < 2 ^ 31 := by decide
  have nonzero : (benchTask 1).task_id ≠ 0 := by decide
  exact full_ring_overwrites positive nonzero low

end QueueBench.AtomicQueue
