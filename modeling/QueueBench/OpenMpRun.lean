import Mathlib.Data.Multiset.Range
import QueueBench.RingPhases

/-! The OpenMP run, queue type 6. The iterations of the fill loop are spread over the team;
after them one thread dequeues until the queue is empty and makes a task for every item,
which enqueues one into the results. Tasks run at any time before the taskwait. Every task is
an agent of its own, so that the runs here include those of any number of threads. -/

namespace QueueBench.OpenMp
open Machine (Outcome Pool Program Act Thread scriptProgram script_call scriptClient_call)
open RingArith (addAndFetch addAndFetch_eq tmod_of_nonneg)
open TicketQueue (Queue Pc Hist Inv Fresh PhasePool phaseProgram launch Joined Spinning offered Room
  Filling Filled InitXTaskQueue EnqueueToQ DequeueFromQ)
open Transition (Run Reaches Meets meets_snoc run_of_play meets_true)

open scoped BigOperators

/-! ### The parallel fill loop -/

variable {T : ℕ}

/-- `EnqueueToQ((i + 1), &incoming)` for the iterations a thread is given, in any order. -/
def fillLoop (iterations : Fin T → List ℕ) (thread : Fin T) : List Pc :=
  (iterations thread).map (fun i : ℕ => EnqueueToQ ((i : ℤ) + 1))

def Distributed (NUM_SAMPLES : ℕ) (iterations : Fin T → List ℕ) : Prop :=
  ∑ thread, (iterations thread : Multiset ℕ) = Multiset.range NUM_SAMPLES

instance (NUM_SAMPLES : ℕ) (iterations : Fin T → List ℕ) :
    Decidable (Distributed NUM_SAMPLES iterations) := inferInstanceAs (Decidable (_ = _))

/-! ### The single thread and its tasks -/

inductive Agent where
  | single
  | task (number : ℕ)
deriving DecidableEq, Repr

inductive LoopPc where
  | isQueueEmpty
  | isQueueEmptyWith (first : ℤ)
  | incoming (pc : Pc)
  | spawn
  | taskwait
  | results (pc : Pc)
deriving DecidableEq, Repr

structure Memory where
  incoming : Queue
  results : Queue
  spawned : ℕ

/-- `int count = 0;`, which nothing changes. -/
def count : ℤ := 0

def within (wrap : Pc → LoopPc) (leave : Outcome LoopPc Unit) : Outcome Pc ℤ → Outcome LoopPc Unit
  | .goto pc => .goto (wrap pc)
  | .retry pc => .retry (wrap pc)
  | .ret _ => leave

def step (MAX_SIZE : ℕ) (headFirst : Bool) (pc : LoopPc) (mem : Memory) :
    Option (Memory × Outcome LoopPc Unit) :=
  match pc with
  | .isQueueEmpty =>
      some (mem, .goto (.isQueueEmptyWith
        (if headFirst then mem.incoming.head else mem.incoming.tail)))
  | .isQueueEmptyWith first =>
      let second := if headFirst then mem.incoming.tail else mem.incoming.head
      some (mem, if first = second then .goto .taskwait else .goto (.incoming DequeueFromQ))
  | .incoming pc =>
      (TicketQueue.step MAX_SIZE headFirst pc mem.incoming).map (fun result =>
        ({ mem with incoming := result.1 }, within .incoming (.goto .spawn) result.2))
  | .spawn => some ({ mem with spawned := mem.spawned + 1 }, .goto .isQueueEmpty)
  | .taskwait => some (mem, .ret ())
  | .results pc =>
      (TicketQueue.step MAX_SIZE headFirst pc mem.results).map (fun result =>
        ({ mem with results := result.1 }, within .results (.ret ()) result.2))

/-- `obtained` are the values DequeueFromQ returned, `added` the tasks with a tail ticket. -/
structure LoopHist where
  obtained : List ℤ
  added : List ℕ
  results : Hist Agent

def record (headFirst : Bool) (agent : Agent) (pc : LoopPc) (mem : Memory) (hist : LoopHist) :
    LoopHist :=
  match pc with
  | .incoming (.clear _ elem) => { hist with obtained := hist.obtained ++ [elem] }
  | .results pc =>
      { hist with
        results := TicketQueue.record headFirst agent pc mem.results hist.results
        added :=
          match agent, pc with
          | .task number, .add _ => hist.added ++ [number]
          | _, _ => hist.added }
  | _ => hist

/-- The single thread runs the loop, a task `EnqueueToQ((count + 1), &results)`. -/
def work : Agent → List LoopPc
  | .single => [.isQueueEmpty]
  | .task _ => [.results (EnqueueToQ (count + 1))]

abbrev LoopPool : Type := Pool Agent Memory LoopPc (List LoopPc) LoopHist

def program (MAX_SIZE : ℕ) (headFirst : Bool) :
    Program Agent Memory LoopPc Unit (List LoopPc) LoopHist :=
  scriptProgram (step MAX_SIZE headFirst) (record headFirst)

def start (MAX_SIZE : ℕ) (incoming : Queue) (junk : ℤ → ℤ) : LoopPool :=
  { mem :=
      { incoming := incoming
        results := InitXTaskQueue MAX_SIZE junk
        spawned := 0 }
    thread := fun agent => .idle (work agent)
    hist :=
      { obtained := []
        added := []
        results := .start } }

def Done (state : LoopPool) (number : ℕ) : Prop := state.thread (.task number) = .idle []

instance (state : LoopPool) (number : ℕ) : Decidable (Done state number) :=
  inferInstanceAs (Decidable (_ = _))

/-- What OpenMP promises: a task runs once it has been made, and the taskwait is passed when
all of them are done. -/
def Omp (state : LoopPool) : Act Agent LoopPc → Prop
  | .call (.task number) _ => number < state.mem.spawned
  | .move .single => state.at .single = some .taskwait → ∀ number < state.mem.spawned,
      Done state number
  | _ => True

instance (state : LoopPool) (act : Act Agent LoopPc) : Decidable (Omp state act) :=
  match act with
  | .call (.task number) _ => inferInstanceAs (Decidable (number < state.mem.spawned))
  | .move .single => inferInstanceAs (Decidable (state.at .single = some .taskwait →
      ∀ number < state.mem.spawned, Done state number))
  | .call .single _ | .move (.task _) | .quit _ => isTrue trivial

def Left (state : LoopPool) : Prop :=
  state.at .single = some .taskwait ∨ state.thread .single = .idle []

def Ended (state : LoopPool) : Prop := state.thread .single = .idle []

def items (NUM_SAMPLES : ℕ) : List ℤ := (List.range NUM_SAMPLES).map (fun i : ℕ => (i : ℤ) + 1)

structure Moves (NUM_SAMPLES : ℕ) (headFirst : Bool) (trace : List (LoopPool × Act Agent LoopPc))
    (state : LoopPool) : Prop where
  no_wait : ∀ taken ∈ trace, ¬ (program NUM_SAMPLES headFirst).Waits taken.1 taken.2
  bounded : trace.length ≤ 10 * NUM_SAMPLES + 4
  goes_on : Ended state ∨ ∃ act next, Omp state act ∧
    (program NUM_SAMPLES headFirst).next state act = some next
  iterations : state.mem.spawned ≤ NUM_SAMPLES ∧ state.hist.obtained.length ≤ NUM_SAMPLES
  left : Left state → state.mem.spawned = NUM_SAMPLES ∧
    state.hist.obtained.Perm (items NUM_SAMPLES)
  results : Ended state → state.mem.results.tail = NUM_SAMPLES - 1 ∧
    state.mem.results.head = -1 ∧
    ∀ slot : ℤ, 0 ≤ slot → slot < NUM_SAMPLES → state.mem.results.data slot ≠ 0

/-! ### The single thread -/

abbrev Standing : Type := Thread LoopPc (List LoopPc)

/-- The incoming ring after the fill loop: the elements given are taken in the order of their
slots, and nothing is added to them. -/
structure Ring (given : List ℤ) (q : Queue) (obtained : List ℤ) : Prop where
  tail_eq : q.tail + 1 = given.length
  few : obtained.length ≤ given.length
  taken : obtained = given.take obtained.length
  slots : ∀ k : ℕ, obtained.length ≤ k → k < given.length → given[k]? = some (q.data (k : ℤ))
  nonzero : ∀ elem ∈ given, elem ≠ 0

/-- How the head, the tasks and the items obtained agree, point by point. -/
def Stage (headFirst : Bool) (given : List ℤ) (q : Queue) (spawned obtained : ℕ) :
    Standing → Prop
  | .idle [.isQueueEmpty] | .busy .isQueueEmpty [] => q.head + 1 = obtained ∧ spawned = obtained
  | .busy (.isQueueEmptyWith first) [] => q.head + 1 = obtained ∧ spawned = obtained ∧
      first = if headFirst then q.head else q.tail
  | .busy (.incoming .draw) [] => q.head + 1 = obtained ∧ spawned = obtained ∧
      obtained < given.length
  | .busy (.incoming (.spin ticket)) [] | .busy (.incoming (.read ticket)) [] =>
      q.head = obtained ∧ ticket = obtained ∧ spawned = obtained ∧ obtained < given.length
  | .busy (.incoming (.clear ticket elem)) [] =>
      q.head = obtained ∧ ticket = obtained ∧ spawned = obtained ∧ obtained < given.length ∧
        given[obtained]? = some elem
  | .busy .spawn [] => q.head + 1 = obtained ∧ spawned + 1 = obtained
  | .busy .taskwait [] | .idle [] =>
      q.head + 1 = obtained ∧ spawned = obtained ∧ obtained = given.length
  | _ => False

def singleRank (total obtained : ℕ) : Standing → ℕ
  | .idle [] => 0
  | .idle _ => 7 * (total - obtained) + 4
  | .busy .isQueueEmpty _ => 7 * (total - obtained) + 3
  | .busy (.isQueueEmptyWith _) _ => 7 * (total - obtained) + 2
  | .busy (.incoming .draw) _ => 7 * (total - obtained) + 1
  | .busy (.incoming (.spin _)) _ => 7 * (total - obtained)
  | .busy (.incoming (.read _)) _ => 7 * (total - obtained) - 1
  | .busy (.incoming _) _ => 7 * (total - obtained) - 2
  | .busy .spawn _ => 7 * (total - obtained) + 4
  | .busy _ _ => 1

section Single

variable {headFirst : Bool} {given obtained : List ℤ} {q : Queue}

theorem Ring.slot (ring : Ring given q obtained) (more : obtained.length < given.length) :
    given[obtained.length]? = some (q.data ((obtained.length : ℤ).tmod given.length)) ∧
      q.data ((obtained.length : ℤ).tmod given.length) ≠ 0 := by
  have inside : (obtained.length : ℤ).tmod given.length = (obtained.length : ℤ) := by
    rw [tmod_of_nonneg (Int.natCast_nonneg _)]
    exact Int.emod_eq_of_lt (Int.natCast_nonneg _) (Int.ofNat_lt.mpr more)
  have found := ring.slots obtained.length (Nat.le_refl _) more
  rw [inside]
  exact ⟨found, ring.nonzero _ (List.mem_of_getElem? found)⟩

theorem Ring.draw (ring : Ring given q obtained) (head : ℤ) :
    Ring given { q with head := head } obtained :=
  { tail_eq := ring.tail_eq
    few := ring.few
    taken := ring.taken
    slots := ring.slots
    nonzero := ring.nonzero }

theorem Ring.clear (ring : Ring given q obtained) {elem : ℤ}
    (next : given[obtained.length]? = some elem) :
    Ring given
      { q with data := Function.update q.data ((obtained.length : ℤ).tmod given.length) 0 }
      (obtained ++ [elem]) := by
  obtain ⟨more, same⟩ := List.getElem?_eq_some_iff.mp next
  have inside : (obtained.length : ℤ).tmod given.length = (obtained.length : ℤ) := by
    rw [tmod_of_nonneg (Int.natCast_nonneg _)]
    exact Int.emod_eq_of_lt (Int.natCast_nonneg _) (Int.ofNat_lt.mpr more)
  have length : (obtained ++ [elem]).length = obtained.length + 1 := by
    rw [List.length_append, List.length_singleton]
  constructor
  · exact ring.tail_eq
  · omega
  · rw [length, List.take_add_one, next, ← ring.taken]
    rfl
  · intro k low high
    have different : (k : ℤ) ≠ obtained.length := by omega
    change given[k]? = some (Function.update q.data _ 0 (k : ℤ))
    rw [inside, Function.update_of_ne different]
    exact ring.slots k (by omega) high
  · exact ring.nonzero

structure Loop (headFirst : Bool) (given : List ℤ) (mem : Memory) (hist : LoopHist)
    (standing : Standing) : Prop where
  ring : Ring given mem.incoming hist.obtained
  stage : Stage headFirst given mem.incoming mem.spawned hist.obtained.length standing

variable {mem after : Memory} {hist : LoopHist} {pc : LoopPc} {script : List LoopPc}
variable {outcome : Outcome LoopPc Unit}

theorem Loop.frame (loop : Loop headFirst given mem hist (.busy pc script)) (size : ℕ)
    (stepped : step size headFirst pc mem = some (after, outcome)) :
    after.results = mem.results ∧ mem.spawned ≤ after.spawned ∧
      (record headFirst .single pc mem hist).results = hist.results ∧
      (record headFirst .single pc mem hist).added = hist.added := by
  have stage := loop.stage
  cases pc with
  | isQueueEmpty => cases stepped; exact ⟨rfl, Nat.le_refl _, rfl, rfl⟩
  | isQueueEmptyWith first => cases stepped; exact ⟨rfl, Nat.le_refl _, rfl, rfl⟩
  | incoming pc =>
      obtain ⟨result, _, same⟩ := Option.map_eq_some_iff.mp stepped
      cases same
      cases pc <;> exact ⟨rfl, Nat.le_refl _, rfl, rfl⟩
  | spawn => cases stepped; exact ⟨rfl, Nat.le_succ _, rfl, rfl⟩
  | taskwait => cases stepped; exact ⟨rfl, Nat.le_refl _, rfl, rfl⟩
  | results pc => exact stage.elim

theorem Loop.script_nil (loop : Loop headFirst given mem hist (.busy pc script)) : script = [] := by
  have stage := loop.stage
  cases script with
  | nil => rfl
  | cons entry rest =>
      cases pc with
      | incoming pc => cases pc <;> exact stage.elim
      | _ => exact stage.elim

theorem Loop.ends (loop : Loop headFirst given mem hist (.busy pc script)) (size : ℕ)
    (stepped : step size headFirst pc mem = some (after, outcome))
    (last : (program size headFirst).resume script outcome = .idle []) :
    pc = .taskwait ∧ after.spawned = mem.spawned := by
  have stage := loop.stage
  cases pc with
  | isQueueEmpty => cases stepped; cases last
  | isQueueEmptyWith first =>
      cases stepped
      by_cases empty : first = (if headFirst then mem.incoming.tail else mem.incoming.head)
      · rw [if_pos empty] at last
        cases last
      · rw [if_neg empty] at last
        cases last
  | incoming pc =>
      obtain ⟨⟨q, inner⟩, _, same⟩ := Option.map_eq_some_iff.mp stepped
      cases same
      cases inner <;> cases last
  | spawn => cases stepped; cases last
  | taskwait => cases stepped; exact ⟨rfl, rfl⟩
  | results pc => exact stage.elim

theorem goto_ne_retry (next : LoopPc) :
    ∀ again, (Outcome.goto next : Outcome LoopPc Unit) ≠ .retry again := by
  intro again impossible
  cases impossible

/-- One step of the loop: no wait, and one step less to go. -/
theorem Loop.step (loop : Loop headFirst given mem hist (.busy pc script))
    (int : given.length < 2 ^ 31)
    (stepped : OpenMp.step given.length headFirst pc mem = some (after, outcome)) :
    (∀ again, outcome ≠ .retry again) ∧
      Loop headFirst given after (record headFirst .single pc mem hist)
        ((program given.length headFirst).resume script outcome) ∧
      singleRank given.length (record headFirst .single pc mem hist).obtained.length
          ((program given.length headFirst).resume script outcome) <
        singleRank given.length hist.obtained.length (.busy pc script) := by
  have alone := loop.script_nil
  subst alone
  obtain ⟨ring, stage⟩ := loop
  have tail := ring.tail_eq
  cases pc with
  | isQueueEmpty =>
      cases stepped
      obtain ⟨head, spawned⟩ := stage
      refine ⟨goto_ne_retry _, ⟨ring, head, spawned, rfl⟩, ?_⟩
      exact Nat.lt_succ_self _
  | isQueueEmptyWith first =>
      cases stepped
      obtain ⟨head, spawned, seen⟩ := stage
      by_cases empty : first = (if headFirst then mem.incoming.tail else mem.incoming.head)
      · rw [if_pos empty]
        have drained : mem.incoming.head = mem.incoming.tail := by
          rw [seen] at empty
          cases headFirst
          · exact empty.symm
          · exact empty
        have all : hist.obtained.length = given.length := by omega
        refine ⟨goto_ne_retry _, ⟨ring, head, spawned, all⟩, ?_⟩
        change 1 < 7 * (given.length - hist.obtained.length) + 2
        omega
      · rw [if_neg empty]
        have some_ : mem.incoming.head ≠ mem.incoming.tail := by
          intro same
          apply empty
          rw [seen, same]
        have few := ring.few
        have more : hist.obtained.length < given.length := by omega
        refine ⟨goto_ne_retry _, ⟨ring, head, spawned, more⟩, ?_⟩
        exact Nat.lt_succ_self _
  | incoming pc =>
      cases pc with
      | draw =>
          obtain ⟨head, spawned, more⟩ := stage
          have next := addAndFetch_eq (show -1 ≤ mem.incoming.head by omega)
            (show mem.incoming.head + 1 < 2 ^ 31 by omega)
          cases stepped
          rw [next]
          refine ⟨goto_ne_retry _, ⟨ring.draw _, head, head, spawned, more⟩, ?_⟩
          exact Nat.lt_succ_self _
      | spin ticket =>
          obtain ⟨head, rfl, spawned, more⟩ := stage
          have nonzero := (ring.slot more).2
          simp only [OpenMp.step, TicketQueue.step, if_neg nonzero, Option.map_some] at stepped
          cases stepped
          refine ⟨goto_ne_retry _, ⟨ring, head, rfl, spawned, more⟩, ?_⟩
          change 7 * (given.length - hist.obtained.length) - 1 <
            7 * (given.length - hist.obtained.length)
          omega
      | read ticket =>
          obtain ⟨head, rfl, spawned, more⟩ := stage
          cases stepped
          refine ⟨goto_ne_retry _,
            ⟨ring, head, rfl, spawned, more, (ring.slot more).1⟩, ?_⟩
          change 7 * (given.length - hist.obtained.length) - 2 <
            7 * (given.length - hist.obtained.length) - 1
          omega
      | clear ticket elem =>
          obtain ⟨head, rfl, spawned, more, next⟩ := stage
          cases stepped
          have length : (hist.obtained ++ [elem]).length = hist.obtained.length + 1 := by
            rw [List.length_append, List.length_singleton]
          refine ⟨goto_ne_retry _, ⟨ring.clear next, ?_⟩, ?_⟩
          · change mem.incoming.head + 1 = ((hist.obtained ++ [elem]).length : ℤ) ∧
              mem.spawned + 1 = (hist.obtained ++ [elem]).length
            omega
          · change 7 * (given.length - (hist.obtained ++ [elem]).length) + 4 <
              7 * (given.length - hist.obtained.length) - 2
            omega
      | _ => exact stage.elim
  | spawn =>
      cases stepped
      obtain ⟨head, spawned⟩ := stage
      refine ⟨goto_ne_retry _, ⟨ring, head, spawned⟩, ?_⟩
      exact Nat.lt_succ_self _
  | taskwait =>
      cases stepped
      refine ⟨?_, ⟨ring, stage⟩, Nat.one_pos⟩
      intro again impossible
      cases impossible
  | results pc => exact stage.elim

end Single

theorem Loop.spawned_le {headFirst : Bool} {given : List ℤ} {mem : Memory} {hist : LoopHist}
    {standing : Standing} (loop : Loop headFirst given mem hist standing) :
    mem.spawned ≤ given.length := by
  have few := loop.ring.few
  have upto : mem.spawned ≤ hist.obtained.length := by
    have stage := loop.stage
    unfold Stage at stage
    split at stage <;> first | omega | exact stage.elim
  omega

/-! ### The tasks -/

def onResults : LoopPc → Option Pc
  | .results pc => some pc
  | _ => none

def place (thread : Agent → Standing) (agent : Agent) : Option Pc :=
  (thread agent).pc?.bind onResults

def TaskStage (added : List ℕ) (spawned number : ℕ) : Standing → Prop
  | .idle [.results (.add elem)] => number ∉ added ∧ elem ≠ 0
  | .busy (.results (.add _)) [] => number ∉ added ∧ number < spawned
  | .busy (.results (.store _ _)) [] | .idle [] => number ∈ added
  | _ => False

/-- The tasks and the ring of the results, where nobody dequeues. -/
structure Tasks (size : ℕ) (mem : Memory) (hist : LoopHist) (thread : Agent → Standing) :
    Prop where
  stage : ∀ number, TaskStage hist.added mem.spawned number (thread (.task number))
  inv : Inv size mem.results hist.results (place thread)
  nodup : hist.added.Nodup
  made : ∀ number ∈ hist.added, number < mem.spawned
  length : (hist.added.length : ℤ) = mem.results.tail + 1
  head : mem.results.head = -1

structure LoopInv (headFirst : Bool) (given : List ℤ) (state : LoopPool) : Prop where
  loop : Loop headFirst given state.mem state.hist (state.thread .single)
  tasks : Tasks given.length state.mem state.hist state.thread
  ended : Ended state → ∀ number < state.mem.spawned, Done state number

section Tasks

variable {size : ℕ} {mem after : Memory} {hist : LoopHist} {thread : Agent → Standing}
variable {headFirst : Bool}

theorem place_update (thread : Agent → Standing) (agent : Agent) (standing : Standing) :
    place (Function.update thread agent standing) =
      Function.update (place thread) agent (standing.pc?.bind onResults) := by
  funext other
  by_cases same : other = agent
  · subst other
    rw [place, Function.update_self, Function.update_self]
  · rw [place, Function.update_of_ne same, Function.update_of_ne same, place]

theorem single_other (thread : Agent → Standing) (standing : Standing) (number : ℕ) :
    Function.update thread .single standing (.task number) = thread (.task number) :=
  Function.update_of_ne (by intro impossible; cases impossible) ..

theorem task_other (thread : Agent → Standing) (standing : Standing) (number : ℕ) :
    Function.update thread (.task number) standing .single = thread .single :=
  Function.update_of_ne (by intro impossible; cases impossible) ..

theorem task_apart (thread : Agent → Standing) (standing : Standing) {number other : ℕ}
    (different : other ≠ number) :
    Function.update thread (.task number) standing (.task other) = thread (.task other) := by
  apply Function.update_of_ne
  intro same
  cases same
  exact different rfl

theorem Tasks.fewer (tasks : Tasks size mem hist thread) {number : ℕ}
    (absent : number ∉ hist.added) (small : number < mem.spawned) :
    hist.added.length < mem.spawned := by
  have inside : number :: hist.added ⊆ List.range mem.spawned := by
    intro other member
    rcases List.mem_cons.mp member with rfl | later
    · exact List.mem_range.mpr small
    · exact List.mem_range.mpr (tasks.made other later)
  have apart := List.nodup_cons.mpr ⟨absent, tasks.nodup⟩
  have lengths := (List.subperm_of_subset apart inside).length_le
  rw [List.length_cons, List.length_range] at lengths
  omega

theorem TaskStage.mono {added : List ℕ} {spawned more number : ℕ} {standing : Standing}
    (stage : TaskStage added spawned number standing) (grows : spawned ≤ more) :
    TaskStage added more number standing := by
  unfold TaskStage at stage ⊢
  split at stage
  · exact stage
  · exact ⟨stage.1, Nat.lt_of_lt_of_le stage.2 grows⟩
  · exact stage
  · exact stage
  · exact stage.elim

theorem TaskStage.added {added : List ℕ} {spawned number other : ℕ} {standing : Standing}
    (stage : TaskStage added spawned other standing) (different : other ≠ number) :
    TaskStage (added ++ [number]) spawned other standing := by
  have still : other ∉ added → other ∉ added ++ [number] := by
    intro absent member
    rcases List.mem_append.mp member with before | new
    · exact absent before
    · exact different (List.mem_singleton.mp new)
  unfold TaskStage at stage ⊢
  split at stage
  · exact ⟨still stage.1, stage.2⟩
  · exact ⟨still stage.1, stage.2⟩
  · exact List.mem_append_left _ stage
  · exact List.mem_append_left _ stage
  · exact stage.elim

theorem Tasks.single (tasks : Tasks size mem hist thread) {grown : LoopHist} {standing : Standing}
    (results : after.results = mem.results) (spawned : mem.spawned ≤ after.spawned)
    (same : grown.results = hist.results) (added : grown.added = hist.added)
    (before : (thread .single).pc?.bind onResults = none)
    (behind : standing.pc?.bind onResults = none) :
    Tasks size after grown (Function.update thread .single standing) := by
  constructor
  · intro number
    rw [single_other, added]
    exact (tasks.stage number).mono spawned
  · have still : Function.update (place thread) .single (standing.pc?.bind onResults) =
        place thread := by
      rw [behind, ← before]
      exact Function.update_eq_self Agent.single (place thread)
    rw [place_update, still, same, results]
    exact tasks.inv
  · rw [added]
    exact tasks.nodup
  · rw [added]
    exact fun number member => Nat.lt_of_lt_of_le (tasks.made number member) spawned
  · rw [added, results]
    exact tasks.length
  · rw [results]
    exact tasks.head

theorem Tasks.call (tasks : Tasks size mem hist thread) {number : ℕ} {entry : LoopPc}
    {left : List LoopPc} (idle : thread (.task number) = .idle (entry :: left))
    (small : number < mem.spawned) :
    Tasks size mem hist (Function.update thread (.task number) (.busy entry left)) := by
  have stage := tasks.stage number
  rw [idle] at stage
  obtain ⟨elem, rfl, rfl, absent, nonzero⟩ : ∃ elem, entry = .results (.add elem) ∧ left = [] ∧
      number ∉ hist.added ∧ elem ≠ 0 := by
    unfold TaskStage at stage
    split at stage
    · rename_i elem same
      cases same
      exact ⟨elem, rfl, rfl, stage⟩
    all_goals first | exact stage.elim | (rename_i same; cases same)
  have before : place thread (.task number) = none := by
    rw [place, idle]
    rfl
  constructor
  · intro other
    by_cases same : other = number
    · rw [same, Function.update_self]
      exact ⟨absent, small⟩
    · rw [task_apart _ _ same]
      exact tasks.stage other
  · rw [place_update]
    exact tasks.inv.enter before nonzero
  · exact tasks.nodup
  · exact tasks.made
  · exact tasks.length
  · exact tasks.head

def taskRank : Standing → ℕ
  | .idle [] => 0
  | .idle _ => 3
  | .busy (.results (.add _)) _ => 2
  | .busy _ _ => 1

/-- A step of a task: the ring has room for its element, and it has one step less to go. -/
theorem Tasks.move (tasks : Tasks size mem hist thread) {number : ℕ} {pc : LoopPc}
    {script : List LoopPc} {outcome : Outcome LoopPc Unit} (few : mem.spawned ≤ size)
    (int : size < 2 ^ 31) (busy : thread (.task number) = .busy pc script)
    (stepped : step size headFirst pc mem = some (after, outcome)) :
    number < mem.spawned ∧ (∀ again, outcome ≠ .retry again) ∧
      after.incoming = mem.incoming ∧ after.spawned = mem.spawned ∧
      (record headFirst (.task number) pc mem hist).obtained = hist.obtained ∧
      Tasks size after (record headFirst (.task number) pc mem hist)
        (Function.update thread (.task number) ((program size headFirst).resume script outcome)) ∧
      taskRank ((program size headFirst).resume script outcome) < taskRank (.busy pc script) := by
  have stage := tasks.stage number
  rw [busy] at stage
  cases script with
  | cons entry rest =>
      unfold TaskStage at stage
      split at stage <;> first | exact stage.elim | (rename_i same; cases same)
  | nil =>
      cases pc with
      | results pc =>
          have at_ : place thread (.task number) = some pc := by
            rw [place, busy]
            rfl
          cases pc with
          | add elem =>
              obtain ⟨absent, small⟩ := stage
              have fewer := tasks.fewer absent small
              have length := tasks.length
              have fresh : Fresh size mem.results.tail hist.results := by
                constructor
                · omega
                · intro lap
                  omega
              have next := addAndFetch_eq tasks.inv.put_side.last_ge fresh.1
              have kept := tasks.inv.add at_ fresh
              cases stepped
              refine ⟨small, goto_ne_retry _, rfl, rfl, rfl, ?_, Nat.lt_succ_self 1⟩
              have grown : (hist.added ++ [number]).length = hist.added.length + 1 := by
                rw [List.length_append, List.length_singleton]
              constructor
              · intro other
                by_cases same : other = number
                · rw [same, Function.update_self]
                  exact List.mem_append_right _ (List.mem_singleton_self number)
                · rw [task_apart _ _ same]
                  exact (tasks.stage other).added same
              · rw [place_update]
                exact kept
              · exact tasks.nodup.append (List.nodup_singleton number)
                  (List.disjoint_singleton.mpr absent)
              · intro other member
                rcases List.mem_append.mp member with before | new
                · exact tasks.made other before
                · rw [List.mem_singleton.mp new]
                  exact small
              · change ((hist.added ++ [number]).length : ℤ) = addAndFetch mem.results.tail + 1
                rw [grown, next]
                push_cast
                omega
              · exact tasks.head
          | store elem ticket =>
              have kept := tasks.inv.store at_
              cases stepped
              refine ⟨tasks.made number stage, ?_, rfl, rfl, rfl, ?_, Nat.one_pos⟩
              · intro again impossible
                cases impossible
              constructor
              · intro other
                by_cases same : other = number
                · rw [same, Function.update_self]
                  exact stage
                · rw [task_apart _ _ same]
                  exact tasks.stage other
              · rw [place_update]
                exact kept
              · exact tasks.nodup
              · exact tasks.made
              · exact tasks.length
              · exact tasks.head
          | _ => exact stage.elim
      | _ => exact stage.elim

end Tasks

/-! ### Runs of the loop -/

variable {headFirst : Bool} {given : List ℤ} {state next : LoopPool} {act : Act Agent LoopPc}
variable {trace : List (LoopPool × Act Agent LoopPc)}

def measure (total : ℕ) (state : LoopPool) : ℕ :=
  singleRank total state.hist.obtained.length (state.thread .single) +
    ∑ number ∈ Finset.range total, taskRank (state.thread (.task number))

theorem Loop.on_no_result {mem : Memory} {hist : LoopHist} {standing : Standing}
    (loop : Loop headFirst given mem hist standing) : standing.pc?.bind onResults = none := by
  have stage := loop.stage
  unfold Stage at stage
  split at stage <;> first | rfl | exact stage.elim

theorem tasks_less (thread : Agent → Standing) {standing : Standing} {total number : ℕ}
    (small : number < total) (less : taskRank standing < taskRank (thread (.task number))) :
    ∑ other ∈ Finset.range total,
        taskRank (Function.update thread (.task number) standing (.task other)) <
      ∑ other ∈ Finset.range total, taskRank (thread (.task other)) := by
  apply Finset.sum_lt_sum
  · intro other _
    by_cases same : other = number
    · rw [same, Function.update_self]
      exact less.le
    · rw [task_apart _ _ same]
  · refine ⟨number, Finset.mem_range.mpr small, ?_⟩
    rw [Function.update_self]
    exact less

theorem LoopInv.call_single (inv : LoopInv headFirst given state) {entry : LoopPc}
    {left : List LoopPc} (idle : state.thread .single = .idle (entry :: left))
    (moved : (program given.length headFirst).next state (.call .single entry) = some next) :
    LoopInv headFirst given next ∧ measure given.length next < measure given.length state := by
  have loop := inv.loop
  rw [idle] at loop
  obtain ⟨rfl, rfl⟩ : entry = .isQueueEmpty ∧ left = [] := by
    have stage := loop.stage
    unfold Stage at stage
    split at stage <;> first | exact stage.elim | (rename_i same; cases same)
    exact ⟨rfl, rfl⟩
  have called : (program given.length headFirst).call [.isQueueEmpty] .isQueueEmpty = some [] :=
    script_call _ _ _ []
  rw [Program.next_call idle called] at moved
  cases moved
  constructor
  · constructor
    · change Loop headFirst given state.mem state.hist
        (Function.update state.thread .single _ .single)
      rw [Function.update_self]
      exact ⟨loop.ring, loop.stage⟩
    · exact inv.tasks.single rfl (Nat.le_refl _) rfl rfl inv.loop.on_no_result rfl
    · intro ended
      change Function.update state.thread .single _ .single = _ at ended
      rw [Function.update_self] at ended
      cases ended
  · simp only [measure, Function.update_self, single_other, idle]
    exact Nat.add_lt_add_right (Nat.lt_succ_self _) _

theorem taskRank_busy_le (pc : LoopPc) (script : List LoopPc) : taskRank (.busy pc script) ≤ 2 := by
  unfold taskRank
  split
  · rename_i impossible
    cases impossible
  · rename_i impossible
    cases impossible
  · exact Nat.le_refl 2
  · exact Nat.le_succ 1

theorem LoopInv.call_task (inv : LoopInv headFirst given state) {number : ℕ} {entry : LoopPc}
    {left : List LoopPc} (idle : state.thread (.task number) = .idle (entry :: left))
    (small : number < state.mem.spawned)
    (moved : (program given.length headFirst).next state (.call (.task number) entry) =
      some next) :
    LoopInv headFirst given next ∧ measure given.length next < measure given.length state := by
  have called : (program given.length headFirst).call (entry :: left) entry = some left :=
    script_call _ _ entry left
  rw [Program.next_call idle called] at moved
  cases moved
  constructor
  · constructor
    · change Loop headFirst given state.mem state.hist
        (Function.update state.thread (.task number) (.busy entry left) .single)
      rw [task_other]
      exact inv.loop
    · exact inv.tasks.call idle small
    · intro ended
      have before : Ended state :=
        (task_other state.thread (.busy entry left) number).symm.trans ended
      have done := inv.ended before number small
      rw [Done, idle] at done
      cases done
  · have less : taskRank (.busy entry left) < taskRank (state.thread (.task number)) := by
      rw [idle]
      exact Nat.lt_succ_of_le (taskRank_busy_le entry left)
    simp only [measure, task_other]
    exact Nat.add_lt_add_left
      (tasks_less state.thread (Nat.lt_of_lt_of_le small inv.loop.spawned_le) less) _

variable {pc : LoopPc} {script : List LoopPc} {mem : Memory} {outcome : Outcome LoopPc Unit}

theorem LoopInv.move_single (inv : LoopInv headFirst given state) (int : given.length < 2 ^ 31)
    (busy : state.thread .single = .busy pc script)
    (waited : pc = .taskwait → ∀ number < state.mem.spawned, Done state number)
    (stepped : step given.length headFirst pc state.mem = some (mem, outcome))
    (moved : (program given.length headFirst).next state (.move .single) = some next) :
    (∀ again, outcome ≠ .retry again) ∧ LoopInv headFirst given next ∧
      measure given.length next < measure given.length state := by
  have loop := inv.loop
  rw [busy] at loop
  obtain ⟨onward, after, less⟩ := loop.step int stepped
  obtain ⟨results, spawned, sameResults, sameAdded⟩ := loop.frame given.length stepped
  rw [Program.next_move busy stepped] at moved
  cases moved
  refine ⟨onward, ?_, ?_⟩
  · constructor
    · change Loop headFirst given mem _ (Function.update state.thread .single _ .single)
      rw [Function.update_self]
      exact after
    · exact inv.tasks.single results spawned sameResults sameAdded inv.loop.on_no_result
        after.on_no_result
    · intro ended number small
      have last := (Function.update_self Agent.single _ state.thread).symm.trans ended
      obtain ⟨passes, same⟩ := loop.ends given.length stepped last
      have done := waited passes number (Nat.lt_of_lt_of_eq small same)
      exact (single_other state.thread ((program given.length headFirst).resume script outcome)
        number).trans done
  · simp only [measure, Function.update_self, single_other, busy]
    exact Nat.add_lt_add_right less _

theorem LoopInv.move_task (inv : LoopInv headFirst given state) (int : given.length < 2 ^ 31)
    {number : ℕ} (busy : state.thread (.task number) = .busy pc script)
    (stepped : step given.length headFirst pc state.mem = some (mem, outcome))
    (moved : (program given.length headFirst).next state (.move (.task number)) = some next) :
    (∀ again, outcome ≠ .retry again) ∧ LoopInv headFirst given next ∧
      measure given.length next < measure given.length state := by
  obtain ⟨small, onward, incoming, spawned, obtained, after, less⟩ :=
    inv.tasks.move inv.loop.spawned_le int busy stepped
  obtain ⟨ring, stage⟩ := inv.loop
  rw [Program.next_move busy stepped] at moved
  cases moved
  generalize (program given.length headFirst).resume script outcome = standing at after less ⊢
  refine ⟨onward, ?_, ?_⟩
  · constructor
    · change Loop headFirst given mem (record headFirst (.task number) pc state.mem state.hist)
        (Function.update state.thread (.task number) standing .single)
      rw [task_other]
      constructor
      · rw [incoming, obtained]
        exact ring
      · rw [incoming, spawned, obtained]
        exact stage
    · exact after
    · intro ended
      have before : Ended state := (task_other state.thread standing number).symm.trans ended
      have done := inv.ended before number small
      rw [Done, busy] at done
      cases done
  · rw [← busy] at less
    have same : (program given.length headFirst).record (.task number) pc state.mem state.hist =
        record headFirst (.task number) pc state.mem state.hist := rfl
    simp only [measure, task_other, same, obtained]
    exact Nat.add_lt_add_left
      (tasks_less state.thread (Nat.lt_of_lt_of_le small inv.loop.spawned_le) less) _

/-- One step of one agent keeps the invariant, brings the run nearer to its end and is no
wait. -/
theorem LoopInv.kept (inv : LoopInv headFirst given state) (int : given.length < 2 ^ 31)
    (omp : Omp state act)
    (moved : (program given.length headFirst).next state act = some next) :
    LoopInv headFirst given next ∧ measure given.length next < measure given.length state ∧
      ¬ (program given.length headFirst).Waits state act := by
  rcases Program.next_cases moved with
    ⟨agent, entry, script, left, rfl, idle, called, _⟩ |
    ⟨agent, script, left, rfl, idle, impossible, _⟩ |
    ⟨agent, pc, script, mem, outcome, rfl, busy, stepped, _⟩
  · have noWait : ¬ (program given.length headFirst).Waits state (.call agent entry) := by
      rintro ⟨_, _, _, _, impossible, _⟩
      cases impossible
    rw [scriptClient_call called] at idle
    cases agent with
    | single =>
        obtain ⟨kept, less⟩ := inv.call_single idle moved
        exact ⟨kept, less, noWait⟩
    | task number =>
        obtain ⟨kept, less⟩ := inv.call_task idle omp moved
        exact ⟨kept, less, noWait⟩
  · cases impossible
  · have at_ : state.at agent = some pc := Pool.at_busy busy
    have noWait : (∀ again, outcome ≠ .retry again) →
        ¬ (program given.length headFirst).Waits state (.move agent) := by
      rintro onward ⟨_, _, _, again, same, found, waited⟩
      cases same
      cases at_.symm.trans found
      cases stepped.symm.trans waited
      exact onward again rfl
    cases agent with
    | single =>
        have waited : pc = .taskwait → ∀ number < state.mem.spawned, Done state number := by
          rintro rfl
          exact omp at_
        obtain ⟨onward, kept, less⟩ := inv.move_single int busy waited stepped moved
        exact ⟨kept, less, noWait onward⟩
    | task number =>
        obtain ⟨onward, kept, less⟩ := inv.move_task int busy stepped moved
        exact ⟨kept, less, noWait onward⟩

theorem loop_goes_on (headFirst : Bool) (state : LoopPool) (size : ℕ) :
    Ended state ∨ ∃ act next, Omp state act ∧
      (program size headFirst).next state act = some next := by
  have exists_step : ∀ pc (mem : Memory), ∃ after outcome,
      (program size headFirst).step pc mem = some (after, outcome) := by
    intro pc mem
    cases pc with
    | incoming pc => cases pc <;> exact ⟨_, _, rfl⟩
    | results pc => cases pc <;> exact ⟨_, _, rfl⟩
    | _ => exact ⟨_, _, rfl⟩
  have calls : ∀ agent entry rest, state.thread agent = .idle (entry :: rest) →
      ∃ next, (program size headFirst).next state (.call agent entry) = some next :=
    fun agent entry rest idle => ⟨_, Program.next_call idle (script_call _ _ entry rest)⟩
  have moves : ∀ agent pc script, state.thread agent = .busy pc script →
      ∃ next, (program size headFirst).next state (.move agent) = some next := by
    intro agent pc script busy
    obtain ⟨after, outcome, stepped⟩ := exists_step pc state.mem
    exact ⟨_, Program.next_move busy stepped⟩
  cases standing : state.thread .single with
  | idle script =>
      cases script with
      | nil => exact Or.inl standing
      | cons entry rest =>
          obtain ⟨next, moved⟩ := calls .single entry rest standing
          exact Or.inr ⟨.call .single entry, next, trivial, moved⟩
  | busy pc script =>
      have at_ : state.at .single = some pc := Pool.at_busy standing
      right
      by_cases all : ∀ number < state.mem.spawned, Done state number
      · obtain ⟨next, moved⟩ := moves .single pc script standing
        exact ⟨.move .single, next, fun _ => all, moved⟩
      · push Not at all
        obtain ⟨number, small, open_⟩ := all
        cases task : state.thread (.task number) with
        | idle script =>
            cases script with
            | nil => exact absurd task open_
            | cons entry rest =>
                obtain ⟨next, moved⟩ := calls (.task number) entry rest task
                exact ⟨.call (.task number) entry, next, small, moved⟩
        | busy pc script =>
            obtain ⟨next, moved⟩ := moves (.task number) pc script task
            exact ⟨.move (.task number), next, trivial, moved⟩

/-- Where the single thread has left the loop, all elements have been obtained. -/
theorem LoopInv.left (inv : LoopInv headFirst given state) (left : Left state) :
    state.mem.spawned = given.length ∧ state.hist.obtained = given := by
  obtain ⟨ring, stage⟩ := inv.loop
  have all : state.mem.spawned = state.hist.obtained.length ∧
      state.hist.obtained.length = given.length := by
    rcases left with waits | ended
    · have standing := Pool.at_eq_some waits
      have loop := inv.loop
      rw [standing] at loop
      have alone := loop.script_nil
      rw [standing, alone] at stage
      exact stage.2
    · rw [ended] at stage
      exact stage.2
  refine ⟨all.1.trans all.2, ?_⟩
  have taken := ring.taken
  rw [all.2, List.take_length] at taken
  exact taken

theorem LoopInv.filled (inv : LoopInv headFirst given state) (ended : Ended state) :
    state.mem.results.tail = given.length - 1 ∧ state.mem.results.head = -1 ∧
      ∀ slot : ℤ, 0 ≤ slot → slot < given.length → state.mem.results.data slot ≠ 0 := by
  have tasks := inv.tasks
  have spawned := (inv.left (Or.inr ended)).1
  have done := inv.ended ended
  have every : ∀ number < state.mem.spawned, number ∈ state.hist.added := by
    intro number small
    have stage := tasks.stage number
    rw [done number small] at stage
    exact stage
  have length : state.hist.added.length = state.mem.spawned := by
    have within_ : state.hist.added ⊆ List.range state.mem.spawned :=
      fun number member => List.mem_range.mpr (tasks.made number member)
    have whole : List.range state.mem.spawned ⊆ state.hist.added :=
      fun number member => every number (List.mem_range.mp member)
    have most := (List.subperm_of_subset tasks.nodup within_).length_le
    have least := (List.subperm_of_subset List.nodup_range whole).length_le
    rw [List.length_range] at most least
    omega
  have tail := tasks.length
  have quiet : ∀ agent, place state.thread agent = none := by
    intro agent
    cases agent with
    | single =>
        rw [place, ended]
        rfl
    | task number =>
        by_cases small : number < state.mem.spawned
        · rw [place, done number small]
          rfl
        · have stage := tasks.stage number
          have absent : number ∉ state.hist.added := fun member => small (tasks.made number member)
          cases standing : state.thread (.task number) with
          | idle script =>
              rw [place, standing]
              rfl
          | busy pc script =>
              rw [standing] at stage
              exfalso
              unfold TaskStage at stage
              split at stage
              · rename_i same
                cases same
              · exact small stage.2
              · exact absent stage
              · rename_i same
                cases same
              · exact stage
  refine ⟨by omega, tasks.head, ?_⟩
  intro slot low high
  have stored : slot ∈ state.hist.results.stored := by
    apply (tasks.inv.put_side.settled_iff _ slot).mpr ⟨low, by omega⟩
    intro agent
    rw [TicketQueue.putHolders, quiet agent]
    rfl
  have live : slot ∉ state.hist.results.cleared := by
    intro member
    have range := tasks.inv.cleared_range member
    have head := tasks.head
    omega
  have put := tasks.inv.full slot stored live
  rw [Int.emod_eq_of_lt low high] at put
  exact tasks.inv.put_nonzero put

/-! ### The whole run -/

theorem loop_run (int : given.length < 2 ^ 31) {first : LoopPool}
    (initial : LoopInv headFirst given first)
    (run : Run (program given.length headFirst).next first trace state) (omp : Meets Omp trace) :
    LoopInv headFirst given state ∧
      ∀ taken ∈ trace, ¬ (program given.length headFirst).Waits taken.1 taken.2 := by
  induction run with
  | nil =>
      refine ⟨initial, ?_⟩
      intro taken impossible
      cases impossible
  | snoc before moved ih =>
      rw [meets_snoc] at omp
      obtain ⟨inv, free⟩ := ih omp.1
      obtain ⟨kept, _, working⟩ := inv.kept int omp.2 moved
      refine ⟨kept, ?_⟩
      intro taken member
      rcases List.mem_append.mp member with early | last
      · exact free taken early
      · rw [List.mem_singleton.mp last]
        exact working

theorem loop_length (int : given.length < 2 ^ 31) {first : LoopPool}
    (initial : LoopInv headFirst given first)
    (run : Run (program given.length headFirst).next first trace state) (omp : Meets Omp trace) :
    trace.length ≤ measure given.length first := by
  have bound := run.meets_length_le (measure given.length) omp initial
    (fun _ _ _ inv omp moved => (inv.kept int omp moved).1)
    (fun _ _ _ inv omp moved => (inv.kept int omp moved).2.1)
  omega

theorem loop_start {q : Queue} (positive : 0 < given.length) (junk : ℤ → ℤ)
    (ring : Ring given q []) (head : q.head = -1) :
    LoopInv headFirst given (start given.length q junk) := by
  constructor
  · refine ⟨ring, ?_, rfl⟩
    change q.head + 1 = 0
    omega
  · constructor
    · intro number
      refine ⟨List.not_mem_nil, ?_⟩
      decide
    · exact Inv.start positive junk
    · exact List.nodup_nil
    · intro number impossible
      cases impossible
    · rfl
    · rfl
  · intro impossible
    cases impossible

theorem measure_start (total : ℕ) (q : Queue) (junk : ℤ → ℤ) :
    measure total (start total q junk) = 10 * total + 4 := by
  change 7 * (total - 0) + 4 + ∑ number ∈ Finset.range total, 3 = _
  rw [Finset.sum_const_nat (fun number _ => rfl), Finset.card_range]
  omega

theorem loop_moves {q : Queue} (positive : 0 < given.length) (int : given.length < 2 ^ 31)
    (junk : ℤ → ℤ) (ring : Ring given q []) (head : q.head = -1)
    (perm : given.Perm (items given.length))
    (run : Run (program given.length headFirst).next (start given.length q junk) trace state)
    (omp : Meets Omp trace) : Moves given.length headFirst trace state := by
  have initial : LoopInv headFirst given (start given.length q junk) :=
    loop_start positive junk ring head
  obtain ⟨inv, free⟩ := loop_run int initial run omp
  have bound := loop_length int initial run omp
  rw [measure_start] at bound
  constructor
  · exact free
  · exact bound
  · exact loop_goes_on headFirst state given.length
  · exact ⟨inv.loop.spawned_le, inv.loop.ring.few⟩
  · intro left
    obtain ⟨spawned, obtained⟩ := inv.left left
    rw [obtained]
    exact ⟨spawned, perm⟩
  · exact inv.filled

variable {NUM_SAMPLES : ℕ} {iterations : Fin T → List ℕ}

theorem fillLoop_adds (iterations : Fin T → List ℕ) :
    ∀ thread, ∀ pc ∈ fillLoop iterations thread, pc.Adds := by
  intro thread pc member
  obtain ⟨i, _, rfl⟩ := List.mem_map.mp member
  exact ⟨(i : ℤ) + 1, by omega, rfl⟩

theorem fillLoop_brings (given : List ℕ) :
    ((given.map (fun i : ℕ => EnqueueToQ ((i : ℤ) + 1))).map Pc.brings).sum =
      (given : Multiset ℕ).map (fun i : ℕ => (i : ℤ) + 1) := by
  induction given with
  | nil => rfl
  | cons i rest ih =>
      rw [List.map_cons, List.map_cons, List.sum_cons, ih, ← Multiset.cons_coe, Multiset.map_cons]
      rfl

theorem fillLoop_offered (distributed : Distributed NUM_SAMPLES iterations) :
    offered (fillLoop iterations) = items NUM_SAMPLES := by
  have each : ∀ thread, ((fillLoop iterations thread).map Pc.brings).sum =
      Multiset.mapAddMonoidHom (fun i : ℕ => (i : ℤ) + 1) (iterations thread) :=
    fun thread => fillLoop_brings (iterations thread)
  unfold offered
  rw [Finset.sum_congr rfl (fun thread _ => each thread), ← map_sum, distributed]
  rfl

theorem items_length (NUM_SAMPLES : ℕ) : (items NUM_SAMPLES).length = NUM_SAMPLES := by
  rw [items, List.length_map, List.length_range]

theorem fillLoop_room (distributed : Distributed NUM_SAMPLES iterations)
    (int : NUM_SAMPLES < 2 ^ 31) (junk : ℤ → ℤ) :
    Room NUM_SAMPLES (InitXTaskQueue NUM_SAMPLES junk) (offered (fillLoop iterations)).card := by
  rw [fillLoop_offered distributed, Multiset.coe_card, items_length]
  constructor
  · exact Int.le_refl _
  · change (-1 : ℤ) + NUM_SAMPLES < 2 ^ 31
    omega

/-- The fill loop leaves every item in the ring, in the order of the tail tickets. -/
theorem filled_ring {junk : ℤ → ℤ} {q : Queue} {hist : Hist (Fin T)}
    (filled : Filled NUM_SAMPLES (InitXTaskQueue NUM_SAMPLES junk) .start (fillLoop iterations)
      q hist)
    (distributed : Distributed NUM_SAMPLES iterations) :
    Ring hist.puts q [] ∧ hist.puts.Perm (items NUM_SAMPLES) := by
  have perm : hist.puts.Perm (items NUM_SAMPLES) := by
    apply Multiset.coe_eq_coe.mp
    rw [filled.puts_eq, fillLoop_offered distributed]
    exact zero_add _
  have length : hist.puts.length = NUM_SAMPLES := perm.length_eq.trans (items_length NUM_SAMPLES)
  have inv := filled.inv
  have tail := inv.puts_length
  refine ⟨?_, perm⟩
  constructor
  · exact tail.symm
  · exact Nat.zero_le _
  · rfl
  · intro k _ high
    have stored : (k : ℤ) ∈ hist.stored :=
      (inv.put_side.settled_iff (fun _ => rfl) (k : ℤ)).mpr (by omega)
    have live : (k : ℤ) ∉ hist.cleared := by
      rw [Hist.cleared, filled.rets_eq]
      exact List.not_mem_nil
    have put := inv.full (k : ℤ) stored live
    rw [Int.emod_eq_of_lt (Int.natCast_nonneg k) (by omega)] at put
    exact put
  · exact inv.puts_nonzero

/-- The fill loop can always be joined, and from the ring it leaves, every run of the dequeue
loop that OpenMP allows moves every item. -/
theorem openmp_moves_items (headFirst : Bool) (fillJunk loopJunk : ℤ → ℤ)
    (positive : 0 < NUM_SAMPLES) (int : NUM_SAMPLES < 2 ^ 31)
    (distributed : Distributed NUM_SAMPLES iterations) :
    (∀ fillTrace filling,
      Run (phaseProgram (Fin T) NUM_SAMPLES headFirst).next
        (launch (InitXTaskQueue NUM_SAMPLES fillJunk) .start (fillLoop iterations))
        fillTrace filling →
      ∃ filled, Joined filled ∧
        Reaches (phaseProgram (Fin T) NUM_SAMPLES headFirst).next (fun _ _ => True)
          filling filled) ∧
    ∀ fillTrace filled,
      Run (phaseProgram (Fin T) NUM_SAMPLES headFirst).next
        (launch (InitXTaskQueue NUM_SAMPLES fillJunk) .start (fillLoop iterations))
        fillTrace filled →
      Joined filled → ∀ trace state,
      Run (program NUM_SAMPLES headFirst).next (start NUM_SAMPLES filled.mem loopJunk)
        trace state →
      Meets Omp trace → Moves NUM_SAMPLES headFirst trace state := by
  have empty : Inv NUM_SAMPLES (InitXTaskQueue NUM_SAMPLES fillJunk)
      (.start : Hist (Fin T)) (fun _ => none) := Inv.start positive fillJunk
  have room := fillLoop_room distributed int fillJunk
  have adds := fillLoop_adds iterations
  constructor
  · intro fillTrace filling run
    obtain ⟨later, filled, onward, joined⟩ := TicketQueue.reaches_joined
      (fun later filled onward => TicketQueue.putting_not_spinning
        (Filling.of_run empty room adds (run.append onward)).putting)
    exact ⟨filled, joined, later, onward, meets_true later⟩
  · intro fillTrace filled fillRun joined trace state run omp
    have full := (Filling.of_run empty room adds fillRun).joined empty joined
    obtain ⟨ring, perm⟩ := filled_ring full distributed
    have length : filled.hist.puts.length = NUM_SAMPLES :=
      perm.length_eq.trans (items_length NUM_SAMPLES)
    have head : filled.mem.head = -1 := full.head_eq
    rw [← length] at positive int perm run ⊢
    exact loop_moves positive int loopJunk ring head perm run omp

/-- Two threads fill the ring in the order of the second iteration first; the first task runs
while the second item is dequeued. -/
def crosswise : Fin 2 → List ℕ
  | 0 => [1]
  | 1 => [0]

def crossing (first second : Fin 2) : List (Act (Fin 2) Pc) :=
  [.call first (EnqueueToQ 2), .move first, .call second (EnqueueToQ 1), .move second,
    .move second, .move first]

def twoTasks : List (Act Agent LoopPc) :=
  [.call .single .isQueueEmpty, .move .single, .move .single, .move .single, .move .single,
    .move .single, .move .single, .move .single, .call (.task 0) (.results (EnqueueToQ 1)),
    .move .single, .move .single, .move (.task 0), .move .single, .move .single, .move .single,
    .move (.task 0), .move .single, .move .single, .move .single, .move .single,
    .call (.task 1) (.results (EnqueueToQ 1)), .move (.task 1), .move (.task 1), .move .single]

theorem openmp_moves_items_crosswise : ∃ trace state,
    Moves 2 true trace state ∧ Ended state ∧ state.hist.obtained = [2, 1] := by
  have fillRun : Run (phaseProgram (Fin 2) 2 true).next
      (launch (InitXTaskQueue 2 (fun _ => 9)) .start (fillLoop crosswise)) _ _ :=
    run_of_play (crossing 0 1) rfl
  have moves := (openmp_moves_items true (fun _ => 9) (fun _ => 9) (by decide) (by decide)
    (show Distributed 2 crosswise by decide)).2 _ _ fillRun (Fin.forall_fin_two.mpr ⟨rfl, rfl⟩)
  exact ⟨_, _, moves _ _ (run_of_play twoTasks rfl) (by decide), rfl, rfl⟩

end QueueBench.OpenMp
