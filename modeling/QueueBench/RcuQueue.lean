import Mathlib.Algebra.Order.BigOperators.Group.Multiset
import QueueBench.Lib.Work
import QueueBench.SampleMerge

/-! The run on the userspace-RCU queue. A producer enqueues a fixed number of nodes; a
consumer makes the same number of attempts to dequeue one, and an attempt that finds the
queue empty is a sample like any other. -/

namespace QueueBench.RcuQueue
open Machine (Outcome Pool Program Act Thread Returns Embeds scriptProgram script_total_run
  total_done scripts_reach)
open Samples (Side Ticks Globals Worker sum_workers)
open Transition (Run Reaches Meets meets_nil meets_snoc run_of_play)

open scoped BigOperators

/-- `struct mynode`, told apart by the producer that allocated it. -/
structure Node (c : ℕ) where
  producer : Fin c
  value : ℕ
deriving DecidableEq, Repr

/-- `cds_lfq_enqueue_rcu` and `cds_lfq_dequeue_rcu` take effect in one step each. -/
inductive Pc (c : ℕ) where
  | enqueue (node : Node c)
  | dequeue
  | call_rcu (node : Node c)
  | merge (pc : Samples.Pc)
deriving DecidableEq, Repr

/-- `handed` are the nodes given to call_rcu. -/
structure Memory (c : ℕ) where
  myqueue : List (Node c)
  handed : List (Node c)
  globals : Globals

/-- `empty` counts the attempts that got NULL. -/
structure Hist (c : ℕ) where
  enqueued : List (Node c)
  dequeued : List (Node c)
  empty : ℕ

variable {c : ℕ}

def step (pc : Pc c) (mem : Memory c) : Option (Memory c × Outcome (Pc c) Unit) :=
  match pc with
  | .enqueue node => some ({ mem with myqueue := mem.myqueue ++ [node] }, .ret ())
  | .dequeue =>
      match mem.myqueue with
      | [] => some (mem, .ret ())
      | node :: rest => some ({ mem with myqueue := rest }, .goto (.call_rcu node))
  | .call_rcu node => some ({ mem with handed := mem.handed ++ [node] }, .ret ())
  | .merge pc => (Samples.step pc mem.globals).map (fun result =>
      ({ mem with globals := result.1 }, result.2.map .merge))

def record {ι : Type*} (_thread : ι) (pc : Pc c) (mem : Memory c) (hist : Hist c) : Hist c :=
  match pc with
  | .enqueue node => { hist with enqueued := hist.enqueued ++ [node] }
  | .dequeue =>
      match mem.myqueue with
      | [] => { hist with empty := hist.empty + 1 }
      | node :: _ => { hist with dequeued := hist.dequeued ++ [node] }
  | _ => hist

abbrev Clock (c : ℕ) : Type := Worker c → ℕ → Ticks

def timestamp (NUM_SAMPLES : ℕ) (clock : Clock c) (worker : Worker c) : List Ticks :=
  (List.range (NUM_SAMPLES / c)).map (clock worker)

/-- `rculfenqueue_handler` and `rculfdequeue_handler` behind the barrier. -/
def handler (NUM_SAMPLES : ℕ) (clock : Clock c) (worker : Worker c) : List (Pc c) :=
  (match worker.1 with
    | .enqueue => (List.range (NUM_SAMPLES / c)).map (fun i =>
        .enqueue { producer := worker.2, value := i + 1 })
    | .dequeue => List.replicate (NUM_SAMPLES / c) .dequeue) ++
  [.merge (.lock worker.1 (timestamp NUM_SAMPLES clock worker))]

abbrev RcuPool (c : ℕ) : Type := Pool (Worker c) (Memory c) (Pc c) (List (Pc c)) (Hist c)

def program (c : ℕ) : Program (Worker c) (Memory c) (Pc c) Unit (List (Pc c)) (Hist c) :=
  scriptProgram step record

def start (NUM_SAMPLES : ℕ) (clock : Clock c) : RcuPool c :=
  { mem :=
      { myqueue := []
        handed := []
        globals := Samples.reset }
    thread := fun worker => .idle (handler NUM_SAMPLES clock worker)
    hist :=
      { enqueued := []
        dequeued := []
        empty := 0 } }

def Joined (state : RcuPool c) : Prop := ∀ worker, state.thread worker = .idle []

/-- The queue given to cds_lfq_destroy_rcu is empty, every node has been handed on once, and
the samples are those of nodes. -/
def Consumed (state : RcuPool c) : Prop :=
  state.mem.myqueue = [] ∧ state.mem.handed.Perm state.hist.enqueued ∧
    state.mem.globals.num .dequeue = state.hist.dequeued.length

/-- A step that is not a dequeue of an empty queue. -/
def Finds (state : RcuPool c) (act : Act (Worker c) (Pc c)) : Prop :=
  state.Moving (fun pc => pc = .dequeue → state.mem.myqueue ≠ []) act

/-! ### What every run keeps -/

variable {NUM_SAMPLES : ℕ} {clock : Clock c} {state next : RcuPool c} {act : Act (Worker c) (Pc c)}
variable {trace : List (RcuPool c × Act (Worker c) (Pc c))}
variable {pc : Pc c} {mem after : Memory c} {hist grown : Hist c} {outcome : Outcome (Pc c) Unit}

inductive Does : Pc c → Memory c → Hist c → Memory c → Hist c → Outcome (Pc c) Unit → Prop where
  | enqueue (node : Node c) (mem : Memory c) (hist : Hist c) :
      Does (.enqueue node) mem hist { mem with myqueue := mem.myqueue ++ [node] }
        { hist with enqueued := hist.enqueued ++ [node] } (.ret ())
  | miss {mem : Memory c} (hist : Hist c) (empty : mem.myqueue = []) :
      Does .dequeue mem hist mem { hist with empty := hist.empty + 1 } (.ret ())
  | dequeue {mem : Memory c} (hist : Hist c) {node : Node c} {rest : List (Node c)}
      (first : mem.myqueue = node :: rest) :
      Does .dequeue mem hist { mem with myqueue := rest }
        { hist with dequeued := hist.dequeued ++ [node] } (.goto (.call_rcu node))
  | call_rcu (node : Node c) (mem : Memory c) (hist : Hist c) :
      Does (.call_rcu node) mem hist { mem with handed := mem.handed ++ [node] } hist (.ret ())
  | merge {pc : Samples.Pc} {mem : Memory c} (hist : Hist c) {globals : Globals}
      {inner : Outcome Samples.Pc Unit} (merged : Samples.step pc mem.globals = some (globals, inner)) :
      Does (.merge pc) mem hist { mem with globals := globals } hist (inner.map .merge)

theorem does_of_step {ι : Type*} (worker : ι) (hist : Hist c)
    (stepped : step pc mem = some (after, outcome)) :
    Does pc mem hist after (record worker pc mem hist) outcome := by
  cases pc with
  | enqueue node => cases stepped; exact .enqueue node mem hist
  | dequeue =>
      cases queue : mem.myqueue with
      | nil =>
          simp only [step, queue] at stepped
          cases stepped
          simp only [record, queue]
          exact .miss hist queue
      | cons node rest =>
          simp only [step, queue] at stepped
          cases stepped
          simp only [record, queue]
          exact .dequeue hist queue
  | call_rcu node => cases stepped; exact .call_rcu node mem hist
  | merge pc =>
      obtain ⟨⟨globals, inner⟩, merged, same⟩ := Option.map_eq_some_iff.mp stepped
      cases same
      exact .merge hist merged

def attempt : Pc c → ℕ
  | .dequeue => 1
  | _ => 0

def carried : Pc c → Multiset (Node c)
  | .enqueue node | .call_rcu node => {node}
  | _ => 0

def coming : Pc c → Multiset (Node c)
  | .enqueue node => {node}
  | _ => 0

def merging : Pc c → ℕ
  | .merge pc => pc.adds .dequeue
  | _ => 0

theorem Does.attempts (does : Does pc mem hist after grown outcome) :
    grown.dequeued.length + grown.empty + outcome.pc?.elim 0 attempt =
      hist.dequeued.length + hist.empty + attempt pc := by
  cases does with
  | enqueue node => rfl
  | miss _ empty => rfl
  | dequeue _ first =>
      change (hist.dequeued ++ [_]).length + hist.empty + 0 = hist.dequeued.length + hist.empty + 1
      rw [List.length_append, List.length_singleton]
      omega
  | call_rcu node => rfl
  | @merge _ _ _ _ inner merged => cases inner <;> rfl

theorem Does.carried (does : Does pc mem hist after grown outcome) :
    ((after.handed + after.myqueue : Multiset (Node c)) + outcome.pc?.elim 0 RcuQueue.carried) =
      (mem.handed + mem.myqueue : Multiset (Node c)) + RcuQueue.carried pc := by
  cases does with
  | enqueue node =>
      change (mem.handed : Multiset (Node c)) + (mem.myqueue ++ [node] : List (Node c)) + 0 =
        mem.handed + mem.myqueue + {node}
      rw [add_zero, ← Multiset.coe_add, Multiset.coe_singleton, add_assoc]
  | miss _ empty => rfl
  | @dequeue _ _ node rest first =>
      change (mem.handed : Multiset (Node c)) + (rest : Multiset (Node c)) + {node} =
        mem.handed + mem.myqueue + 0
      rw [first, add_zero, add_assoc, add_comm (rest : Multiset (Node c)),
        Multiset.singleton_add, Multiset.cons_coe]
  | call_rcu node =>
      change ((mem.handed ++ [node] : List (Node c)) : Multiset (Node c)) + mem.myqueue + 0 =
        mem.handed + mem.myqueue + {node}
      rw [add_zero, ← Multiset.coe_add, Multiset.coe_singleton, add_right_comm]
  | @merge _ _ _ _ inner merged => cases inner <;> rfl

theorem Does.coming (does : Does pc mem hist after grown outcome) :
    (grown.enqueued : Multiset (Node c)) + outcome.pc?.elim 0 RcuQueue.coming =
      (hist.enqueued : Multiset (Node c)) + RcuQueue.coming pc := by
  cases does with
  | enqueue node =>
      change ((hist.enqueued ++ [node] : List (Node c)) : Multiset (Node c)) + 0 =
        hist.enqueued + {node}
      rw [add_zero, ← Multiset.coe_add, Multiset.coe_singleton]
  | miss _ empty => rfl
  | dequeue _ first => rfl
  | call_rcu node => rfl
  | @merge _ _ _ _ inner merged => cases inner <;> rfl

theorem Does.merging (does : Does pc mem hist after grown outcome) :
    after.globals.num .dequeue + outcome.pc?.elim 0 RcuQueue.merging =
      mem.globals.num .dequeue + RcuQueue.merging pc := by
  cases does with
  | enqueue node => rfl
  | miss _ empty => rfl
  | dequeue _ first => rfl
  | call_rcu node => rfl
  | @merge _ _ _ _ inner merged =>
      have adds := Samples.step_adds .dequeue merged
      cases inner <;> exact adds

theorem Does.fifo (does : Does pc mem hist after grown outcome)
    (before : hist.enqueued = hist.dequeued ++ mem.myqueue) :
    grown.enqueued = grown.dequeued ++ after.myqueue := by
  cases does with
  | enqueue node =>
      change hist.enqueued ++ [node] = hist.dequeued ++ (mem.myqueue ++ [node])
      rw [before, List.append_assoc]
  | miss _ empty => exact before
  | @dequeue _ _ node rest first =>
      change hist.enqueued = hist.dequeued ++ [node] ++ rest
      rw [before, first, List.append_assoc]
      rfl
  | call_rcu node => exact before
  | merge _ merged => exact before

theorem Does.empty_iff (does : Does pc mem hist after grown outcome) :
    grown.empty = 0 ↔ hist.empty = 0 ∧ (pc = .dequeue → mem.myqueue ≠ []) := by
  have other : ∀ {pc : Pc c}, pc ≠ .dequeue →
      (hist.empty = 0 ↔ hist.empty = 0 ∧ (pc = .dequeue → mem.myqueue ≠ [])) :=
    fun different => ⟨fun none_ => ⟨none_, fun same => absurd same different⟩, fun both => both.1⟩
  cases does with
  | enqueue node => exact other (by intro impossible; cases impossible)
  | miss _ empty =>
      constructor
      · intro impossible
        cases impossible
      · intro both
        exact absurd empty (both.2 rfl)
  | dequeue _ first =>
      rw [first]
      exact ⟨fun none_ => ⟨none_, fun _ => List.cons_ne_nil _ _⟩, fun both => both.1⟩
  | call_rcu node => exact other (by intro impossible; cases impossible)
  | merge _ merged => exact other (by intro impossible; cases impossible)

theorem run_fifo (run : Run (program c).next (start NUM_SAMPLES clock) trace state) :
    state.hist.enqueued = state.hist.dequeued ++ state.mem.myqueue := by
  induction run with
  | nil => rfl
  | snoc before moved ih =>
      rcases Program.next_cases moved with
        ⟨worker, entry, script, left, rfl, idle, called, rfl⟩ |
        ⟨worker, script, left, rfl, idle, impossible, rfl⟩ |
        ⟨worker, pc, script, mem, outcome, rfl, busy, stepped, rfl⟩
      · exact ih
      · cases impossible
      · exact (does_of_step worker _ stepped).fifo ih

theorem empty_iff (run : Run (program c).next (start NUM_SAMPLES clock) trace state) :
    state.hist.empty = 0 ↔ Meets Finds trace := by
  induction run with
  | nil => exact ⟨fun _ => meets_nil Finds, fun _ => rfl⟩
  | @snoc earlier middle last act before moved ih =>
      rw [meets_snoc, ← ih]
      rcases Program.next_cases moved with
        ⟨worker, entry, script, left, rfl, idle, called, rfl⟩ |
        ⟨worker, script, left, rfl, idle, impossible, rfl⟩ |
        ⟨worker, pc, script, mem, outcome, rfl, busy, stepped, rfl⟩
      · exact ⟨fun none_ => ⟨none_, trivial⟩, fun both => both.1⟩
      · cases impossible
      · have at_ : middle.at worker = some pc := Pool.at_busy busy
        have finds : Finds middle (.move worker) ↔ (pc = .dequeue → middle.mem.myqueue ≠ []) := by
          constructor
          · exact fun all => all pc at_
          · intro mine other standing
            cases at_.symm.trans standing
            exact mine
        rw [finds]
        exact (does_of_step worker middle.hist stepped).empty_iff

/-! ### What all threads together are to do -/

theorem attempts_start : ∑ worker, Thread.due attempt ((start NUM_SAMPLES clock).thread worker) =
    c * (NUM_SAMPLES / c) := by
  have produces : ∀ i, Thread.due attempt ((start NUM_SAMPLES clock).thread (.enqueue, i)) = 0 := by
    intro i
    change ((handler NUM_SAMPLES clock (.enqueue, i)).map attempt).sum = 0
    simp [handler, Function.comp_def, attempt]
  have consumes : ∀ i, Thread.due attempt ((start NUM_SAMPLES clock).thread (.dequeue, i)) =
      NUM_SAMPLES / c := by
    intro i
    change ((handler NUM_SAMPLES clock (.dequeue, i)).map attempt).sum = NUM_SAMPLES / c
    simp [handler, attempt]
  rw [sum_workers]
  simp [produces, consumes]

theorem merging_start : ∑ worker, Thread.due merging ((start NUM_SAMPLES clock).thread worker) =
    c * (NUM_SAMPLES / c) := by
  have produces : ∀ i, Thread.due merging ((start NUM_SAMPLES clock).thread (.enqueue, i)) = 0 := by
    intro i
    change ((handler NUM_SAMPLES clock (.enqueue, i)).map merging).sum = 0
    simp [handler, Function.comp_def, merging, Samples.Pc.adds]
  have consumes : ∀ i, Thread.due merging ((start NUM_SAMPLES clock).thread (.dequeue, i)) =
      NUM_SAMPLES / c := by
    intro i
    change ((handler NUM_SAMPLES clock (.dequeue, i)).map merging).sum = NUM_SAMPLES / c
    simp [handler, merging, Samples.Pc.adds, timestamp]
  rw [sum_workers]
  simp [produces, consumes]

theorem carried_start (worker : Worker c) :
    Thread.due carried ((start NUM_SAMPLES clock).thread worker) =
      Thread.due coming ((start NUM_SAMPLES clock).thread worker) := by
  obtain ⟨side, i⟩ := worker
  change ((handler NUM_SAMPLES clock (side, i)).map carried).sum =
    ((handler NUM_SAMPLES clock (side, i)).map coming).sum
  cases side with
  | enqueue => simp [handler, Function.comp_def, carried, coming]
  | dequeue => simp [handler, carried, coming]

theorem coming_start :
    (∑ worker, Thread.due coming ((start NUM_SAMPLES clock).thread worker)).card =
      c * (NUM_SAMPLES / c) := by
  have produces : ∀ i, (Thread.due coming ((start NUM_SAMPLES clock).thread (.enqueue, i))).card =
      NUM_SAMPLES / c := by
    intro i
    change ((handler NUM_SAMPLES clock (.enqueue, i)).map coming).sum.card = NUM_SAMPLES / c
    have split : ((handler NUM_SAMPLES clock (.enqueue, i)).map coming).sum.card =
        (((handler NUM_SAMPLES clock (.enqueue, i)).map coming).map Multiset.card).sum :=
      map_list_sum Multiset.cardHom _
    rw [split]
    simp [handler, Function.comp_def, coming]
  have consumes : ∀ i, (Thread.due coming ((start NUM_SAMPLES clock).thread (.dequeue, i))).card =
      0 := by
    intro i
    change ((handler NUM_SAMPLES clock (.dequeue, i)).map coming).sum.card = 0
    simp [handler, coming]
  rw [sum_workers, Multiset.card_add, Multiset.card_sum, Multiset.card_sum]
  simp [produces, consumes]

/-! ### When all threads have finished -/

theorem joined_attempts (run : Run (program c).next (start NUM_SAMPLES clock) trace state)
    (joined : Joined state) :
    state.hist.dequeued.length + state.hist.empty = c * (NUM_SAMPLES / c) := by
  have total := script_total_run (fun _ hist => hist.dequeued.length + hist.empty) attempt
    (fun worker _ _ _ hist _ stepped => (does_of_step worker hist stepped).attempts) run
  rw [total_done _ _ joined] at total
  rw [total]
  change 0 + ∑ worker, Thread.due attempt ((start NUM_SAMPLES clock).thread worker) = _
  rw [attempts_start, Nat.zero_add]

theorem joined_samples (run : Run (program c).next (start NUM_SAMPLES clock) trace state)
    (joined : Joined state) : state.mem.globals.num .dequeue = c * (NUM_SAMPLES / c) := by
  have total := script_total_run (fun mem _ => mem.globals.num .dequeue) merging
    (fun worker _ _ _ hist _ stepped => (does_of_step worker hist stepped).merging) run
  rw [total_done _ _ joined] at total
  rw [total]
  change 0 + ∑ worker, Thread.due merging ((start NUM_SAMPLES clock).thread worker) = _
  rw [merging_start, Nat.zero_add]

/-- Every node has been enqueued, and is still queued or has been handed on. -/
theorem joined_nodes (run : Run (program c).next (start NUM_SAMPLES clock) trace state)
    (joined : Joined state) :
    (state.mem.handed + state.mem.myqueue : Multiset (Node c)) = state.hist.enqueued ∧
      state.hist.enqueued.length = c * (NUM_SAMPLES / c) := by
  have passed := script_total_run
    (fun mem _ => (↑mem.handed + ↑mem.myqueue : Multiset (Node c))) carried
    (fun worker _ _ _ hist _ stepped => (does_of_step worker hist stepped).carried) run
  have entered := script_total_run (fun _ hist => (hist.enqueued : Multiset (Node c))) coming
    (fun worker _ _ _ hist _ stepped => (does_of_step worker hist stepped).coming) run
  rw [total_done _ _ joined] at passed entered
  have equal : ∑ worker, Thread.due carried ((start NUM_SAMPLES clock).thread worker) =
      ∑ worker, Thread.due coming ((start NUM_SAMPLES clock).thread worker) :=
    Finset.sum_congr rfl (fun worker _ => carried_start worker)
  have whole : (state.hist.enqueued : Multiset (Node c)) =
      ∑ worker, Thread.due coming ((start NUM_SAMPLES clock).thread worker) := by
    rw [entered]
    exact zero_add _
  constructor
  · rw [whole, passed, ← equal]
    exact zero_add _
  · rw [← Multiset.coe_card, whole, coming_start]

/-- The queue is left empty, and every sample is that of a node, if and only if no attempt
met an empty queue. -/
theorem rcu_consumes_iff {NUM_SAMPLES c : ℕ} {clock : Clock c} {state : RcuPool c}
    {trace : List (RcuPool c × Act (Worker c) (Pc c))}
    (run : Run (program c).next (start NUM_SAMPLES clock) trace state) (joined : Joined state) :
    Consumed state ↔ Meets Finds trace := by
  have attempts := joined_attempts run joined
  have samples := joined_samples run joined
  have fifo := run_fifo run
  obtain ⟨nodes, length⟩ := joined_nodes run joined
  have lengths := congrArg List.length fifo
  rw [List.length_append] at lengths
  rw [← empty_iff run]
  constructor
  · rintro ⟨drained, _, _⟩
    rw [drained, List.length_nil] at lengths
    omega
  · intro none_
    have drained : state.mem.myqueue = [] := by
      apply List.eq_nil_of_length_eq_zero
      omega
    constructor
    · exact drained
    · constructor
      · rw [drained, Multiset.coe_nil, add_zero] at nodes
        exact Multiset.coe_eq_coe.mp nodes
      · omega

private def mergeCalls (worker : Worker 2) : List (Act (Worker 2) (Pc 2)) :=
  .call worker (.merge (.lock worker.1 [0, 1])) :: List.replicate 4 (.move worker)

/-- Two producers and two consumers, two nodes each. The consumers hand the nodes on in
another order than they have dequeued them, and the first to merge is a consumer. -/
private def crossedPairs (first second : Fin 2) : List (Act (Worker 2) (Pc 2)) :=
  [.call (.enqueue, second) (.enqueue ⟨second, 1⟩), .call (.enqueue, first) (.enqueue ⟨first, 1⟩),
    .move (.enqueue, first), .call (.dequeue, second) .dequeue, .move (.dequeue, second),
    .move (.enqueue, second), .call (.dequeue, first) .dequeue, .move (.dequeue, first),
    .move (.dequeue, first), .move (.dequeue, second),
    .call (.enqueue, second) (.enqueue ⟨second, 2⟩), .move (.enqueue, second),
    .call (.dequeue, first) .dequeue, .move (.dequeue, first),
    .call (.enqueue, first) (.enqueue ⟨first, 2⟩), .move (.enqueue, first),
    .move (.dequeue, first)] ++
    mergeCalls (.dequeue, first) ++ mergeCalls (.enqueue, second) ++
    [.call (.dequeue, second) .dequeue, .move (.dequeue, second), .move (.dequeue, second)] ++
    mergeCalls (.enqueue, first) ++ mergeCalls (.dequeue, second)

private theorem crossedPairs_run : ∃ trace state,
    Run (program 2).next (start 5 (fun _ i => i)) trace state ∧ Joined state ∧
      state.hist.empty = 0 ∧ state.mem.handed = [⟨1, 1⟩, ⟨0, 1⟩, ⟨1, 2⟩, ⟨0, 2⟩] ∧
      state.hist.enqueued = [⟨0, 1⟩, ⟨1, 1⟩, ⟨1, 2⟩, ⟨0, 2⟩] := by
  have run : Run (program 2).next (start 5 (fun _ i => i)) _ _ := run_of_play (crossedPairs 0 1) rfl
  refine ⟨_, _, run, ?_, rfl, rfl, rfl⟩
  rintro ⟨side, i⟩
  cases side with
  | enqueue => revert i; exact Fin.forall_fin_two.mpr ⟨rfl, rfl⟩
  | dequeue => revert i; exact Fin.forall_fin_two.mpr ⟨rfl, rfl⟩

theorem rcu_consumes_iff_crossedPairs : ∃ trace state,
    Run (program 2).next (start 5 (fun _ i => i)) trace state ∧ Joined state ∧
      state.mem.handed = [⟨1, 1⟩, ⟨0, 1⟩, ⟨1, 2⟩, ⟨0, 2⟩] ∧
      state.hist.enqueued = [⟨0, 1⟩, ⟨1, 1⟩, ⟨1, 2⟩, ⟨0, 2⟩] ∧ Consumed state := by
  obtain ⟨trace, state, run, joined, found, handed, enqueued⟩ := crossedPairs_run
  exact ⟨trace, state, run, joined, handed, enqueued,
    (rcu_consumes_iff run joined).mpr ((empty_iff run).mp found)⟩

/-! ### A consumer that comes first -/

theorem merge_embeds : Embeds Samples.step (step (c := c)) .merge Memory.globals
    (fun mem globals => { mem with globals := globals }) :=
  { runs := fun _ _ => rfl
    get_put := fun _ _ => rfl
    put_put := fun _ _ _ => rfl }

theorem handler_returns {mem : Memory c} (free : mem.globals.lock = false) {worker : Worker c}
    {pc : Pc c} (member : pc ∈ handler NUM_SAMPLES clock worker) :
    ∃ after value retries, Returns step pc mem after value retries ∧
      after.globals.lock = false := by
  rcases List.mem_append.mp member with call | last
  · obtain ⟨side, i⟩ := worker
    cases side with
    | enqueue =>
        obtain ⟨index, _, rfl⟩ := List.mem_map.mp call
        exact ⟨_, (), 0, Returns.of_ret rfl, free⟩
    | dequeue =>
        rw [List.eq_of_mem_replicate call]
        cases queue : mem.myqueue with
        | nil =>
            have stepped : step .dequeue mem = some (mem, .ret ()) := by simp only [step, queue]
            exact ⟨_, (), 0, Returns.of_ret stepped, free⟩
        | cons node rest =>
            have stepped : step .dequeue mem =
                some ({ mem with myqueue := rest }, .goto (.call_rcu node)) := by
              simp only [step, queue]
            exact ⟨_, (), 0, Returns.of_goto stepped (Returns.of_ret rfl), free⟩
  · rw [List.mem_singleton.mp last]
    obtain ⟨after, returns, unlocked⟩ :=
      Samples.merge_returns free worker.1 (timestamp NUM_SAMPLES clock worker)
    exact ⟨_, (), 0, returns.embed merge_embeds, unlocked⟩

theorem empty_kept (missed : state.hist.empty ≠ 0) (moved : (program c).next state act = some next) :
    next.hist.empty ≠ 0 := by
  rcases Program.next_cases moved with
    ⟨worker, entry, script, left, rfl, idle, called, rfl⟩ |
    ⟨worker, script, left, rfl, idle, impossible, rfl⟩ |
    ⟨worker, pc, script, mem, outcome, rfl, busy, stepped, rfl⟩
  · exact missed
  · cases impossible
  · intro none_
    exact missed ((does_of_step worker state.hist stepped).empty_iff.mp none_).1

theorem finishes (free : state.mem.globals.lock = false)
    (idle : ∀ worker, ∃ script, state.thread worker = .idle script ∧
      ∀ pc ∈ script, pc ∈ handler NUM_SAMPLES clock worker) :
    ∃ final, Reaches (program c).next (fun _ _ => True) state final ∧ Joined final := by
  obtain ⟨final, reached, _, done, _⟩ := scripts_reach
    (fun _ (mem : Memory c) => mem.globals.lock = false) (fun worker => (state.thread worker).script) 0
    Finset.univ
    (by
      intro n mem worker pc _ member held
      obtain ⟨script, standing, own⟩ := idle worker
      rw [standing] at member
      exact handler_returns held (own pc member))
    (by
      intro worker _
      obtain ⟨script, standing, _⟩ := idle worker
      rw [standing]
      rfl)
    free
  exact ⟨final, reached, fun worker => done worker (Finset.mem_univ worker)⟩

/-- Whatever the number of threads, a consumer may look before there is anything to find. -/
theorem some_run_leaves_nodes {NUM_SAMPLES c : ℕ} (threads : 1 ≤ c) (sampled : c ≤ NUM_SAMPLES)
    (clock : Clock c) : ∃ trace state, Run (program c).next (start NUM_SAMPLES clock) trace state ∧
      Joined state ∧ state.mem.myqueue ≠ [] ∧
      state.mem.globals.num .dequeue ≠ state.hist.dequeued.length := by
  have slots : 0 < NUM_SAMPLES / c := Nat.div_pos sampled threads
  let first : Worker c := (.dequeue, ⟨0, threads⟩)
  have script : handler NUM_SAMPLES clock first = Pc.dequeue ::
      (List.replicate (NUM_SAMPLES / c - 1) Pc.dequeue ++
        [.merge (.lock .dequeue (timestamp NUM_SAMPLES clock first))]) := by
    change List.replicate (NUM_SAMPLES / c) Pc.dequeue ++ _ = _
    rw [← Nat.sub_add_cancel slots, List.replicate_succ, Nat.add_sub_cancel]
    rfl
  have idle : (start NUM_SAMPLES clock).thread first = .idle (handler NUM_SAMPLES clock first) := rfl
  rw [script] at idle
  obtain ⟨entered, call, entry⟩ := (program c).call_exists idle (if_pos rfl)
  have misses : step Pc.dequeue entered.mem = some (entered.mem, .ret ()) := by
    rw [entry.mem_eq]
    rfl
  obtain ⟨middle, moved, facts⟩ := (program c).move_exists entry.thread_eq misses
  have missed : middle.hist.empty ≠ 0 := by
    rw [facts.hist_eq, entry.mem_eq, entry.hist_eq]
    exact Nat.one_ne_zero
  have free : middle.mem.globals.lock = false := by
    rw [facts.mem_eq, entry.mem_eq]
    rfl
  have standing : ∀ worker, ∃ script, middle.thread worker = .idle script ∧
      ∀ pc ∈ script, pc ∈ handler NUM_SAMPLES clock worker := by
    intro worker
    by_cases same : worker = first
    · rw [same, facts.thread_eq, script]
      exact ⟨_, rfl, fun pc member => List.mem_cons_of_mem _ member⟩
    · rw [facts.others worker same, entry.others worker same]
      exact ⟨_, rfl, fun pc member => member⟩
  obtain ⟨final, ⟨late, onward, _⟩, joined⟩ := finishes free standing
  have run : Run (program c).next (start NUM_SAMPLES clock) _ final :=
    ((Run.single call).snoc moved).append onward
  have still : final.hist.empty ≠ 0 := onward.invariant (Transition.meets_true late) missed
    (fun _ _ _ now _ stepped => empty_kept now stepped)
  have attempts := joined_attempts run joined
  have samples := joined_samples run joined
  have lengths := congrArg List.length (run_fifo run)
  rw [(joined_nodes run joined).2, List.length_append] at lengths
  refine ⟨_, final, run, joined, ?_, ?_⟩
  · intro drained
    rw [drained, List.length_nil] at lengths
    omega
  · omega

/-- The consumer of the smallest run makes its first attempt before the producer comes. -/
theorem one_consumer_leaves_nodes : ∃ trace state,
    Run (program 1).next (start 262144 (fun _ _ => 0)) trace state ∧ Joined state ∧
      state.mem.myqueue ≠ [] ∧ state.mem.globals.num .dequeue ≠ state.hist.dequeued.length :=
  some_run_leaves_nodes (by decide) (by decide) (fun _ _ => 0)

end QueueBench.RcuQueue
