import QueueBench.LockFreeSteps

/-! Runs of the lock-free queue: what its callers see, and what becomes of its memory. -/

namespace QueueBench.LockFreeQueue
open Heap (Owns)
open Linearization
open Machine (Outcome Pool Program Act Thread)
open Transition (Run Meets run_of_play)

variable {α τ ι : Type*} [DecidableEq α] [DecidableEq ι]
variable {queue : Queue α τ} {layout : Layout α τ}
variable {state next final : Pool ι (Queue α τ) (Pc α τ) Unit (Hist τ)} {act : Act ι (Pc α τ)}
variable {later trace : List (Pool ι (Queue α τ) (Pc α τ) Unit (Hist τ) × Act ι (Pc α τ))}

theorem held_of_run {node nodeptr : α} (different : node ≠ nodeptr)
    (run : Run program.next (LockFreeQueue.start <| q_initialize node nodeptr) trace state)
    (meets : Meets Guarded trace) : Held state :=
  run.invariant meets (held_start different)
    (fun _ _ _ held guarded moved => held_next held guarded moved)

theorem list_matched (held : Held state) (guarded : Guarded state act)
    (moved : program.next state act = some next) :
    ∃ effects, Linear (listKind τ).acts (listView.atomic state)
      (shown program operation state act) effects (listView.atomic next) := by
  rcases Program.next_cases moved with
    ⟨thread, entry, script, left, rfl, idle, called, rfl⟩ |
    ⟨thread, script, left, rfl, idle, impossible, rfl⟩ |
    ⟨thread, pc, script, mem, outcome, rfl, busy, stepped, rfl⟩
  · rcases client_call called with ⟨l, rfl⟩ | ⟨m, rfl⟩
    · exact ⟨[], View.match_call idle rfl rfl⟩
    · exact ⟨[], View.match_call idle rfl rfl⟩
  · cases impossible
  · have at_ : state.at thread = some pc := Pool.at_busy busy
    obtain ⟨after, result, enabled, shows, _⟩ := held.steps at_ (guarded pc at_)
    cases enabled.symm.trans stepped
    exact View.match_shows (fun _ _ => rfl) busy stepped shows

/-- The lock-free queue shows its callers a first-in-first-out queue; NULL means that it was
empty when the pop read `queue->tail`. -/
theorem lock_free_linearizable {node nodeptr : α} (different : node ≠ nodeptr)
    (run : Run program.next (LockFreeQueue.start <| q_initialize node nodeptr) trace state)
    (meets : Meets Guarded trace) :
    Linearizable (listKind τ).acts [] (history program operation trace) := by
  have explained : ∃ effects, Linear (listKind τ).acts
      (listView.atomic <| LockFreeQueue.start (ι := ι) (τ := τ) <| q_initialize node nodeptr)
      (history program operation trace) effects (listView.atomic state) :=
    linear_of_run run meets (held_start different)
      (fun _ _ _ held guarded moved => held_next held guarded moved)
      (fun _ _ _ held guarded moved => list_matched held guarded moved)
  obtain ⟨effects, linear⟩ := explained
  exact ⟨effects, linear.explains⟩

def overlapping : List (Act Bool (Pc ℕ ℕ)) :=
  .call true (qpush (some 5) 2 3) :: List.replicate 12 (.move true) ++
    .call true (qpush (some 6) 4 5) :: List.replicate 9 (.move true) ++
    [.call false (qpop 9), .move false, .move false, .move true, .move true] ++
    List.replicate 25 (.move false) ++ [.move true, .call false (qpop 9)] ++
    List.replicate 30 (.move false) ++ .call true (qpush (some 7) 2 3) ::
    List.replicate 12 (.move true)

theorem lock_free_linearizable_overlapping :
    Linearizable (listKind ℕ).acts []
      ([.invoke true (.put (some 5)), .respond true none, .invoke true (.put (some 6)),
        .invoke false .get, .respond false (some 5), .respond true none, .invoke false .get,
        .respond false (some 6), .invoke true (.put (some 7)), .respond true none] :
        List (Event Bool (QueueOp (Option ℕ)) (Option ℕ))) := by
  have run : Run program.next (LockFreeQueue.start <| q_initialize 0 1) _ _ :=
    run_of_play overlapping rfl
  exact lock_free_linearizable (by decide) run (by decide)

/-- Without the guards a push reaches a node through a pointer to a pointer cell: it was complete
before the pop of the only item moved `queue->tail` back, and the next push tries to help. -/
example :
    (Transition.play program.next (LockFreeQueue.start <| q_initialize 0 1)
      (.call true (qpush (some 5) 2 3) :: List.replicate 12 (.move true) ++
        .call false (qpop 9) :: List.replicate 18 (.move false) ++
        .call true (qpush (some 6) 4 5) :: List.replicate 12 (.move true) ++
        List.replicate 12 (.move false) ++ .call true (qpush (some 7) 6 7) ::
        List.replicate 13 (.move true) : List (Act Bool (Pc ℕ ℕ)))).map
      (fun played => (program.next played.2 (.move true)).isNone) = some true := rfl

/-- A call is over after a number of its own steps that does not depend on the others. -/
theorem turns_left {thread : ι} {pc : Pc α τ} (held : Held state)
    (at_ : state.at thread = some pc) (run : Run program.next state later final)
    (meets : Meets Guarded later) (inside : ∀ taken ∈ later, taken.1.at thread ≠ none) :
    Machine.turns thread later + (final.at thread).elim 0 Pc.left ≤ pc.left := by
  induction run with
  | nil =>
      rw [at_]
      exact Nat.le_of_eq (Nat.zero_add pc.left)
  | @snoc trace middle last act before moved ih =>
      rw [Transition.meets_snoc] at meets
      have bound := ih meets.1 (fun taken member => inside taken (List.mem_append_left _ member))
      have now : Held middle := before.invariant meets.1 held
        (fun _ _ _ held guarded stepped => held_next held guarded stepped)
      obtain ⟨place, standing⟩ := Option.ne_none_iff_exists'.mp (inside (middle, act)
        (List.mem_append_right _ (List.mem_singleton_self _)))
      change middle.at thread = some place at standing
      rw [standing] at bound
      change Machine.turns thread trace + place.left ≤ pc.left at bound
      have counted : Machine.turns thread (trace ++ [(middle, act)]) =
          Machine.turns thread trace + (if act.thread = thread then 1 else 0) := by
        simp only [Machine.turns, List.countP_append, List.countP_cons, List.countP_nil,
          decide_eq_true_eq, Nat.zero_add]
      rw [counted]
      by_cases mine : act.thread = thread
      · subst mine
        obtain ⟨same, outcome, stepped, reached, _⟩ := Program.own_move moved standing
        have guarded := meets.2
        rw [same] at guarded
        obtain ⟨after, result, enabled, _, nearer⟩ := now.steps standing (guarded place standing)
        cases enabled.symm.trans stepped
        rw [if_pos rfl, reached]
        omega
      · have stays : last.at thread = middle.at thread :=
          congrArg Thread.pc? (Program.next_other moved (Ne.symm mine))
        rw [if_neg mine, stays, standing]
        exact bound

omit [DecidableEq α] in
theorem pairs_length (items : List (Item α τ)) :
    (items.flatMap Item.blocks).length = 2 * items.length := by
  induction items with
  | nil => rfl
  | cons item rest ih =>
      rw [List.flatMap_cons, List.length_append, ih, List.length_cons]
      change 2 + _ = _
      omega

omit [DecidableEq α] in
theorem Layout.blocks_length (layout : Layout α τ) (settled : layout.limbo = []) :
    (layout.blocks false).length = 2 * (layout.items.length + 1) := by
  rw [Layout.blocks, settled, List.append_nil, List.length_cons]
  change (layout.dummy :: layout.items.flatMap Item.blocks).length + 1 = _
  rw [List.length_cons, pairs_length]
  omega

omit [DecidableEq α] [DecidableEq ι] in
theorem Held.quiet (held : Held state) (quiet : state.Quiet) :
    ∃ layout, Shape state.mem state.hist none none layout := by
  obtain ⟨push, pop, layout, pushing, popping, shape⟩ := held
  have noPush : push = none := by
    apply pushing.none_of_nobody
    intro thread pc standing
    cases (quiet thread).symm.trans standing
  have noPop : pop = none := by
    apply popping.none_of_nobody
    intro thread pc standing
    cases (quiet thread).symm.trans standing
  subst noPush noPop
  exact ⟨layout, shape⟩

/-- Every access of an allowed step is to a block of the right kind, a call is over after thirty
steps of its own, and between the calls no memory is lost: there are two blocks for each value
in the queue, and two more. -/
theorem lock_free_memory {node nodeptr : α} (different : node ≠ nodeptr)
    (run : Run program.next (LockFreeQueue.start <| q_initialize node nodeptr) trace state)
    (meets : Meets Guarded trace) :
    (∀ thread pc, state.at thread = some pc → Allowed state pc →
      ∃ next, program.next state (.move thread) = some next) ∧
    (∀ thread pc later final, state.at thread = some pc → Run program.next state later final →
      Meets Guarded later → (∀ taken ∈ later, taken.1.at thread ≠ none) →
      Machine.turns thread later ≤ 30) ∧
    (state.Quiet → ∃ blocks, Owns state.mem.heap blocks ∧
      blocks.length = 2 * (state.hist.content.length + 1)) := by
  have held := held_of_run different run meets
  refine ⟨?_, ?_, ?_⟩
  · intro thread pc at_ allowed
    obtain ⟨after, outcome, enabled, _⟩ := held.steps at_ allowed
    exact ⟨_, Program.next_move (Pool.at_eq_some at_) enabled⟩
  · intro thread pc later final at_ continued guarded inside
    have bound := turns_left held at_ continued guarded inside
    have most : pc.left ≤ 30 := by
      cases pc with
      | push l point => cases point <;> simp only [Pc.left, PushPoint.left] <;> omega
      | pop m point => cases point <;> simp only [Pc.left, PopPoint.left] <;> omega
    omega
  · intro quiet
    obtain ⟨layout, shape⟩ := held.quiet quiet
    have owns := shape.owns
    change Owns state.mem.heap (layout.blocks false ++ []) at owns
    rw [List.append_nil] at owns
    refine ⟨layout.blocks false, owns, ?_⟩
    rw [layout.blocks_length (shape.settled rfl), shape.content, List.length_map]

theorem lock_free_memory_overlapping :
    ∃ (trace : _) (state : Pool Bool (Queue ℕ ℕ) (Pc ℕ ℕ) Unit (Hist ℕ)),
      Run program.next (LockFreeQueue.start <| q_initialize 0 1) trace state ∧
      Meets Guarded trace ∧ ∃ blocks, Owns state.mem.heap blocks ∧ blocks.length = 4 := by
  have run : Run program.next (LockFreeQueue.start <| q_initialize 0 1) _ _ :=
    run_of_play overlapping rfl
  have memory := (lock_free_memory (by decide) run (by decide)).2.2
  exact ⟨_, _, run, by decide, memory (by intro thread; cases thread <;> rfl)⟩

/-! ### The end of the queue -/

omit [DecidableEq ι] in
theorem free_owned {block : α} {others : List α} (owns : Owns queue.heap (block :: others)) :
    ∃ after, queue.free (some block) = some after ∧ after.head = queue.head ∧
      after.tail = queue.tail ∧ (∀ other ∈ others, after.heap other = queue.heap other) ∧
      Owns after.heap others := by
  obtain ⟨cell, live⟩ := owns.live List.mem_cons_self
  refine ⟨_, free_some live, rfl, rfl, ?_, owns.free⟩
  intro other member
  apply Function.update_of_ne
  rintro rfl
  exact (List.nodup_cons.mp owns.nodup).1 member

omit [DecidableEq ι] in
theorem Shape.free_empty {hist : Hist τ} (shape : Shape queue hist none none layout)
    (empty : layout.items = []) :
    ∃ after, queue_free queue = some after ∧ Owns after.heap [] := by
  have tail : queue.tail = some layout.root := by
    rw [shape.tail_eq (by intro _ _ impossible; cases impossible)
      (by intro _ _ impossible; cases impossible), Layout.lastPtr, empty]
    rfl
  have owns : Owns queue.heap [layout.dummy, layout.root] := by
    apply shape.owns.perm
    change (layout.blocks false ++ []).Perm _
    rw [List.append_nil, Layout.blocks, shape.settled rfl, empty]
    exact List.Perm.swap _ _ _
  obtain ⟨first, freed, head, _, _, left⟩ := free_owned owns
  obtain ⟨second, gone, _, _, _, nothing⟩ := free_owned left
  refine ⟨second, ?_, nothing⟩
  rw [queue_free, if_pos (shape.head_eq.trans tail.symm), shape.head_eq, shape.nptr_root,
    Option.bind_some, freed, Option.bind_some]
  exact gone

omit [DecidableEq ι] in
theorem Shape.free_items {hist : Hist τ} (shape : Shape queue hist none none layout)
    {front : List (Item α τ)} {last : Item α τ} (split : layout.items = front ++ [last]) :
    ∃ after, queue_free queue = some after ∧ Owns after.heap (front.flatMap Item.blocks) := by
  have member : last ∈ layout.items := by
    rw [split]
    exact List.mem_append_right _ (List.mem_singleton_self last)
  have tail : queue.tail = some last.ptr := by
    rw [shape.tail_eq (by intro _ _ impossible; cases impossible)
      (by intro _ _ impossible; cases impossible), Layout.lastPtr, split, List.foldl_append]
    rfl
  have different : queue.head ≠ queue.tail := by
    rw [shape.head_eq, tail]
    intro same
    exact shape.root_apart rfl member (Option.some.inj same).symm
  have owns : Owns queue.heap (layout.dummy :: layout.root :: last.node :: last.ptr ::
      front.flatMap Item.blocks) := by
    apply shape.owns.perm
    change (layout.blocks false ++ []).Perm _
    rw [List.append_nil, Layout.blocks, shape.settled rfl, split, List.append_nil,
      List.flatMap_append, List.flatMap_singleton]
    have pair : (front.flatMap Item.blocks ++ last.blocks).Perm
        (last.node :: last.ptr :: front.flatMap Item.blocks) :=
      List.perm_append_comm.trans (List.Perm.swap last.node last.ptr _)
    exact ((pair.cons layout.dummy).cons layout.root).trans (List.Perm.swap _ _ _)
  have ptrIn : last.ptr ∈ last.node :: last.ptr :: front.flatMap Item.blocks :=
    List.mem_cons_of_mem _ List.mem_cons_self
  obtain ⟨count, cell⟩ := (shape.chain rfl).ptr_eq member
  obtain ⟨first, freed, headFirst, tailFirst, keptFirst, left⟩ := free_owned owns
  obtain ⟨second, freedRoot, _, tailSecond, keptSecond, rest⟩ := free_owned left
  obtain ⟨third, freedNode, _, tailThird, _, behind⟩ := free_owned rest
  obtain ⟨fourth, freedPtr, _, _, _, lost⟩ := free_owned behind
  have nptr : second.nptr (some last.ptr) = some (some last.node) := by
    have still : second.heap last.ptr = some (.pointer count (some last.node)) := by
      rw [keptSecond _ ptrIn, keptFirst _ (List.mem_cons_of_mem _ ptrIn)]
      exact cell
    exact nptr_some still
  have rootThere : queue.head ≠ none ∧ queue.tail ≠ none := by
    rw [shape.head_eq, tail]
    exact ⟨Option.some_ne_none _, Option.some_ne_none _⟩
  refine ⟨fourth, ?_, lost⟩
  rw [queue_free, if_neg different, if_pos rootThere, shape.head_eq, shape.nptr_root,
    Option.bind_some, freed, Option.bind_some, freedRoot, Option.bind_some, tail, nptr,
    Option.bind_some, freedNode, Option.bind_some]
  exact freedPtr

/-- queue_free loses two blocks for each value left in the queue but the newest. -/
theorem queue_free_loses {node nodeptr : α} (different : node ≠ nodeptr)
    (run : Run program.next (LockFreeQueue.start <| q_initialize node nodeptr) trace state)
    (meets : Meets Guarded trace) (quiet : state.Quiet) :
    ∃ after lost, queue_free state.mem = some after ∧ Owns after.heap lost ∧
      lost.length = 2 * (state.hist.content.length - 1) := by
  obtain ⟨layout, shape⟩ := (held_of_run different run meets).quiet quiet
  have length : state.hist.content.length = layout.items.length := by
    rw [shape.content, List.length_map]
  rcases List.eq_nil_or_concat layout.items with empty | ⟨front, last, split⟩
  · obtain ⟨after, freed, nothing⟩ := shape.free_empty empty
    refine ⟨after, [], freed, nothing, ?_⟩
    rw [length, empty]
    rfl
  · rw [List.concat_eq_append] at split
    obtain ⟨after, freed, lost⟩ := shape.free_items split
    refine ⟨after, _, freed, lost, ?_⟩
    rw [length, split, List.length_append, List.length_singleton, Nat.add_sub_cancel]
    exact pairs_length front

theorem queue_free_loses_two :
    ∃ (trace : _) (state : Pool Bool (Queue ℕ ℕ) (Pc ℕ ℕ) Unit (Hist ℕ)),
      Run program.next (LockFreeQueue.start <| q_initialize 0 1) trace state ∧
      Meets Guarded trace ∧ state.hist.content = [some 5, some 6] ∧
      ∃ after lost, queue_free state.mem = some after ∧ Owns after.heap lost ∧
        lost.length = 2 := by
  have run : Run program.next (LockFreeQueue.start <| q_initialize 0 1) _ _ :=
    run_of_play (.call true (qpush (some 5) 2 3) :: List.replicate 12 (.move true) ++
      .call true (qpush (some 6) 4 5) :: List.replicate 12 (.move true)) rfl
  exact ⟨_, _, run, by decide, rfl,
    queue_free_loses (by decide) run (by decide) (by intro thread; cases thread <;> rfl)⟩

end QueueBench.LockFreeQueue
