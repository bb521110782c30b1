import QueueBench.Lib.Linearization
import QueueBench.SemiBlockingOrder

/-! The semi-blocking queue as its callers see it: a first-in-first-out queue whose get may say
that there is nothing. A put has its effect in its successful CAS and a get when it pops a node.
A get that returns NULL has its effect when it reads `in_queue`, not when it looks at `out_queue`
again: nodes may have been put in between. -/

namespace QueueBench.SemiBlockingQueue
open LinkedList (Links)
open Linearization
open Machine (Outcome Pool Program Act)
open Transition (Run Meets run_of_play)

variable {α ι : Type*}

def queueKind (α : Type*) : QueueKind α (Option α) :=
  { room := fun _ => True
    stored := none
    got := some
    nothing := fun answer => answer = none }

def operation : Pc α → Option (QueueOp α)
  | .putRead new => some (.put new)
  | .getLock => some .get
  | _ => none

def lastLook : Option α → Status (QueueOp α) (Option α)
  | none => .done none
  | some _ => .pending .get

def queueView : View (QueueRoot α) (Pc α) (Hist ι α) (List α) (QueueOp α) (Option α) :=
  { value := fun _ hist => hist.puts.drop hist.takes.length
    status := fun root _ pc =>
      match pc with
      | .putRead new => .pending (.put new)
      | .putWrite new _ => .pending (.put new)
      | .putCas new _ => .pending (.put new)
      | .getHead => lastLook root.out_queue
      | .getUnlock head => .done head
      | .getLock | .getOut | .getIn | .getCas _ | .revNext _ | .revLink _ _ | .revOut _ _
      | .getPop _ => .pending .get }

variable {root after : QueueRoot α} {hist : Hist ι α} {place : ι → Option (Pc α)}
variable {layout : Layout α} {state next : Pool ι (QueueRoot α) (Pc α) Unit (Hist ι α)}

theorem Inv.value (inv : Inv root hist place layout) :
    queueView.value root hist = layout.content := by
  change hist.puts.drop hist.takes.length = layout.content
  rw [inv.order, List.drop_left]

theorem Inv.put_acts (inv : Inv root hist place layout) (new : α) :
    (queueKind α).acts (queueView.value root hist) (.put new) none
      (queueView.value after { hist with puts := hist.puts ++ [new] }) := by
  have length := congrArg List.length inv.order
  rw [List.length_append] at length
  change (queueKind α).acts _ _ _ ((hist.puts ++ [new]).drop hist.takes.length)
  rw [List.drop_append_of_le_length (by omega)]
  exact .put trivial

theorem Inv.pop_acts (inv : Inv root hist place layout) {thread : ι} {head : α}
    (at_ : place thread = some (.getPop head)) :
    (queueKind α).acts (queueView.value root hist) .get (some head)
      (queueView.value after { hist with takes := hist.takes ++ [head] }) := by
  obtain ⟨noLoc, _, first⟩ := inv.standing thread _ at_
  have listed := inv.out_links
  rw [first] at listed
  obtain ⟨rest, split, _⟩ := listed.uncons
  have front : layout.content = head :: (rest ++ layout.fresh.reverse) := by
    rw [Layout.content, noLoc, split]
    rfl
  have order := inv.order
  rw [front] at order
  have popped : hist.puts = (hist.takes ++ [head]) ++ (rest ++ layout.fresh.reverse) := by
    rw [order, List.append_assoc]
    rfl
  rw [inv.value, front]
  change (queueKind α).acts _ _ _ (hist.puts.drop (hist.takes ++ [head]).length)
  rw [popped, List.drop_left]
  exact .get

/-- A get that finds `in_queue` empty finds the whole queue empty. -/
theorem Inv.none_acts (inv : Inv root hist place layout) {thread : ι}
    (at_ : place thread = some .getIn) (empty : root.in_queue = none) :
    root.out_queue = none ∧
      (queueKind α).acts (queueView.value root hist) .get none (queueView.value root hist) := by
  obtain ⟨noLoc, _, noOld⟩ := inv.standing thread _ at_
  have out := inv.out_links
  have fresh := inv.in_links
  rw [noOld] at out
  rw [empty] at fresh
  refine ⟨out, ?_⟩
  have nothing : queueView.value root hist = [] := by
    rw [inv.value, Layout.content, noLoc, noOld, fresh.null]
    rfl
  rw [nothing]
  exact .nothing rfl

section Steps
variable [DecidableEq ι] [DecidableEq α] {act : Act ι (Pc α)}

omit [DecidableEq ι] in
/-- Only the get that holds the lock sees `out_queue` change. -/
theorem view_others (held : Held state layout) {thread : ι} {pc : Pc α}
    {outcome : Outcome (Pc α) (Option α)} (at_ : state.at thread = some pc)
    (stepped : step pc state.mem = some (after, outcome)) (later : Hist ι α) :
    ∀ other standing, other ≠ thread → state.at other = some standing →
      queueView.status after later standing = queueView.status state.mem state.hist standing := by
  intro other standing different otherAt
  cases standing with
  | getHead =>
      have outside := held.mutex.other_outside otherAt trivial (Ne.symm different) at_
      change lastLook after.out_queue = lastLook state.mem.out_queue
      rw [out_queue_kept stepped outside]
  | _ => rfl

theorem queue_matched (held : Held state layout)
    (moved : program.next state act = some next) :
    ∃ effects, Linear (queueKind α).acts (queueView.atomic state)
      (shown program operation state act) effects (queueView.atomic next) := by
  rcases Program.next_cases moved with
    ⟨thread, entry, script, left, rfl, idle, called, rfl⟩ |
    ⟨thread, script, left, rfl, idle, impossible, rfl⟩ |
    ⟨thread, pc, script, mem, outcome, rfl, busy, stepped, rfl⟩
  · cases entry with
    | putRead new => exact ⟨[], View.match_call idle rfl rfl⟩
    | getLock => exact ⟨[], View.match_call idle rfl rfl⟩
    | _ => cases called
  · cases impossible
  · have at_ : state.at thread = some pc := Pool.at_busy busy
    have others := view_others held at_ stepped (record thread pc state.mem state.hist)
    change step pc state.mem = some (mem, outcome) at stepped
    cases pc with
    | putRead new =>
        cases stepped
        exact ⟨[], View.match_silent busy rfl others rfl rfl rfl⟩
    | putWrite new in_queue =>
        cases stepped
        exact ⟨[], View.match_silent busy rfl others rfl rfl rfl⟩
    | putCas new in_queue =>
        by_cases same : state.mem.in_queue = in_queue
        · have recorded : record thread (.putCas new in_queue) state.mem state.hist =
              { state.hist with puts := state.hist.puts ++ [new] } := if_pos same
          have swapped : step (.putCas new in_queue) state.mem =
              some ({ state.mem with in_queue := some new }, .ret none) := if_pos same
          cases swapped.symm.trans stepped
          refine ⟨_, View.match_both busy swapped others rfl ?_⟩
          change (queueKind α).acts _ _ _ (queueView.value _ (record _ _ _ _))
          rw [recorded]
          exact held.put_acts new
        · have recorded : record thread (.putCas new in_queue) state.mem state.hist =
              state.hist := if_neg same
          have failed : step (.putCas new in_queue) state.mem =
              some (state.mem, .retry (.putRead new)) := if_neg same
          cases failed.symm.trans stepped
          refine ⟨[], View.match_silent busy failed others rfl rfl ?_⟩
          exact congrArg (queueView.value state.mem) recorded
    | getLock =>
        by_cases free : state.mem.lock = true
        · have blocked : step (.getLock : Pc α) state.mem = none := if_pos free
          cases blocked.symm.trans stepped
        · have locks : step (.getLock : Pc α) state.mem =
              some ({ state.mem with lock := true }, .goto .getOut) := if_neg free
          cases locks.symm.trans stepped
          exact ⟨[], View.match_silent busy locks others rfl rfl rfl⟩
    | getOut =>
        cases first : state.mem.out_queue with
        | none =>
            have none_out : step (.getOut : Pc α) state.mem = some (state.mem, .goto .getIn) := by
              simp only [step, first, Option.isNone_none, if_true]
            cases none_out.symm.trans stepped
            exact ⟨[], View.match_silent busy none_out others rfl rfl rfl⟩
        | some head =>
            have some_out : step (.getOut : Pc α) state.mem = some (state.mem, .goto .getHead) := by
              simp only [step, first, Option.isNone_some, Bool.false_eq_true, if_false]
            cases some_out.symm.trans stepped
            refine ⟨[], View.match_silent busy some_out others rfl ?_ rfl⟩
            change lastLook state.mem.out_queue = _
            rw [first]
            rfl
    | getIn =>
        cases first : state.mem.in_queue with
        | none =>
            obtain ⟨out, nothing⟩ := held.none_acts at_ first
            have none_in : step (.getIn : Pc α) state.mem = some (state.mem, .goto .getHead) := by
              simp only [step, first]
            cases none_in.symm.trans stepped
            refine ⟨_, View.match_effect busy none_in others rfl rfl ?_ nothing⟩
            change lastLook state.mem.out_queue = _
            rw [out]
            rfl
        | some head =>
            have some_in : step (.getIn : Pc α) state.mem =
                some (state.mem, .goto (.getCas head)) := by
              simp only [step, first]
            cases some_in.symm.trans stepped
            exact ⟨[], View.match_silent busy some_in others rfl rfl rfl⟩
    | getCas head =>
        by_cases same : state.mem.in_queue = some head
        · have swapped : step (.getCas head) state.mem =
              some ({ state.mem with in_queue := none }, .goto (.revNext head)) := if_pos same
          cases swapped.symm.trans stepped
          exact ⟨[], View.match_silent busy swapped others rfl rfl rfl⟩
        · have failed : step (.getCas head) state.mem =
              some (state.mem, .retry .getIn) := if_neg same
          cases failed.symm.trans stepped
          exact ⟨[], View.match_silent busy failed others rfl rfl rfl⟩
    | revNext head =>
        cases stepped
        exact ⟨[], View.match_silent busy rfl others rfl rfl rfl⟩
    | revLink head following =>
        cases stepped
        exact ⟨[], View.match_silent busy rfl others rfl rfl rfl⟩
    | revOut head following =>
        cases stepped
        cases following with
        | none => exact ⟨[], View.match_silent busy rfl others rfl rfl rfl⟩
        | some next => exact ⟨[], View.match_silent busy rfl others rfl rfl rfl⟩
    | getHead =>
        cases first : state.mem.out_queue with
        | none =>
            have none_out : step (.getHead : Pc α) state.mem =
                some (state.mem, .goto (.getUnlock none)) := by
              simp only [step, first]
            cases none_out.symm.trans stepped
            refine ⟨[], View.match_silent busy none_out others rfl ?_ rfl⟩
            change _ = lastLook state.mem.out_queue
            rw [first]
            rfl
        | some head =>
            have some_out : step (.getHead : Pc α) state.mem =
                some (state.mem, .goto (.getPop head)) := by
              simp only [step, first]
            cases some_out.symm.trans stepped
            refine ⟨[], View.match_silent busy some_out others rfl ?_ rfl⟩
            change _ = lastLook state.mem.out_queue
            rw [first]
            rfl
    | getPop head =>
        cases stepped
        exact ⟨_, View.match_effect busy rfl others rfl rfl rfl (held.pop_acts at_)⟩
    | getUnlock head =>
        cases stepped
        exact ⟨[], View.match_return busy rfl others rfl rfl⟩

/-- Whatever its callers do with free nodes, the semi-blocking queue shows them a
first-in-first-out queue; a get answers NULL only at an instant at which it is empty. -/
theorem semi_blocking_linearizable (first : α → Option α)
    {trace : List (Pool ι (QueueRoot α) (Pc α) Unit (Hist ι α) × Act ι (Pc α))}
    (run : Run program.next (SemiBlockingQueue.start (ι := ι) first) trace state)
    (meets : Meets Guarded trace) :
    Linearizable (queueKind α).acts [] (history program operation trace) := by
  have shaped : Shaped (SemiBlockingQueue.start (ι := ι) first) := ⟨Layout.empty, Inv.start first⟩
  have explained : ∃ effects, Linear (queueKind α).acts
      (queueView.atomic (SemiBlockingQueue.start (ι := ι) first))
      (history program operation trace) effects (queueView.atomic state) :=
    linear_of_run run meets shaped
      (fun _ _ _ shaped guarded moved => shaped_next shaped guarded moved)
      (fun _ _ _ shaped _ moved => queue_matched shaped.choose_spec moved)
  obtain ⟨effects, linear⟩ := explained
  exact ⟨effects, linear.explains⟩

theorem semi_blocking_linearizable_putAgain :
    Linearizable (queueKind ℕ).acts []
      ([.invoke true (.put 7), .respond true none, .invoke false .get, .invoke true (.put 7),
        .respond false (some 7), .respond true none, .invoke false .get, .respond false (some 7),
        .invoke false .get, .respond false none] : List (Event Bool (QueueOp ℕ) (Option ℕ))) := by
  have run : Run program.next (SemiBlockingQueue.start (ι := Bool) (fun _ => none)) _ _ :=
    run_of_play (putAgain ++ [.move false]) rfl
  exact semi_blocking_linearizable _ run (by decide)

end Steps

end QueueBench.SemiBlockingQueue
