import QueueBench.Lib.Linearization
import QueueBench.BasicQueue

/-! The basic queue as its callers see it: a first-in-first-out queue without bound, as long as no
removal comes before its insertion. An enqueue has its effect in its CIRCLEQ_INSERT_TAIL and a
dequeue in its CIRCLEQ_REMOVE. What it then returns is still in the entry, which nobody writes. -/

namespace QueueBench.BasicQueue
open CircularList (Links)
open Linearization
open Machine (Outcome Pool Program Act scriptClient_call script_next)
open Transition (Run Meets run_of_play)

def listKind : QueueKind ℤ (Option ℤ) :=
  { room := fun _ => True
    stored := none
    got := some
    nothing := fun _ => False }

def operation : Pc → Option (QueueOp ℤ)
  | .malloc i => some (.put i)
  | .lockDequeue => some .get
  | _ => none

variable {ι : Type*}

def listView : View Memory Pc (Hist ι) (List ℤ) (QueueOp ℤ) (Option ℤ) :=
  { value := fun _ hist => (hist.inserted.drop hist.removals.length).map Insertion.value
    status := fun mem _ pc =>
      match pc with
      | .malloc i => .pending (.put i)
      | .lockEnqueue n => .pending (.put (mem.elem n))
      | .insertTail n => .pending (.put (mem.elem n))
      | .unlockEnqueue => .done none
      | .lockDequeue | .first | .remove _ => .pending .get
      | .unlockDequeue n => .done (some (mem.elem n))
      | .returnElem n => .done (some (mem.elem n)) }

variable {mem after : Memory} {hist later : Hist ι}

theorem status_elem (same : after.elem = mem.elem) (pc : Pc) :
    listView.status after later pc = listView.status mem hist pc := by
  cases pc <;> simp only [listView, same]

section Steps
variable [DecidableEq ι] {place : ι → Option Pc} {thread : ι} {pc : Pc}

omit [DecidableEq ι] in
/-- The entry that malloc is about to return is nobody's yet. -/
theorem Inv.entry_new (inv : Inv mem hist place) (at_ : place thread = some pc) {n : Addr}
    (holds : pc.made = some n ∨ pc.took = some n) : n ≠ .entry mem.allocated := by
  have older : ∃ k < mem.allocated, n = .entry k := by
    rcases holds with made | took
    · have mine : holding Pc.made place thread = some n := by
        rw [holding, at_]
        exact made
      exact (inv.made.own thread n mine).1
    · have mine : holding Pc.took place thread = some n := by
        rw [holding, at_]
        exact took
      exact inv.made.old n (inv.taken.inserted thread n mine)
  obtain ⟨k, small, rfl⟩ := older
  intro same
  cases same
  exact Nat.lt_irrefl _ small

omit [DecidableEq ι] in
theorem Inv.status_malloc (inv : Inv mem hist place) (at_ : place thread = some pc) (i : ℤ)
    (elem : after.elem = Function.update mem.elem (.entry mem.allocated) i) :
    listView.status after later pc = listView.status mem hist pc := by
  have same : ∀ n, pc.made = some n ∨ pc.took = some n → after.elem n = mem.elem n := by
    intro n holds
    rw [elem, Function.update_of_ne (inv.entry_new at_ holds)]
  cases pc with
  | lockEnqueue n => simp only [listView, same n (Or.inl rfl)]
  | insertTail n => simp only [listView, same n (Or.inl rfl)]
  | unlockDequeue n => simp only [listView, same n (Or.inr rfl)]
  | returnElem n => simp only [listView, same n (Or.inr rfl)]
  | _ => rfl

omit [DecidableEq ι] in
theorem Listed.insert_acts {links : Links Addr} (listed : Listed links mem.elem hist) (n : Addr) :
    listKind.acts (listView.value mem hist) (.put (mem.elem n)) none
      (listView.value after
        { hist with inserted := hist.inserted ++ [{ entry := n, value := mem.elem n }] }) := by
  have few := listed.few
  rw [entries_length] at few
  change listKind.acts _ _ _ (((hist.inserted ++ [_]).drop hist.removals.length).map _)
  rw [List.drop_append_of_le_length few, List.map_append]
  exact .put trivial

omit [DecidableEq ι] in
theorem Listed.remove_acts {links : Links Addr} (listed : Listed links mem.elem hist)
    (found : hist.removals.length < hist.inserted.length) (removal : Removal ι) :
    listKind.acts (listView.value mem hist) .get (some (mem.elem (links.next .head)))
      (listView.value after { hist with removals := hist.removals ++ [removal] }) := by
  have value : mem.elem (links.next .head) = hist.inserted[hist.removals.length].value := by
    rw [(listed.front found).1]
    exact listed.stored _ (List.getElem_mem found)
  change listKind.acts ((hist.inserted.drop hist.removals.length).map _) _ _
    ((hist.inserted.drop (hist.removals ++ [removal]).length).map _)
  rw [List.drop_eq_getElem_cons found, List.map_cons, List.length_append, List.length_singleton,
    value]
  exact .get

variable {state next : BasicPool ι} {act : Act ι Pc}

structure Held (state : BasicPool ι) : Prop where
  inv : Inv state.mem state.hist state.at
  interface : Interface state

/-- Every step of the basic queue is a step of the unbounded queue. -/
theorem list_matched (held : Held state) (finds : Finds state act)
    (moved : (program ι).next state act = some next) :
    ∃ effects, Linear listKind.acts (listView.atomic state) (shown (program ι) operation state act)
      effects (listView.atomic next) := by
  have inv := held.inv
  rcases Program.next_cases moved with
    ⟨thread, entry, script, left, rfl, idle, called, rfl⟩ |
    ⟨thread, script, left, rfl, idle, impossible, rfl⟩ |
    ⟨thread, pc, script, mem, outcome, rfl, busy, stepped, rfl⟩
  · obtain ⟨call, rfl⟩ := held.interface thread entry (by
      rw [idle, scriptClient_call called]
      exact List.mem_cons_self)
    cases call with
    | BasicEnqueue i => exact ⟨[], View.match_call idle rfl rfl⟩
    | BasicDequeue => exact ⟨[], View.match_call idle rfl rfl⟩
  · cases impossible
  · have at_ : state.at thread = some pc := Pool.at_busy busy
    have still : ∀ {after : Memory} {later : Hist ι}, after.elem = state.mem.elem →
        ∀ other place, other ≠ thread → state.at other = some place →
          listView.status after later place = listView.status state.mem state.hist place :=
      fun same _ place _ _ => status_elem same place
    change step pc state.mem = some (mem, outcome) at stepped
    cases pc with
    | malloc i =>
        cases stepped
        refine ⟨[], View.match_silent busy rfl ?_ rfl ?_ rfl⟩
        · exact fun other place _ standing => inv.status_malloc standing i rfl
        · simp only [listView, Function.update_self]
    | lockEnqueue n =>
        by_cases locked : state.mem.lock = true
        · have blocked : step (.lockEnqueue n) state.mem = none := if_pos locked
          cases blocked.symm.trans stepped
        · have locks : step (.lockEnqueue n) state.mem =
              some ({ state.mem with lock := true }, .goto (.insertTail n)) := if_neg locked
          cases locks.symm.trans stepped
          exact ⟨[], View.match_silent busy locks (still rfl) rfl rfl rfl⟩
    | insertTail n =>
        cases stepped
        exact ⟨_, View.match_effect busy rfl (still rfl) rfl rfl rfl (inv.listed.insert_acts n)⟩
    | unlockEnqueue =>
        cases stepped
        exact ⟨[], View.match_return busy rfl (still rfl) rfl rfl⟩
    | lockDequeue =>
        by_cases locked : state.mem.lock = true
        · have blocked : step .lockDequeue state.mem = none := if_pos locked
          cases blocked.symm.trans stepped
        · have locks : step .lockDequeue state.mem =
              some ({ state.mem with lock := true }, .goto .first) := if_neg locked
          cases locks.symm.trans stepped
          exact ⟨[], View.match_silent busy locks (still rfl) rfl rfl rfl⟩
    | first =>
        cases stepped
        exact ⟨[], View.match_silent busy rfl (still rfl) rfl rfl rfl⟩
    | remove n =>
        have found := finds (.remove n) at_ n rfl
        have first := inv.first thread n at_
        subst first
        cases stepped
        exact ⟨_, View.match_effect busy rfl (still rfl) rfl rfl rfl
          (inv.listed.remove_acts found _)⟩
    | unlockDequeue n =>
        cases stepped
        exact ⟨[], View.match_silent busy rfl (still rfl) rfl rfl rfl⟩
    | returnElem n =>
        cases stepped
        refine ⟨[], View.match_return busy rfl (still rfl) rfl ?_⟩
        change (state.hist.inserted.drop (state.hist.removals.map _).length).map _ = _
        rw [List.length_map]
        rfl

variable {trace : List (BasicPool ι × Act ι Pc)} {links : Links Addr} {elem : Addr → ℤ}
variable {calls : ι → List Call}

/-- The basic queue shows its callers a first-in-first-out queue, as long as no CIRCLEQ_REMOVE
comes before the insertion of its entry. -/
theorem basic_linearizable (run : Run (program ι).next (start links elem calls) trace state)
    (finds : Meets Finds trace) :
    Linearizable listKind.acts [] (history (program ι) operation trace) := by
  have explained : ∃ effects, Linear listKind.acts (listView.atomic (start links elem calls))
      (history (program ι) operation trace) effects (listView.atomic state) := by
    have initial : Held (start links elem calls) := ⟨inv_start links elem, interface_of_run .nil⟩
    apply linear_of_run run finds initial
    · intro before act after held found moved
      exact ⟨held.inv.kept held.interface found moved, script_next moved held.interface⟩
    · intro before act after held found moved
      exact list_matched held found moved
  obtain ⟨effects, linear⟩ := explained
  exact ⟨effects, linear.explains⟩

end Steps

/-- The dequeue is called first, and waits until the other thread has inserted 7. -/
private def calledFirst : List (Act (Fin 2) Pc) :=
  .call 1 Call.BasicDequeue.entry :: labels 0 (.BasicEnqueue 7) 4 ++ List.replicate 5 (.move 1)

theorem basic_linearizable_calledFirst : Linearizable listKind.acts []
    ([.invoke 1 .get, .invoke 0 (.put 7), .respond 0 none, .respond 1 (some 7)] :
      List (Event (Fin 2) (QueueOp ℤ) (Option ℤ))) := by
  have run : Run (program (Fin 2)).next (start { next := id, prev := id } (fun _ => 0)
      (fun thread => if thread = 0 then [.BasicEnqueue 7] else [.BasicDequeue])) _ _ :=
    run_of_play calledFirst rfl
  apply basic_linearizable run
  apply finds_of_removes run
  intro removal member
  rw [List.mem_singleton.mp member]
  intro impossible
  cases impossible

end QueueBench.BasicQueue
