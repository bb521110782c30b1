import QueueBench.BasicQueue
import QueueBench.Lib.Spawn

/-! A round of main of SimpleQueueImpl/main.c: the basic queue is made anew, main puts the numbers
from 1 on into it, and only then it creates the threads that take them out. BasicDequeue does not
look whether there is an entry; here there always is one. -/

namespace QueueBench.BasicQueue
open CircularList (Links)
open Machine (Outcome Pool Program Act Thread Created Staged Finishes Descends
  calls_next script_total_next total_done brought_next sum_shares)
open Transition (Run Meets)

open scoped BigOperators

/-- The loops of main and of `basicworker_handler`; `none` is main. -/
def roundCalls (NUM_TASKS NUM_THREADS : ℕ) : Option (Fin NUM_THREADS) → List Call
  | none => (List.range NUM_TASKS).map (fun i : ℕ => .BasicEnqueue (i + 1))
  | some _ => List.replicate (NUM_TASKS / NUM_THREADS) .BasicDequeue

/-- `InitBasicQueue` and the threads of one round, whatever the round before has left behind. -/
def roundStart (NUM_TASKS NUM_THREADS : ℕ) (links : Links Addr) (elem : Addr → ℤ) :
    BasicPool (Option (Fin NUM_THREADS)) :=
  start links elem (roundCalls NUM_TASKS NUM_THREADS)

/-! ### What the calls are still to do -/

def Pc.toRemove : Pc → ℤ
  | .lockDequeue | .first | .remove _ => 1
  | _ => 0

def Pc.brings (elem : Addr → ℤ) : Pc → List ℤ
  | .malloc i => [i]
  | .lockEnqueue n | .insertTail n => [elem n]
  | _ => []

def Pc.Removing : Pc → Prop
  | .lockDequeue | .first | .remove _ | .unlockDequeue _ | .returnElem _ => True
  | _ => False

def Pc.rank : Pc → ℕ
  | .lockDequeue => 4
  | .malloc _ | .first => 3
  | .lockEnqueue _ | .remove _ => 2
  | .insertTail _ | .unlockDequeue _ => 1
  | .unlockEnqueue | .returnElem _ => 0

def Role {NUM_THREADS : ℕ} : Option (Fin NUM_THREADS) → Pc → Prop
  | none, pc => ¬ pc.Removing
  | some _, pc => pc.Removing

def Hist.values {ι : Type*} (hist : Hist ι) : List ℤ := hist.inserted.map Insertion.value

def Hist.nothing : Hist Unit :=
  { inserted := []
    removals := [] }

def removed {ι : Type*} (_mem : Memory) (hist : Hist ι) : ℤ := hist.removals.length

variable {ι : Type*} [DecidableEq ι] {mem after : Memory} {hist : Hist ι} {pc : Pc}
variable {outcome : Outcome Pc (Option ℤ)} {NUM_TASKS NUM_THREADS : ℕ}

structure Effect (thread : ι) (hist : Hist ι) (mem after : Memory) (pc : Pc)
    (outcome : Outcome Pc (Option ℤ)) : Prop where
  removes : removed after (record thread pc mem hist) + outcome.pc?.elim 0 Pc.toRemove =
    removed mem hist + pc.toRemove
  inserts : (record thread pc mem hist).values ++ outcome.pc?.elim [] (Pc.brings after.elem) =
    hist.values ++ pc.brings mem.elem
  onward : ∀ next, outcome.pc? = some next →
    outcome = .goto next ∧ next.rank < pc.rank ∧ (next.Removing ↔ pc.Removing)

theorem effect_goto {thread : ι} {next : Pc} (same : record thread pc mem hist = hist)
    (removes : next.toRemove = pc.toRemove) (brings : next.brings after.elem = pc.brings mem.elem)
    (nearer : next.rank < pc.rank) (role : next.Removing ↔ pc.Removing) :
    Effect thread hist mem after pc (.goto next) := by
  constructor
  · change removed after (record thread pc mem hist) + next.toRemove = _
    rw [same, removes]
    rfl
  · change (record thread pc mem hist).values ++ next.brings after.elem = _
    rw [same, brings]
  · intro other reached
    cases reached
    exact ⟨rfl, nearer, role⟩

theorem step_effect (thread : ι) (hist : Hist ι) (stepped : step pc mem = some (after, outcome)) :
    Effect thread hist mem after pc outcome := by
  cases pc with
  | malloc i =>
      cases stepped
      refine effect_goto rfl rfl ?_ (Nat.lt_succ_self _) Iff.rfl
      change [Function.update mem.elem (.entry mem.allocated) i (.entry mem.allocated)] = [i]
      rw [Function.update_self]
  | lockEnqueue n =>
      simp only [step] at stepped
      split at stepped
      · cases stepped
      · cases stepped
        exact effect_goto rfl rfl rfl (Nat.lt_succ_self _) Iff.rfl
  | insertTail n =>
      cases stepped
      constructor
      · rfl
      · change (hist.inserted ++ [_]).map Insertion.value ++ [] = hist.values ++ [mem.elem n]
        rw [List.append_nil, List.map_append]
        rfl
      · intro next reached
        cases reached
        exact ⟨rfl, Nat.lt_succ_self _, Iff.rfl⟩
  | unlockEnqueue =>
      cases stepped
      exact ⟨rfl, rfl, fun _ impossible => by cases impossible⟩
  | lockDequeue =>
      simp only [step] at stepped
      split at stepped
      · cases stepped
      · cases stepped
        exact effect_goto rfl rfl rfl (Nat.lt_succ_self _) Iff.rfl
  | first =>
      cases stepped
      exact effect_goto rfl rfl rfl (Nat.lt_succ_self _) Iff.rfl
  | remove n =>
      cases stepped
      constructor
      · change ((hist.removals ++ [_]).length : ℤ) + 0 = hist.removals.length + 1
        rw [List.length_append, List.length_singleton, Int.add_zero]
        rfl
      · rfl
      · intro next reached
        cases reached
        exact ⟨rfl, Nat.lt_succ_self _, Iff.rfl⟩
  | unlockDequeue n =>
      cases stepped
      exact effect_goto rfl rfl rfl (Nat.lt_succ_self _) Iff.rfl
  | returnElem n =>
      cases stepped
      constructor
      · change ((hist.removals.map (Removal.answer thread (mem.elem n))).length : ℤ) + 0 = _
        rw [List.length_map]
        rfl
      · rfl
      · intro next impossible
        cases impossible

theorem step_descends : Descends step Pc.rank := by
  intro pc next mem after outcome stepped reached
  have onward := (step_effect () Hist.nothing stepped).onward next reached
  exact ⟨onward.1, onward.2.1⟩

theorem step_blocked (blocked : step pc mem = none) : mem.lock = true ∧ ¬ pc.Inside := by
  cases pc with
  | lockEnqueue n =>
      simp only [step] at blocked
      split at blocked
      · rename_i locked
        exact ⟨locked, id⟩
      · cases blocked
  | lockDequeue =>
      simp only [step] at blocked
      split at blocked
      · rename_i locked
        exact ⟨locked, id⟩
      · cases blocked
  | _ => cases blocked

/-! ### The state of a round -/

structure Round (NUM_TASKS : ℕ) (state : BasicPool (Option (Fin NUM_THREADS))) : Prop where
  inv : Inv state.mem state.hist state.at
  staged : Staged none (fun thread => (roundCalls NUM_TASKS NUM_THREADS thread).map Call.entry)
    state
  interface : Interface state
  roles : ∀ thread, ∀ pc ∈ (state.thread thread).calls, Role thread pc
  removes : state.total removed (Thread.due Pc.toRemove) =
    (NUM_THREADS * (NUM_TASKS / NUM_THREADS) : ℕ)
  inserts : state.hist.values ++ (state.thread none).calls.flatMap (Pc.brings state.mem.elem) =
    (List.range NUM_TASKS).map (fun i : ℕ => (i : ℤ) + 1)

variable {state next : BasicPool (Option (Fin NUM_THREADS))}
variable {act : Act (Option (Fin NUM_THREADS)) Pc}
variable {links : Links Addr} {elem : Addr → ℤ}

theorem toRemove_nonneg (pc : Pc) : 0 ≤ pc.toRemove := by
  cases pc <;> simp only [Pc.toRemove] <;> omega

theorem inserting_idle (inserting : ¬ pc.Removing) : pc.toRemove = 0 := by
  cases pc with
  | lockDequeue => exact absurd trivial inserting
  | first => exact absurd trivial inserting
  | remove n => exact absurd trivial inserting
  | _ => rfl

theorem removing_idle (removing : pc.Removing) (elem : Addr → ℤ) : pc.brings elem = [] := by
  cases pc with
  | malloc i => exact removing.elim
  | lockEnqueue n => exact removing.elim
  | insertTail n => exact removing.elim
  | _ => rfl

theorem brings_entry (elem other : Addr → ℤ) (call : Call) :
    call.entry.brings elem = call.entry.brings other := by
  cases call <;> rfl

theorem round_start (NUM_TASKS NUM_THREADS : ℕ) (links : Links Addr) (elem : Addr → ℤ) :
    Round NUM_TASKS (roundStart NUM_TASKS NUM_THREADS links elem) := by
  have roles : ∀ thread,
      ∀ pc ∈ ((roundStart NUM_TASKS NUM_THREADS links elem).thread thread).calls,
      Role thread pc := by
    intro thread pc member
    obtain ⟨call, listed, rfl⟩ := List.mem_map.mp member
    cases thread with
    | none =>
        obtain ⟨i, _, rfl⟩ := List.mem_map.mp listed
        exact id
    | some worker =>
        rw [List.eq_of_mem_replicate listed]
        trivial
  refine
    { inv := inv_start links elem
      staged := Or.inl (fun _ _ => rfl)
      interface := interface_of_run .nil
      roles := roles
      removes := ?_
      inserts := ?_ }
  · have first : Thread.due Pc.toRemove
        ((roundStart NUM_TASKS NUM_THREADS links elem).thread none) = 0 :=
      Thread.due_eq_zero (fun pc member => inserting_idle (roles none pc member))
    have others : ∀ worker : Fin NUM_THREADS, Thread.due Pc.toRemove
        ((roundStart NUM_TASKS NUM_THREADS links elem).thread (some worker)) =
          (NUM_TASKS / NUM_THREADS : ℕ) := by
      intro worker
      change (((List.replicate (NUM_TASKS / NUM_THREADS) Call.BasicDequeue).map
        Call.entry).map Pc.toRemove).sum = _
      rw [List.map_replicate, List.map_replicate, List.sum_replicate]
      exact Int.mul_one _
    exact (Int.zero_add _).trans (sum_shares first others)
  · change [] ++ (((List.range NUM_TASKS).map (fun i : ℕ => Call.BasicEnqueue (i + 1))).map
      Call.entry).flatMap (Pc.brings _) = _
    rw [List.nil_append, List.map_map, List.flatMap_map]
    exact (List.map_eq_flatMap ..).symm

/-- While main is not done nobody removes, and then an entry is left for each removal. -/
theorem Round.finds (round : Round NUM_TASKS state) (act : Act (Option (Fin NUM_THREADS)) Pc) :
    Finds state act := by
  cases act with
  | call thread entry => trivial
  | quit thread => trivial
  | move thread =>
      intro pc at_ n same
      subst same
      have done : state.thread none = .idle [] := by
        rcases round.staged with waiting | done
        · cases thread with
          | none => exact absurd trivial (round.roles none _ (Pool.at_mem_calls at_))
          | some worker =>
              rw [Pool.at_idle (waiting (some worker) (Option.some_ne_none worker))] at at_
              cases at_
        · exact done
      have inserts := congrArg List.length round.inserts
      rw [done] at inserts
      change (state.hist.values ++ []).length = _ at inserts
      rw [List.append_nil, List.length_map, List.length_range, Hist.values, List.length_map]
        at inserts
      have part := Pool.due_le_total removed toRemove_nonneg at_
      rw [round.removes] at part
      change (state.hist.removals.length : ℤ) + 1 ≤ _ at part
      have shared : NUM_THREADS * (NUM_TASKS / NUM_THREADS) ≤ NUM_TASKS :=
        Nat.mul_div_le NUM_TASKS NUM_THREADS
      omega

theorem Round.inserts_next (round : Round NUM_TASKS state) (created : Created none state act)
    (moved : (program _).next state act = some next) :
    next.hist.values ++ (next.thread none).calls.flatMap (Pc.brings next.mem.elem) =
      (List.range NUM_TASKS).map (fun i : ℕ => (i : ℤ) + 1) := by
  refine (brought_next Hist.values (fun mem => Pc.brings mem.elem) Pc.Removing moved ?_
    (fun mem _ removing => removing_idle removing mem.elem) ?_ ?_ ?_ ?_).trans round.inserts
  · intro thread pc mem outcome _ stepped
    exact (step_effect thread state.hist stepped).inserts
  · intro thread pc mem outcome reached _ stepped stays removing
    exact ((step_effect thread state.hist stepped).onward reached stays).2.2.mpr removing
  · intro thread pc other at_
    cases thread with
    | none => exact absurd rfl other
    | some worker => exact round.roles (some worker) pc (Pool.at_mem_calls at_)
  · intro pc member
    obtain ⟨call, rfl⟩ := round.interface none pc member
    exact brings_entry _ _ call
  · intro other pc at_
    rw [Pool.at_idle (created.resolve_left other)] at at_
    cases at_

theorem Round.kept (round : Round NUM_TASKS state) (created : Created none state act)
    (moved : (program _).next state act = some next) : Round NUM_TASKS next := by
  refine
    { inv := round.inv.kept round.interface (round.finds act) moved
      staged := round.staged.kept created moved
      interface := Machine.script_next moved round.interface
      roles := ?_
      removes := ?_
      inserts := round.inserts_next created moved }
  · apply calls_next ?_ moved round.roles
    intro thread pc mem after outcome reached stepped stays role
    have same := ((step_effect thread state.hist stepped).onward reached stays).2.2
    cases thread with
    | none => exact fun removing => role (same.mp removing)
    | some worker => exact same.mpr role
  · rw [← round.removes]
    apply script_total_next moved
    intro thread pc mem outcome _ _ stepped
    exact (step_effect thread state.hist stepped).removes

theorem round_of_run {trace : List (BasicPool (Option (Fin NUM_THREADS)) × Act _ Pc)}
    (run : Run (program _).next (roundStart NUM_TASKS NUM_THREADS links elem) trace state)
    (meets : Meets (Created none) trace) : Round NUM_TASKS state :=
  run.invariant meets (round_start NUM_TASKS NUM_THREADS links elem)
    (fun _ _ _ round created moved => round.kept created moved)

/-- Only the lock makes anyone wait, and its owner never does. -/
theorem Round.standstill (round : Round NUM_TASKS state)
    (still : ∀ act, Created none state act → (program _).next state act = none) :
    state.Done := by
  obtain ⟨blocked, quiet⟩ := round.staged.standstill still
  apply quiet
  intro thread
  cases standing : state.at thread with
  | none => rfl
  | some pc =>
      obtain ⟨locked, _⟩ := step_blocked (blocked thread pc standing)
      obtain ⟨owner, place, at_, inside⟩ := round.inv.mutex.owned locked
      exact absurd inside (step_blocked (blocked owner place at_)).2

theorem Round.received (round : Round NUM_TASKS state) (done : state.Done) :
    state.hist.removals.map Removal.value =
      (List.range (NUM_THREADS * (NUM_TASKS / NUM_THREADS))).map
        (fun i : ℕ => some ((i : ℤ) + 1)) := by
  have quiet : state.Quiet := fun thread => Pool.at_idle (done thread)
  have inserts := round.inserts
  rw [done none] at inserts
  change state.hist.values ++ [] = _ at inserts
  rw [List.append_nil] at inserts
  have removes := round.removes
  rw [total_done removed Pc.toRemove done] at removes
  have count : state.hist.removals.length = NUM_THREADS * (NUM_TASKS / NUM_THREADS) :=
    Int.ofNat_inj.mp removes
  have shared : NUM_THREADS * (NUM_TASKS / NUM_THREADS) ≤ NUM_TASKS :=
    Nat.mul_div_le NUM_TASKS NUM_THREADS
  rw [round.inv.only_inserted.returned quiet, count]
  calc
    (state.hist.inserted.take (NUM_THREADS * (NUM_TASKS / NUM_THREADS))).map
        (fun insertion => some insertion.value) =
      (state.hist.values.take (NUM_THREADS * (NUM_TASKS / NUM_THREADS))).map some := by
        rw [Hist.values, ← List.map_take, List.map_map]
        rfl
    _ = ((List.range (NUM_THREADS * (NUM_TASKS / NUM_THREADS))).map
          (fun i : ℕ => (i : ℤ) + 1)).map some := by
        rw [inserts, ← List.map_take, List.take_range, Nat.min_eq_left shared]
    _ = _ := List.map_map

/-- Whatever is left of the round before and whatever the threads do, the round comes to its end,
no dequeue finds the queue empty, and the numbers come out in their order. -/
theorem basic_round_completes (NUM_TASKS NUM_THREADS : ℕ) (links : Links Addr) (elem : Addr → ℤ) :
    Finishes (program _) (Created none) (roundStart NUM_TASKS NUM_THREADS links elem) ∧
      ∀ trace state,
        Run (program _).next (roundStart NUM_TASKS NUM_THREADS links elem) trace state →
        Meets (Created none) trace →
        OnlyInserted state ∧ (state.Done → state.hist.removals.map Removal.value =
          (List.range (NUM_THREADS * (NUM_TASKS / NUM_THREADS))).map
            (fun i : ℕ => some ((i : ℤ) + 1))) := by
  constructor
  · apply step_descends.finishes
    intro trace state run meets still
    exact (round_of_run run meets).standstill still
  · intro trace state run meets
    have round := round_of_run run meets
    exact ⟨round.inv.only_inserted, round.received⟩

end QueueBench.BasicQueue
