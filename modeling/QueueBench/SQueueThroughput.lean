import QueueBench.TicketDiscipline
import QueueBench.TicketFifo

/-! The THROUGHPUT run of queue type 1: producers enqueue until their time is over,
consumers dequeue until they are told -1 or their time is over. A consumer can be left
with a ticket that no producer will serve; this does not happen as long as no slot is
overwritten and no head ticket is drawn beyond the last tail ticket. -/

namespace QueueBench.TicketQueue
open Machine (Outcome Pool Program Client Act Thread Returns)
open RingArith (addAndFetch addAndFetch_eq tmod_of_nonneg slot_range)
open Transition (Run Meets Reaches meets_true run_of_play)

/-- Where a handler is: in the `while` loop of `enqueue_handler` or `worker_handler`, or
behind it. -/
inductive Loop where
  | enqueueing
  | dequeueing
  | stopped
deriving DecidableEq, Repr

/-- The clock may end either loop between two calls; a dequeue that returns -1 ends the
loop of its consumer. -/
def throughputClient : Client Pc ℤ Loop :=
  { call := fun loop pc =>
      match loop, pc with
      | .enqueueing, .add elem => if 0 < elem then some .enqueueing else none
      | .dequeueing, .gate => some .dequeueing
      | _, _ => none
    quit := fun loop =>
      match loop with
      | .enqueueing | .dequeueing => some .stopped
      | .stopped => none
    done := fun loop ret =>
      match loop with
      | .dequeueing => if ret = -1 then .stopped else .dequeueing
      | .enqueueing => .enqueueing
      | .stopped => .stopped }

abbrev ThroughputPool (c : ℕ) : Type :=
  Pool (Fin c ⊕ Fin c) Queue Pc Loop (Hist (Fin c ⊕ Fin c))

def throughputProgram (c MAX_SIZE : ℕ) (headFirst : Bool) :
    Program (Fin c ⊕ Fin c) Queue Pc ℤ Loop (Hist (Fin c ⊕ Fin c)) :=
  program MAX_SIZE headFirst throughputClient

def throughputStart (c MAX_SIZE : ℕ) (junk : ℤ → ℤ) : ThroughputPool c :=
  start (InitQueue MAX_SIZE junk) (Sum.elim (fun _ => .enqueueing) (fun _ => .dequeueing))

variable {c : ℕ}

def Stopped (state : ThroughputPool c) : Prop :=
  ∀ producer : Fin c, state.thread (.inl producer) = .idle .stopped

instance (state : ThroughputPool c) : Decidable (Stopped state) :=
  inferInstanceAs (Decidable (∀ producer : Fin c, state.thread (.inl producer) = .idle .stopped))

/-- A consumer spins on a zero slot and there is nobody left to fill it. -/
def Hangs (MAX_SIZE : ℕ) (state : ThroughputPool c) : Prop :=
  Stopped state ∧ ∃ thread cur_head, state.at thread = some (.spin cur_head) ∧
    state.mem.data (cur_head.tmod MAX_SIZE) = 0

def Timely (size : ℕ) (q : Queue) : Pc → Prop
  | .add _ => q.tail + 1 < 2 ^ 31
  | .store _ cur_tail => q.data (cur_tail.tmod size) = 0
  | .draw => q.head + 1 < 2 ^ 31
  | .read cur_head => q.data (cur_head.tmod size) ≠ 0
  | _ => True

/-- The condition on a step. With all producers finished a head ticket is drawn only if it
has a tail ticket, and when the last of them finishes no head ticket is ahead. -/
def Paced (size : ℕ) (state : ThroughputPool c) : Act (Fin c ⊕ Fin c) Pc → Prop
  | .call _ _ => True
  | .quit thread =>
      (∀ producer : Fin c, .inl producer ≠ thread →
        state.thread (.inl producer) = .idle .stopped) → state.mem.head ≤ state.mem.tail
  | .move thread => ∀ pc, state.at thread = some pc → Timely size state.mem pc ∧
      (pc = .draw → Stopped state → state.mem.head < state.mem.tail)

instance (size : ℕ) (q : Queue) (pc : Pc) : Decidable (Timely size q pc) :=
  match pc with
  | .add _ => inferInstanceAs (Decidable (q.tail + 1 < 2 ^ 31))
  | .store _ cur_tail => inferInstanceAs (Decidable (q.data (cur_tail.tmod size) = 0))
  | .draw => inferInstanceAs (Decidable (q.head + 1 < 2 ^ 31))
  | .read cur_head => inferInstanceAs (Decidable (q.data (cur_head.tmod size) ≠ 0))
  | .gate | .compare | .compareWith _ | .spin _ | .clear _ _ => isTrue trivial

instance (size : ℕ) (state : ThroughputPool c) (act : Act (Fin c ⊕ Fin c) Pc) :
    Decidable (Paced size state act) :=
  match act with
  | .call _ _ => isTrue trivial
  | .quit thread => inferInstanceAs (Decidable ((∀ producer : Fin c, .inl producer ≠ thread →
      state.thread (.inl producer) = .idle .stopped) → state.mem.head ≤ state.mem.tail))
  | .move thread => inferInstanceAs (Decidable (state.Moving (fun pc => Timely size state.mem pc ∧
      (pc = .draw → Stopped state → state.mem.head < state.mem.tail)) (.move thread)))

/-! ### The ring -/

variable {ι : Type*} {size : ℕ} {q : Queue} {hist : Hist ι} {place : ι → Option Pc}

def Known (hist : Hist ι) : Pc → Prop
  | .add elem => 0 < elem
  | .store elem _ => elem ∈ hist.puts
  | .clear _ elem => elem ∈ hist.puts
  | _ => True

def visits (size : ℕ) (slot : ℤ) (tickets : List ℤ) : ℕ :=
  tickets.countP (fun ticket => ticket % size = slot)

/-- No slot has seen more stores than clears, but for what it holds. -/
structure Flow (size : ℕ) (q : Queue) (hist : Hist ι) (place : ι → Option Pc) : Prop where
  put_side : Dispenser q.tail hist.stored (putHolders place)
  get_side : Dispenser q.head hist.cleared (getHolders place)
  filled : ∀ slot : ℤ, visits size slot hist.stored ≤
    visits size slot hist.cleared + if q.data slot = 0 then 0 else 1
  held : ∀ slot : ℤ, 0 ≤ slot → slot < size → q.data slot ≠ 0 → q.data slot ∈ hist.puts
  positive : ∀ elem ∈ hist.puts, 0 < elem
  standing : ∀ thread pc, place thread = some pc → Known hist pc

theorem flow_start (size : ℕ) (junk : ℤ → ℤ) :
    Flow size (init size junk) (Hist.start : Hist ι) (fun _ => none) :=
  { put_side := Dispenser.start
    get_side := Dispenser.start
    filled := fun _ => Nat.zero_le _
    held := by
      intro slot low high nonzero
      apply absurd _ nonzero
      change RingArith.fill size 0 junk slot = 0
      rw [RingArith.fill_apply, if_pos ⟨low, high⟩]
    positive := by intro elem impossible; cases impossible
    standing := by intro thread pc impossible; cases impossible }

theorem visits_append (size : ℕ) (slot : ℤ) (tickets : List ℤ) (ticket : ℤ) :
    visits size slot (tickets ++ [ticket]) =
      visits size slot tickets + if ticket % size = slot then 1 else 0 := by
  simp only [visits, List.countP_append, List.countP_singleton, decide_eq_true_eq]

/-- A held head ticket that has a tail ticket finds its slot filled, once all stores are
done. -/
theorem Flow.served (flow : Flow size q hist place) (noPut : ∀ thread, putHolders place thread = none)
    (ahead : q.head ≤ q.tail) {thread : ι} {ticket : ℤ}
    (holds : getHolders place thread = some ticket) : q.data (ticket % size) ≠ 0 := by
  have range := flow.get_side.held_range thread ticket holds
  have live := flow.get_side.held_open thread ticket holds
  have distinct : (ticket :: hist.cleared).Nodup :=
    List.nodup_cons.mpr ⟨live, flow.get_side.settled_nodup⟩
  have inside : ∀ other ∈ ticket :: hist.cleared, other ∈ hist.stored := by
    intro other member
    rw [flow.put_side.settled_iff noPut]
    rcases List.mem_cons.mp member with same | cleared
    · rw [same]
      omega
    · have earlier := flow.get_side.settled_range other cleared
      omega
  have fewer : visits size (ticket % size) (ticket :: hist.cleared) ≤
      visits size (ticket % size) hist.stored :=
    (distinct.subperm inside).countP_le _
  have more : visits size (ticket % size) (ticket :: hist.cleared) =
      visits size (ticket % size) hist.cleared + 1 := by
    simp only [visits, List.countP_cons, decide_true, if_true]
  have flown := flow.filled (ticket % size)
  intro zero
  rw [if_pos zero] at flown
  omega

section Steps

variable [DecidableEq ι]

theorem Flow.move (flow : Flow size q hist place) (thread : ι) (target : Option Pc)
    (putSame : target.bind Pc.putTicket = putHolders place thread)
    (getSame : target.bind Pc.getTicket = getHolders place thread)
    (known : ∀ pc, target = some pc → Known hist pc) :
    Flow size q hist (Function.update place thread target) := by
  refine
    { flow with
      put_side := ?_
      get_side := ?_
      standing := standing_update (fun _ now => now) flow.standing thread target known }
  · rw [putHolders_stay target putSame]
    exact flow.put_side
  · rw [getHolders_stay target getSame]
    exact flow.get_side

theorem Flow.add (flow : Flow size q hist place) {thread : ι} {elem : ℤ}
    (at_ : place thread = some (.add elem)) (low : q.tail + 1 < 2 ^ 31) :
    Flow size { q with tail := addAndFetch q.tail } { hist with puts := hist.puts ++ [elem] }
      (Function.update place thread (some (.store elem (addAndFetch q.tail)))) := by
  have positive : 0 < elem := flow.standing thread (.add elem) at_
  have free : putHolders place thread = none := by
    simp only [putHolders, at_, Option.bind_some, Pc.putTicket]
  have noHead : getHolders place thread = none := by
    simp only [getHolders, at_, Option.bind_some, Pc.getTicket]
  have older : ∀ other ∈ hist.puts, other ∈ hist.puts ++ [elem] :=
    fun other member => List.mem_append_left _ member
  rw [addAndFetch_eq flow.put_side.last_ge low]
  refine
    { put_side := ?_
      get_side := ?_
      filled := flow.filled
      held := fun slot slotLow slotHigh nonzero => older _ (flow.held slot slotLow slotHigh nonzero)
      positive := ?_
      standing := ?_ }
  · rw [putHolders_update]
    exact flow.put_side.draw thread free
  · rw [getHolders_stay (some (.store elem (q.tail + 1))) noHead.symm]
    exact flow.get_side
  · intro other member
    rcases List.mem_append.mp member with earlier | newest
    · exact flow.positive other earlier
    · rw [List.mem_singleton.mp newest]
      exact positive
  · refine standing_update ?_ flow.standing thread _ ?_
    · intro pc now
      cases pc with
      | store other ticket => exact older other now
      | clear ticket other => exact older other now
      | _ => exact now
    · intro pc same
      cases same
      exact List.mem_append_right _ (List.mem_singleton_self elem)

theorem Flow.store (flow : Flow size q hist place) {thread : ι} {elem ticket : ℤ}
    (at_ : place thread = some (.store elem ticket))
    (empty : q.data (ticket.tmod size) = 0) :
    Flow size { q with data := Function.update q.data (ticket.tmod size) elem }
      { hist with stores := hist.stores ++ [(ticket, elem)] }
      (Function.update place thread none) := by
  have put : elem ∈ hist.puts := flow.standing thread _ at_
  have positive := flow.positive elem put
  have holds : putHolders place thread = some ticket := by
    simp only [putHolders, at_, Option.bind_some, Pc.putTicket]
  have low := (flow.put_side.held_range thread ticket holds).1
  have noHead : getHolders place thread = none := by
    simp only [getHolders, at_, Option.bind_some, Pc.getTicket]
  have grown : Hist.stored { hist with stores := hist.stores ++ [(ticket, elem)] } =
      hist.stored ++ [ticket] := by
    simp only [Hist.stored, List.map_append, List.map_cons, List.map_nil]
  rw [tmod_of_nonneg low] at empty ⊢
  refine
    { put_side := ?_
      get_side := ?_
      filled := ?_
      held := ?_
      positive := flow.positive
      standing := standing_update (fun _ now => now) flow.standing thread none
        (by intro pc impossible; cases impossible) }
  · rw [putHolders_update, grown]
    exact flow.put_side.settle thread holds
  · rw [getHolders_stay none noHead.symm]
    exact flow.get_side
  · intro slot
    have before := flow.filled slot
    rw [grown, visits_append]
    change _ ≤ visits size slot hist.cleared +
      if Function.update q.data (ticket % size) elem slot = 0 then 0 else 1
    by_cases here : ticket % size = slot
    · subst slot
      rw [Function.update_self, if_pos rfl, if_neg (by omega)]
      rw [if_pos empty] at before
      omega
    · rw [Function.update_of_ne (fun same => here same.symm), if_neg here]
      exact before
  · intro slot slotLow slotHigh nonzero
    change Function.update q.data (ticket % size) elem slot ∈ hist.puts
    change Function.update q.data (ticket % size) elem slot ≠ 0 at nonzero
    by_cases here : slot = ticket % size
    · rw [here, Function.update_self]
      exact put
    · rw [Function.update_of_ne here] at nonzero ⊢
      exact flow.held slot slotLow slotHigh nonzero

theorem Flow.draw (flow : Flow size q hist place) {thread : ι}
    (at_ : place thread = some .draw) (low : q.head + 1 < 2 ^ 31) :
    Flow size { q with head := addAndFetch q.head } hist
      (Function.update place thread (some (.spin (addAndFetch q.head)))) := by
  have noTail : putHolders place thread = none := by
    simp only [putHolders, at_, Option.bind_some, Pc.putTicket]
  have free : getHolders place thread = none := by
    simp only [getHolders, at_, Option.bind_some, Pc.getTicket]
  rw [addAndFetch_eq flow.get_side.last_ge low]
  refine
    { flow with
      put_side := ?_
      get_side := ?_
      standing := standing_update (fun _ now => now) flow.standing thread _
        (by intro pc same; cases same; trivial) }
  · rw [putHolders_stay (some (.spin (q.head + 1))) noTail.symm]
    exact flow.put_side
  · rw [getHolders_update]
    exact flow.get_side.draw thread free

theorem Flow.clear (flow : Flow size q hist place) {thread : ι} {elem ticket : ℤ}
    (at_ : place thread = some (.clear ticket elem)) :
    Flow size { q with data := Function.update q.data (ticket.tmod size) 0 }
      { hist with rets := hist.rets ++ [(thread, ticket, elem)] }
      (Function.update place thread none) := by
  have noTail : putHolders place thread = none := by
    simp only [putHolders, at_, Option.bind_some, Pc.putTicket]
  have holds : getHolders place thread = some ticket := by
    simp only [getHolders, at_, Option.bind_some, Pc.getTicket]
  have low := (flow.get_side.held_range thread ticket holds).1
  have grown : Hist.cleared { hist with rets := hist.rets ++ [(thread, ticket, elem)] } =
      hist.cleared ++ [ticket] := by
    simp only [Hist.cleared, List.map_append, List.map_cons, List.map_nil]
  rw [tmod_of_nonneg low]
  refine
    { put_side := ?_
      get_side := ?_
      filled := ?_
      held := ?_
      positive := flow.positive
      standing := standing_update (fun _ now => now) flow.standing thread none
        (by intro pc impossible; cases impossible) }
  · rw [putHolders_stay none noTail.symm]
    exact flow.put_side
  · rw [getHolders_update, grown]
    exact flow.get_side.settle thread holds
  · intro slot
    have before := flow.filled slot
    rw [grown, visits_append]
    change visits size slot hist.stored ≤ _ +
      if Function.update q.data (ticket % size) 0 slot = 0 then 0 else 1
    by_cases here : ticket % size = slot
    · subst slot
      rw [Function.update_self, if_pos rfl, if_pos rfl]
      split at before <;> omega
    · rw [Function.update_of_ne (fun same => here same.symm), if_neg here]
      exact before
  · intro slot slotLow slotHigh nonzero
    change Function.update q.data (ticket % size) 0 slot ∈ hist.puts
    change Function.update q.data (ticket % size) 0 slot ≠ 0 at nonzero
    by_cases here : slot = ticket % size
    · rw [here, Function.update_self] at nonzero
      exact absurd rfl nonzero
    · rw [Function.update_of_ne here] at nonzero ⊢
      exact flow.held slot slotLow slotHigh nonzero

theorem Flow.step (flow : Flow size q hist place) (positive : 0 < size) {headFirst : Bool}
    {thread : ι} {pc : Pc} {after : Queue} {outcome : Outcome Pc ℤ}
    (at_ : place thread = some pc) (timely : Timely size q pc)
    (moved : TicketQueue.step size headFirst pc q = some (after, outcome)) :
    Flow size after (record headFirst thread pc q hist)
      (Function.update place thread outcome.pc?) := by
  cases pc with
  | add elem => cases moved; exact flow.add at_ timely
  | store elem ticket => cases moved; exact flow.store at_ timely
  | draw => cases moved; exact flow.draw at_ timely
  | clear ticket elem => cases moved; exact flow.clear at_
  | gate =>
      cases moved
      refine flow.move thread _ ?_ ?_ ?_
      · split <;> simp only [putHolders, at_, Outcome.pc?, Option.bind_some, Pc.putTicket]
      · split <;> simp only [getHolders, at_, Outcome.pc?, Option.bind_some, Pc.getTicket]
      · intro pc same
        split at same <;> cases same <;> trivial
  | compare =>
      cases moved
      refine flow.move thread _ ?_ ?_ ?_
      · simp only [putHolders, at_, Outcome.pc?, Option.bind_some, Pc.putTicket]
      · simp only [getHolders, at_, Outcome.pc?, Option.bind_some, Pc.getTicket]
      · intro pc same
        cases same
        trivial
  | compareWith first =>
      cases moved
      have noTail : putHolders place thread = none := by
        simp only [putHolders, at_, Option.bind_some, Pc.putTicket]
      have noHead : getHolders place thread = none := by
        simp only [getHolders, at_, Option.bind_some, Pc.getTicket]
      by_cases equal : first = (if headFirst then q.tail else q.head)
      · have kept := flow.move thread none noTail.symm noHead.symm
          (by intro pc impossible; cases impossible)
        simp only [record, if_pos equal, Outcome.pc?]
        exact { kept with }
      · simp only [record, if_neg equal, Outcome.pc?]
        refine flow.move thread (some .draw) noTail.symm noHead.symm ?_
        intro pc same
        cases same
        trivial
  | spin ticket =>
      cases moved
      refine flow.move thread _ ?_ ?_ ?_
      · split <;> simp only [putHolders, at_, Outcome.pc?, Option.bind_some, Pc.putTicket]
      · split <;> simp only [getHolders, at_, Outcome.pc?, Option.bind_some, Pc.getTicket]
      · intro pc same
        split at same <;> cases same <;> trivial
  | read ticket =>
      cases moved
      refine flow.move thread _ ?_ ?_ ?_
      · simp only [putHolders, at_, Outcome.pc?, Option.bind_some, Pc.putTicket]
      · simp only [getHolders, at_, Outcome.pc?, Option.bind_some, Pc.getTicket]
      · intro pc same
        cases same
        have holds : getHolders place thread = some ticket := by
          simp only [getHolders, at_, Option.bind_some, Pc.getTicket]
        have low := (flow.get_side.held_range thread ticket holds).1
        have range := slot_range (show (0 : ℤ) < size from by omega) ticket
        rw [← tmod_of_nonneg low] at range
        exact flow.held _ range.1 range.2 timely

end Steps

/-! ### The handlers -/

def Produces : Thread Pc Loop → Prop
  | .idle .enqueueing | .idle .stopped => True
  | .busy (.add _) .enqueueing | .busy (.store _ _) .enqueueing => True
  | _ => False

def Pc.Gets : Pc → Prop
  | .add _ | .store _ _ => False
  | _ => True

def Consumes : Thread Pc Loop → Prop
  | .idle .dequeueing | .idle .stopped => True
  | .busy pc .dequeueing => pc.Gets
  | _ => False

def Handles (thread : Fin c ⊕ Fin c) (standing : Thread Pc Loop) : Prop :=
  Sum.elim (fun _ => Produces standing) (fun _ => Consumes standing) thread

structure Draining (size : ℕ) (state : ThroughputPool c) : Prop where
  flow : Flow size state.mem state.hist state.at
  handles : ∀ thread, Handles thread (state.thread thread)
  ahead : Stopped state → state.mem.head ≤ state.mem.tail

variable {state next : ThroughputPool c} {act : Act (Fin c ⊕ Fin c) Pc} {headFirst : Bool}

theorem draining_start (c size : ℕ) (junk : ℤ → ℤ) : Draining size (throughputStart c size junk) :=
  { flow := flow_start size junk
    handles := by
      intro thread
      rcases thread with producer | consumer <;> trivial
    ahead := fun _ => Int.le_refl _ }

theorem handles_call {thread : Fin c ⊕ Fin c} {entry : Pc} {loop left : Loop}
    (handles : Handles thread (.idle loop)) (called : throughputClient.call loop entry = some left)
    (hist : Hist ι) :
    Handles thread (.busy entry left) ∧ Known hist entry ∧
      entry.putTicket = none ∧ entry.getTicket = none := by
  cases loop with
  | stopped => cases called
  | enqueueing =>
      cases entry with
      | add elem =>
          simp only [throughputClient] at called
          split at called
          · rename_i positive
            cases called
            rcases thread with producer | consumer
            · exact ⟨trivial, positive, rfl, rfl⟩
            · exact handles.elim
          · cases called
      | _ => cases called
  | dequeueing =>
      cases entry with
      | gate =>
          cases called
          rcases thread with producer | consumer
          · exact handles.elim
          · exact ⟨trivial, trivial, rfl, rfl⟩
      | _ => cases called

theorem quit_stopped {loop left : Loop}
    (called : throughputClient.quit loop = some left) : left = .stopped := by
  cases loop <;> cases called <;> rfl

theorem handles_gets {consumer : Fin c} {pc : Pc} {loop : Loop}
    (handles : Handles (.inr consumer : Fin c ⊕ Fin c) (.busy pc loop)) : pc.Gets := by
  cases loop with
  | dequeueing => exact handles
  | enqueueing => cases pc <;> exact handles.elim
  | stopped => cases pc <;> exact handles.elim

theorem gets_step {pc reached : Pc} {q after : Queue} {outcome : Outcome Pc ℤ}
    (gets : pc.Gets) (stepped : TicketQueue.step size headFirst pc q = some (after, outcome))
    (onward : outcome.pc? = some reached) : reached.Gets := by
  cases pc with
  | add elem => exact gets.elim
  | store elem ticket => exact gets.elim
  | gate =>
      cases stepped
      split at onward <;> cases onward <;> trivial
  | compare => cases stepped; cases onward; trivial
  | compareWith first =>
      cases stepped
      split at onward
      · split at onward <;> cases onward; trivial
      · split at onward <;> cases onward; trivial
  | draw => cases stepped; cases onward; trivial
  | spin ticket =>
      cases stepped
      split at onward <;> cases onward <;> trivial
  | read ticket => cases stepped; cases onward; trivial
  | clear ticket elem => cases stepped; cases onward

/-! ### One step -/

theorem handles_next (all : ∀ thread, Handles thread (state.thread thread))
    (moved : (throughputProgram c size headFirst).next state act = some next) :
    ∀ thread, Handles thread (next.thread thread) := by
  refine Program.each_next Handles moved all ?_ ?_ ?_
  · intro thread loop entry left idle called
    have handles := all thread
    rw [idle] at handles
    exact (handles_call handles called state.hist).1
  · intro thread loop left idle called
    rw [quit_stopped called]
    rcases thread with producer | consumer <;> trivial
  · intro thread pc loop mem outcome _ busy stepped
    have handles := all thread
    rw [busy] at handles
    rcases thread with producer | consumer
    · cases loop with
      | dequeueing => cases pc <;> exact handles.elim
      | stopped => cases pc <;> exact handles.elim
      | enqueueing =>
          cases pc with
          | add elem => cases stepped; trivial
          | store elem ticket => cases stepped; trivial
          | _ => exact handles.elim
    · cases loop with
      | enqueueing => cases pc <;> exact handles.elim
      | stopped => cases pc <;> exact handles.elim
      | dequeueing =>
          cases outcome with
          | goto reached => exact gets_step handles stepped rfl
          | retry reached => exact gets_step handles stepped rfl
          | ret value =>
              change Consumes (.idle (if value = -1 then .stopped else .dequeueing))
              split <;> trivial

theorem Draining.flow_next (draining : Draining size state) (positive : 0 < size)
    (paced : Paced size state act)
    (moved : (throughputProgram c size headFirst).next state act = some next) :
    Flow size next.mem next.hist next.at := by
  have flow := draining.flow
  unfold Pool.at at flow ⊢
  rcases Program.next_cases moved with
    ⟨thread, entry, loop, left, rfl, idle, called, rfl⟩ |
    ⟨thread, loop, left, rfl, idle, called, rfl⟩ |
    ⟨thread, pc, loop, mem, outcome, rfl, busy, stepped, rfl⟩
  · have handles := draining.handles thread
    rw [idle] at handles
    obtain ⟨_, known, noPut, noGet⟩ := handles_call handles called state.hist
    rw [Machine.at_update]
    refine flow.move thread _ ?_ ?_ ?_
    · simp only [putHolders, idle, Thread.pc?, Option.bind_some, Option.bind_none, noPut]
    · simp only [getHolders, idle, Thread.pc?, Option.bind_some, Option.bind_none, noGet]
    · intro pc same
      cases same
      exact known
  · rw [Machine.at_update]
    refine flow.move thread _ ?_ ?_ ?_
    · simp only [putHolders, idle, Thread.pc?, Option.bind_none]
    · simp only [getHolders, idle, Thread.pc?, Option.bind_none]
    · intro pc impossible
      cases impossible
  · have at_ : state.at thread = some pc := Pool.at_busy busy
    rw [Machine.at_update, Program.resume_pc]
    exact flow.step positive at_ (paced pc at_).1 stepped

theorem gets_counters {pc : Pc} {q after : Queue} {outcome : Outcome Pc ℤ} (gets : pc.Gets)
    (stepped : TicketQueue.step size headFirst pc q = some (after, outcome)) :
    after.tail = q.tail ∧
      after.head = if pc = .draw then addAndFetch q.head else q.head := by
  cases pc with
  | add elem => exact gets.elim
  | store elem ticket => exact gets.elim
  | draw => cases stepped; exact ⟨rfl, rfl⟩
  | _ => cases stepped; exact ⟨rfl, (if_neg (by rintro ⟨⟩)).symm⟩

theorem Draining.ahead_next (draining : Draining size state) (paced : Paced size state act)
    (moved : (throughputProgram c size headFirst).next state act = some next)
    (stopped : Stopped next) : next.mem.head ≤ next.mem.tail := by
  have before : ∀ producer : Fin c, .inl producer ≠ act.thread →
      state.thread (.inl producer) = .idle .stopped := by
    intro producer different
    rw [← Program.next_other moved different]
    exact stopped producer
  rcases Program.next_cases moved with
    ⟨thread, entry, loop, left, rfl, idle, called, rfl⟩ |
    ⟨thread, loop, left, rfl, idle, called, rfl⟩ |
    ⟨thread, pc, loop, mem, outcome, rfl, busy, stepped, rfl⟩
  · rcases thread with producer | consumer
    · have impossible := stopped producer
      change Function.update state.thread (.inl producer) _ _ = _ at impossible
      rw [Function.update_self] at impossible
      cases impossible
    · exact draining.ahead (fun producer => before producer (by rintro ⟨⟩))
  · exact paced before
  · have at_ : state.at thread = some pc := Pool.at_busy busy
    have handles := draining.handles thread
    rw [busy] at handles
    rcases thread with producer | consumer
    · -- A producer that has just made a step is not behind its loop yet.
      exfalso
      have impossible := stopped producer
      change Function.update state.thread (.inl producer) _ _ = _ at impossible
      rw [Function.update_self] at impossible
      cases loop with
      | dequeueing => cases pc <;> exact handles.elim
      | stopped => cases pc <;> exact handles.elim
      | enqueueing => cases outcome <;> cases impossible
    · have all : Stopped state := fun producer => before producer (by rintro ⟨⟩)
      obtain ⟨tail, head⟩ := gets_counters (handles_gets handles) stepped
      have low := draining.ahead all
      change mem.head ≤ mem.tail
      rw [tail, head]
      split
      · rename_i draws
        subst pc
        have room := (paced _ at_).2 rfl all
        rw [addAndFetch_eq draining.flow.get_side.last_ge (paced _ at_).1]
        omega
      · exact low

theorem draining_next (positive : 0 < size) (draining : Draining size state)
    (paced : Paced size state act)
    (moved : (throughputProgram c size headFirst).next state act = some next) :
    Draining size next :=
  { flow := draining.flow_next positive paced moved
    handles := handles_next draining.handles moved
    ahead := draining.ahead_next paced moved }

/-! ### The drain -/

theorem Draining.no_put (draining : Draining size state) (stopped : Stopped state) :
    ∀ thread, putHolders state.at thread = none := by
  intro thread
  rcases thread with producer | consumer
  · rw [putHolders, Pool.at, stopped producer]
    rfl
  · have handles := draining.handles (.inr consumer)
    cases standing : state.thread (.inr consumer) with
    | idle loop =>
        rw [putHolders, Pool.at, standing]
        rfl
    | busy pc loop =>
        rw [standing] at handles
        rw [putHolders, Pool.at, standing]
        cases pc with
        | store elem ticket => cases loop <;> exact handles.elim
        | _ => rfl

theorem Draining.spin_served (draining : Draining size state) (stopped : Stopped state)
    {thread : Fin c ⊕ Fin c} {cur_head : ℤ} (at_ : state.at thread = some (.spin cur_head)) :
    state.mem.data (cur_head.tmod size) ≠ 0 := by
  have holds : getHolders state.at thread = some cur_head := by
    rw [getHolders, at_]
    rfl
  have low := (draining.flow.get_side.held_range thread cur_head holds).1
  rw [tmod_of_nonneg low]
  exact draining.flow.served (draining.no_put stopped) (draining.ahead stopped) holds

/-- The next step of a call is not a failed spin: it comes closer to its end, or it
returns -1 or an element that was put. -/
def Returning (size : ℕ) (headFirst : Bool) (state : ThroughputPool c) (pc : Pc) : Prop :=
  ∃ after outcome, TicketQueue.step size headFirst pc state.mem = some (after, outcome) ∧
    ((∃ value, outcome = .ret value ∧ (value = -1 ∨ value ∈ state.hist.puts ∧ 0 < value)) ∨
      ∃ reached, outcome = .goto reached ∧ reached.rank < pc.rank)

theorem Draining.returning (draining : Draining size state) (stopped : Stopped state)
    {consumer : Fin c} {pc : Pc} (at_ : state.at (.inr consumer) = some pc) :
    Returning size headFirst state pc := by
  have handles := draining.handles (.inr consumer)
  rw [Pool.at_eq_some at_] at handles
  have gets := handles_gets handles
  cases pc with
  | add elem => exact gets.elim
  | store elem ticket => exact gets.elim
  | gate =>
      refine ⟨_, _, rfl, Or.inr ⟨_, rfl, ?_⟩⟩
      split <;> decide
  | compare => exact ⟨_, _, rfl, Or.inr ⟨_, rfl, Nat.lt_succ_self 5⟩⟩
  | compareWith first =>
      refine ⟨_, _, rfl, ?_⟩
      by_cases equal : first = (if headFirst then state.mem.tail else state.mem.head)
      · rw [if_pos equal]
        exact Or.inl ⟨-1, rfl, Or.inl rfl⟩
      · rw [if_neg equal]
        exact Or.inr ⟨_, rfl, Nat.lt_succ_self 4⟩
  | draw => exact ⟨_, _, rfl, Or.inr ⟨_, rfl, Nat.lt_succ_self 3⟩⟩
  | spin cur_head =>
      refine ⟨_, _, rfl, Or.inr ⟨.read cur_head, ?_, Nat.lt_succ_self 2⟩⟩
      exact if_neg (draining.spin_served stopped at_)
  | read cur_head => exact ⟨_, _, rfl, Or.inr ⟨_, rfl, Nat.lt_succ_self 1⟩⟩
  | clear cur_head elem =>
      have put : elem ∈ state.hist.puts := draining.flow.standing _ _ at_
      exact ⟨_, _, rfl, Or.inl ⟨elem, rfl, Or.inr ⟨put, draining.flow.positive elem put⟩⟩⟩

/-- A THROUGHPUT run drains as long as it is paced: no consumer is left spinning once the
producers have finished, and every Dequeue in progress then goes on to return an element
or -1. -/
theorem throughput_drains {MAX_SIZE : ℕ} (positive : 0 < MAX_SIZE) (junk : ℤ → ℤ)
    {trace : List (ThroughputPool c × Act (Fin c ⊕ Fin c) Pc)}
    (run : Run (throughputProgram c MAX_SIZE headFirst).next (throughputStart c MAX_SIZE junk)
      trace state)
    (paced : Meets (Paced MAX_SIZE) trace) :
    ¬ Hangs MAX_SIZE state ∧
      (Stopped state → ∀ consumer pc, state.at (.inr consumer) = some pc →
        Returning MAX_SIZE headFirst state pc) := by
  have draining : Draining MAX_SIZE state :=
    run.invariant paced (draining_start c MAX_SIZE junk)
      (fun _ _ _ now met moved => draining_next positive now met moved)
  constructor
  · rintro ⟨stopped, thread, cur_head, at_, zero⟩
    exact draining.spin_served stopped at_ zero
  · intro stopped consumer pc at_
    exact draining.returning stopped at_

private def calls (thread : Fin 2 ⊕ Fin 2) (entry : Pc) (steps : ℕ) :
    List (Act (Fin 2 ⊕ Fin 2) Pc) :=
  .call thread entry :: List.replicate steps (.move thread)

/-- Two producers and two consumers on a ring of two slots. Four elements go through it, the
last two are dequeued after the producers have stopped; one consumer is then told that the
ring is empty, the other one is about to be. -/
private def twoPairs (first second : Fin 2) : List (Act (Fin 2 ⊕ Fin 2) Pc) :=
  [.call (.inl first) (Enqueue 11), .move (.inl first)] ++ calls (.inl second) (Enqueue 12) 2 ++
    calls (.inr second) Dequeue 3 ++ [.move (.inl first)] ++ calls (.inr first) Dequeue 5 ++
    List.replicate 3 (.move (.inr second)) ++
    calls (.inl second) (Enqueue 13) 2 ++ calls (.inl first) (Enqueue 14) 2 ++
    [.quit (.inl first), .quit (.inl second)] ++
    calls (.inr first) Dequeue 7 ++ calls (.inr second) Dequeue 7 ++
    calls (.inr first) Dequeue 3 ++ calls (.inr second) Dequeue 2

theorem throughput_drains_twoPairs :
    ∃ (trace : _) (state : ThroughputPool 2),
      Run (throughputProgram 2 2 true).next (throughputStart 2 2 (fun _ => 5)) trace state ∧
      Meets (Paced 2) trace ∧ Stopped state ∧ state.hist.values = [12, 11, 13, 14] ∧
      state.hist.empties = [.inr 0] ∧ state.at (.inr 1) = some (.compareWith 3) ∧
      ¬ Hangs 2 state ∧ Returning 2 true state (.compareWith 3) := by
  have run : Run (throughputProgram 2 2 true).next (throughputStart 2 2 (fun _ => 5)) _ _ :=
    run_of_play (twoPairs 0 1) rfl
  have drains := throughput_drains (by decide) (fun _ => 5) run (by decide)
  exact ⟨_, _, run, by decide, by decide, rfl, rfl, rfl, drains.1, drains.2 (by decide) 1 _ rfl⟩

/-! ### The consumer that hangs -/

theorem gets_empty {pc : Pc} {q after : Queue} {outcome : Outcome Pc ℤ} {slot : ℤ}
    (gets : pc.Gets) (stepped : TicketQueue.step size headFirst pc q = some (after, outcome))
    (zero : q.data slot = 0) : after.data slot = 0 := by
  cases pc with
  | add elem => exact gets.elim
  | store elem ticket => exact gets.elim
  | clear ticket elem =>
      cases stepped
      change Function.update q.data (ticket.tmod size) 0 slot = 0
      by_cases here : slot = ticket.tmod size
      · rw [here, Function.update_self]
      · rw [Function.update_of_ne here]
        exact zero
  | _ => cases stepped; exact zero

theorem Stopped.onward (stopped : Stopped state)
    (moved : (throughputProgram c size headFirst).next state act = some next) :
    Stopped next ∧ ∃ consumer, act.thread = .inr consumer := by
  have actor : ∃ consumer, act.thread = .inr consumer := by
    rcases Program.next_cases moved with
      ⟨thread, entry, loop, left, rfl, idle, called, rfl⟩ |
      ⟨thread, loop, left, rfl, idle, called, rfl⟩ |
      ⟨thread, pc, loop, mem, outcome, rfl, busy, stepped, rfl⟩
    · rcases thread with producer | consumer
      · cases (stopped producer).symm.trans idle
        cases called
      · exact ⟨consumer, rfl⟩
    · rcases thread with producer | consumer
      · cases (stopped producer).symm.trans idle
        cases called
      · exact ⟨consumer, rfl⟩
    · rcases thread with producer | consumer
      · cases (stopped producer).symm.trans busy
      · exact ⟨consumer, rfl⟩
  refine ⟨?_, actor⟩
  obtain ⟨consumer, isActor⟩ := actor
  intro producer
  rw [Program.next_other moved (by rw [isActor]; rintro ⟨⟩)]
  exact stopped producer

theorem Hangs.onward (hangs : Hangs size state)
    (handles : ∀ thread, Handles thread (state.thread thread))
    (moved : (throughputProgram c size headFirst).next state act = some next) :
    Hangs size next := by
  obtain ⟨stopped, spinner, cur_head, at_, zero⟩ := hangs
  obtain ⟨after, consumer, isActor⟩ := stopped.onward moved
  refine ⟨after, spinner, cur_head, ?_, ?_⟩
  · by_cases own : spinner = act.thread
    · subst spinner
      obtain ⟨_, outcome, stepped, reached, _⟩ := Program.own_move moved at_
      rw [reached]
      have again : TicketQueue.step size headFirst (.spin cur_head) state.mem =
          some (state.mem, .retry (.spin cur_head)) := by
        simp only [step, if_pos zero]
      have same := Option.some.inj (again.symm.trans stepped)
      rw [Prod.mk.injEq] at same
      rw [← same.2]
      rfl
    · rw [Pool.at, Program.next_other moved own]
      exact at_
  · rcases Program.next_cases moved with
      ⟨thread, entry, loop, left, rfl, idle, called, rfl⟩ |
      ⟨thread, loop, left, rfl, idle, called, rfl⟩ |
      ⟨thread, pc, loop, mem, outcome, rfl, busy, stepped, rfl⟩
    · exact zero
    · exact zero
    · have inside := handles thread
      change thread = .inr consumer at isActor
      rw [busy, isActor] at inside
      exact gets_empty (handles_gets inside) stepped zero

/-- No call that is still to come fills the slot a hanging consumer spins on. -/
theorem hangs_forever {trace : List (ThroughputPool c × Act (Fin c ⊕ Fin c) Pc)}
    (run : Run (throughputProgram c size headFirst).next state trace next)
    (hangs : Hangs size state) (handles : ∀ thread, Handles thread (state.thread thread)) :
    Hangs size next := by
  have both : Hangs size next ∧ ∀ thread, Handles thread (next.thread thread) := by
    apply run.invariant (meets_true trace) (And.intro hangs handles)
    intro before act after now _ moved
    exact ⟨now.1.onward now.2 moved, handles_next now.2 moved⟩
  exact both.1

abbrev Arrives (MAX_SIZE : ℕ) (headFirst : Bool) (junk : ℤ → ℤ) (state : ThroughputPool 1) : Prop :=
  Reaches (throughputProgram 1 MAX_SIZE headFirst).next (fun _ _ => True)
    (throughputStart 1 MAX_SIZE junk) state

structure Rests (size : ℕ) (producer : Loop) (items : List ℤ) (tail : ℕ)
    (state : ThroughputPool 1) : Prop where
  producer : state.thread (.inl 0) = .idle producer
  consumer : state.thread (.inr 0) = .idle .dequeueing
  holds : Holds size state.mem items
  tail_eq : state.mem.tail + 1 = tail

variable {MAX_SIZE : ℕ} {junk : ℤ → ℤ} {alone : ThroughputPool 1}

theorem Rests.enqueue {items : List ℤ} {tail : ℕ} {elem : ℤ}
    (rests : Rests MAX_SIZE .enqueueing items tail alone)
    (arrives : Arrives MAX_SIZE headFirst junk alone) (positive : 0 < elem)
    (room : items.length < MAX_SIZE) (low : (tail : ℤ) < 2 ^ 31) :
    ∃ next, Arrives MAX_SIZE headFirst junk next ∧
      Rests MAX_SIZE .enqueueing (items ++ [elem]) (tail + 1) next := by
  have tailEq := rests.tail_eq
  have called : (throughputProgram 1 MAX_SIZE headFirst).call .enqueueing (Enqueue elem) =
      some .enqueueing := if_pos positive
  obtain ⟨entered, call, entry⟩ := Program.call_exists rests.producer called
  obtain ⟨after, returns, holds, _, tailNext⟩ :=
    rests.holds.enqueue headFirst room (ne_of_gt positive) (by omega)
  rw [← entry.mem_eq] at returns
  obtain ⟨next, reached, mem, idle, others⟩ :=
    Returns.reaches (throughputProgram 1 MAX_SIZE headFirst) returns entry.thread_eq
  have free : (fun _ _ => True : ThroughputPool 1 → Act (Fin 1 ⊕ Fin 1) Pc → Prop) alone
      (.call (.inl 0) (Enqueue elem)) := trivial
  refine ⟨next, (arrives.tail free call).trans reached, ?_⟩
  refine
    { producer := idle
      consumer := ?_
      holds := by rw [mem]; exact holds
      tail_eq := by rw [mem, tailNext]; push_cast; omega }
  rw [others (.inr 0) (by rintro ⟨⟩), entry.others (.inr 0) (by rintro ⟨⟩)]
  exact rests.consumer

theorem Rests.dequeue {producer : Loop} {items : List ℤ} {tail : ℕ} {elem : ℤ}
    (rests : Rests MAX_SIZE producer (elem :: items) tail alone)
    (arrives : Arrives MAX_SIZE headFirst junk alone) (positive : 0 < elem)
    (low : (tail : ℤ) < 2 ^ 31) :
    ∃ next, Arrives MAX_SIZE headFirst junk next ∧ Rests MAX_SIZE producer items tail next := by
  have tailEq := rests.tail_eq
  have counters := rests.holds.counters
  have called : (throughputProgram 1 MAX_SIZE headFirst).call .dequeueing Dequeue =
      some .dequeueing := rfl
  obtain ⟨entered, call, entry⟩ := Program.call_exists rests.consumer called
  obtain ⟨after, returns, holds, _, tailNext⟩ := rests.holds.gate headFirst (by omega)
  rw [← entry.mem_eq] at returns
  obtain ⟨next, reached, mem, idle, others⟩ :=
    Returns.reaches (throughputProgram 1 MAX_SIZE headFirst) returns entry.thread_eq
  have free : (fun _ _ => True : ThroughputPool 1 → Act (Fin 1 ⊕ Fin 1) Pc → Prop) alone
      (.call (.inr 0) Dequeue) := trivial
  have goes_on : (throughputProgram 1 MAX_SIZE headFirst).done .dequeueing elem = .dequeueing :=
    if_neg (by omega)
  rw [goes_on] at idle
  refine ⟨next, (arrives.tail free call).trans reached, ?_⟩
  refine
    { producer := ?_
      consumer := idle
      holds := by rw [mem]; exact holds
      tail_eq := by rw [mem, tailNext]; exact rests.tail_eq }
  rw [others (.inl 0) (by rintro ⟨⟩), entry.others (.inl 0) (by rintro ⟨⟩)]
  exact rests.producer

theorem Rests.enqueue_all {elems : List ℤ} (positive : ∀ elem ∈ elems, 0 < elem)
    {items : List ℤ} {tail : ℕ} (rests : Rests MAX_SIZE .enqueueing items tail alone)
    (arrives : Arrives MAX_SIZE headFirst junk alone)
    (room : items.length + elems.length ≤ MAX_SIZE)
    (low : ((tail + elems.length : ℕ) : ℤ) < 2 ^ 31) :
    ∃ next, Arrives MAX_SIZE headFirst junk next ∧
      Rests MAX_SIZE .enqueueing (items ++ elems) (tail + elems.length) next := by
  induction elems generalizing items tail alone with
  | nil =>
      rw [List.append_nil]
      exact ⟨alone, arrives, rests⟩
  | cons elem elems ih =>
      rw [List.length_cons] at room low
      obtain ⟨middle, onward, between⟩ :=
        rests.enqueue arrives (positive elem List.mem_cons_self) (by omega) (by omega)
      have longer : (items ++ [elem]).length = items.length + 1 := List.length_append
      obtain ⟨next, reached, ended⟩ :=
        ih (fun other member => positive other (List.mem_cons_of_mem elem member)) between onward
          (by omega) (by omega)
      rw [List.append_assoc] at ended
      refine ⟨next, reached, ?_⟩
      rw [List.length_cons, show tail + (elems.length + 1) = tail + 1 + elems.length from by omega]
      exact ended

theorem Rests.dequeue_all {producer : Loop} {items : List ℤ}
    (positive : ∀ item ∈ items, 0 < item) {tail : ℕ}
    (rests : Rests MAX_SIZE producer items tail alone)
    (arrives : Arrives MAX_SIZE headFirst junk alone) (low : (tail : ℤ) < 2 ^ 31) :
    ∃ next, Arrives MAX_SIZE headFirst junk next ∧ Rests MAX_SIZE producer [] tail next := by
  induction items generalizing alone with
  | nil => exact ⟨alone, arrives, rests⟩
  | cons item items ih =>
      obtain ⟨middle, onward, between⟩ :=
        rests.dequeue arrives (positive item List.mem_cons_self) low
      exact ih (fun other member => positive other (List.mem_cons_of_mem item member)) between onward

/-- One more Dequeue after the last element: the emptiness test does not look at the
counters before the first lap, so the ticket is drawn. -/
theorem Rests.hangs {tail : ℕ} (rests : Rests MAX_SIZE .stopped [] tail alone)
    (arrives : Arrives MAX_SIZE headFirst junk alone) (positive : 0 < MAX_SIZE)
    (firstLap : tail ≤ MAX_SIZE) (low : (tail : ℤ) < 2 ^ 31) :
    ∃ next, Arrives MAX_SIZE headFirst junk next ∧ Hangs MAX_SIZE next ∧
      next.mem.tail + 1 = tail := by
  have tailEq := rests.tail_eq
  have counters := rests.holds.counters
  have headGe := rests.holds.head_ge
  rw [List.length_nil] at counters
  have called : (throughputProgram 1 MAX_SIZE headFirst).call .dequeueing Dequeue =
      some .dequeueing := rfl
  obtain ⟨entered, call, entry⟩ := Program.call_exists rests.consumer called
  have passes : (throughputProgram 1 MAX_SIZE headFirst).step .gate entered.mem =
      some (alone.mem, .goto .draw) := by
    rw [entry.mem_eq]
    simp only [throughputProgram, program, step]
    rw [if_neg (by omega)]
  obtain ⟨passed, pass, gate⟩ := Program.move_exists entry.thread_eq passes
  have draws : (throughputProgram 1 MAX_SIZE headFirst).step .draw passed.mem =
      some ({ alone.mem with head := alone.mem.head + 1 },
        .goto (.spin (alone.mem.head + 1))) := by
    rw [gate.mem_eq]
    simp only [throughputProgram, program, step, addAndFetch_eq headGe
      (show alone.mem.head + 1 < 2 ^ 31 from by omega)]
  obtain ⟨next, draw, ticket⟩ := Program.move_exists gate.thread_eq draws
  have reached : Arrives MAX_SIZE headFirst junk next :=
    ((arrives.tail trivial call).tail trivial pass).tail trivial draw
  have blank := rests.holds.ring.next_blank positive
  refine ⟨next, reached, ⟨?_, .inr 0, alone.mem.head + 1, ?_, ?_⟩, ?_⟩
  · intro producer
    have only : producer = 0 := Subsingleton.elim producer 0
    subst producer
    rw [ticket.others (.inl 0) (by rintro ⟨⟩), gate.others (.inl 0) (by rintro ⟨⟩),
      entry.others (.inl 0) (by rintro ⟨⟩)]
    exact rests.producer
  · rw [Pool.at, ticket.thread_eq]
    rfl
  · rw [ticket.mem_eq, tmod_of_nonneg (by omega)]
    rw [List.length_nil, Nat.cast_zero, add_zero] at blank
    exact blank
  · rw [ticket.mem_eq]
    exact tailEq

/-- One producer that stops before the ring has been filled once leaves a consumer
spinning, whatever it has put. -/
theorem first_lap_hangs (MAX_SIZE : ℕ) (headFirst : Bool) (junk : ℤ → ℤ) {elems : List ℤ}
    (positive : ∀ elem ∈ elems, 0 < elem) (someSlot : 0 < MAX_SIZE)
    (firstLap : elems.length ≤ MAX_SIZE) (low : MAX_SIZE < 2 ^ 31) :
    ∃ state, Arrives MAX_SIZE headFirst junk state ∧ Hangs MAX_SIZE state ∧
      state.mem.tail + 1 = elems.length := by
  have initial : Rests MAX_SIZE .enqueueing [] 0 (throughputStart 1 MAX_SIZE junk) :=
    { producer := rfl
      consumer := rfl
      holds := holds_init MAX_SIZE junk
      tail_eq := rfl }
  have arrives : Arrives MAX_SIZE headFirst junk (throughputStart 1 MAX_SIZE junk) :=
    Reaches.refl _ _ _
  obtain ⟨full, stored, filled⟩ := initial.enqueue_all positive arrives
    (by rw [List.length_nil]; omega) (by omega)
  have quits : (throughputProgram 1 MAX_SIZE headFirst).quit .enqueueing = some .stopped := rfl
  obtain ⟨silent, quit, left⟩ := Program.quit_exists filled.producer quits
  have stopped : Rests MAX_SIZE .stopped elems elems.length silent :=
    { producer := left.thread_eq
      consumer := by rw [left.others (.inr 0) (by rintro ⟨⟩)]; exact filled.consumer
      holds := by rw [left.mem_eq]; exact filled.holds
      tail_eq := by
        rw [left.mem_eq, filled.tail_eq]
        omega }
  obtain ⟨empty, taken, rests⟩ :=
    stopped.dequeue_all positive (stored.tail trivial quit) (by omega)
  exact rests.hangs taken someSlot firstLap (by omega)

/-- The first look at the clock comes after 9999 calls of Enqueue, with 2, 3, .. 10000. -/
theorem consumer_left_spinning :
    ∃ state : ThroughputPool 1, Arrives 262144 true (fun _ => 0) state ∧ Hangs 262144 state ∧
      state.mem.tail + 1 = 9999 := by
  have positive : ∀ elem ∈ (List.range 9999).map (fun i : ℕ => (i : ℤ) + 2), 0 < elem := by
    intro elem member
    obtain ⟨i, _, rfl⟩ := List.mem_map.mp member
    omega
  have count : ((List.range 9999).map (fun i : ℕ => (i : ℤ) + 2)).length = 9999 := by
    rw [List.length_map, List.length_range]
  obtain ⟨state, arrives, hangs, tail⟩ := first_lap_hangs 262144 true (fun _ => 0)
    positive (by decide) (by rw [count]; decide) (by decide)
  rw [count] at tail
  exact ⟨state, arrives, hangs, tail⟩

end QueueBench.TicketQueue
