import QueueBench.Lib.Dispenser
import QueueBench.TicketQueue

/-! The invariant of a ticket ring whose tickets are never drawn a lap too early.
It speaks about every half-finished call at once: who holds which ticket, which
slots are filled, and what a dequeue past its spin read will return. -/

namespace QueueBench.TicketQueue
open Machine (Outcome Pool Program Client Act Thread)
open RingArith (addAndFetch addAndFetch_eq tmod_of_nonneg lap_le slot_range)
open Transition (Run Meets run_of_play)

variable {ι κ : Type*}

def Sound (hist : Hist ι) : Pc → Prop
  | .add elem => elem ≠ 0
  | .store elem cur_tail => hist.puts[cur_tail.toNat]? = some elem
  | .read cur_head => cur_head ∈ hist.stored
  | .clear cur_head elem =>
      cur_head ∈ hist.stored ∧ hist.puts[cur_head.toNat]? = some elem
  | _ => True

def putHolders (place : ι → Option Pc) (thread : ι) : Option ℤ :=
  (place thread).bind Pc.putTicket

def getHolders (place : ι → Option Pc) (thread : ι) : Option ℤ :=
  (place thread).bind Pc.getTicket

structure Inv (size : ℕ) (q : Queue) (hist : Hist ι) (place : ι → Option Pc) : Prop where
  size_pos : 0 < size
  puts_length : (hist.puts.length : ℤ) = q.tail + 1
  tail_lt : q.tail < 2 ^ 31
  head_lt : q.head < 2 ^ 31
  puts_nonzero : ∀ elem ∈ hist.puts, elem ≠ 0
  put_side : Dispenser q.tail hist.stored (putHolders place)
  get_side : Dispenser q.head hist.cleared (getHolders place)
  reuse : ∀ ticket, (size : ℤ) ≤ ticket → ticket ≤ q.tail ∨ ticket ≤ q.head →
    ticket - size ∈ hist.cleared
  taken : ∀ ticket ∈ hist.cleared, ticket ∈ hist.stored
  full : ∀ ticket ∈ hist.stored, ticket ∉ hist.cleared →
    hist.puts[ticket.toNat]? = some (q.data (ticket % size))
  empty : ∀ slot : ℤ, 0 ≤ slot → slot < size →
    (∀ ticket ∈ hist.stored, ticket % size = slot → ticket ∈ hist.cleared) → q.data slot = 0
  standing : ∀ thread pc, place thread = some pc → Sound hist pc
  placed : ∀ store ∈ hist.stores, hist.puts[store.1.toNat]? = some store.2
  returned : ∀ ret ∈ hist.rets, hist.puts[ret.2.1.toNat]? = some ret.2.2

variable {size : ℕ} {q : Queue} {hist : Hist ι} {place : ι → Option Pc}

theorem Inv.start (positive : 0 < size) (junk : ℤ → ℤ) :
    Inv size (init size junk) (Hist.start : Hist ι) (fun _ => none) :=
  { size_pos := positive
    puts_length := by rfl
    tail_lt := by change (-1 : ℤ) < 2 ^ 31; omega
    head_lt := by change (-1 : ℤ) < 2 ^ 31; omega
    puts_nonzero := by intro elem impossible; cases impossible
    put_side := Dispenser.start
    get_side := Dispenser.start
    reuse := by
      intro ticket low high
      change ticket ≤ -1 ∨ ticket ≤ -1 at high
      omega
    taken := by intro ticket impossible; cases impossible
    full := by intro ticket impossible; cases impossible
    empty := by
      intro slot low high _none
      change RingArith.fill size 0 junk slot = 0
      rw [RingArith.fill_apply, if_pos ⟨low, high⟩]
    standing := by intro thread pc impossible; cases impossible
    placed := by intro store impossible; cases impossible
    returned := by intro ret impossible; cases impossible }

/-- Of two tickets of one slot, the older one has been cleared. -/
theorem Inv.lapped (inv : Inv size q hist place) {early late : ℤ} (nonneg : 0 ≤ early)
    (order : early < late) (drawn : late ≤ q.tail ∨ late ≤ q.head)
    (same : early % size = late % size) : early ∈ hist.cleared := by
  have apart := lap_le order same
  have back : early + (size : ℤ) - size = early := by omega
  rw [← back]
  exact inv.reuse (early + size) (by omega) (by omega)

theorem Inv.cleared_range (inv : Inv size q hist place) {ticket : ℤ}
    (member : ticket ∈ hist.cleared) : 0 ≤ ticket ∧ ticket ≤ q.head :=
  inv.get_side.settled_range ticket member

theorem Inv.stored_range (inv : Inv size q hist place) {ticket : ℤ}
    (member : ticket ∈ hist.stored) : 0 ≤ ticket ∧ ticket ≤ q.tail :=
  inv.put_side.settled_range ticket member

theorem Inv.put_held (inv : Inv size q hist place) {thread : ι} {elem ticket : ℤ}
    (at_ : place thread = some (.store elem ticket)) :
    0 ≤ ticket ∧ ticket ≤ q.tail ∧ ticket ∉ hist.stored := by
  have holds : putHolders place thread = some ticket := by
    simp only [putHolders, at_, Option.bind_some, Pc.putTicket]
  have range := inv.put_side.held_range thread ticket holds
  exact ⟨range.1, range.2, inv.put_side.held_open thread ticket holds⟩

theorem Inv.get_held (inv : Inv size q hist place) {thread : ι} {pc : Pc} {ticket : ℤ}
    (at_ : place thread = some pc) (mine : pc.getTicket = some ticket) :
    0 ≤ ticket ∧ ticket ≤ q.head ∧ ticket ∉ hist.cleared := by
  have holds : getHolders place thread = some ticket := by
    simp only [getHolders, at_, Option.bind_some, mine]
  have range := inv.get_side.held_range thread ticket holds
  exact ⟨range.1, range.2, inv.get_side.held_open thread ticket holds⟩

theorem Inv.put_nonzero (inv : Inv size q hist place) {ticket : ℤ} {elem : ℤ}
    (put : hist.puts[ticket.toNat]? = some elem) : elem ≠ 0 :=
  inv.puts_nonzero elem (List.mem_of_getElem? put)

theorem Inv.nonzero_stored (inv : Inv size q hist place) {slot : ℤ}
    (low : 0 ≤ slot) (high : slot < size) (nonzero : q.data slot ≠ 0) :
    ∃ ticket ∈ hist.stored, ticket % size = slot ∧ ticket ∉ hist.cleared := by
  by_contra absent
  apply nonzero
  apply inv.empty slot low high
  intro ticket member same
  by_contra live
  exact absent ⟨ticket, member, same, live⟩

/-- A held head ticket whose slot is non-zero is stored: no other ticket can fill it. -/
theorem Inv.stored_of_nonzero (inv : Inv size q hist place) {ticket : ℤ}
    (low : 0 ≤ ticket) (high : ticket ≤ q.head) (live : ticket ∉ hist.cleared)
    (nonzero : q.data (ticket % size) ≠ 0) : ticket ∈ hist.stored := by
  have range := slot_range (show (0 : ℤ) < size from by exact_mod_cast inv.size_pos) ticket
  obtain ⟨other, member, same, otherLive⟩ := inv.nonzero_stored range.1 range.2 nonzero
  have otherRange := inv.stored_range member
  rcases lt_trichotomy other ticket with before | equal | after
  · exact absurd (inv.lapped otherRange.1 before (Or.inr high) same) otherLive
  · rw [← equal]
    exact member
  · exact absurd (inv.lapped low after (Or.inl otherRange.2) same.symm) live

/-- Two uncleared tickets handed out on either side never share a slot. -/
theorem Inv.apart (inv : Inv size q hist place) {left right : ℤ}
    (leftLow : 0 ≤ left) (leftHigh : left ≤ q.tail ∨ left ≤ q.head)
    (leftLive : left ∉ hist.cleared)
    (rightLow : 0 ≤ right) (rightHigh : right ≤ q.tail ∨ right ≤ q.head)
    (rightLive : right ∉ hist.cleared)
    (different : left ≠ right) : left % size ≠ right % size := by
  intro same
  rcases lt_or_gt_of_ne different with before | after
  · exact leftLive (inv.lapped leftLow before rightHigh same)
  · exact rightLive (inv.lapped rightLow after leftHigh same.symm)

private theorem Inv.tail_next (inv : Inv size q hist place) (fresh : Fresh size q.tail hist) :
    addAndFetch q.tail = q.tail + 1 :=
  addAndFetch_eq inv.put_side.last_ge fresh.1

private theorem Inv.head_next (inv : Inv size q hist place) (fresh : Fresh size q.head hist) :
    addAndFetch q.head = q.head + 1 :=
  addAndFetch_eq inv.get_side.last_ge fresh.1

private theorem Inv.puts_old (inv : Inv size q hist place) {ticket : ℤ}
    (low : 0 ≤ ticket) (high : ticket ≤ q.tail) (elem : ℤ) :
    (hist.puts ++ [elem])[ticket.toNat]? = hist.puts[ticket.toNat]? := by
  have length := inv.puts_length
  exact List.getElem?_append_left (by omega)

private theorem getElem?_of_append {items : List ℤ} {index : ℕ} {value : ℤ} (elem : ℤ)
    (found : items[index]? = some value) : (items ++ [elem])[index]? = some value := by
  obtain ⟨inside, _⟩ := List.getElem?_eq_some_iff.mp found
  rw [List.getElem?_append_left inside]
  exact found

section Steps

variable [DecidableEq ι]

private theorem holders_update (ticketOf : Pc → Option ℤ) (place : ι → Option Pc)
    (thread : ι) (target : Option Pc) :
    (fun other => (Function.update place thread target other).bind ticketOf) =
      Function.update (fun other => (place other).bind ticketOf) thread
        (target.bind ticketOf) := by
  funext other
  by_cases same : other = thread
  · subst other
    rw [Function.update_self, Function.update_self]
  · rw [Function.update_of_ne same, Function.update_of_ne same]

theorem putHolders_update (place : ι → Option Pc) (thread : ι) (target : Option Pc) :
    putHolders (Function.update place thread target) =
      Function.update (putHolders place) thread (target.bind Pc.putTicket) :=
  holders_update Pc.putTicket place thread target

theorem getHolders_update (place : ι → Option Pc) (thread : ι) (target : Option Pc) :
    getHolders (Function.update place thread target) =
      Function.update (getHolders place) thread (target.bind Pc.getTicket) :=
  holders_update Pc.getTicket place thread target

theorem putHolders_stay {thread : ι} (target : Option Pc)
    (kept : target.bind Pc.putTicket = putHolders place thread) :
    putHolders (Function.update place thread target) = putHolders place := by
  rw [putHolders_update, kept, Function.update_eq_self]

theorem getHolders_stay {thread : ι} (target : Option Pc)
    (kept : target.bind Pc.getTicket = getHolders place thread) :
    getHolders (Function.update place thread target) = getHolders place := by
  rw [getHolders_update, kept, Function.update_eq_self]

theorem standing_update {before after : Pc → Prop} (kept : ∀ pc, before pc → after pc)
    (standing : ∀ thread pc, place thread = some pc → before pc)
    (thread : ι) (target : Option Pc) (sound : ∀ pc, target = some pc → after pc) :
    ∀ other pc, Function.update place thread target other = some pc → after pc := by
  intro other pc at_
  by_cases same : other = thread
  · subst other
    rw [Function.update_self] at at_
    exact sound pc at_
  · rw [Function.update_of_ne same] at at_
    exact kept pc (standing other pc at_)

theorem Inv.move (inv : Inv size q hist place) (thread : ι) (target : Option Pc)
    (putSame : target.bind Pc.putTicket = putHolders place thread)
    (getSame : target.bind Pc.getTicket = getHolders place thread)
    (sound : ∀ pc, target = some pc → Sound hist pc) :
    Inv size q hist (Function.update place thread target) := by
  refine
    { inv with
      put_side := ?_
      get_side := ?_
      standing := standing_update (fun _ now => now) inv.standing thread target sound }
  · rw [putHolders_stay target putSame]
    exact inv.put_side
  · rw [getHolders_stay target getSame]
    exact inv.get_side

theorem Inv.add (inv : Inv size q hist place) {thread : ι} {elem : ℤ}
    (at_ : place thread = some (.add elem)) (fresh : Fresh size q.tail hist) :
    Inv size { q with tail := addAndFetch q.tail } { hist with puts := hist.puts ++ [elem] }
      (Function.update place thread (some (.store elem (addAndFetch q.tail)))) := by
  have nonzero : elem ≠ 0 := inv.standing thread (.add elem) at_
  have length := inv.puts_length
  have lastGe := inv.put_side.last_ge
  have free : putHolders place thread = none := by
    simp only [putHolders, at_, Option.bind_some, Pc.putTicket]
  have noHead : getHolders place thread = none := by
    simp only [getHolders, at_, Option.bind_some, Pc.getTicket]
  rw [inv.tail_next fresh]
  refine
    { size_pos := inv.size_pos
      puts_length := ?_
      tail_lt := fresh.1
      head_lt := inv.head_lt
      puts_nonzero := ?_
      put_side := ?_
      get_side := ?_
      reuse := ?_
      taken := inv.taken
      full := ?_
      empty := inv.empty
      standing := ?_
      placed := fun store member => getElem?_of_append elem (inv.placed store member)
      returned := fun ret member => getElem?_of_append elem (inv.returned ret member) }
  · rw [List.length_append, List.length_singleton]
    push_cast
    omega
  · intro other member
    rcases List.mem_append.mp member with earlier | newest
    · exact inv.puts_nonzero other earlier
    · rw [List.mem_singleton.mp newest]
      exact nonzero
  · rw [putHolders_update]
    exact inv.put_side.draw thread free
  · rw [getHolders_stay (some (.store elem (q.tail + 1))) noHead.symm]
    exact inv.get_side
  · intro ticket low high
    by_cases newest : ticket = q.tail + 1
    · subst ticket
      exact fresh.2 low
    · exact inv.reuse ticket low (by change ticket ≤ q.tail + 1 ∨ ticket ≤ q.head at high; omega)
  · intro ticket member live
    have range := inv.stored_range member
    change (hist.puts ++ [elem])[ticket.toNat]? = _
    rw [inv.puts_old range.1 range.2]
    exact inv.full ticket member live
  · refine standing_update ?_ inv.standing thread _ ?_
    · intro pc now
      cases pc with
      | store other ticket => exact getElem?_of_append elem now
      | clear ticket other => exact ⟨now.1, getElem?_of_append elem now.2⟩
      | _ => exact now
    · intro pc same
      cases same
      change (hist.puts ++ [elem])[(q.tail + 1).toNat]? = some elem
      rw [← length, Int.toNat_natCast, List.getElem?_concat_length]

theorem Inv.store (inv : Inv size q hist place) {thread : ι} {elem ticket : ℤ}
    (at_ : place thread = some (.store elem ticket)) :
    Inv size { q with data := Function.update q.data (ticket.tmod size) elem }
      { hist with stores := hist.stores ++ [(ticket, elem)] }
      (Function.update place thread none) := by
  have put : hist.puts[ticket.toNat]? = some elem := inv.standing thread _ at_
  obtain ⟨low, high, unstored⟩ := inv.put_held at_
  have live : ticket ∉ hist.cleared := fun member => unstored (inv.taken ticket member)
  have grown : Hist.stored { hist with stores := hist.stores ++ [(ticket, elem)] } =
      hist.stored ++ [ticket] := by
    simp only [Hist.stored, List.map_append, List.map_cons, List.map_nil]
  have older : ∀ other ∈ hist.stored,
      other ∈ Hist.stored { hist with stores := hist.stores ++ [(ticket, elem)] } := by
    intro other member
    rw [grown]
    exact List.mem_append_left _ member
  have holds : putHolders place thread = some ticket := by
    simp only [putHolders, at_, Option.bind_some, Pc.putTicket]
  have noHead : getHolders place thread = none := by
    simp only [getHolders, at_, Option.bind_some, Pc.getTicket]
  rw [tmod_of_nonneg low]
  refine
    { size_pos := inv.size_pos
      puts_length := inv.puts_length
      tail_lt := inv.tail_lt
      head_lt := inv.head_lt
      puts_nonzero := inv.puts_nonzero
      put_side := ?_
      get_side := ?_
      reuse := inv.reuse
      taken := fun other member => older other (inv.taken other member)
      full := ?_
      empty := ?_
      standing := ?_
      placed := ?_
      returned := inv.returned }
  · rw [putHolders_update, grown]
    exact inv.put_side.settle thread holds
  · rw [getHolders_stay none noHead.symm]
    exact inv.get_side
  · intro other member otherLive
    change hist.puts[other.toNat]? =
      some (Function.update q.data (ticket % size) elem (other % size))
    rw [grown] at member
    rcases List.mem_append.mp member with earlier | newest
    · have range := inv.stored_range earlier
      have different : other ≠ ticket := by
        rintro rfl
        exact unstored earlier
      rw [Function.update_of_ne (inv.apart range.1 (Or.inl range.2) otherLive
        low (Or.inl high) live different)]
      exact inv.full other earlier otherLive
    · rw [List.mem_singleton.mp newest, Function.update_self]
      exact put
  · intro slot slotLow slotHigh allCleared
    change Function.update q.data (ticket % size) elem slot = 0
    by_cases same : slot = ticket % size
    · have newest : ticket ∈ Hist.stored
          { hist with stores := hist.stores ++ [(ticket, elem)] } := by
        rw [grown]
        exact List.mem_append_right _ (List.mem_singleton_self _)
      exact absurd (allCleared ticket newest same.symm) live
    · rw [Function.update_of_ne same]
      exact inv.empty slot slotLow slotHigh (fun other member =>
        allCleared other (older other member))
  · refine standing_update ?_ inv.standing thread none (by intro pc impossible; cases impossible)
    intro pc now
    cases pc with
    | read other => exact older other now
    | clear other value => exact ⟨older other now.1, now.2⟩
    | _ => exact now
  · intro store member
    rcases List.mem_append.mp member with earlier | newest
    · exact inv.placed store earlier
    · rw [List.mem_singleton.mp newest]
      exact put

theorem Inv.draw (inv : Inv size q hist place) {thread : ι}
    (at_ : place thread = some .draw) (fresh : Fresh size q.head hist) :
    Inv size { q with head := addAndFetch q.head } hist
      (Function.update place thread (some (.spin (addAndFetch q.head)))) := by
  have noTail : putHolders place thread = none := by
    simp only [putHolders, at_, Option.bind_some, Pc.putTicket]
  have free : getHolders place thread = none := by
    simp only [getHolders, at_, Option.bind_some, Pc.getTicket]
  rw [inv.head_next fresh]
  refine
    { inv with
      head_lt := fresh.1
      put_side := ?_
      get_side := ?_
      reuse := ?_
      standing := ?_ }
  · rw [putHolders_stay (some (.spin (q.head + 1))) noTail.symm]
    exact inv.put_side
  · rw [getHolders_update]
    exact inv.get_side.draw thread free
  · intro ticket low high
    by_cases newest : ticket = q.head + 1
    · subst ticket
      exact fresh.2 low
    · exact inv.reuse ticket low (by change ticket ≤ q.tail ∨ ticket ≤ q.head + 1 at high; omega)
  · refine standing_update (fun _ now => now) inv.standing thread _ ?_
    intro pc same
    cases same
    trivial

theorem Inv.clear (inv : Inv size q hist place) {thread : ι} {elem ticket : ℤ}
    (at_ : place thread = some (.clear ticket elem)) :
    Inv size { q with data := Function.update q.data (ticket.tmod size) 0 }
      { hist with rets := hist.rets ++ [(thread, ticket, elem)] }
      (Function.update place thread none) := by
  obtain ⟨stored, put⟩ : ticket ∈ hist.stored ∧ hist.puts[ticket.toNat]? = some elem :=
    inv.standing thread _ at_
  obtain ⟨low, high, live⟩ := inv.get_held at_ rfl
  have grown : Hist.cleared { hist with rets := hist.rets ++ [(thread, ticket, elem)] } =
      hist.cleared ++ [ticket] := by
    simp only [Hist.cleared, List.map_append, List.map_cons, List.map_nil]
  have noTail : putHolders place thread = none := by
    simp only [putHolders, at_, Option.bind_some, Pc.putTicket]
  have holds : getHolders place thread = some ticket := by
    simp only [getHolders, at_, Option.bind_some, Pc.getTicket]
  rw [tmod_of_nonneg low]
  refine
    { size_pos := inv.size_pos
      puts_length := inv.puts_length
      tail_lt := inv.tail_lt
      head_lt := inv.head_lt
      puts_nonzero := inv.puts_nonzero
      put_side := ?_
      get_side := ?_
      reuse := ?_
      taken := ?_
      full := ?_
      empty := ?_
      standing := ?_
      placed := inv.placed
      returned := ?_ }
  · rw [putHolders_stay none noTail.symm]
    exact inv.put_side
  · rw [getHolders_update, grown]
    exact inv.get_side.settle thread holds
  · intro other otherLow otherHigh
    rw [grown]
    exact List.mem_append_left _ (inv.reuse other otherLow otherHigh)
  · intro other member
    rw [grown] at member
    rcases List.mem_append.mp member with earlier | newest
    · exact inv.taken other earlier
    · rw [List.mem_singleton.mp newest]
      exact stored
  · intro other member otherLive
    rw [grown, List.mem_append, not_or] at otherLive
    have range := inv.stored_range member
    have different : other ≠ ticket := fun same =>
      otherLive.2 (List.mem_singleton.mpr same)
    change hist.puts[other.toNat]? =
      some (Function.update q.data (ticket % size) 0 (other % size))
    rw [Function.update_of_ne (inv.apart range.1 (Or.inl range.2) otherLive.1
      low (Or.inr high) live different)]
    exact inv.full other member otherLive.1
  · intro slot slotLow slotHigh allCleared
    change Function.update q.data (ticket % size) 0 slot = 0
    by_cases same : slot = ticket % size
    · rw [same, Function.update_self]
    · rw [Function.update_of_ne same]
      apply inv.empty slot slotLow slotHigh
      intro other member otherSlot
      have after := allCleared other member otherSlot
      rw [grown] at after
      rcases List.mem_append.mp after with earlier | newest
      · exact earlier
      · rw [List.mem_singleton.mp newest] at otherSlot
        exact absurd otherSlot.symm same
  · exact standing_update (fun _ now => now) inv.standing thread none
      (by intro pc impossible; cases impossible)
  · intro ret member
    rcases List.mem_append.mp member with earlier | newest
    · exact inv.returned ret earlier
    · rw [List.mem_singleton.mp newest]
      exact put

theorem Inv.step (inv : Inv size q hist place) {headFirst : Bool} {thread : ι} {pc : Pc}
    {after : Queue} {outcome : Outcome Pc ℤ} (at_ : place thread = some pc)
    (allowed : Allowed size q hist pc)
    (moved : TicketQueue.step size headFirst pc q = some (after, outcome)) :
    Inv size after (record headFirst thread pc q hist)
      (Function.update place thread outcome.pc?) := by
  cases pc with
  | add elem => cases moved; exact inv.add at_ allowed
  | store elem ticket => cases moved; exact inv.store at_
  | draw => cases moved; exact inv.draw at_ allowed
  | clear ticket elem => cases moved; exact inv.clear at_
  | gate =>
      cases moved
      refine inv.move thread _ ?_ ?_ ?_
      · split <;> simp only [putHolders, at_, Outcome.pc?, Option.bind_some, Pc.putTicket]
      · split <;> simp only [getHolders, at_, Outcome.pc?, Option.bind_some, Pc.getTicket]
      · intro pc same
        split at same <;> cases same <;> trivial
  | compare =>
      cases moved
      refine inv.move thread _ ?_ ?_ ?_
      · simp only [putHolders, at_, Outcome.pc?, Option.bind_some, Pc.putTicket]
      · simp only [getHolders, at_, Outcome.pc?, Option.bind_some, Pc.getTicket]
      · intro pc same
        cases same
        trivial
  | compareWith first =>
      cases moved
      have noTail : putHolders place thread = none := by
        simp only [putHolders, at_, Option.bind_some, Pc.putTicket]
      have noHead : getHolders place thread = none := by
        simp only [getHolders, at_, Option.bind_some, Pc.getTicket]
      by_cases equal : first = (if headFirst then q.tail else q.head)
      · have kept := inv.move thread none noTail.symm noHead.symm
          (by intro pc impossible; cases impossible)
        simp only [record, if_pos equal, Outcome.pc?]
        exact { kept with }
      · simp only [record, if_neg equal, Outcome.pc?]
        refine inv.move thread (some .draw) noTail.symm noHead.symm ?_
        intro pc same
        cases same
        trivial
  | spin ticket =>
      cases moved
      obtain ⟨low, high, live⟩ := inv.get_held at_ rfl
      rw [tmod_of_nonneg low]
      refine inv.move thread _ ?_ ?_ ?_
      · split <;> simp only [putHolders, at_, Outcome.pc?, Option.bind_some, Pc.putTicket]
      · split <;> simp only [getHolders, at_, Outcome.pc?, Option.bind_some, Pc.getTicket]
      · intro pc same
        split at same
        · cases same
          trivial
        · rename_i nonzero
          cases same
          exact inv.stored_of_nonzero low high live nonzero
  | read ticket =>
      cases moved
      obtain ⟨low, high, live⟩ := inv.get_held at_ rfl
      have stored : ticket ∈ hist.stored := inv.standing thread _ at_
      rw [tmod_of_nonneg low]
      refine inv.move thread _ ?_ ?_ ?_
      · simp only [putHolders, at_, Outcome.pc?, Option.bind_some, Pc.putTicket]
      · simp only [getHolders, at_, Outcome.pc?, Option.bind_some, Pc.getTicket]
      · intro pc same
        cases same
        exact ⟨stored, inv.full ticket stored live⟩

theorem Inv.enter (inv : Inv size q hist place) {thread : ι} {pc : Pc}
    (at_ : place thread = none) (entry : pc.Entry) :
    Inv size q hist (Function.update place thread (some pc)) := by
  refine inv.move thread (some pc) ?_ ?_ ?_
  · rw [putHolders, at_]
    cases pc <;> first | rfl | cases entry
  · rw [getHolders, at_]
    cases pc <;> first | rfl | cases entry
  · intro other same
    cases same
    cases pc <;> first | exact entry | trivial

end Steps

/-! ### The ring between calls -/

/-- Every dequeue returned the element that was stored under its own ticket number,
and no ticket is stored or returned twice. -/
structure Matched (hist : Hist ι) : Prop where
  same_elem : ∀ ret ∈ hist.rets, ret.2 ∈ hist.stores
  stored_nodup : hist.stored.Nodup
  cleared_nodup : hist.cleared.Nodup

/-- `dequeued` and `enqueued` are the completed calls; the slots hold exactly the
elements between the two counts. -/
structure Window (size : ℕ) (q : Queue) (hist : Hist ι) (dequeued enqueued : ℕ) : Prop where
  drained : dequeued ≤ enqueued
  bounded : enqueued ≤ dequeued + size
  filled : ∀ ticket : ℕ, dequeued ≤ ticket → ticket < enqueued →
    ((ticket : ℤ), q.data ((ticket % size : ℕ) : ℤ)) ∈ hist.stores
  zero : ∀ slot : ℕ, slot < size →
    (∀ ticket : ℕ, dequeued ≤ ticket → ticket < enqueued → ticket % size ≠ slot) →
    q.data slot = 0

theorem Inv.store_of_put (inv : Inv size q hist place) {ticket elem : ℤ}
    (stored : ticket ∈ hist.stored) (put : hist.puts[ticket.toNat]? = some elem) :
    (ticket, elem) ∈ hist.stores := by
  obtain ⟨⟨number, value⟩, member, rfl⟩ := List.mem_map.mp stored
  have same := (inv.placed (number, value) member).symm.trans put
  cases same
  exact member

theorem Inv.matched (inv : Inv size q hist place) : Matched hist :=
  { same_elem := fun ret member =>
      inv.store_of_put (inv.taken ret.2.1 (List.mem_map.mpr ⟨ret, member, rfl⟩))
        (inv.returned ret member)
    stored_nodup := inv.put_side.settled_nodup
    cleared_nodup := inv.get_side.settled_nodup }

theorem Inv.window (inv : Inv size q hist place) (quiet : ∀ thread, place thread = none) :
    Window size q hist hist.rets.length hist.stores.length := by
  have noPut : ∀ thread, putHolders place thread = none := by
    intro thread
    rw [putHolders, quiet thread]
    rfl
  have noGet : ∀ thread, getHolders place thread = none := by
    intro thread
    rw [getHolders, quiet thread]
    rfl
  have enqueued := inv.put_side.settled_length noPut
  have dequeued := inv.get_side.settled_length noGet
  rw [Hist.cleared, List.length_map] at dequeued
  rw [Hist.stored, List.length_map] at enqueued
  have stored := inv.put_side.settled_iff noPut
  have cleared := inv.get_side.settled_iff noGet
  refine
    { drained := ?_
      bounded := ?_
      filled := ?_
      zero := ?_ }
  · -- The newest head ticket has been stored too.
    by_contra ahead
    have newest := inv.taken q.head ((cleared q.head).mpr (by omega))
    have range := inv.stored_range newest
    omega
  · by_contra ahead
    have old := inv.reuse q.tail (by omega) (Or.inl (Int.le_refl _))
    have range := inv.cleared_range old
    omega
  · intro ticket low high
    have member := (stored ticket).mpr (by omega)
    have live : (ticket : ℤ) ∉ hist.cleared := by
      rw [cleared]
      omega
    have put := inv.store_of_put member (inv.full ticket member live)
    exact_mod_cast put
  · intro slot inside outside
    apply inv.empty slot (by omega) (by omega)
    intro ticket member same
    rw [cleared]
    have range := (stored ticket).mp member
    by_contra live
    apply outside ticket.toNat (by omega) (by omega)
    have lifted : ((ticket.toNat % size : ℕ) : ℤ) = slot := by
      push_cast
      rw [Int.toNat_of_nonneg range.1]
      exact same
    exact_mod_cast lifted

variable {client : Client Pc ℤ κ} {headFirst : Bool}
variable {state next : Pool ι Queue Pc κ (Hist ι)} {act : Act ι Pc}

def Enters (client : Client Pc ℤ κ) : Prop :=
  ∀ script pc left, client.call script pc = some left → pc.Entry

def Held (size : ℕ) (state : Pool ι Queue Pc κ (Hist ι)) : Prop :=
  Inv size state.mem state.hist state.at

theorem held_start (positive : 0 < size) (junk : ℤ → ℤ) (scripts : ι → κ) :
    Held size (TicketQueue.start (init size junk) scripts) :=
  Inv.start positive junk

variable [DecidableEq ι]

theorem held_next (enters : ∀ thread pc, act = .call thread pc → pc.Entry)
    (held : Held size state) (disciplined : Disciplined size state act)
    (moved : (program size headFirst client).next state act = some next) :
    Held size next := by
  unfold Held Pool.at at held ⊢
  rcases Program.next_cases moved with
    ⟨thread, entry, script, left, rfl, standing, called, rfl⟩ |
    ⟨thread, script, left, rfl, standing, left?, rfl⟩ |
    ⟨thread, pc, script, mem, outcome, rfl, standing, stepped, rfl⟩
  · rw [Machine.at_update]
    exact held.enter (by rw [standing]; rfl) (enters thread entry rfl)
  · rw [Machine.at_update]
    refine held.move thread _ ?_ ?_ ?_
    · simp only [putHolders, standing, Thread.pc?, Option.bind_none]
    · simp only [getHolders, standing, Thread.pc?, Option.bind_none]
    · intro pc impossible
      cases impossible
  · have at_ : state.at thread = some pc := Pool.at_busy standing
    rw [Machine.at_update, Program.resume_pc]
    exact held.step at_ (disciplined pc at_) stepped

theorem enters_of_next (enters : Enters client)
    (moved : (program size headFirst client).next state act = some next) :
    ∀ thread pc, act = .call thread pc → pc.Entry := by
  rcases Program.next_cases moved with
    ⟨thread, entry, script, left, rfl, _, called, _⟩ |
    ⟨thread, script, left, rfl, _⟩ | ⟨thread, pc, script, mem, outcome, rfl, _⟩
  · intro other pc same
    cases same
    exact enters script entry left called
  · intro other pc impossible
    cases impossible
  · intro other pc' impossible
    cases impossible

theorem held_of_run (positive : 0 < size) (enters : Enters client) (junk : ℤ → ℤ)
    (scripts : ι → κ) {trace : List (Pool ι Queue Pc κ (Hist ι) × Act ι Pc)}
    (run : Run (program size headFirst client).next
      (TicketQueue.start (init size junk) scripts) trace state)
    (meets : Meets (Disciplined size) trace) : Held size state :=
  run.invariant meets (held_start positive junk scripts)
    (fun _ _ _ held disciplined moved =>
      held_next (enters_of_next enters moved) held disciplined moved)

theorem taskClient_enters : Enters taskClient := by
  intro script pc left called
  cases pc with
  | add elem =>
      intro zero
      simp only [taskClient, zero, if_true] at called
      cases called
  | draw => trivial
  | _ => cases called

end QueueBench.TicketQueue
