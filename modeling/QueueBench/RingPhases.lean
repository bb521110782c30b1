import Mathlib.Data.Multiset.Basic
import QueueBench.Lib.Work
import QueueBench.TicketDiscipline
import QueueBench.TicketFifo

/-! Programs that use a ticket ring in phases: threads that only enqueue run to completion,
then threads that only dequeue. While a phase of enqueues fits into the slots left no element
is overwritten, and while a phase of dequeues asks for no more than there is no dequeue
waits. -/

namespace QueueBench.TicketQueue
open Machine (Outcome Pool Program Act Thread Ranked scriptProgram script_total_next total_done
  calls_next script_next script_call scriptClient_call reaches_standstill)
open RingArith (addAndFetch addAndFetch_eq tmod_of_nonneg)
open Transition (Run meets_true)

open scoped BigOperators

variable {ι : Type*}

abbrev PhasePool (ι : Type*) : Type _ := Pool ι Queue Pc (List Pc) (Hist ι)

/-- Threads created on a ring that has been used before. -/
def launch (q : Queue) (hist : Hist ι) (scripts : ι → List Pc) : PhasePool ι :=
  { mem := q
    thread := fun thread => .idle (scripts thread)
    hist := hist }

def Joined (state : PhasePool ι) : Prop := ∀ thread, state.thread thread = .idle []

theorem Joined.quiet {state : PhasePool ι} (joined : Joined state) : state.at = fun _ => none := by
  funext thread
  exact Pool.at_idle (joined thread)

def Pc.Putting : Pc → Prop
  | .add elem => elem ≠ 0
  | .store _ _ => True
  | _ => False

def Pc.Adds (pc : Pc) : Prop := ∃ elem, elem ≠ 0 ∧ pc = .add elem

theorem Pc.Adds.entry {pc : Pc} (adds : pc.Adds) : pc.Entry := by
  obtain ⟨elem, nonzero, rfl⟩ := adds
  exact nonzero

theorem Pc.Adds.putting {pc : Pc} (adds : pc.Adds) : pc.Putting := by
  obtain ⟨elem, nonzero, rfl⟩ := adds
  exact nonzero

def Pc.Getting : Pc → Prop
  | .draw | .spin _ | .read _ | .clear _ _ => True
  | _ => False

def Pc.brings : Pc → Multiset ℤ
  | .add elem => {elem}
  | _ => 0

def Pc.owes : Pc → ℤ
  | .draw => 1
  | _ => 0

variable [DecidableEq ι]

def phaseProgram (ι : Type*) [DecidableEq ι] (size : ℕ) (headFirst : Bool) :
    Program ι Queue Pc ℤ (List Pc) (Hist ι) :=
  scriptProgram (step size headFirst) (record headFirst)

variable {size : ℕ} {headFirst : Bool} {state next : PhasePool ι} {act : Act ι Pc}
variable {q : Queue} {hist : Hist ι} {trace : List (PhasePool ι × Act ι Pc)}

/-! ### Phases that end -/

theorem ring_ranked (size : ℕ) (headFirst : Bool) : Ranked (step size headFirst) Pc.rank := by
  constructor
  · intro pc next mem after stepped
    exact step_rank stepped
  · intro pc next mem after stepped
    obtain ⟨ticket, rfl, zero⟩ := retry_spins stepped
    simp only [step, if_pos zero] at stepped
    cases stepped
    exact Nat.le_refl _

theorem step_exists (size : ℕ) (headFirst : Bool) (pc : Pc) (q : Queue) :
    ∃ after outcome, step size headFirst pc q = some (after, outcome) := by
  cases pc <;> exact ⟨_, _, rfl⟩

def Spinning (size : ℕ) (state : PhasePool ι) (thread : ι) : Prop :=
  ∃ cur_head, state.at thread = some (.spin cur_head) ∧
    state.mem.data (cur_head.tmod size) = 0

theorem spinning_of_waits (waits : (phaseProgram ι size headFirst).Waits state act) :
    Spinning size state act.thread := by
  obtain ⟨thread, pc, mem, again, rfl, at_, stepped⟩ := waits
  obtain ⟨ticket, rfl, zero⟩ := retry_spins stepped
  exact ⟨ticket, at_, zero⟩

/-- Threads that have nothing left but waits are done or spinning. -/
theorem still_spins (still : ∀ act next, (phaseProgram ι size headFirst).next state act = some next →
      (phaseProgram ι size headFirst).Waits state act) (thread : ι) :
    state.thread thread = .idle [] ∨ Spinning size state thread := by
  cases standing : state.thread thread with
  | idle script =>
      cases script with
      | nil => exact Or.inl rfl
      | cons entry rest =>
          obtain ⟨next, moved, _⟩ :=
            (phaseProgram ι size headFirst).call_exists standing (script_call _ _ entry rest)
          obtain ⟨_, _, _, _, impossible, _⟩ := still _ next moved
          cases impossible
  | busy pc script =>
      obtain ⟨after, outcome, stepped⟩ := step_exists size headFirst pc state.mem
      obtain ⟨next, moved, _⟩ := (phaseProgram ι size headFirst).move_exists standing stepped
      exact Or.inr (spinning_of_waits (still _ next moved))

variable [Fintype ι]

/-- Where no dequeue ever waits, the threads of a phase can all be joined. -/
theorem reaches_joined
    (free : ∀ trace final, Run (phaseProgram ι size headFirst).next state trace final →
      ∀ thread, ¬ Spinning size final thread) :
    ∃ trace final, Run (phaseProgram ι size headFirst).next state trace final ∧ Joined final := by
  obtain ⟨final, ⟨trace, run, _⟩, still⟩ :=
    reaches_standstill (ring_ranked size headFirst) (fun (_ : PhasePool ι) (_ : Act ι Pc) => True) state
  refine ⟨trace, final, run, ?_⟩
  intro thread
  exact (still_spins (fun act next moved => still act next moved trivial) thread).resolve_right
    (free trace final run thread)

/-! ### A phase of enqueues -/

def offered (scripts : ι → List Pc) : Multiset ℤ := ∑ thread, ((scripts thread).map Pc.brings).sum

/-- Threads with these calls run on the ring; `q` and `hist` are what they found. -/
structure Filling (size : ℕ) (q : Queue) (hist : Hist ι) (scripts : ι → List Pc)
    (state : PhasePool ι) : Prop where
  held : Held size state
  entries : ∀ thread, ∀ pc ∈ (state.thread thread).script, pc.Entry
  putting : ∀ thread, ∀ pc ∈ (state.thread thread).calls, pc.Putting
  head_eq : state.mem.head = q.head
  rets_eq : state.hist.rets = hist.rets
  puts_eq : state.total (fun _ hist => (hist.puts : Multiset ℤ)) (Thread.due Pc.brings) =
    hist.puts + offered scripts

/-- The phase fits into the slots and into the tickets that are left. -/
structure Room (size : ℕ) (q : Queue) (fill : ℕ) : Prop where
  slots : q.tail + fill ≤ q.head + size
  tickets : q.tail + fill < 2 ^ 31

variable {scripts : ι → List Pc}

omit [DecidableEq ι] in
theorem filling_start (inv : Inv size q hist (fun _ => none))
    (adds : ∀ thread, ∀ pc ∈ scripts thread, pc.Adds) :
    Filling size q hist scripts (launch q hist scripts) :=
  { held := inv
    entries := fun thread pc member => (adds thread pc member).entry
    putting := fun thread pc member => (adds thread pc member).putting
    head_eq := rfl
    rets_eq := rfl
    puts_eq := rfl }

omit [Fintype ι] in
theorem putting_move (moved : (phaseProgram ι size headFirst).next state act = some next)
    (putting : ∀ thread, ∀ pc ∈ (state.thread thread).calls, pc.Putting) :
    next.mem.head = state.mem.head ∧ next.hist.rets = state.hist.rets := by
  rcases Program.next_cases moved with
    ⟨thread, entry, script, left, rfl, idle, called, rfl⟩ |
    ⟨thread, script, left, rfl, idle, impossible, rfl⟩ |
    ⟨thread, pc, script, mem, outcome, rfl, busy, stepped, rfl⟩
  · exact ⟨rfl, rfl⟩
  · cases impossible
  · have puts := putting thread pc (Pool.at_mem_calls (Pool.at_busy busy))
    cases pc with
    | add elem => cases stepped; exact ⟨rfl, rfl⟩
    | store elem ticket => cases stepped; exact ⟨rfl, rfl⟩
    | _ => exact puts.elim

omit [Fintype ι] [DecidableEq ι] in
theorem putting_not_spinning (putting : ∀ thread, ∀ pc ∈ (state.thread thread).calls, pc.Putting)
    (thread : ι) : ¬ Spinning size state thread := by
  rintro ⟨ticket, at_, _⟩
  exact putting thread (.spin ticket) (Pool.at_mem_calls at_)

omit [Fintype ι] in
theorem entries_next (moved : (phaseProgram ι size headFirst).next state act = some next)
    (entries : ∀ thread, ∀ pc ∈ (state.thread thread).script, pc.Entry) :
    ∀ thread pc, act = .call thread pc → pc.Entry := by
  rintro thread pc rfl
  rcases Program.next_cases moved with
    ⟨_, entry, script, left, same, idle, called, _⟩ | ⟨_, _, _, impossible, _⟩ |
    ⟨_, _, _, _, _, impossible, _⟩
  · cases same
    apply entries thread pc
    rw [idle, scriptClient_call called]
    exact List.mem_cons_self
  · cases impossible
  · cases impossible

omit [Fintype ι] in
theorem putting_next (moved : (phaseProgram ι size headFirst).next state act = some next)
    (putting : ∀ thread, ∀ pc ∈ (state.thread thread).calls, pc.Putting) :
    ∀ thread, ∀ pc ∈ (next.thread thread).calls, pc.Putting := by
  have onward : ∀ (thread : ι) (pc : Pc) (q after : Queue) (outcome : Outcome Pc ℤ) (reached : Pc),
      step size headFirst pc q = some (after, outcome) → outcome.pc? = some reached →
      pc.Putting → reached.Putting := by
    intro thread pc q after outcome reached stepped same puts
    cases pc with
    | add elem => cases stepped; cases same; exact trivial
    | store elem ticket => cases stepped; cases same
    | _ => exact puts.elim
  exact calls_next onward moved putting

omit [DecidableEq ι] in
theorem Filling.tail_lt (filling : Filling size q hist scripts state)
    (inv : Inv size q hist (fun _ => none)) {thread : ι} {elem : ℤ}
    (at_ : state.at thread = some (.add elem)) :
    state.mem.tail + 1 ≤ q.tail + (offered scripts).card := by
  have part : (state.hist.puts : Multiset ℤ) + {elem} ≤ hist.puts + offered scripts := by
    rw [← filling.puts_eq]
    exact Pool.due_le_total (fun _ hist => (hist.puts : Multiset ℤ))
      (fun pc => Multiset.zero_le pc.brings) at_
  have counted := Multiset.card_le_card part
  rw [Multiset.card_add, Multiset.card_add, Multiset.coe_card, Multiset.coe_card,
    Multiset.card_singleton] at counted
  have now := filling.held.puts_length
  have before := inv.puts_length
  omega

omit [DecidableEq ι] in
theorem Filling.disciplined (filling : Filling size q hist scripts state)
    (inv : Inv size q hist (fun _ => none)) (room : Room size q (offered scripts).card) :
    Disciplined size state act := by
  cases act with
  | call thread entry => exact trivial
  | quit thread => exact trivial
  | move thread =>
      intro pc at_
      have puts := filling.putting thread pc (Pool.at_mem_calls at_)
      cases pc with
      | add elem =>
          have last := filling.tail_lt inv at_
          obtain ⟨slots, tickets⟩ := room
          constructor
          · omega
          · intro lap
            change state.mem.tail + 1 - size ∈ state.hist.rets.map _
            rw [filling.rets_eq]
            exact (inv.get_side.settled_iff (fun _ => rfl) _).mpr (by omega)
      | store elem ticket => exact trivial
      | _ => exact puts.elim

theorem Filling.kept (filling : Filling size q hist scripts state)
    (inv : Inv size q hist (fun _ => none)) (room : Room size q (offered scripts).card)
    (moved : (phaseProgram ι size headFirst).next state act = some next) :
    Filling size q hist scripts next := by
  obtain ⟨head, rets⟩ := putting_move moved filling.putting
  constructor
  · exact held_next (entries_next moved filling.entries) filling.held
      (filling.disciplined inv room) moved
  · exact script_next moved filling.entries
  · exact putting_next moved filling.putting
  · rw [head, filling.head_eq]
  · rw [rets, filling.rets_eq]
  · rw [← filling.puts_eq]
    apply script_total_next moved
    intro thread pc mem outcome _ at_ stepped
    have puts := filling.putting thread pc (Pool.at_mem_calls at_)
    cases pc with
    | add elem =>
        cases stepped
        change ((state.hist.puts ++ [elem] : List ℤ) : Multiset ℤ) + 0 = state.hist.puts + {elem}
        rw [add_zero, ← Multiset.coe_add, Multiset.coe_singleton]
    | store elem ticket => cases stepped; rfl
    | _ => exact puts.elim

theorem Filling.of_run (inv : Inv size q hist (fun _ => none))
    (room : Room size q (offered scripts).card) (adds : ∀ thread, ∀ pc ∈ scripts thread, pc.Adds)
    (run : Run (phaseProgram ι size headFirst).next (launch q hist scripts) trace state) :
    Filling size q hist scripts state :=
  run.invariant (meets_true trace) (filling_start inv adds)
    (fun _ _ _ filling _ moved => filling.kept inv room moved)

/-- The ring after a phase of enqueues. -/
structure Filled (size : ℕ) (q : Queue) (hist : Hist ι) (scripts : ι → List Pc)
    (after : Queue) (grown : Hist ι) : Prop where
  inv : Inv size after grown (fun _ => none)
  head_eq : after.head = q.head
  tail_eq : after.tail = q.tail + (offered scripts).card
  rets_eq : grown.rets = hist.rets
  puts_eq : (grown.puts : Multiset ℤ) = hist.puts + offered scripts

omit [DecidableEq ι] in
theorem Filling.joined (filling : Filling size q hist scripts state)
    (inv : Inv size q hist (fun _ => none)) (joined : Joined state) :
    Filled size q hist scripts state.mem state.hist := by
  have held := filling.held
  rw [Held, joined.quiet] at held
  have puts := filling.puts_eq
  rw [total_done _ _ joined] at puts
  have counted := congrArg Multiset.card puts
  rw [Multiset.card_add, Multiset.coe_card, Multiset.coe_card] at counted
  have now := held.puts_length
  have before := inv.puts_length
  constructor
  · exact held
  · exact filling.head_eq
  · omega
  · exact filling.rets_eq
  · exact puts

def asked (scripts : ι → List Pc) : ℤ := ∑ thread, ((scripts thread).map Pc.owes).sum

structure Emptying (size : ℕ) (q : Queue) (hist : Hist ι) (scripts : ι → List Pc)
    (state : PhasePool ι) : Prop where
  held : Held size state
  entries : ∀ thread, ∀ pc ∈ (state.thread thread).script, pc.Entry
  getting : ∀ thread, ∀ pc ∈ (state.thread thread).calls, pc.Getting
  tail_eq : state.mem.tail = q.tail
  stores_eq : state.hist.stores = hist.stores
  puts_eq : state.hist.puts = hist.puts
  head_eq : state.total (fun q _ => q.head) (Thread.due Pc.owes) = q.head + asked scripts

omit [DecidableEq ι] in
theorem emptying_start (inv : Inv size q hist (fun _ => none))
    (draws : ∀ thread, ∀ pc ∈ scripts thread, pc = .draw) :
    Emptying size q hist scripts (launch q hist scripts) := by
  constructor
  · exact inv
  · intro thread pc member
    rw [draws thread pc member]
    exact trivial
  · intro thread pc member
    rw [draws thread pc member]
    exact trivial
  · rfl
  · rfl
  · rfl
  · rfl

omit [Fintype ι] in
theorem getting_next (moved : (phaseProgram ι size headFirst).next state act = some next)
    (getting : ∀ thread, ∀ pc ∈ (state.thread thread).calls, pc.Getting) :
    ∀ thread, ∀ pc ∈ (next.thread thread).calls, pc.Getting := by
  have onward : ∀ (thread : ι) (pc : Pc) (q after : Queue) (outcome : Outcome Pc ℤ) (reached : Pc),
      step size headFirst pc q = some (after, outcome) → outcome.pc? = some reached →
      pc.Getting → reached.Getting := by
    intro thread pc q after outcome reached stepped same gets
    cases pc with
    | draw => cases stepped; cases same; exact trivial
    | spin ticket =>
        simp only [step] at stepped
        split at stepped <;> cases stepped <;> cases same <;> exact trivial
    | read ticket => cases stepped; cases same; exact trivial
    | clear ticket elem => cases stepped; cases same
    | _ => exact gets.elim
  exact calls_next onward moved getting

theorem Pc.owes_nonneg (pc : Pc) : 0 ≤ pc.owes := by
  unfold Pc.owes
  split <;> omega

omit [DecidableEq ι] in
theorem Emptying.head_le (emptying : Emptying size q hist scripts state) {thread : ι} {pc : Pc}
    (at_ : state.at thread = some pc) : state.mem.head + pc.owes ≤ q.head + asked scripts := by
  rw [← emptying.head_eq]
  exact Pool.due_le_total (fun q _ => q.head) Pc.owes_nonneg at_

omit [DecidableEq ι] in
theorem Emptying.disciplined (emptying : Emptying size q hist scripts state)
    (enough : q.head + asked scripts ≤ q.tail) : Disciplined size state act := by
  cases act with
  | call thread entry => exact trivial
  | quit thread => exact trivial
  | move thread =>
      intro pc at_
      have gets := emptying.getting thread pc (Pool.at_mem_calls at_)
      cases pc with
      | draw =>
          have next : state.mem.head + 1 ≤ _ := emptying.head_le at_
          have last := emptying.tail_eq
          have int := emptying.held.tail_lt
          constructor
          · omega
          · intro lap
            exact emptying.held.reuse (state.mem.head + 1) lap (by omega)
      | spin ticket => exact trivial
      | read ticket => exact trivial
      | clear ticket elem => exact trivial
      | _ => exact gets.elim

theorem Emptying.move (emptying : Emptying size q hist scripts state)
    (moved : (phaseProgram ι size headFirst).next state act = some next) :
    next.mem.tail = state.mem.tail ∧ next.hist.stores = state.hist.stores ∧
      next.hist.puts = state.hist.puts := by
  rcases Program.next_cases moved with
    ⟨thread, entry, script, left, rfl, idle, called, rfl⟩ |
    ⟨thread, script, left, rfl, idle, impossible, rfl⟩ |
    ⟨thread, pc, script, mem, outcome, rfl, busy, stepped, rfl⟩
  · exact ⟨rfl, rfl, rfl⟩
  · cases impossible
  · have gets := emptying.getting thread pc (Pool.at_mem_calls (Pool.at_busy busy))
    cases pc with
    | draw => cases stepped; exact ⟨rfl, rfl, rfl⟩
    | spin ticket => cases stepped; exact ⟨rfl, rfl, rfl⟩
    | read ticket => cases stepped; exact ⟨rfl, rfl, rfl⟩
    | clear ticket elem => cases stepped; exact ⟨rfl, rfl, rfl⟩
    | _ => exact gets.elim

theorem Emptying.kept (emptying : Emptying size q hist scripts state)
    (enough : q.head + asked scripts ≤ q.tail)
    (moved : (phaseProgram ι size headFirst).next state act = some next) :
    Emptying size q hist scripts next := by
  obtain ⟨tail, stores, puts⟩ := emptying.move moved
  constructor
  · exact held_next (entries_next moved emptying.entries) emptying.held
      (emptying.disciplined enough) moved
  · exact script_next moved emptying.entries
  · exact getting_next moved emptying.getting
  · rw [tail, emptying.tail_eq]
  · rw [stores, emptying.stores_eq]
  · rw [puts, emptying.puts_eq]
  · rw [← emptying.head_eq]
    apply script_total_next moved
    intro thread pc mem outcome _ at_ stepped
    have gets := emptying.getting thread pc (Pool.at_mem_calls at_)
    cases pc with
    | draw =>
        have next : state.mem.head + 1 ≤ _ := emptying.head_le at_
        have last := emptying.tail_eq
        have int := emptying.held.tail_lt
        cases stepped
        change addAndFetch state.mem.head + 0 = state.mem.head + 1
        rw [addAndFetch_eq emptying.held.get_side.last_ge (by omega), add_zero]
    | spin ticket =>
        simp only [step] at stepped
        split at stepped <;> cases stepped <;> rfl
    | read ticket => cases stepped; rfl
    | clear ticket elem => cases stepped; rfl
    | _ => exact gets.elim

theorem Emptying.of_run (inv : Inv size q hist (fun _ => none))
    (enough : q.head + asked scripts ≤ q.tail)
    (draws : ∀ thread, ∀ pc ∈ scripts thread, pc = .draw)
    (run : Run (phaseProgram ι size headFirst).next (launch q hist scripts) trace state) :
    Emptying size q hist scripts state :=
  run.invariant (meets_true trace) (emptying_start inv draws)
    (fun _ _ _ emptying _ moved => emptying.kept enough moved)

structure Emptied (size : ℕ) (q : Queue) (hist : Hist ι) (scripts : ι → List Pc)
    (after : Queue) (grown : Hist ι) : Prop where
  inv : Inv size after grown (fun _ => none)
  head_eq : after.head = q.head + asked scripts
  tail_eq : after.tail = q.tail
  puts_eq : grown.puts = hist.puts

omit [DecidableEq ι] in
theorem Emptying.joined (emptying : Emptying size q hist scripts state) (joined : Joined state) :
    Emptied size q hist scripts state.mem state.hist := by
  have held := emptying.held
  rw [Held, joined.quiet] at held
  have heads := emptying.head_eq
  rw [total_done _ _ joined] at heads
  exact
    { inv := held
      head_eq := heads
      tail_eq := emptying.tail_eq
      puts_eq := emptying.puts_eq }

end QueueBench.TicketQueue
