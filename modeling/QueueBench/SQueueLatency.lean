import Mathlib.Data.Multiset.Count
import Mathlib.Data.Multiset.Range
import QueueBench.Lib.Ledger
import QueueBench.TicketDiscipline

/-! The LATENCY run of queue type 1: as many consumers as producers, each making
NUM_SAMPLES / CUR_NUM_THREADS calls on a ring of NUM_SAMPLES slots. The calls still
to make plus the tickets drawn are constant, so no ticket ever reaches a second lap. -/

namespace QueueBench.TicketQueue
open Machine (Outcome Pool Program Client Act Thread scriptClient scriptClient_call)
open RingArith (addAndFetch addAndFetch_eq tmod_of_nonneg)
open Transition (Run Meets meets_true run_of_play)

def samplesPerThread (NUM_SAMPLES CUR_NUM_THREADS : ℕ) : ℕ := NUM_SAMPLES / CUR_NUM_THREADS

/-- `enqueue_handler`, LATENCY build: `Enqueue((atom) i + 1)` for every sample. -/
def enqueue_handler (NUM_SAMPLES CUR_NUM_THREADS : ℕ) : List Pc :=
  (List.range (samplesPerThread NUM_SAMPLES CUR_NUM_THREADS)).map
    (fun i : ℕ => Enqueue ((i : ℤ) + 1))

def worker_handler (NUM_SAMPLES CUR_NUM_THREADS : ℕ) : List Pc :=
  List.replicate (samplesPerThread NUM_SAMPLES CUR_NUM_THREADS) Dequeue

abbrev LatencyPool (c : ℕ) : Type :=
  Pool (Fin c ⊕ Fin c) Queue Pc (List Pc) (Hist (Fin c ⊕ Fin c))

def latencyProgram (NUM_SAMPLES c : ℕ) (headFirst : Bool) :
    Program (Fin c ⊕ Fin c) Queue Pc ℤ (List Pc) (Hist (Fin c ⊕ Fin c)) :=
  program NUM_SAMPLES headFirst (scriptClient Pc ℤ)

def Finished {c : ℕ} (state : LatencyPool c) : Prop :=
  ∀ thread, state.thread thread = .idle []

instance {c : ℕ} (state : LatencyPool c) : Decidable (Finished state) :=
  inferInstanceAs (Decidable (∀ thread, state.thread thread = .idle []))

/-! ### What is still to be drawn -/

def Pc.offered : Pc → Option ℤ
  | .add elem => some elem
  | _ => none

def Pc.undrawn : Pc → Bool
  | .gate | .compare | .compareWith _ | .draw => true
  | _ => false

def toPut (standing : Thread Pc (List Pc)) : Multiset ℤ :=
  (standing.calls.filterMap Pc.offered : List ℤ)

def toGet (standing : Thread Pc (List Pc)) : ℤ := (standing.calls.countP Pc.undrawn : ℕ)

def Producing (standing : Thread Pc (List Pc)) : Prop :=
  (∀ pc, standing.pc? = some pc → (∃ elem, pc = .add elem) ∨ ∃ elem ticket, pc = .store elem ticket) ∧
    ∀ pc ∈ standing.script, ∃ elem, 0 < elem ∧ pc = Enqueue elem

def Consuming (standing : Thread Pc (List Pc)) : Prop :=
  (∀ pc, standing.pc? = some pc → pc = .gate ∨ pc = .draw ∨ pc.getTicket.isSome = true) ∧
    ∀ pc ∈ standing.script, pc = Dequeue

/-- Producers only put, and consumers never get past the first operand of `isEmpty`. -/
def Role {c : ℕ} (thread : Fin c ⊕ Fin c) (standing : Thread Pc (List Pc)) : Prop :=
  Sum.elim (fun _ => Producing standing) (fun _ => Consuming standing) thread

def samples (count : ℕ) : Multiset ℤ := ((List.range count).map (fun i : ℕ => (i : ℤ) + 1) : List ℤ)

structure LatencyInv (size c count : ℕ) (state : LatencyPool c) : Prop where
  held : Held size state
  role : ∀ thread, Role thread (state.thread thread)
  puts : state.total (fun _ hist => (hist.puts : Multiset ℤ)) toPut = c • samples count
  gets : state.total (fun q _ => q.head + 1) toGet = (c : ℤ) * count
  told : state.hist.empties = []

variable {size c count : ℕ} {headFirst : Bool} {state next : LatencyPool c}
variable {act : Act (Fin c ⊕ Fin c) Pc}

theorem samples_card (count : ℕ) : (samples count).card = count := by
  simp only [samples, Multiset.coe_card, List.length_map, List.length_range]

private theorem toGet_nonneg (standing : Thread Pc (List Pc)) : 0 ≤ toGet standing :=
  Int.natCast_nonneg _

theorem LatencyInv.puts_le (inv : LatencyInv size c count state) (thread : Fin c ⊕ Fin c) :
    state.hist.puts.length + (toPut (state.thread thread)).card ≤ c * count := by
  have part : (state.hist.puts : Multiset ℤ) + toPut (state.thread thread) ≤ _ :=
    Pool.carry_le_total (fun _ hist => (hist.puts : Multiset ℤ)) state
      (fun standing => Multiset.zero_le (toPut standing)) thread
  rw [inv.puts] at part
  have counted := Multiset.card_le_card part
  rw [Multiset.card_add, Multiset.coe_card, Multiset.card_nsmul, samples_card] at counted
  exact counted

theorem LatencyInv.gets_le (inv : LatencyInv size c count state) (thread : Fin c ⊕ Fin c) :
    state.mem.head + 1 + toGet (state.thread thread) ≤ (c : ℤ) * count := by
  have part : state.mem.head + 1 + toGet (state.thread thread) ≤ _ :=
    Pool.carry_le_total (fun q _ => q.head + 1) state toGet_nonneg thread
  rw [inv.gets] at part
  exact part

theorem LatencyInv.disciplined (inv : LatencyInv size c count state) (fits : c * count ≤ size)
    (int : size < 2 ^ 31) : Disciplined size state act := by
  cases act with
  | call thread entry => trivial
  | quit thread => trivial
  | move thread =>
      intro pc at_
      have standing := Pool.at_eq_some at_
      have bound : (c : ℤ) * count ≤ size := by exact_mod_cast fits
      cases pc with
      | add elem =>
          have drawn := inv.puts_le thread
          have length := inv.held.puts_length
          rw [standing] at drawn
          simp only [toPut, Thread.calls, Pc.offered, List.filterMap_cons, Multiset.coe_card,
            List.length_cons] at drawn
          change Fresh size state.mem.tail state.hist
          unfold Fresh
          omega
      | draw =>
          have drawn := inv.gets_le thread
          rw [standing] at drawn
          simp only [toGet, Thread.calls, List.countP_cons, Pc.undrawn, if_true] at drawn
          change Fresh size state.mem.head state.hist
          unfold Fresh
          omega
      | _ => trivial

/-- `isEmpty` stops at its first operand: the ring never fills beyond one lap. -/
theorem LatencyInv.gate_closed (inv : LatencyInv size c count state) (fits : c * count ≤ size)
    (thread : Fin c ⊕ Fin c) : ¬ state.mem.tail - size > 0 := by
  have drawn := inv.puts_le thread
  have length := inv.held.puts_length
  omega

/-! ### One step -/

theorem step_onward (size : ℕ) (headFirst : Bool) (q : Queue) {pc : Pc}
    (other : ∀ ticket, pc ≠ .spin ticket) :
    ∃ after outcome, TicketQueue.step size headFirst pc q = some (after, outcome) ∧
      ∀ again, outcome ≠ .retry again := by
  cases pc with
  | spin ticket => exact absurd rfl (other ticket)
  | gate =>
      refine ⟨_, _, rfl, ?_⟩
      intro again impossible
      split at impossible <;> cases impossible
  | compareWith first =>
      by_cases equal : first = (if headFirst then q.tail else q.head)
      · refine ⟨q, .ret (-1), ?_, by intro again impossible; cases impossible⟩
        simp only [TicketQueue.step, if_pos equal]
      · refine ⟨q, .goto .draw, ?_, by intro again impossible; cases impossible⟩
        simp only [TicketQueue.step, if_neg equal]
  | _ => exact ⟨_, _, rfl, by intro again impossible; cases impossible⟩

private theorem shape_of_stuck
    (stuck : ¬ (latencyProgram size c headFirst).Progress state) (thread : Fin c ⊕ Fin c) :
    state.thread thread = .idle [] ∨
      ∃ ticket script, state.thread thread = .busy (.spin ticket) script := by
  cases standing : state.thread thread with
  | idle script =>
      cases script with
      | nil => exact Or.inl rfl
      | cons entry left =>
          have called : (latencyProgram size c headFirst).call (entry :: left) entry = some left :=
            if_pos rfl
          exact absurd (Program.progress_call standing called) stuck
  | busy pc script =>
      by_cases spins : ∃ ticket, pc = .spin ticket
      · obtain ⟨ticket, rfl⟩ := spins
        exact Or.inr ⟨ticket, script, rfl⟩
      · obtain ⟨after, outcome, stepped, onward⟩ := step_onward size headFirst state.mem
          (fun ticket same => spins ⟨ticket, same⟩)
        have moved : (latencyProgram size c headFirst).step pc state.mem =
            some (after, outcome) := stepped
        exact absurd (Program.progress_move standing moved onward) stuck

private theorem toPut_of_stuck (inv : LatencyInv size c count state)
    (stuck : ¬ (latencyProgram size c headFirst).Progress state) (thread : Fin c ⊕ Fin c) :
    toPut (state.thread thread) = 0 := by
  have role := inv.role thread
  rcases shape_of_stuck stuck thread with standing | ⟨ticket, script, standing⟩
  · rw [standing]
    rfl
  · rw [standing] at role ⊢
    rcases thread with producer | consumer
    · rcases role.1 _ rfl with ⟨elem, impossible⟩ | ⟨elem, other, impossible⟩ <;>
        cases impossible
    · change ((script.filterMap Pc.offered : List ℤ) : Multiset ℤ) = 0
      rw [Multiset.coe_eq_zero, List.filterMap_eq_nil_iff]
      intro pc member
      rw [role.2 pc member]
      rfl

private theorem LatencyInv.puts_all (inv : LatencyInv size c count state)
    (none : ∀ thread, toPut (state.thread thread) = 0) :
    (state.hist.puts : Multiset ℤ) = c • samples count := by
  have all := inv.puts
  simp only [Pool.total, none, Finset.sum_const_zero, add_zero] at all
  exact all

private theorem LatencyInv.tail_eq (inv : LatencyInv size c count state)
    (none : ∀ thread, toPut (state.thread thread) = 0) :
    state.mem.tail + 1 = (c : ℤ) * count := by
  have counted := congrArg Multiset.card (inv.puts_all none)
  rw [Multiset.coe_card, Multiset.card_nsmul, samples_card] at counted
  rw [← inv.held.puts_length, counted]
  push_cast
  rfl

/-- A spinning consumer is served once the producers are done. -/
theorem LatencyInv.progress (inv : LatencyInv size c count state)
    (unfinished : ∃ consumer : Fin c, state.thread (.inr consumer) ≠ .idle []) :
    (latencyProgram size c headFirst).Progress state := by
  by_contra stuck
  obtain ⟨consumer, waiting⟩ := unfinished
  obtain ⟨ticket, script, standing⟩ := (shape_of_stuck stuck (.inr consumer)).resolve_left waiting
  have tail := inv.tail_eq (toPut_of_stuck inv stuck)
  have noPut : ∀ thread, putHolders state.at thread = none := by
    intro thread
    rcases shape_of_stuck stuck thread with idle | ⟨other, left, spins⟩
    · simp only [putHolders, Pool.at, idle, Thread.pc?, Option.bind_none]
    · simp only [putHolders, Pool.at, spins, Thread.pc?, Option.bind_some, Pc.putTicket]
  have at_ : state.at (.inr consumer) = some (.spin ticket) := Pool.at_busy standing
  obtain ⟨low, high, live⟩ := inv.held.get_held at_ rfl
  have drawn := inv.gets_le (.inr consumer)
  have more := toGet_nonneg (state.thread (.inr consumer))
  have stored := (inv.held.put_side.settled_iff noPut ticket).mpr ⟨low, by omega⟩
  have nonzero : state.mem.data (ticket % size) ≠ 0 :=
    inv.held.put_nonzero (inv.held.full ticket stored live)
  have served : (latencyProgram size c headFirst).step (.spin ticket) state.mem =
      some (state.mem, .goto (.read ticket)) := by
    change some (state.mem, if _ then _ else _) = _
    rw [tmod_of_nonneg low, if_neg nonzero]
  exact stuck (Program.progress_move standing served
    (by intro again impossible; cases impossible))

/-! ### The end of the run -/

end QueueBench.TicketQueue
