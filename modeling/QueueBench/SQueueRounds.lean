import Mathlib.Data.Fintype.Fin
import QueueBench.RingPhases

/-! The benchmark of SQueue/sqmain.c: eight rounds on one ring that is set up once. In every
round the ring is filled, by main in the first loop and by the enqueue threads in the second,
and only then do the workers empty it. -/

namespace QueueBench.SQueueRounds
open Machine (Pool Program Act Thread scriptProgram reaches_standstill)
open RingArith (addAndFetch_eq tmod_of_nonneg)
open TicketQueue (Queue Pc Hist Inv PhasePool phaseProgram launch Joined Spinning offered asked
  Room Filling Filled Emptying Emptied InitQueue)
open Transition (Run Reaches meets_true)

open scoped BigOperators

def NUM_THREADS : ℕ := 8

/-- `CUR_NUM_THREADS` in both loops: `for (int k=1;k<=NUM_THREADS;k=k*2)`, rounds 0 to 3 and
4 to 7. -/
def CUR_NUM_THREADS (round : ℕ) : ℕ := 2 ^ (round % 4)

def enqueueLoop (samples : ℕ) : List Pc :=
  (List.range samples).map (fun i : ℕ => .add ((i : ℤ) + 1))

def enqueue_handler (NUM_SAMPLES CUR_NUM_THREADS : ℕ) : List Pc :=
  enqueueLoop (NUM_SAMPLES / CUR_NUM_THREADS)

def worker_handler (NUM_SAMPLES CUR_NUM_THREADS : ℕ) : List Pc :=
  List.replicate (NUM_SAMPLES / CUR_NUM_THREADS) .draw

/-- The threads that fill the ring; the first of them is main in the first loop. -/
def fillers (NUM_SAMPLES round : ℕ) (thread : Fin NUM_THREADS) : List Pc :=
  if round < 4 then if thread.val < 1 then enqueueLoop NUM_SAMPLES else []
  else if thread.val < CUR_NUM_THREADS round then enqueue_handler NUM_SAMPLES (CUR_NUM_THREADS round)
  else []

def workers (NUM_SAMPLES round : ℕ) (thread : Fin NUM_THREADS) : List Pc :=
  if thread.val < CUR_NUM_THREADS round then worker_handler NUM_SAMPLES (CUR_NUM_THREADS round)
  else []

abbrev RoundPool : Type := PhasePool (Fin NUM_THREADS)

abbrev RoundHist : Type := Hist (Fin NUM_THREADS)

def Phase (MAX_SIZE : ℕ) (headFirst : Bool) (scripts : Fin NUM_THREADS → List Pc) (q : Queue)
    (hist : RoundHist) (state : RoundPool) : Prop :=
  ∃ trace, Run (phaseProgram (Fin NUM_THREADS) MAX_SIZE headFirst).next (launch q hist scripts)
    trace state

variable {NUM_SAMPLES MAX_SIZE round : ℕ} {headFirst : Bool} {junk : ℤ → ℤ}
variable {q : Queue} {hist : RoundHist}

def fill (NUM_SAMPLES round : ℕ) : ℕ :=
  if round < 4 then NUM_SAMPLES
  else CUR_NUM_THREADS round * (NUM_SAMPLES / CUR_NUM_THREADS round)

def owed (NUM_SAMPLES round : ℕ) : ℕ :=
  CUR_NUM_THREADS round * (NUM_SAMPLES / CUR_NUM_THREADS round)

theorem threads_le (round : ℕ) : CUR_NUM_THREADS round ≤ NUM_THREADS :=
  Nat.pow_le_pow_right Nat.two_pos (Nat.le_of_lt_succ (Nat.mod_lt round (by decide)))

theorem sum_scripts {M : Type*} [AddCommMonoid M] (weigh : Pc → M) {count : ℕ}
    (few : count ≤ NUM_THREADS) (script : List Pc) :
    ∑ thread : Fin NUM_THREADS, ((if thread.val < count then script else []).map weigh).sum =
      count • (script.map weigh).sum := by
  have each : ∀ thread : Fin NUM_THREADS,
      ((if thread.val < count then script else []).map weigh).sum =
        if thread.val < count then (script.map weigh).sum else 0 := by
    intro thread
    split <;> rfl
  rw [Finset.sum_congr rfl (fun thread _ => each thread), ← Finset.sum_filter, Finset.sum_const,
    Fin.card_filter_val_lt, Nat.min_eq_right few]

theorem enqueueLoop_brings (samples : ℕ) :
    ((enqueueLoop samples).map Pc.brings).sum.card = samples := by
  induction samples with
  | zero => rfl
  | succ samples ih =>
      rw [enqueueLoop, List.range_succ, List.map_append, List.map_append, List.sum_append,
        Multiset.card_add]
      change ((enqueueLoop samples).map Pc.brings).sum.card + 1 = _
      rw [ih]

theorem worker_owes (NUM_SAMPLES count : ℕ) :
    ((worker_handler NUM_SAMPLES count).map Pc.owes).sum = ((NUM_SAMPLES / count : ℕ) : ℤ) := by
  rw [worker_handler, List.map_replicate, List.sum_replicate]
  change _ • (1 : ℤ) = _
  rw [nsmul_eq_mul, mul_one]

theorem fill_eq (NUM_SAMPLES round : ℕ) :
    (offered (fillers NUM_SAMPLES round)).card = fill NUM_SAMPLES round := by
  unfold offered fill fillers
  by_cases first : round < 4
  · simp only [if_pos first]
    rw [sum_scripts Pc.brings (show 1 ≤ NUM_THREADS by decide), one_nsmul, enqueueLoop_brings]
  · simp only [if_neg first]
    rw [sum_scripts Pc.brings (threads_le round), Multiset.card_nsmul, enqueue_handler,
      enqueueLoop_brings]

theorem owed_eq (NUM_SAMPLES round : ℕ) :
    asked (workers NUM_SAMPLES round) = owed NUM_SAMPLES round := by
  unfold asked owed workers
  rw [sum_scripts Pc.owes (threads_le round), worker_owes, nsmul_eq_mul, Nat.cast_mul]

theorem owed_le (NUM_SAMPLES round : ℕ) :
    owed NUM_SAMPLES round ≤ fill NUM_SAMPLES round ∧ fill NUM_SAMPLES round ≤ NUM_SAMPLES := by
  have part := Nat.mul_div_le NUM_SAMPLES (CUR_NUM_THREADS round)
  unfold owed fill
  split
  · exact ⟨part, Nat.le_refl _⟩
  · exact ⟨Nat.le_refl _, part⟩

theorem enqueueLoop_adds (samples : ℕ) : ∀ pc ∈ enqueueLoop samples, pc.Adds := by
  intro pc member
  obtain ⟨i, _, rfl⟩ := List.mem_map.mp member
  exact ⟨(i : ℤ) + 1, by omega, rfl⟩

theorem fillers_adds (NUM_SAMPLES round : ℕ) :
    ∀ thread, ∀ pc ∈ fillers NUM_SAMPLES round thread, pc.Adds := by
  intro thread pc member
  unfold fillers at member
  split at member
  · split at member
    · exact enqueueLoop_adds _ pc member
    · cases member
  · split at member
    · exact enqueueLoop_adds _ pc member
    · cases member

theorem workers_draw (NUM_SAMPLES round : ℕ) :
    ∀ thread, ∀ pc ∈ workers NUM_SAMPLES round thread, pc = .draw := by
  intro thread pc member
  unfold workers at member
  split at member
  · exact List.eq_of_mem_replicate member
  · cases member

/-! ### Rounds that fit -/

structure Rest (MAX_SIZE drawn : ℕ) (q : Queue) (hist : RoundHist) : Prop where
  inv : Inv MAX_SIZE q hist (fun _ => none)
  drained : q.head = q.tail
  tickets : q.tail + 1 ≤ drawn

variable {drawn : ℕ} {filled state : RoundPool}

theorem Rest.room (rest : Rest MAX_SIZE drawn q hist) (fits : NUM_SAMPLES ≤ MAX_SIZE)
    (int : drawn + NUM_SAMPLES < 2 ^ 31) :
    Room MAX_SIZE q (offered (fillers NUM_SAMPLES round)).card := by
  have most := (owed_le NUM_SAMPLES round).2
  have tickets := rest.tickets
  have drained := rest.drained
  rw [fill_eq]
  constructor <;> omega

theorem Rest.between (rest : Rest MAX_SIZE drawn q hist) (fits : NUM_SAMPLES ≤ MAX_SIZE)
    (int : drawn + NUM_SAMPLES < 2 ^ 31)
    (phase : Phase MAX_SIZE headFirst (fillers NUM_SAMPLES round) q hist filled)
    (joined : Joined filled) :
    Filled MAX_SIZE q hist (fillers NUM_SAMPLES round) filled.mem filled.hist := by
  obtain ⟨trace, run⟩ := phase
  exact (Filling.of_run rest.inv (rest.room fits int) (fillers_adds NUM_SAMPLES round) run).joined
    rest.inv joined

theorem Rest.enough (rest : Rest MAX_SIZE drawn q hist)
    (full : Filled MAX_SIZE q hist (fillers NUM_SAMPLES round) filled.mem filled.hist) :
    filled.mem.head + asked (workers NUM_SAMPLES round) ≤ filled.mem.tail := by
  have most := (owed_le NUM_SAMPLES round).1
  rw [full.head_eq, full.tail_eq, rest.drained, owed_eq, fill_eq]
  omega

theorem Rest.emptying (rest : Rest MAX_SIZE drawn q hist)
    (full : Filled MAX_SIZE q hist (fillers NUM_SAMPLES round) filled.mem filled.hist)
    (phase : Phase MAX_SIZE headFirst (workers NUM_SAMPLES round) filled.mem filled.hist state) :
    Emptying MAX_SIZE filled.mem filled.hist (workers NUM_SAMPLES round) state := by
  obtain ⟨trace, run⟩ := phase
  exact Emptying.of_run full.inv (rest.enough full) (workers_draw NUM_SAMPLES round) run

theorem Rest.counters (rest : Rest MAX_SIZE drawn q hist)
    (full : Filled MAX_SIZE q hist (fillers NUM_SAMPLES round) filled.mem filled.hist)
    (empty : Emptied MAX_SIZE filled.mem filled.hist (workers NUM_SAMPLES round) state.mem
      state.hist) :
    state.mem.tail = q.tail + fill NUM_SAMPLES round ∧
      state.mem.head = q.tail + owed NUM_SAMPLES round := by
  constructor
  · rw [empty.tail_eq, full.tail_eq, fill_eq]
  · rw [empty.head_eq, full.head_eq, rest.drained, owed_eq]

/-- A round whose workers ask for what it enqueues leaves the ring as it found it. -/
theorem Rest.kept (rest : Rest MAX_SIZE drawn q hist) (fits : NUM_SAMPLES ≤ MAX_SIZE)
    (int : drawn + NUM_SAMPLES < 2 ^ 31) (exact_ : fill NUM_SAMPLES round = owed NUM_SAMPLES round)
    (filling : Phase MAX_SIZE headFirst (fillers NUM_SAMPLES round) q hist filled)
    (full : Joined filled)
    (phase : Phase MAX_SIZE headFirst (workers NUM_SAMPLES round) filled.mem filled.hist state)
    (done : Joined state) : Rest MAX_SIZE (drawn + NUM_SAMPLES) state.mem state.hist := by
  have between := rest.between fits int filling full
  have after := (rest.emptying between phase).joined done
  obtain ⟨tail, head⟩ := rest.counters between after
  have most := (owed_le NUM_SAMPLES round).2
  have tickets := rest.tickets
  constructor
  · exact after.inv
  · rw [tail, head, exact_]
  · omega

def Cleared (MAX_SIZE : ℕ) (q : Queue) (bound : ℤ) : Prop :=
  ∀ ticket : ℤ, 0 ≤ ticket → ticket < bound → q.data (ticket % MAX_SIZE) = 0

/-- How far a worker has come that is alone on the ring: it never gets past the ticket of
the first lap's end, whose slot it has cleared itself. -/
def Stage (MAX_SIZE count : ℕ) (q : Queue) : Thread Pc (List Pc) → Prop
  | .idle script => q.head < MAX_SIZE ∧ q.head + 1 + script.length = count ∧
      Cleared MAX_SIZE q (q.head + 1)
  | .busy .draw script => q.head < MAX_SIZE ∧ q.head + 2 + script.length = count ∧
      Cleared MAX_SIZE q (q.head + 1)
  | .busy (.spin ticket) script => ticket = q.head ∧ q.head ≤ MAX_SIZE ∧
      q.head + 1 + script.length = count ∧ Cleared MAX_SIZE q q.head
  | .busy (.read ticket) script | .busy (.clear ticket _) script => ticket = q.head ∧
      q.head < MAX_SIZE ∧ q.head + 1 + script.length = count ∧ Cleared MAX_SIZE q q.head
  | _ => False

structure Alone (MAX_SIZE count : ℕ) (worker : Fin NUM_THREADS) (state : RoundPool) : Prop where
  others : ∀ other, other ≠ worker → state.thread other = .idle []
  draws : ∀ pc ∈ (state.thread worker).script, pc = .draw
  head_ge : -1 ≤ state.mem.head
  stage : Stage MAX_SIZE count state.mem (state.thread worker)

theorem Cleared.lap {head : ℤ} (cleared : Cleared MAX_SIZE q head) (positive : 0 < MAX_SIZE)
    (high : head ≤ MAX_SIZE) (nonzero : q.data (head % MAX_SIZE) ≠ 0) :
    head < MAX_SIZE := by
  by_contra whole
  have last : head = MAX_SIZE := by omega
  apply nonzero
  have first := cleared 0 (Int.le_refl 0) (by omega)
  rw [last, Int.emod_self, ← Int.zero_emod (MAX_SIZE : ℤ)]
  exact first

theorem Cleared.clear {head : ℤ} (cleared : Cleared MAX_SIZE q head) (low : 0 ≤ head) :
    Cleared MAX_SIZE { q with data := Function.update q.data (head.tmod MAX_SIZE) 0 }
      (head + 1) := by
  intro ticket nonneg small
  rw [tmod_of_nonneg low]
  change Function.update q.data (head % MAX_SIZE) 0 (ticket % MAX_SIZE) = 0
  by_cases same : ticket % (MAX_SIZE : ℤ) = head % MAX_SIZE
  · rw [same, Function.update_self]
  · rw [Function.update_of_ne same]
    apply cleared ticket nonneg
    have different : ticket ≠ head := fun equal => same (by rw [equal])
    omega

theorem Stage.step {count : ℕ} {pc : Pc} {script : List Pc} {after : Queue}
    {outcome : Machine.Outcome Pc ℤ} (stage : Stage MAX_SIZE count q (.busy pc script))
    (positive : 0 < MAX_SIZE) (int : count < 2 ^ 31) (head_ge : -1 ≤ q.head)
    (stepped : TicketQueue.step MAX_SIZE headFirst pc q = some (after, outcome)) :
    -1 ≤ after.head ∧ Stage MAX_SIZE count after
      ((phaseProgram (Fin NUM_THREADS) MAX_SIZE headFirst).resume script outcome) := by
  cases pc with
  | draw =>
      obtain ⟨inside, left, cleared⟩ := stage
      cases stepped
      have next := addAndFetch_eq head_ge (show q.head + 1 < 2 ^ 31 by omega)
      rw [next]
      change -1 ≤ q.head + 1 ∧ q.head + 1 = q.head + 1 ∧ q.head + 1 ≤ MAX_SIZE ∧
        q.head + 1 + 1 + (script.length : ℤ) = count ∧ Cleared MAX_SIZE q (q.head + 1)
      exact ⟨by omega, rfl, by omega, by omega, cleared⟩
  | spin ticket =>
      obtain ⟨rfl, high, left, cleared⟩ := stage
      cases stepped
      refine ⟨head_ge, ?_⟩
      by_cases zero : q.data (q.head.tmod MAX_SIZE) = 0
      · rw [if_pos zero]
        exact ⟨rfl, high, left, cleared⟩
      · rw [if_neg zero]
        refine ⟨rfl, ?_, left, cleared⟩
        by_cases low : 0 ≤ q.head
        · rw [tmod_of_nonneg low] at zero
          exact cleared.lap positive high zero
        · omega
  | read ticket =>
      cases stepped
      exact ⟨head_ge, stage⟩
  | clear ticket elem =>
      obtain ⟨rfl, inside, left, cleared⟩ := stage
      cases stepped
      refine ⟨head_ge, inside, left, ?_⟩
      by_cases low : 0 ≤ q.head
      · exact cleared.clear low
      · intro ticket nonneg small
        change ticket < q.head + 1 at small
        omega
  | _ => exact stage.elim

theorem Alone.kept {count : ℕ} {worker : Fin NUM_THREADS} {next : RoundPool}
    {act : Act (Fin NUM_THREADS) Pc} (alone : Alone MAX_SIZE count worker state)
    (positive : 0 < MAX_SIZE) (int : count < 2 ^ 31)
    (moved : (phaseProgram (Fin NUM_THREADS) MAX_SIZE headFirst).next state act = some next) :
    Alone MAX_SIZE count worker next := by
  have draws : ∀ thread, ∀ pc ∈ (next.thread thread).script, thread = worker → pc = .draw := by
    refine Machine.script_next moved ?_
    rintro thread pc member rfl
    exact alone.draws pc member
  rcases Program.next_cases moved with
    ⟨thread, entry, script, left, rfl, idle, called, rfl⟩ |
    ⟨thread, script, left, rfl, idle, impossible, rfl⟩ |
    ⟨thread, pc, script, mem, outcome, rfl, busy, stepped, rfl⟩
  · have whole := Machine.scriptClient_call called
    have mine : thread = worker := by
      by_contra other
      rw [alone.others thread other, whole] at idle
      cases idle
    subst mine
    have stage := alone.stage
    have draw := alone.draws entry (by
      rw [idle, whole]
      exact List.mem_cons_self)
    rw [idle, whole, draw] at stage
    obtain ⟨inside, length, cleared⟩ := stage
    constructor
    · intro other different
      change Function.update state.thread thread _ other = _
      rw [Function.update_of_ne different]
      exact alone.others other different
    · exact fun pc member => draws thread pc member rfl
    · exact alone.head_ge
    · change Stage MAX_SIZE count state.mem (Function.update state.thread thread _ thread)
      rw [Function.update_self, draw]
      rw [List.length_cons] at length
      refine ⟨inside, ?_, cleared⟩
      push_cast at length
      omega
  · cases impossible
  · have mine : thread = worker := by
      by_contra other
      rw [alone.others thread other] at busy
      cases busy
    subst mine
    have stage := alone.stage
    rw [busy] at stage
    obtain ⟨head_ge, later⟩ := stage.step positive int alone.head_ge stepped
    constructor
    · intro other different
      change Function.update state.thread thread _ other = _
      rw [Function.update_of_ne different]
      exact alone.others other different
    · exact fun pc member => draws thread pc member rfl
    · exact head_ge
    · change Stage MAX_SIZE count mem (Function.update state.thread thread _ thread)
      rw [Function.update_self]
      exact later

end QueueBench.SQueueRounds
