import QueueBench.Lib.Ledger
import QueueBench.SampleMerge

/-! The counts of a THROUGHPUT run of QueueBenchmarks/sqmain.c. The handlers count their calls
in batches, with a counter that begins every batch at 1, and add the batches to the shared
totals under the lock. -/

namespace QueueBench.Throughput
open Machine (Outcome Pool Program Act Thread scriptProgram scriptClient_call
  script_total_next total_done calls_next resume_calls script_call)
open Samples (Side)
open Transition (Run Reaches meets_true run_of_play)

open scoped BigOperators

def ENQUEUE_SECONDS : ℤ := 3

def DEQUEUE_SECONDS : ℤ := 3

/-- The seconds a thread reads from the clock: `looptime`, and `loopend` for every batch. -/
structure Clock where
  looptime : ℤ
  loopend : ℕ → ℤ

/-- What the environment gives to `p` producers and `c` consumers; `ret` is not initialised in
worker_handler, and `returned` are the values of its Dequeue calls. -/
structure Inputs (p c : ℕ) where
  enqueueClock : Fin p → Clock
  dequeueClock : Fin c → Clock
  ret : Fin c → ℤ
  returned : Fin c → ℕ → ℤ

/-- Local variables of `enqueue_handler`; `batches` readings of `loopend` have been made. -/
structure Enqueuing where
  i : ℕ
  NUM_SAMPLES_PER_THREAD : ℕ
  diff : ℤ
  batches : ℕ
deriving DecidableEq, Repr

structure Dequeuing where
  ret : ℤ
  count : ℕ
  NUM_SAMPLES_PER_THREAD : ℕ
  diff : ℤ
  calls : ℕ
  batches : ℕ
deriving DecidableEq, Repr

def enqueueTurn (clock : Clock) (vars : Enqueuing) : Enqueuing :=
  let i := vars.i + 1
  if i % 10000 = 0 then
    { i := 1
      NUM_SAMPLES_PER_THREAD := vars.NUM_SAMPLES_PER_THREAD + i
      diff := clock.loopend vars.batches - clock.looptime
      batches := vars.batches + 1 }
  else { vars with i := i }

def dequeueTurn (clock : Clock) (returned : ℕ → ℤ) (vars : Dequeuing) : Dequeuing :=
  let ret := returned vars.calls
  let count := vars.count + 1
  if count % 10000 = 0 ∨ ret = -1 then
    { ret := ret
      count := 1
      NUM_SAMPLES_PER_THREAD := vars.NUM_SAMPLES_PER_THREAD + count
      diff := clock.loopend vars.batches - clock.looptime
      calls := vars.calls + 1
      batches := vars.batches + 1 }
  else { vars with ret := ret, count := count, calls := vars.calls + 1 }

inductive Pc (p c : ℕ) where
  | enqueueLoop (producer : Fin p) (vars : Enqueuing)
  | dequeueLoop (consumer : Fin c) (vars : Dequeuing)
  | lock (side : Side) (NUM_SAMPLES_PER_THREAD : ℕ)
  | add (side : Side) (NUM_SAMPLES_PER_THREAD : ℕ)
  | unlock
deriving DecidableEq, Repr

/-- `SAMPLES` is ENQUEUE_SAMPLES or DEQUEUE_SAMPLES. -/
structure Globals where
  lock : Bool
  SAMPLES : Side → ℕ

variable {p c : ℕ}

def step (inputs : Inputs p c) (pc : Pc p c) (globals : Globals) :
    Option (Globals × Outcome (Pc p c) Unit) :=
  match pc with
  | .enqueueLoop producer vars =>
      if vars.diff ≤ ENQUEUE_SECONDS then
        some (globals,
          .goto (.enqueueLoop producer (enqueueTurn (inputs.enqueueClock producer) vars)))
      else some (globals, .goto (.lock .enqueue vars.NUM_SAMPLES_PER_THREAD))
  | .dequeueLoop consumer vars =>
      if vars.diff ≤ DEQUEUE_SECONDS ∧ vars.ret ≠ -1 then
        some (globals, .goto (.dequeueLoop consumer
          (dequeueTurn (inputs.dequeueClock consumer) (inputs.returned consumer) vars)))
      else some (globals, .goto (.lock .dequeue vars.NUM_SAMPLES_PER_THREAD))
  | .lock side NUM_SAMPLES_PER_THREAD =>
      if globals.lock then none
      else some ({ globals with lock := true }, .goto (.add side NUM_SAMPLES_PER_THREAD))
  | .add side NUM_SAMPLES_PER_THREAD =>
      some ({ globals with
        SAMPLES := Function.update globals.SAMPLES side
          (globals.SAMPLES side + NUM_SAMPLES_PER_THREAD) }, .goto .unlock)
  | .unlock => some ({ globals with lock := false }, .ret ())

/-- The arguments of all Enqueue calls, the values of all Dequeue calls, and the number of
batches that have been counted. -/
structure Hist where
  enqueued : List ℕ
  dequeued : List ℤ
  batches : Side → ℕ

def record (inputs : Inputs p c) (_thread : Fin p ⊕ Fin c) (pc : Pc p c) (_globals : Globals)
    (hist : Hist) : Hist :=
  match pc with
  | .enqueueLoop producer vars =>
      if vars.diff ≤ ENQUEUE_SECONDS then
        { hist with
          enqueued := hist.enqueued ++ [vars.i + 1]
          batches := Function.update hist.batches .enqueue (hist.batches .enqueue +
            ((enqueueTurn (inputs.enqueueClock producer) vars).batches - vars.batches)) }
      else hist
  | .dequeueLoop consumer vars =>
      if vars.diff ≤ DEQUEUE_SECONDS ∧ vars.ret ≠ -1 then
        { hist with
          dequeued := hist.dequeued ++ [inputs.returned consumer vars.calls]
          batches := Function.update hist.batches .dequeue (hist.batches .dequeue +
            ((dequeueTurn (inputs.dequeueClock consumer) (inputs.returned consumer) vars).batches -
              vars.batches)) }
      else hist
  | _ => hist

def enqueue_handler (producer : Fin p) : List (Pc p c) :=
  [.enqueueLoop producer { i := 1, NUM_SAMPLES_PER_THREAD := 0, diff := 0, batches := 0 }]

def worker_handler (inputs : Inputs p c) (consumer : Fin c) : List (Pc p c) :=
  [.dequeueLoop consumer
    { ret := inputs.ret consumer
      count := 1
      NUM_SAMPLES_PER_THREAD := 0
      diff := 0
      calls := 0
      batches := 0 }]

abbrev ThroughputPool (p c : ℕ) : Type :=
  Pool (Fin p ⊕ Fin c) Globals (Pc p c) (List (Pc p c)) Hist

def program (inputs : Inputs p c) :
    Program (Fin p ⊕ Fin c) Globals (Pc p c) Unit (List (Pc p c)) Hist :=
  scriptProgram (step inputs) (record inputs)

def start (inputs : Inputs p c) : ThroughputPool p c :=
  { mem := { lock := false, SAMPLES := fun _ => 0 }
    thread := fun thread => .idle (Sum.elim enqueue_handler (worker_handler inputs) thread)
    hist := { enqueued := [], dequeued := [], batches := fun _ => 0 } }

def Joined (state : ThroughputPool p c) : Prop := ∀ thread, state.thread thread = .idle []

def Looping (side : Side) : Pc p c → Prop
  | .enqueueLoop _ vars => side = .enqueue ∧ vars.diff ≤ ENQUEUE_SECONDS
  | .dequeueLoop _ vars => side = .dequeue ∧ vars.diff ≤ DEQUEUE_SECONDS ∧ vars.ret ≠ -1
  | _ => False

variable {inputs : Inputs p c} {state next : ThroughputPool p c}
variable {act : Act (Fin p ⊕ Fin c) (Pc p c)} {side : Side}
variable {pc : Pc p c} {globals after : Globals} {outcome : Outcome (Pc p c) Unit} {hist : Hist}

theorem step_cases (stepped : step inputs pc globals = some (after, outcome)) :
    (∃ producer vars, pc = .enqueueLoop producer vars ∧ after = globals ∧
      (vars.diff ≤ ENQUEUE_SECONDS ∧ outcome =
          .goto (.enqueueLoop producer (enqueueTurn (inputs.enqueueClock producer) vars)) ∨
        ¬ vars.diff ≤ ENQUEUE_SECONDS ∧
          outcome = .goto (.lock .enqueue vars.NUM_SAMPLES_PER_THREAD))) ∨
    (∃ consumer vars, pc = .dequeueLoop consumer vars ∧ after = globals ∧
      ((vars.diff ≤ DEQUEUE_SECONDS ∧ vars.ret ≠ -1) ∧ outcome =
          .goto (.dequeueLoop consumer
            (dequeueTurn (inputs.dequeueClock consumer) (inputs.returned consumer) vars)) ∨
        ¬ (vars.diff ≤ DEQUEUE_SECONDS ∧ vars.ret ≠ -1) ∧
          outcome = .goto (.lock .dequeue vars.NUM_SAMPLES_PER_THREAD))) ∨
    (∃ side samples, pc = .lock side samples ∧ globals.lock = false ∧
      after = { globals with lock := true } ∧ outcome = .goto (.add side samples)) ∨
    (∃ side samples, pc = .add side samples ∧
      after = { globals with
        SAMPLES := Function.update globals.SAMPLES side (globals.SAMPLES side + samples) } ∧
      outcome = .goto .unlock) ∨
    (pc = .unlock ∧ after = { globals with lock := false } ∧ outcome = .ret ()) := by
  cases pc with
  | enqueueLoop producer vars =>
      refine Or.inl ⟨producer, vars, rfl, ?_⟩
      by_cases early : vars.diff ≤ ENQUEUE_SECONDS
      · rw [step, if_pos early] at stepped
        cases stepped
        exact ⟨rfl, Or.inl ⟨early, rfl⟩⟩
      · rw [step, if_neg early] at stepped
        cases stepped
        exact ⟨rfl, Or.inr ⟨early, rfl⟩⟩
  | dequeueLoop consumer vars =>
      refine Or.inr (Or.inl ⟨consumer, vars, rfl, ?_⟩)
      by_cases goes : vars.diff ≤ DEQUEUE_SECONDS ∧ vars.ret ≠ -1
      · rw [step, if_pos goes] at stepped
        cases stepped
        exact ⟨rfl, Or.inl ⟨goes, rfl⟩⟩
      · rw [step, if_neg goes] at stepped
        cases stepped
        exact ⟨rfl, Or.inr ⟨goes, rfl⟩⟩
  | lock side samples =>
      cases taken : globals.lock with
      | true =>
          rw [step, taken, if_pos rfl] at stepped
          cases stepped
      | false =>
          rw [step, taken, if_neg Bool.false_ne_true] at stepped
          cases stepped
          exact Or.inr (Or.inr (Or.inl ⟨side, samples, rfl, rfl, rfl, rfl⟩))
  | add side samples =>
      cases stepped
      exact Or.inr (Or.inr (Or.inr (Or.inl ⟨side, samples, rfl, rfl, rfl⟩)))
  | unlock =>
      cases stepped
      exact Or.inr (Or.inr (Or.inr (Or.inr ⟨rfl, rfl, rfl⟩)))

/-! ### What is counted -/

def Whole : Pc p c → Prop
  | .enqueueLoop _ vars => vars.diff ≤ ENQUEUE_SECONDS ∨ vars.i = 1
  | .dequeueLoop _ vars => vars.diff ≤ DEQUEUE_SECONDS ∧ vars.ret ≠ -1 ∨ vars.count = 1
  | _ => True

theorem step_whole {reached : Pc p c} (stepped : step inputs pc globals = some (after, outcome))
    (onward : outcome.pc? = some reached) : Whole reached := by
  rcases step_cases stepped with
    ⟨producer, vars, rfl, -, ⟨early, rfl⟩ | ⟨-, rfl⟩⟩ |
    ⟨consumer, vars, rfl, -, ⟨⟨early, -⟩, rfl⟩ | ⟨-, rfl⟩⟩ |
    ⟨side, samples, rfl, -, -, rfl⟩ | ⟨side, samples, rfl, -, rfl⟩ | ⟨rfl, -, rfl⟩
  · cases onward
    unfold Whole enqueueTurn
    dsimp only
    split
    · exact Or.inr rfl
    · exact Or.inl early
  · cases onward
    trivial
  · cases onward
    unfold Whole dequeueTurn
    dsimp only
    split
    case isTrue _ => exact Or.inr rfl
    case isFalse inside => exact Or.inl ⟨early, fun refused => inside (Or.inr refused)⟩
  all_goals cases onward <;> trivial

def Hist.calls (hist : Hist) : Side → ℕ
  | .enqueue => hist.enqueued.length
  | .dequeue => hist.dequeued.length

def uncounted (side : Side) : Pc p c → ℤ
  | .enqueueLoop _ vars =>
      if side = .enqueue then (vars.NUM_SAMPLES_PER_THREAD + vars.i : ℕ) - 1 else 0
  | .dequeueLoop _ vars =>
      if side = .dequeue then (vars.NUM_SAMPLES_PER_THREAD + vars.count : ℕ) - 1 else 0
  | .lock kind samples | .add kind samples => if side = kind then samples else 0
  | .unlock => 0

def excess (side : Side) (globals : Globals) (hist : Hist) : ℤ :=
  (globals.SAMPLES side : ℤ) - (hist.calls side + hist.batches side : ℕ)

/-- A turn counts its call, and the end of a batch once more. -/
theorem enqueueTurn_counts (clock : Clock) (vars : Enqueuing) :
    (enqueueTurn clock vars).NUM_SAMPLES_PER_THREAD + (enqueueTurn clock vars).i =
      vars.NUM_SAMPLES_PER_THREAD + vars.i + 1 + ((enqueueTurn clock vars).batches - vars.batches) := by
  unfold enqueueTurn
  dsimp only
  split <;> dsimp only <;> omega

theorem dequeueTurn_counts (clock : Clock) (returned : ℕ → ℤ) (vars : Dequeuing) :
    (dequeueTurn clock returned vars).NUM_SAMPLES_PER_THREAD +
        (dequeueTurn clock returned vars).count =
      vars.NUM_SAMPLES_PER_THREAD + vars.count + 1 +
        ((dequeueTurn clock returned vars).batches - vars.batches) := by
  unfold dequeueTurn
  dsimp only
  split <;> dsimp only <;> omega

theorem record_enqueueTurn (thread : Fin p ⊕ Fin c) {producer : Fin p} {vars : Enqueuing}
    (early : vars.diff ≤ ENQUEUE_SECONDS) :
    (record inputs thread (.enqueueLoop producer vars) globals hist).calls .enqueue =
        hist.calls .enqueue + 1 ∧
      (record inputs thread (.enqueueLoop producer vars) globals hist).batches .enqueue =
        hist.batches .enqueue +
          ((enqueueTurn (inputs.enqueueClock producer) vars).batches - vars.batches) := by
  rw [record, if_pos early]
  exact ⟨List.length_append, Function.update_self Side.enqueue _ hist.batches⟩

theorem record_dequeueTurn (thread : Fin p ⊕ Fin c) {consumer : Fin c} {vars : Dequeuing}
    (goes : vars.diff ≤ DEQUEUE_SECONDS ∧ vars.ret ≠ -1) :
    (record inputs thread (.dequeueLoop consumer vars) globals hist).calls .dequeue =
        hist.calls .dequeue + 1 ∧
      (record inputs thread (.dequeueLoop consumer vars) globals hist).batches .dequeue =
        hist.batches .dequeue +
          ((dequeueTurn (inputs.dequeueClock consumer) (inputs.returned consumer) vars).batches -
            vars.batches) := by
  rw [record, if_pos goes]
  exact ⟨List.length_append, Function.update_self Side.dequeue _ hist.batches⟩

theorem step_balance (thread : Fin p ⊕ Fin c) (whole : Whole pc)
    (stepped : step inputs pc globals = some (after, outcome)) :
    excess side after (record inputs thread pc globals hist) +
        outcome.pc?.elim 0 (uncounted side) = excess side globals hist + uncounted side pc := by
  rcases step_cases stepped with
    ⟨producer, vars, rfl, rfl, ⟨early, rfl⟩ | ⟨late, rfl⟩⟩ |
    ⟨consumer, vars, rfl, rfl, ⟨goes, rfl⟩ | ⟨ends, rfl⟩⟩ |
    ⟨kind, samples, rfl, -, rfl, rfl⟩ | ⟨kind, samples, rfl, rfl, rfl⟩ | ⟨rfl, rfl, rfl⟩
  · cases side with
    | enqueue =>
        have counts := enqueueTurn_counts (inputs.enqueueClock producer) vars
        obtain ⟨calls, batches⟩ :=
          @record_enqueueTurn _ _ inputs after hist thread producer _ early
        unfold excess
        rw [calls, batches]
        change _ + ((_ : ℕ) - 1 : ℤ) = _ + ((_ : ℕ) - 1 : ℤ)
        omega
    | dequeue =>
        rw [record, if_pos early]
        rfl
  · rw [record, if_neg late]
    cases side with
    | enqueue =>
        have fresh := whole.resolve_left late
        change _ + (vars.NUM_SAMPLES_PER_THREAD : ℤ) = _ + ((_ : ℕ) - 1 : ℤ)
        omega
    | dequeue => rfl
  · cases side with
    | enqueue =>
        rw [record, if_pos goes]
        rfl
    | dequeue =>
        have counts := dequeueTurn_counts (inputs.dequeueClock consumer) (inputs.returned consumer) vars
        obtain ⟨calls, batches⟩ :=
          @record_dequeueTurn _ _ inputs after hist thread consumer _ goes
        unfold excess
        rw [calls, batches]
        change _ + ((_ : ℕ) - 1 : ℤ) = _ + ((_ : ℕ) - 1 : ℤ)
        omega
  · rw [record, if_neg ends]
    cases side with
    | enqueue => rfl
    | dequeue =>
        have fresh := whole.resolve_left ends
        change _ + (vars.NUM_SAMPLES_PER_THREAD : ℤ) = _ + ((_ : ℕ) - 1 : ℤ)
        omega
  · rfl
  · change ((Function.update globals.SAMPLES kind _ side : ℕ) -
        (hist.calls side + hist.batches side : ℕ) + 0 : ℤ) =
      globals.SAMPLES side - (hist.calls side + hist.batches side : ℕ) +
        if side = kind then (samples : ℤ) else 0
    by_cases same : side = kind
    · subst kind
      rw [Function.update_self, if_pos rfl]
      omega
    · rw [Function.update_of_ne same, if_neg same]
  · rfl

theorem entry_cases {thread : Fin p ⊕ Fin c}
    (member : pc ∈ ((start inputs).thread thread).calls) :
    (∃ producer, thread = .inl producer ∧ pc = .enqueueLoop producer
      { i := 1, NUM_SAMPLES_PER_THREAD := 0, diff := 0, batches := 0 }) ∨
    ∃ consumer, thread = .inr consumer ∧ pc = .dequeueLoop consumer
      { ret := inputs.ret consumer
        count := 1
        NUM_SAMPLES_PER_THREAD := 0
        diff := 0
        calls := 0
        batches := 0 } := by
  cases thread with
  | inl producer => exact Or.inl ⟨producer, rfl, List.mem_singleton.mp member⟩
  | inr consumer => exact Or.inr ⟨consumer, rfl, List.mem_singleton.mp member⟩

structure Balanced (side : Side) (state : ThroughputPool p c) : Prop where
  whole : ∀ thread, ∀ pc ∈ (state.thread thread).calls, Whole pc
  total : state.total (excess side) (Thread.due (uncounted side)) = 0

theorem balanced_start (side : Side) : Balanced side (start inputs) := by
  constructor
  · intro thread pc member
    rcases entry_cases member with ⟨producer, -, rfl⟩ | ⟨consumer, -, rfl⟩
    · exact Or.inr rfl
    · exact Or.inr rfl
  · have nothing : ∀ thread, Thread.due (uncounted side) ((start inputs).thread thread) = 0 := by
      intro thread
      cases side <;> cases thread <;> rfl
    unfold Pool.total
    rw [Finset.sum_congr rfl (fun thread _ => nothing thread), Finset.sum_const_zero]
    cases side <;> rfl

theorem Balanced.step (balanced : Balanced side state)
    (moved : (program inputs).next state act = some next) : Balanced side next := by
  constructor
  · exact calls_next (fun _ _ _ _ _ _ stepped onward _ => step_whole stepped onward) moved
      balanced.whole
  · rw [← balanced.total]
    apply script_total_next moved
    intro thread pc mem outcome _ at_ stepped
    apply step_balance thread _ stepped
    exact balanced.whole thread pc (Pool.at_mem_calls at_)

/-- What the totals really are once all threads are joined: a batch is counted as one more
call, and a Dequeue that returns -1 as a call. -/
theorem joined_samples {trace} (run : Run (program inputs).next (start inputs) trace state)
    (joined : Joined state) (side : Side) :
    state.mem.SAMPLES side = state.hist.calls side + state.hist.batches side := by
  have balanced := run.invariant (meets_true trace) (balanced_start side)
    (fun _ _ _ held _ moved => held.step moved)
  have total := balanced.total
  rw [total_done _ _ joined] at total
  unfold excess at total
  omega

/-! ### A loop that runs ends a batch -/

def Unfinished (side : Side) (thread : Fin p ⊕ Fin c) (state : ThroughputPool p c) : Prop :=
  state.hist.batches side = 0 → ∃ pc ∈ (state.thread thread).calls, Looping side pc

structure Resting (side : Side) (state : ThroughputPool p c) : Prop where
  left : ∀ thread, ∀ pc ∈ (state.thread thread).calls, ¬ Looping side pc
  calls : state.hist.calls side = 0
  batches : state.hist.batches side = 0

theorem enqueueTurn_diff (clock : Clock) (vars : Enqueuing)
    (inside : (enqueueTurn clock vars).batches ≤ vars.batches) :
    (enqueueTurn clock vars).diff = vars.diff := by
  unfold enqueueTurn at inside ⊢
  dsimp only at inside ⊢
  split
  case isTrue ends =>
    rw [if_pos ends] at inside
    exact absurd inside (Nat.not_succ_le_self _)
  case isFalse _ => rfl

theorem dequeueTurn_diff (clock : Clock) (returned : ℕ → ℤ) (vars : Dequeuing)
    (inside : (dequeueTurn clock returned vars).batches ≤ vars.batches) :
    (dequeueTurn clock returned vars).diff = vars.diff ∧
      (dequeueTurn clock returned vars).ret ≠ -1 := by
  unfold dequeueTurn at inside ⊢
  dsimp only at inside ⊢
  split
  case isTrue ends =>
    rw [if_pos ends] at inside
    exact absurd inside (Nat.not_succ_le_self _)
  case isFalse goes => exact ⟨rfl, fun refused => goes (Or.inr refused)⟩

theorem record_rest (thread : Fin p ⊕ Fin c) (rests : ¬ Looping side pc) :
    (record inputs thread pc globals hist).calls side = hist.calls side ∧
      (record inputs thread pc globals hist).batches side = hist.batches side := by
  cases pc with
  | enqueueLoop producer vars =>
      by_cases early : vars.diff ≤ ENQUEUE_SECONDS
      · rw [record, if_pos early]
        cases side with
        | enqueue => exact absurd ⟨rfl, early⟩ rests
        | dequeue => exact ⟨rfl, rfl⟩
      · rw [record, if_neg early]
        exact ⟨rfl, rfl⟩
  | dequeueLoop consumer vars =>
      by_cases goes : vars.diff ≤ DEQUEUE_SECONDS ∧ vars.ret ≠ -1
      · rw [record, if_pos goes]
        cases side with
        | enqueue => exact ⟨rfl, rfl⟩
        | dequeue => exact absurd ⟨rfl, goes⟩ rests
      · rw [record, if_neg goes]
        exact ⟨rfl, rfl⟩
  | lock kind samples => exact ⟨rfl, rfl⟩
  | add kind samples => exact ⟨rfl, rfl⟩
  | unlock => exact ⟨rfl, rfl⟩

theorem record_loop (thread : Fin p ⊕ Fin c)
    (stepped : step inputs pc globals = some (after, outcome)) (loops : Looping side pc) :
    0 < (record inputs thread pc globals hist).batches side ∨
      (record inputs thread pc globals hist).batches side = hist.batches side ∧
        ∃ reached, outcome.pc? = some reached ∧ Looping side reached := by
  rcases step_cases stepped with
    ⟨producer, vars, rfl, -, ⟨early, rfl⟩ | ⟨late, -⟩⟩ |
    ⟨consumer, vars, rfl, -, ⟨goes, rfl⟩ | ⟨ends, -⟩⟩ |
    ⟨kind, samples, rfl, -⟩ | ⟨kind, samples, rfl, -⟩ | ⟨rfl, -⟩
  · obtain rfl := loops.1
    rw [(record_enqueueTurn thread early).2]
    by_cases inside : (enqueueTurn (inputs.enqueueClock producer) vars).batches ≤ vars.batches
    · refine Or.inr ⟨by omega, _, rfl, rfl, ?_⟩
      rw [enqueueTurn_diff _ _ inside]
      exact early
    · exact Or.inl (by omega)
  · exact absurd loops.2 late
  · obtain rfl := loops.1
    rw [(record_dequeueTurn thread goes).2]
    by_cases inside : (dequeueTurn (inputs.dequeueClock consumer) (inputs.returned consumer)
        vars).batches ≤ vars.batches
    · obtain ⟨diff, taken⟩ := dequeueTurn_diff _ _ _ inside
      refine Or.inr ⟨by omega, _, rfl, rfl, ?_, taken⟩
      rw [diff]
      exact goes.1
    · exact Or.inl (by omega)
  · exact absurd loops.2 ends
  all_goals exact absurd loops id

theorem rests_next {reached : Pc p c}
    (stepped : step inputs pc globals = some (after, outcome))
    (onward : outcome.pc? = some reached) (rests : ¬ Looping side pc) : ¬ Looping side reached := by
  rcases step_cases stepped with
    ⟨producer, vars, rfl, -, ⟨early, rfl⟩ | ⟨-, rfl⟩⟩ |
    ⟨consumer, vars, rfl, -, ⟨goes, rfl⟩ | ⟨-, rfl⟩⟩ |
    ⟨kind, samples, rfl, -, -, rfl⟩ | ⟨kind, samples, rfl, -, rfl⟩ | ⟨rfl, -, rfl⟩
  · cases onward
    exact fun loops => rests ⟨loops.1, early⟩
  · cases onward
    exact id
  · cases onward
    exact fun loops => rests ⟨loops.1, goes⟩
  all_goals cases onward <;> exact id

theorem record_zero (thread : Fin p ⊕ Fin c)
    (stepped : step inputs pc globals = some (after, outcome))
    (noBatch : (record inputs thread pc globals hist).batches side = 0) : hist.batches side = 0 := by
  by_cases loops : Looping side pc
  · rcases record_loop thread stepped loops with ended | ⟨same, -⟩
    · exact absurd noBatch (Nat.ne_of_gt ended)
    · rw [← same]
      exact noBatch
  · rw [← (record_rest thread loops).2]
    exact noBatch

theorem Unfinished.step {thread : Fin p ⊕ Fin c} (unfinished : Unfinished side thread state)
    (moved : (program inputs).next state act = some next) : Unfinished side thread next := by
  rcases Program.next_cases moved with
    ⟨mover, entry, script, left, rfl, idle, called, rfl⟩ |
    ⟨mover, script, left, rfl, idle, impossible, rfl⟩ |
    ⟨mover, pc, script, mem, outcome, rfl, busy, stepped, rfl⟩
  · intro noBatch
    obtain ⟨pc, member, loops⟩ := unfinished noBatch
    refine ⟨pc, ?_, loops⟩
    change pc ∈ (Function.update state.thread mover _ thread).calls
    by_cases same : thread = mover
    · subst mover
      rw [idle, scriptClient_call called] at member
      rw [Function.update_self]
      exact member
    · rw [Function.update_of_ne same]
      exact member
  · cases impossible
  · intro noBatch
    obtain ⟨other, member, loops⟩ := unfinished (record_zero mover stepped noBatch)
    by_cases same : thread = mover
    · subst mover
      rw [busy] at member
      change ∃ pc ∈ (Function.update state.thread thread _ thread).calls, Looping side pc
      rw [Function.update_self, program, resume_calls]
      rcases List.mem_cons.mp member with rfl | later
      · rcases record_loop thread stepped loops with ended | ⟨-, reached, onward, goesOn⟩
        · exact absurd noBatch (Nat.ne_of_gt ended)
        · exact ⟨reached, List.mem_append_left _ (Option.mem_toList.mpr onward), goesOn⟩
      · exact ⟨other, List.mem_append_right _ later, loops⟩
    · refine ⟨other, ?_, loops⟩
      change other ∈ (Function.update state.thread mover _ thread).calls
      rw [Function.update_of_ne same]
      exact member

theorem Resting.step (resting : Resting side state)
    (moved : (program inputs).next state act = some next) : Resting side next := by
  have left := calls_next (fun _ _ _ _ _ _ stepped onward rests => rests_next stepped onward rests)
    moved resting.left
  rcases Program.next_cases moved with
    ⟨mover, entry, script, left', rfl, idle, called, rfl⟩ |
    ⟨mover, script, left', rfl, idle, impossible, rfl⟩ |
    ⟨mover, pc, script, mem, outcome, rfl, busy, stepped, rfl⟩
  · exact { left := left, calls := resting.calls, batches := resting.batches }
  · cases impossible
  · have rests := resting.left mover pc (Pool.at_mem_calls (Pool.at_busy busy))
    obtain ⟨calls, batches⟩ := @record_rest _ _ inputs side pc state.mem state.hist mover rests
    exact { left := left, calls := calls.trans resting.calls, batches := batches.trans resting.batches }

def Hist.done (hist : Hist) : Side → ℕ
  | .enqueue => hist.enqueued.length
  | .dequeue => hist.dequeued.countP (· ≠ -1)

theorem done_le_calls (hist : Hist) (side : Side) : hist.done side ≤ hist.calls side := by
  cases side with
  | enqueue => exact le_rfl
  | dequeue => exact List.countP_le_length

/-- A total is right only where no loop of its side runs. -/
theorem samples_iff {trace} (run : Run (program inputs).next (start inputs) trace state)
    (joined : Joined state) (side : Side) :
    state.mem.SAMPLES side = state.hist.done side ↔
      ∀ thread, ∀ pc ∈ ((start inputs).thread thread).calls, ¬ Looping side pc := by
  rw [joined_samples run joined]
  constructor
  · intro right thread pc member loops
    have unfinished := run.invariant (meets_true trace)
      (show Unfinished side thread (start inputs) from fun _ => ⟨pc, member, loops⟩)
      (fun _ _ _ held _ moved => Unfinished.step held moved)
    have most := done_le_calls state.hist side
    obtain ⟨other, impossible, -⟩ := unfinished (by omega)
    rw [joined thread] at impossible
    cases impossible
  · intro rests
    have resting : Resting side state := run.invariant (meets_true trace)
      { left := rests, calls := by cases side <;> rfl, batches := rfl }
      (fun _ _ _ held _ moved => held.step moved)
    have most := done_le_calls state.hist side
    have calls := resting.calls
    have batches := resting.batches
    omega

/-! ### One producer -/

def lone (globals : Globals) (standing : Thread (Pc 1 0) (List (Pc 1 0))) (hist : Hist) :
    ThroughputPool 1 0 :=
  { mem := globals, thread := fun _ => standing, hist := hist }

section Lone
variable {inputs : Inputs 1 0} (producer : Fin 1)
variable {pc : Pc 1 0} {globals after : Globals} {outcome : Outcome (Pc 1 0) Unit} {hist : Hist}

theorem update_lone {α : Type*} (f : Fin 1 ⊕ Fin 0 → α) (value : α) :
    Function.update f (.inl producer) value = fun _ => value := by
  funext thread
  rcases thread with other | consumer
  · rw [Subsingleton.elim other producer, Function.update_self]
  · exact consumer.elim0

theorem lone_move (stepped : step inputs pc globals = some (after, outcome)) :
    (program inputs).next (lone globals (.busy pc []) hist) (.move (.inl producer)) =
      some (lone after ((program inputs).resume [] outcome)
        (record inputs (.inl producer) pc globals hist)) := by
  rw [Program.next_move rfl stepped, update_lone]
  rfl

theorem lone_merges {vars : Enqueuing} (late : ¬ vars.diff ≤ ENQUEUE_SECONDS) :
    Reaches (program inputs).next (fun _ _ => True)
      (lone { lock := false, SAMPLES := fun _ => 0 } (.busy (.enqueueLoop producer vars) []) hist)
      (lone
        { lock := false
          SAMPLES := Function.update (fun _ => 0) .enqueue (0 + vars.NUM_SAMPLES_PER_THREAD) }
        (.idle []) hist) := by
  have leaves : step inputs (.enqueueLoop producer vars) { lock := false, SAMPLES := fun _ => 0 } =
      some ({ lock := false, SAMPLES := fun _ => 0 },
        .goto (.lock .enqueue vars.NUM_SAMPLES_PER_THREAD)) :=
    if_neg late
  have kept : record inputs (.inl producer) (.enqueueLoop producer vars)
      { lock := false, SAMPLES := fun _ => 0 } hist = hist :=
    if_neg late
  have left := @lone_move _ producer _ _ _ _ hist leaves
  rw [kept] at left
  have locked := @lone_move inputs producer (.lock .enqueue vars.NUM_SAMPLES_PER_THREAD)
    { lock := false, SAMPLES := fun _ => 0 } _ _ hist rfl
  have added := @lone_move inputs producer (.add .enqueue vars.NUM_SAMPLES_PER_THREAD)
    { lock := true, SAMPLES := fun _ => 0 } _ _ hist rfl
  have unlocked := @lone_move inputs producer .unlock
    { lock := true
      SAMPLES := Function.update (fun _ => 0) .enqueue (0 + vars.NUM_SAMPLES_PER_THREAD) }
    _ _ hist rfl
  exact ((((Reaches.refl _ _ _).tail trivial left).tail trivial locked).tail trivial added).tail
    trivial unlocked

theorem lone_turn {vars : Enqueuing} (early : vars.diff ≤ ENQUEUE_SECONDS) :
    ∃ later, later.calls .enqueue = hist.calls .enqueue + 1 ∧
      (program inputs).next (lone globals (.busy (.enqueueLoop producer vars) []) hist)
        (.move (.inl producer)) = some (lone globals
          (.busy (.enqueueLoop producer (enqueueTurn (inputs.enqueueClock producer) vars)) [])
          later) := by
  have stepped : step inputs (.enqueueLoop producer vars) globals = some (globals,
      .goto (.enqueueLoop producer (enqueueTurn (inputs.enqueueClock producer) vars))) :=
    if_pos early
  exact ⟨_, (record_enqueueTurn (.inl producer) early).1, lone_move producer stepped⟩

theorem lone_turns {calls : ℕ} (inside : calls + 1 < 10000) :
    ∃ hist, hist.calls .enqueue = calls ∧ Reaches (program inputs).next (fun _ _ => True)
      (start inputs)
      (lone { lock := false, SAMPLES := fun _ => 0 }
        (.busy (.enqueueLoop producer
          { i := calls + 1, NUM_SAMPLES_PER_THREAD := 0, diff := 0, batches := 0 }) []) hist) := by
  induction calls with
  | zero =>
      refine ⟨(start inputs).hist, rfl, ?_⟩
      have called : (program inputs).next (start inputs) (.call (.inl producer) (.enqueueLoop producer
          { i := 1, NUM_SAMPLES_PER_THREAD := 0, diff := 0, batches := 0 })) =
            some (lone { lock := false, SAMPLES := fun _ => 0 } (.busy (.enqueueLoop producer
              { i := 1, NUM_SAMPLES_PER_THREAD := 0, diff := 0, batches := 0 }) [])
              (start inputs).hist) := by
        have called := @Program.next_call _ _ _ _ _ _ _ (program inputs) (start inputs)
          (.inl producer) _ _ _ rfl (script_call (step inputs) (record inputs) _ [])
        rw [update_lone] at called
        exact called
      exact (Reaches.refl _ _ _).tail trivial called
  | succ calls ih =>
      obtain ⟨hist, count, reached⟩ := ih (by omega)
      have goesOn : ¬ (calls + 2) % 10000 = 0 := by omega
      have turn : enqueueTurn (inputs.enqueueClock producer)
          { i := calls + 1, NUM_SAMPLES_PER_THREAD := 0, diff := 0, batches := 0 } =
            { i := calls + 2, NUM_SAMPLES_PER_THREAD := 0, diff := 0, batches := 0 } :=
        if_neg goesOn
      obtain ⟨later, counted, moved⟩ := @lone_turn inputs producer
        { lock := false, SAMPLES := fun _ => 0 } hist
        { i := calls + 1, NUM_SAMPLES_PER_THREAD := 0, diff := 0, batches := 0 }
        (by decide : 0 ≤ ENQUEUE_SECONDS)
      rw [turn] at moved
      exact ⟨later, by omega, reached.tail trivial moved⟩

/-- A producer that reads more than three seconds after 9999 calls counts 10000 of them. -/
theorem lone_producer_counts (late : ENQUEUE_SECONDS <
    (inputs.enqueueClock producer).loopend 0 - (inputs.enqueueClock producer).looptime) :
    ∃ trace state, Run (program inputs).next (start inputs) trace state ∧ Joined state ∧
      state.mem.SAMPLES .enqueue = 10000 ∧ state.hist.enqueued.length = 9999 := by
  obtain ⟨hist, count, reached⟩ := @lone_turns inputs producer 9998 (by omega)
  obtain ⟨later, counted, moved⟩ := @lone_turn inputs producer
    { lock := false, SAMPLES := fun _ => 0 } hist
    { i := 9998 + 1, NUM_SAMPLES_PER_THREAD := 0, diff := 0, batches := 0 }
    (by decide : 0 ≤ ENQUEUE_SECONDS)
  have ended : enqueueTurn (inputs.enqueueClock producer)
      { i := 9998 + 1, NUM_SAMPLES_PER_THREAD := 0, diff := 0, batches := 0 } =
        { i := 1
          NUM_SAMPLES_PER_THREAD := 10000
          diff := (inputs.enqueueClock producer).loopend 0 - (inputs.enqueueClock producer).looptime
          batches := 1 } := by
    unfold enqueueTurn
    dsimp only
    rw [if_pos (by omega)]
  rw [ended] at moved
  obtain ⟨trace, run, -⟩ := (reached.tail trivial moved).trans
    (lone_merges producer (not_le.mpr late))
  rw [count] at counted
  refine ⟨trace, _, run, fun _ => rfl, ?_, counted⟩
  exact (@Function.update_self Side (fun _ => ℕ) _ .enqueue (0 + 10000) (fun _ => 0)).trans
    (Nat.zero_add 10000)

end Lone

/-! ### The totals -/

/-- Of a run whose threads are all joined: ENQUEUE_SAMPLES is the number of Enqueue calls only
where there is no producer, and DEQUEUE_SAMPLES the number of elements dequeued only where
every consumer happens to find -1 in `ret` before its first call. -/
theorem throughput_counts_iff {trace}
    (run : Run (program inputs).next (start inputs) trace state) (joined : Joined state) :
    (state.mem.SAMPLES .enqueue = state.hist.enqueued.length ↔ p = 0) ∧
      (state.mem.SAMPLES .dequeue = state.hist.dequeued.countP (· ≠ -1) ↔
        ∀ consumer, inputs.ret consumer = -1) := by
  constructor
  · refine (samples_iff run joined .enqueue).trans ⟨?_, ?_⟩
    · intro rests
      by_contra producers
      exact rests (.inl ⟨0, Nat.pos_of_ne_zero producers⟩) _ List.mem_cons_self
        ⟨rfl, (by decide : 0 ≤ ENQUEUE_SECONDS)⟩
    · rintro rfl thread pc member loops
      rcases entry_cases member with ⟨producer, -⟩ | ⟨consumer, -, rfl⟩
      · exact producer.elim0
      · cases loops.1
  · refine (samples_iff run joined .dequeue).trans ⟨?_, ?_⟩
    · intro rests consumer
      by_contra goes
      exact rests (.inr consumer) _ List.mem_cons_self ⟨rfl, (by decide : 0 ≤ DEQUEUE_SECONDS), goes⟩
    · intro refused thread pc member loops
      rcases entry_cases member with ⟨producer, -, rfl⟩ | ⟨consumer, -, rfl⟩
      · cases loops.1
      · exact loops.2.2 (refused consumer)

/-- Two consumers: the first gets 7 and 8 before it gets -1, the second finds -1 in `ret`. -/
def twoConsumers : Inputs 0 2 :=
  { enqueueClock := Fin.elim0
    dequeueClock := fun _ => { looptime := 100, loopend := fun _ => 101 }
    ret := fun consumer => if consumer.val = 0 then 5 else -1
    returned := fun _ call => if call < 2 then 7 + call else -1 }

private def threeCalls (first second : Fin 2) : List (Act (Fin 0 ⊕ Fin 2) (Pc 0 2)) :=
  (worker_handler twoConsumers first).map (.call (.inr first)) ++
    (worker_handler twoConsumers second).map (.call (.inr second)) ++
    [.move (.inr first), .move (.inr second), .move (.inr second), .move (.inr first),
      .move (.inr second), .move (.inr first), .move (.inr second)] ++
    List.replicate 4 (.move (.inr first))

theorem throughput_counts_iff_twoConsumers :
    ∃ trace state, Run (program twoConsumers).next (start twoConsumers) trace state ∧
      state.hist.dequeued = [7, 8, -1] ∧ state.mem.SAMPLES .dequeue = 4 ∧
      state.mem.SAMPLES .enqueue = state.hist.enqueued.length ∧
      state.mem.SAMPLES .dequeue ≠ state.hist.dequeued.countP (· ≠ -1) := by
  have run : Run (program twoConsumers).next (start twoConsumers) _ _ :=
    run_of_play (threeCalls 0 1) rfl
  have counts := throughput_counts_iff run (by
    rintro (producer | consumer)
    · exact producer.elim0
    · revert consumer
      exact Fin.forall_fin_two.mpr ⟨rfl, rfl⟩)
  exact ⟨_, _, run, rfl, rfl, counts.1.mpr rfl, fun right => absurd (counts.2.mp right 0) (by decide)⟩

def oneRefusal (ret : ℤ) : Inputs 0 1 :=
  { enqueueClock := Fin.elim0
    dequeueClock := fun _ => { looptime := 0, loopend := fun _ => 0 }
    ret := fun _ => ret
    returned := fun _ _ => -1 }

private theorem refusal_runs {ret : ℤ} {moves : ℕ} {trace} {state : ThroughputPool 0 1}
    (consumer : Fin 1)
    (played : Transition.play (program (oneRefusal ret)).next (start (oneRefusal ret))
      ((worker_handler (oneRefusal ret) consumer).map (.call (.inr consumer)) ++
        List.replicate moves (.move (.inr consumer))) = some (trace, state))
    (last : state.thread (.inr consumer) = .idle []) :
    Run (program (oneRefusal ret)).next (start (oneRefusal ret)) trace state ∧ Joined state := by
  refine ⟨run_of_play _ played, ?_⟩
  rintro (producer | other)
  · exact producer.elim0
  · rw [Subsingleton.elim other consumer]
    exact last

/-- The call that returns -1 is counted, and its batch once more. -/
theorem refusal_counted_twice :
    ∃ trace state, Run (program (oneRefusal 0)).next (start (oneRefusal 0)) trace state ∧
      Joined state ∧ state.mem.SAMPLES .dequeue = 2 ∧
      state.hist.dequeued.countP (· ≠ -1) = 0 := by
  obtain ⟨run, joined⟩ := @refusal_runs 0 5 _ _ 0 rfl rfl
  exact ⟨_, _, run, joined, rfl, rfl⟩

end QueueBench.Throughput
