import QueueBench.Lib.Word
import QueueBench.SQueueRounds

/-! The figures that SQueue/sqmain.c prints: every thread adds what it has measured to one of
two counters, and neither is cleared between the eight rounds. A figure is printed when its
round is over, so the rounds are taken to end. -/

namespace QueueBench.SQueueTicks
open SQueueRounds (NUM_THREADS CUR_NUM_THREADS)
open Word (Word64 foldl_add_val)

abbrev Ticks : Type := Word64

inductive Operation where
  | enqueue
  | dequeue
deriving DecidableEq, Repr

/-- The threads of a round that add to enqueue_ticks or dequeue_ticks. In rounds 0 to 3 main
enqueues alone, and its measurement is not added to a counter. -/
def threads (op : Operation) (round : ℕ) : ℕ :=
  match op with
  | .enqueue => if round < 4 then 0 else CUR_NUM_THREADS round
  | .dequeue => CUR_NUM_THREADS round

/-- What the threads of every round measure, and the order in which they add it. -/
structure Measurements where
  diff_tick : Operation → ℕ → ℕ → Ticks
  order : Operation → ℕ → List ℕ
  all_add : ∀ op round, (order op round).Perm (List.range (threads op round))

/-- `__sync_add_and_fetch(&dequeue_ticks, diff_tick)` by one thread of the round after another -/
def accumulate (measured : Measurements) (op : Operation) (round : ℕ) (counter : Ticks) : Ticks :=
  ((measured.order op round).map (measured.diff_tick op round)).foldl (· + ·) counter

def counters (measured : Measurements) : ℕ → Operation → Ticks
  | 0, _ => 0
  | round + 1, op => accumulate measured op round (counters measured round op)

def figure (NUM_SAMPLES : ℕ) (measured : Measurements) (op : Operation) (round : ℕ) : ℕ :=
  (counters measured (round + 1) op).val / NUM_SAMPLES

/-- Both counters are printed in rounds 4 to 7, before them only dequeue_ticks. -/
def Printed (op : Operation) (round : ℕ) : Prop :=
  match op with
  | .enqueue => 4 ≤ round ∧ round < 8
  | .dequeue => round < 8

variable {NUM_SAMPLES : ℕ} {measured other : Measurements} {op : Operation} {round : ℕ}

def own (measured : Measurements) (op : Operation) (round : ℕ) : ℕ :=
  ((List.range (threads op round)).map (fun thread => (measured.diff_tick op round thread).val)).sum

def earlier (measured : Measurements) (op : Operation) (round : ℕ) : ℕ :=
  ((List.range round).map (own measured op)).sum % 2 ^ 64

/-- The ticks of the earlier rounds disappear in the division: with the remainder they are less
than one sample each, or they turn the counter back by no more than the remainder. -/
def Vanishes (NUM_SAMPLES earlier own : ℕ) : Prop :=
  earlier + own < 2 ^ 64 ∧ earlier + own % NUM_SAMPLES < NUM_SAMPLES ∨
    2 ^ 64 ≤ earlier + own ∧ earlier + own < 2 * 2 ^ 64 ∧ 2 ^ 64 - earlier ≤ own % NUM_SAMPLES

theorem accumulate_val (measured : Measurements) (op : Operation) (round : ℕ) (counter : Ticks) :
    (accumulate measured op round counter).val =
      (counter.val + own measured op round) % 2 ^ 64 := by
  unfold accumulate own
  rw [foldl_add_val, List.map_map]
  have same := ((measured.all_add op round).map
    (fun thread => (measured.diff_tick op round thread).val)).sum_eq
  rw [← same]
  rfl

theorem counters_val (measured : Measurements) (op : Operation) (round : ℕ) :
    (counters measured round op).val = earlier measured op round := by
  induction round with
  | zero => rfl
  | succ round ih =>
      unfold counters earlier
      rw [accumulate_val, ih, earlier, Nat.mod_add_mod, List.range_succ, List.map_append,
        List.sum_append, List.map_singleton, List.sum_singleton]

theorem figure_eq (NUM_SAMPLES : ℕ) (measured : Measurements) (op : Operation) (round : ℕ) :
    figure NUM_SAMPLES measured op round =
      (earlier measured op round + own measured op round) % 2 ^ 64 / NUM_SAMPLES := by
  unfold figure counters
  rw [accumulate_val, counters_val]

theorem quotient_eq_iff {earlier own : ℕ} (positive : 0 < NUM_SAMPLES)
    (small : NUM_SAMPLES < 2 ^ 64) (low : earlier < 2 ^ 64) :
    (earlier + own) % 2 ^ 64 / NUM_SAMPLES = own / NUM_SAMPLES ↔
      Vanishes NUM_SAMPLES earlier own := by
  have parts := Nat.mod_add_div' own NUM_SAMPLES
  have rest := Nat.mod_lt own positive
  rw [Nat.div_eq_iff positive]
  unfold Vanishes
  generalize own / NUM_SAMPLES * NUM_SAMPLES = whole at *
  generalize own % NUM_SAMPLES = remainder at *
  omega

theorem earlier_lt (measured : Measurements) (op : Operation) (round : ℕ) :
    earlier measured op round < 2 ^ 64 :=
  Nat.mod_lt _ (Nat.two_pow_pos 64)

theorem earlier_succ (measured : Measurements) (op : Operation) (round : ℕ) :
    earlier measured op (round + 1) =
      (earlier measured op round + own measured op round) % 2 ^ 64 := by
  rw [← counters_val, ← counters_val]
  exact accumulate_val measured op round _

/-! ### Two runs -/

def first (op : Operation) : ℕ :=
  match op with
  | .enqueue => 4
  | .dequeue => 0

def SameTicks (measured other : Measurements) (op : Operation) (round : ℕ) : Prop :=
  ∀ thread < threads op round, measured.diff_tick op round thread = other.diff_tick op round thread

theorem own_congr (same : SameTicks measured other op round) :
    own measured op round = own other op round := by
  unfold own
  congr 1
  apply List.map_congr_left
  intro thread member
  rw [same thread (List.mem_range.mp member)]

theorem earlier_eq_zero (idle : round ≤ first op) : earlier measured op round = 0 := by
  induction round with
  | zero => rfl
  | succ round ih =>
      have idleRound : own measured op round = 0 := by
        cases op with
        | enqueue =>
            have early : round < 4 := idle
            unfold own threads
            rw [if_pos early]
            rfl
        | dequeue => exact absurd idle (Nat.not_succ_le_zero round)
      rw [earlier_succ, ih (by omega), idleRound]
      rfl

theorem in_turn (op : Operation) (round : ℕ) :
    (List.range (threads op round)).Perm (List.range (threads op round)) :=
  List.Perm.refl _

def single (op : Operation) (ticks : Ticks) : Measurements :=
  { diff_tick := fun which round thread =>
      if which = op ∧ round = first op ∧ thread = 0 then ticks else 0
    order := fun which round => List.range (threads which round)
    all_add := in_turn }

theorem own_single_of_ne {ticks : Ticks} (different : round ≠ first op) :
    own (single op ticks) op round = 0 := by
  apply List.sum_eq_zero
  intro value member
  obtain ⟨thread, -, rfl⟩ := List.mem_map.mp member
  change (if op = op ∧ round = first op ∧ thread = 0 then ticks else 0).val = 0
  rw [if_neg (fun same => different same.2.1)]
  rfl

theorem own_single_first {ticks : Ticks} : own (single op ticks) op (first op) = ticks.val := by
  cases op <;> exact Nat.add_zero _

theorem earlier_single {ticks : Ticks} (later : first op < round) :
    earlier (single op ticks) op round = ticks.val := by
  induction later with
  | refl =>
      rw [earlier_succ, earlier_eq_zero le_rfl, own_single_first, Nat.zero_add,
        Nat.mod_eq_of_lt ticks.isLt]
  | step later ih =>
      rw [earlier_succ, ih, own_single_of_ne (Nat.ne_of_gt later), Nat.add_zero,
        Nat.mod_eq_of_lt ticks.isLt]

theorem independent_iff (positive : 0 < NUM_SAMPLES) (small : NUM_SAMPLES < 2 ^ 64)
    (printed : Printed op round) :
    (∀ measured other, SameTicks measured other op round →
      figure NUM_SAMPLES measured op round = figure NUM_SAMPLES other op round) ↔
        round = first op := by
  constructor
  · intro independent
    by_contra different
    have later : first op < round := by
      cases op with
      | enqueue =>
          have start : 4 ≤ round := printed.1
          change round ≠ 4 at different
          change 4 < round
          omega
      | dequeue => exact Nat.pos_of_ne_zero different
    have same : SameTicks (single op (Word.ofInt NUM_SAMPLES)) (single op 0) op round := by
      intro thread _
      change (if op = op ∧ round = first op ∧ thread = 0 then _ else _) =
        if op = op ∧ round = first op ∧ thread = 0 then _ else _
      rw [if_neg (fun same => different same.2.1), if_neg (fun same => different same.2.1)]
    have equal := independent _ _ same
    rw [figure_eq, figure_eq, earlier_single later, earlier_single later,
      own_single_of_ne different, own_single_of_ne different,
      Nat.add_zero, Nat.add_zero, Word.ofInt_val small, Nat.mod_eq_of_lt small,
      Nat.div_self positive, Fin.val_zero, Nat.zero_mod, Nat.zero_div] at equal
    exact absurd equal Nat.one_ne_zero
  · rintro rfl measured other same
    rw [figure_eq, figure_eq, earlier_eq_zero le_rfl, earlier_eq_zero le_rfl, own_congr same]

/-- A printed figure is that of the round's own threads exactly when the earlier rounds vanish
in the division, and only the first round of a counter does not depend on others. -/
theorem figure_own_iff (positive : 0 < NUM_SAMPLES) (small : NUM_SAMPLES < 2 ^ 64)
    (printed : Printed op round) :
    (∀ measured, figure NUM_SAMPLES measured op round = own measured op round / NUM_SAMPLES ↔
      Vanishes NUM_SAMPLES (earlier measured op round) (own measured op round)) ∧
    ((∀ measured other, SameTicks measured other op round →
      figure NUM_SAMPLES measured op round = figure NUM_SAMPLES other op round) ↔
        round = first op) := by
  refine ⟨fun measured => ?_, independent_iff positive small printed⟩
  rw [figure_eq]
  exact quotient_eq_iff positive small (earlier_lt measured op round)

theorem figure_own_iff_secondRound :
    figure 128000000 (single .dequeue (Word.ofInt 5)) .dequeue 1 =
      own (single .dequeue (Word.ofInt 5)) .dequeue 1 / 128000000 := by
  have printed : Printed .dequeue 1 := by
    change 1 < 8
    omega
  apply ((figure_own_iff (by decide) (by decide) printed).1 _).mpr
  rw [earlier_single Nat.zero_lt_one, own_single_of_ne Nat.one_ne_zero]
  exact Or.inl (by decide)

/-- The worker of the first round measures one tick for every sample, and the two workers of the
second nothing. -/
theorem first_round_printed_again :
    figure 128000000 (single .dequeue (Word.ofInt 128000000)) .dequeue 1 = 1 ∧
      own (single .dequeue (Word.ofInt 128000000)) .dequeue 1 / 128000000 = 0 := by
  rw [figure_eq, earlier_single Nat.zero_lt_one, own_single_of_ne Nat.one_ne_zero]
  decide

end QueueBench.SQueueTicks
