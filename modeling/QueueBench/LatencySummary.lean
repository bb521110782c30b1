import QueueBench.Lib.Comparator
import QueueBench.Lib.OrderStatistics
import QueueBench.Lib.RingArith
import QueueBench.Lib.Word

/-! The latency summary of QueueBenchmarks/sqmain.c and of mpi_queue/main.c: the comparator
given to qsort, and the statistics read from the sorted samples. -/

namespace QueueBench.Latency
open Comparator (Agrees Consistent Sorts mergeSortBy mergeSortBy_sorts mergeSortBy_eq_self)
open OrderStatistics (IsNth exists_nth)
open RingArith (wrap32)
open Word (Word64 ofInt ofInt_val)

abbrev Ticks : Type := Word64

/-- `*(int*) a` on a little-endian machine -/
def toInt (tick : Ticks) : ℤ := wrap32 tick

def cmpfunc (a b : Ticks) : ℤ := wrap32 (toInt a - toInt b)

def SortTicks (qsort : (Ticks → Ticks → ℤ) → List Ticks → List Ticks) (numTicks : List Ticks) :
    List Ticks :=
  qsort cmpfunc numTicks

/-- An unsigned 64-bit value as a `double`: 53 bits, ties to even. -/
def toDouble (value : ℕ) : ℕ :=
  if value < 2 ^ 53 then value
  else
    let unit := 2 ^ (value.log2 - 52)
    if 2 * (value % unit) < unit ∨ 2 * (value % unit) = unit ∧ value / unit % 2 = 0 then
      value / unit * unit
    else value / unit * unit + unit

/-- `(first + second) / 2.0`, stored as ticks -/
def mean (first second : Ticks) : Ticks := Fin.ofNat (2 ^ 64) (toDouble (first + second).val / 2)

structure Summary where
  tickMin : Ticks
  tickMax : Ticks
  tickAverage : ℕ
  tickmedian : Ticks
deriving DecidableEq, Repr

def median (numTicks : List Ticks) (num : ℕ) : Option Ticks :=
  if num % 2 = 0 then
    (numTicks[num / 2]?).bind fun upper => (numTicks[num / 2 - 1]?).map (mean upper)
  else numTicks[num / 2]?

/-- The part of `ComputeSummary` that reads one sorted array; `none` is a read outside it. -/
def summarise (numTicks : List Ticks) (totalTicks : Ticks) (num : ℕ) : Option Summary := do
  let tickMin ← numTicks[0]?
  let tickMax ← numTicks[num - 1]?
  let tickmedian ← median numTicks num
  return {
    tickMin := tickMin
    tickMax := tickMax
    tickAverage := toDouble (totalTicks.val / num)
    tickmedian := tickmedian }

def numTicks (timestamp : List Ticks) (rdtsc_overhead : ℤ) : List Ticks :=
  timestamp.map (· - ofInt rdtsc_overhead)

def ComputeSummary (qsort : (Ticks → Ticks → ℤ) → List Ticks → List Ticks)
    (enqueuetimestamp dequeuetimestamp : List Ticks) (rdtsc_overhead : ℤ) :
    Option (Summary × Summary) := do
  let numEnqueueTicks := numTicks enqueuetimestamp rdtsc_overhead
  let numDequeueTicks := numTicks dequeuetimestamp rdtsc_overhead
  let enqueues ← summarise (SortTicks qsort numEnqueueTicks) numEnqueueTicks.sum
    enqueuetimestamp.length
  let dequeues ← summarise (SortTicks qsort numDequeueTicks) numDequeueTicks.sum
    dequeuetimestamp.length
  return (enqueues, dequeues)

def mpiTicks (timestamps : List (Ticks × Ticks)) : List Ticks :=
  timestamps.map (fun stamps => stamps.2 - stamps.1)

/-- tickMin, tickMax and tickAverage of `ComputeSummary` in mpi_queue/main.c -/
def mpiSummary (qsort : (Ticks → Ticks → ℤ) → List Ticks → List Ticks)
    (timestamps : List (Ticks × Ticks)) : Option (Ticks × Ticks × ℕ) := do
  let sorted := SortTicks qsort (mpiTicks timestamps)
  let tickMin ← sorted[0]?
  let tickMax ← sorted[timestamps.length - 1]?
  return (tickMin, tickMax, toDouble ((mpiTicks timestamps).sum.val / timestamps.length))

/-! ### The comparator -/

/-- The comparator sees the difference of the ticks, but only its low half. -/
def Near (a b : Ticks) : Prop :=
  a = b ∨ a < b ∧ 1 ≤ (b.val - a.val) % 2 ^ 32 ∧ (b.val - a.val) % 2 ^ 32 ≤ 2 ^ 31 ∨
    b < a ∧ 1 ≤ (a.val - b.val) % 2 ^ 32 ∧ (a.val - b.val) % 2 ^ 32 < 2 ^ 31

theorem cmpfunc_eq (a b : Ticks) : cmpfunc a b = ((a.val : ℤ) - b.val).bmod (2 ^ 32) := by
  unfold cmpfunc toInt wrap32
  rw [Int.bmod_sub_bmod, Int.sub_bmod_bmod]

theorem cmpfunc_cases (a b : Ticks) :
    (a < b ∧ cmpfunc a b = if (b.val - a.val) % 2 ^ 32 ≤ 2 ^ 31
        then -(((b.val - a.val) % 2 ^ 32 : ℕ) : ℤ) else 2 ^ 32 - ((b.val - a.val) % 2 ^ 32 : ℕ)) ∨
    a = b ∧ cmpfunc a b = 0 ∨
    b < a ∧ cmpfunc a b = if (a.val - b.val) % 2 ^ 32 < 2 ^ 31
        then (((a.val - b.val) % 2 ^ 32 : ℕ) : ℤ) else ((a.val - b.val) % 2 ^ 32 : ℕ) - 2 ^ 32 := by
  rw [cmpfunc_eq, Int.bmod_def, Fin.lt_def, Fin.lt_def, Fin.ext_iff]
  rcases lt_trichotomy a.val b.val with below | same | above
  · refine Or.inl ⟨below, ?_⟩
    split <;> split <;> omega
  · refine Or.inr (Or.inl ⟨same, ?_⟩)
    split <;> omega
  · refine Or.inr (Or.inr ⟨above, ?_⟩)
    split <;> split <;> omega

theorem agrees_iff (a b : Ticks) : Agrees cmpfunc a b ↔ Near a b := by
  unfold Near
  rcases cmpfunc_cases a b with ⟨below, sign⟩ | ⟨rfl, sign⟩ | ⟨above, sign⟩
  · constructor
    · intro agrees
      have negative := agrees.negative.mpr below
      rw [sign] at negative
      refine Or.inr (Or.inl ⟨below, ?_⟩)
      split at negative <;> omega
    · rintro (rfl | ⟨-, far, close⟩ | ⟨above, -⟩)
      · exact absurd below (lt_irrefl _)
      · rw [if_pos close] at sign
        exact {
          negative := iff_of_true (by omega) below
          zero := iff_of_false (by omega) below.ne
          positive := iff_of_false (by omega) below.not_gt }
      · exact absurd above below.not_gt
  · exact iff_of_true
      { negative := iff_of_false (by omega) (lt_irrefl _)
        zero := iff_of_true sign rfl
        positive := iff_of_false (by omega) (lt_irrefl _) } (Or.inl rfl)
  · constructor
    · intro agrees
      have positive := agrees.positive.mpr above
      rw [sign] at positive
      refine Or.inr (Or.inr ⟨above, ?_⟩)
      split at positive <;> omega
    · rintro (rfl | ⟨below, -⟩ | ⟨-, far, close⟩)
      · exact absurd above (lt_irrefl _)
      · exact absurd below above.not_gt
      · rw [if_pos close] at sign
        exact {
          negative := iff_of_false (by omega) above.not_gt
          zero := iff_of_false (by omega) above.ne'
          positive := iff_of_true (by omega) above }

/-! ### The statistics -/

def elapsed (timestamp : List Ticks) (rdtsc_overhead : ℕ) : List ℕ :=
  timestamp.map (fun sample => sample.val - rdtsc_overhead)

structure IsMedian (samples : List ℕ) (tickmedian : ℕ) : Prop where
  odd : samples.length % 2 = 1 → IsNth samples (samples.length / 2) tickmedian
  even : samples.length % 2 = 0 → ∃ lower upper, IsNth samples (samples.length / 2 - 1) lower ∧
    IsNth samples (samples.length / 2) upper ∧ tickmedian = (lower + upper) / 2

structure Right (samples : List ℕ) (summary : Summary) : Prop where
  least : IsLeast {sample | sample ∈ samples} summary.tickMin.val
  greatest : IsGreatest {sample | sample ∈ samples} summary.tickMax.val
  middle : IsMedian samples summary.tickmedian.val

/-- Of an even number of samples the sum of the two in the middle is exact as a `double`. -/
def MiddleExact (samples : List ℕ) : Prop :=
  samples.length % 2 = 0 → ∀ lower upper, IsNth samples (samples.length / 2 - 1) lower →
    IsNth samples (samples.length / 2) upper → lower + upper < 2 ^ 53

theorem mean_val {first second : Ticks} (exact : first.val + second.val < 2 ^ 53) :
    (mean first second).val = (first.val + second.val) / 2 := by
  have sum : (first + second).val = first.val + second.val := by
    rw [Fin.val_add, Nat.mod_eq_of_lt (by omega)]
  unfold mean toDouble
  rw [sum, if_pos exact, Fin.val_ofNat, Nat.mod_eq_of_lt (by omega)]

variable {timestamp : List Ticks} {rdtsc_overhead : ℕ}

theorem numTicks_val (long : ∀ sample ∈ timestamp, rdtsc_overhead ≤ sample.val) :
    (numTicks timestamp rdtsc_overhead).map Fin.val = elapsed timestamp rdtsc_overhead := by
  unfold numTicks elapsed
  rw [List.map_map]
  apply List.map_congr_left
  intro sample member
  have above := long sample member
  have overhead := ofInt_val (by omega : rdtsc_overhead < 2 ^ 64)
  rw [Function.comp_apply, Fin.sub_val_of_le (Fin.le_def.mpr (by rwa [overhead])), overhead]

section Sorted
variable {samples ascending : List Ticks} (same : ascending.Perm samples)
  (sorted : ascending.Pairwise (· ≤ ·))
include same sorted

theorem found_nth {index : ℕ} (inside : index < (samples.map Fin.val).length) : ∃ tick,
    ascending[index]? = some tick ∧ IsNth (samples.map Fin.val) index tick.val := by
  rw [List.length_map] at inside
  obtain ⟨tick, found, nth⟩ := exists_nth sorted same inside
  exact ⟨tick, found, nth.map (fun _ _ below => below)⟩

theorem found_median (nonempty : samples ≠ []) (exact : MiddleExact (samples.map Fin.val)) :
    ∃ tickmedian, median ascending (samples.map Fin.val).length = some tickmedian ∧
      IsMedian (samples.map Fin.val) tickmedian.val := by
  have positive := List.length_pos_iff.mpr nonempty
  rw [← @List.length_map _ _ samples Fin.val] at positive
  unfold median
  obtain ⟨upper, upperFound, upperNth⟩ := found_nth same sorted
    (by omega : (samples.map Fin.val).length / 2 < _)
  rcases Nat.mod_two_eq_zero_or_one (samples.map Fin.val).length with even | odd
  · obtain ⟨lower, lowerFound, lowerNth⟩ := found_nth same sorted
      (by omega : (samples.map Fin.val).length / 2 - 1 < _)
    rw [if_pos even, upperFound, lowerFound]
    have fits := exact even lower upper lowerNth upperNth
    refine ⟨mean upper lower, rfl, fun odd => by omega, fun _ => ?_⟩
    refine ⟨lower, upper, lowerNth, upperNth, ?_⟩
    rw [mean_val (by omega), Nat.add_comm]
  · rw [if_neg (by omega), upperFound]
    exact ⟨upper, rfl, fun _ => upperNth, fun even => by omega⟩

theorem summarise_right {total : Ticks} (nonempty : samples ≠ [])
    (exact : MiddleExact (samples.map Fin.val)) :
    ∃ summary, summarise ascending total samples.length = some summary ∧
      Right (samples.map Fin.val) summary := by
  have positive := List.length_pos_iff.mpr nonempty
  rw [← @List.length_map _ _ samples Fin.val] at positive ⊢
  obtain ⟨tickMin, minFound, least⟩ := found_nth same sorted positive
  obtain ⟨tickMax, maxFound, greatest⟩ := found_nth same sorted
    (by omega : (samples.map Fin.val).length - 1 < _)
  obtain ⟨tickmedian, medianFound, middle⟩ := found_median same sorted nonempty exact
  unfold summarise
  rw [minFound, maxFound, medianFound]
  exact ⟨_, rfl, { least := least.isLeast, greatest := greatest.isGreatest (by omega), middle := middle }⟩

end Sorted

def Comparable (samples : List Ticks) : Prop := ∀ a ∈ samples, ∀ b ∈ samples, Near a b

def AgreesOn (samples : List Ticks) : Prop :=
  ∀ a ∈ samples, ∀ b ∈ samples, Agrees cmpfunc a b

theorem agreesOn_iff {samples : List Ticks} : AgreesOn samples ↔ Comparable samples :=
  forall₂_congr fun a _ => forall₂_congr fun b _ => agrees_iff a b

theorem near_sub {a b overhead : Ticks} (aLong : overhead ≤ a) (bLong : overhead ≤ b) :
    Near (a - overhead) (b - overhead) ↔ Near a b := by
  have aLess := Fin.sub_val_of_le aLong
  have bLess := Fin.sub_val_of_le bLong
  rw [Fin.le_def] at aLong bLong
  have equal : a - overhead = b - overhead ↔ a = b := by
    rw [Fin.ext_iff, Fin.ext_iff, aLess, bLess]
    omega
  have below : a - overhead < b - overhead ↔ a < b := by
    rw [Fin.lt_def, Fin.lt_def, aLess, bLess]
    omega
  have above : b - overhead < a - overhead ↔ b < a := by
    rw [Fin.lt_def, Fin.lt_def, aLess, bLess]
    omega
  unfold Near
  rw [equal, below, above, aLess, bLess, Nat.sub_sub_sub_cancel_right aLong,
    Nat.sub_sub_sub_cancel_right bLong]

theorem comparable_numTicks (long : ∀ sample ∈ timestamp, rdtsc_overhead ≤ sample.val) :
    Comparable (numTicks timestamp rdtsc_overhead) ↔ Comparable timestamp := by
  have above (sample : Ticks) (member : sample ∈ timestamp) : ofInt rdtsc_overhead ≤ sample := by
    have above := long sample member
    rwa [Fin.le_def, ofInt_val (by omega)]
  unfold Comparable numTicks
  rw [List.forall_mem_map]
  refine forall₂_congr fun a aMember => ?_
  rw [List.forall_mem_map]
  exact forall₂_congr fun b bMember => near_sub (above a aMember) (above b bMember)

theorem numTicks_right {qsort : (Ticks → Ticks → ℤ) → List Ticks → List Ticks}
    (sorts : Sorts qsort) (nonempty : timestamp ≠ [])
    (long : ∀ sample ∈ timestamp, rdtsc_overhead ≤ sample.val)
    (exact : MiddleExact (elapsed timestamp rdtsc_overhead))
    (agrees : AgreesOn (numTicks timestamp rdtsc_overhead)) :
    ∃ summary, summarise (SortTicks qsort (numTicks timestamp rdtsc_overhead))
        (numTicks timestamp rdtsc_overhead).sum timestamp.length = some summary ∧
      Right (elapsed timestamp rdtsc_overhead) summary := by
  obtain ⟨same, sorted⟩ := sorts.le_of_agrees agrees
  have length : (numTicks timestamp rdtsc_overhead).length = timestamp.length := List.length_map ..
  rw [← numTicks_val long] at exact ⊢
  rw [← length]
  exact summarise_right same sorted (mt List.map_eq_nil_iff.mp nonempty) exact

theorem mergeSortBy_reverse_sorts :
    Sorts (fun (compar : Ticks → Ticks → ℤ) array => mergeSortBy compar array.reverse) := by
  have reversed {compar : Ticks → Ticks → ℤ} {array : List Ticks}
      (consistent : Consistent compar array) : Consistent compar array.reverse :=
    { reverse := fun first firstMember second secondMember =>
        consistent.reverse first (List.mem_reverse.mp firstMember) second
          (List.mem_reverse.mp secondMember)
      trans := fun first firstMember second secondMember third thirdMember =>
        consistent.trans first (List.mem_reverse.mp firstMember) second
          (List.mem_reverse.mp secondMember) third (List.mem_reverse.mp thirdMember) }
  exact {
    same := fun compar array consistent =>
      (mergeSortBy_sorts.same compar _ (reversed consistent)).trans (List.reverse_perm array)
    ascending := fun compar array consistent =>
      mergeSortBy_sorts.ascending compar _ (reversed consistent) }

theorem cmpfunc_nonpos {low high : Ticks} (below : low < high)
    (apart : ¬(Near low high ∧ Near high low)) : cmpfunc high low ≤ 0 := by
  unfold Near at apart
  rw [Fin.ext_iff, Fin.ext_iff, Fin.lt_def, Fin.lt_def] at apart
  rcases cmpfunc_cases high low with ⟨above, -⟩ | ⟨rfl, -⟩ | ⟨-, sign⟩
  · exact absurd above below.not_gt
  · exact absurd below (lt_irrefl _)
  · rw [Fin.lt_def] at below
    rw [sign]
    split <;> omega

theorem front_le {first second front back : Ticks}
    {qsort : (Ticks → Ticks → ℤ) → List Ticks → List Ticks}
    (returned : SortTicks qsort [first, second] = [front, back])
    (right : ∃ summary, summarise (SortTicks qsort [first, second]) [first, second].sum 2 =
      some summary ∧ Right [first.val, second.val] summary) : front ≤ first ∧ front ≤ second := by
  obtain ⟨summary, reported, right⟩ := right
  rw [returned] at reported
  obtain rfl := Option.some.inj reported
  exact ⟨right.least.2 List.mem_cons_self,
    right.least.2 (List.mem_cons_of_mem _ List.mem_cons_self)⟩

/-- Of two samples a routine within the contract may report either order unless they are near. -/
theorem two_samples_iff {first second : Ticks} (exact : MiddleExact [first.val, second.val]) :
    (∀ qsort, Sorts qsort → ∃ summary, summarise (SortTicks qsort [first, second])
        [first, second].sum 2 = some summary ∧ Right [first.val, second.val] summary) ↔
      Near first second ∧ Near second first := by
  constructor
  · intro right
    by_contra apart
    rcases lt_trichotomy first second with below | rfl | above
    · have kept : SortTicks (fun compar array => mergeSortBy compar array.reverse)
          [first, second] = [second, first] :=
        mergeSortBy_eq_self (List.pairwise_pair.mpr (cmpfunc_nonpos below apart))
      have front := front_le kept (right _ mergeSortBy_reverse_sorts)
      exact absurd below front.1.not_gt
    · exact apart ⟨Or.inl rfl, Or.inl rfl⟩
    · have kept : SortTicks mergeSortBy [first, second] = [first, second] :=
        mergeSortBy_eq_self (List.pairwise_pair.mpr (cmpfunc_nonpos above (apart ∘ And.symm)))
      have front := front_le kept (right _ mergeSortBy_sorts)
      exact absurd above front.2.not_gt
  · rintro ⟨onward, back⟩ qsort sorts
    have agrees : AgreesOn [first, second] := by
      rw [agreesOn_iff]
      intro a aMember b bMember
      rcases List.mem_pair.mp aMember with rfl | rfl <;>
        rcases List.mem_pair.mp bMember with rfl | rfl
      · exact Or.inl rfl
      · exact onward
      · exact back
      · exact Or.inl rfl
    obtain ⟨same, sorted⟩ := sorts.le_of_agrees agrees
    exact summarise_right same sorted (List.cons_ne_nil _ _) exact

section Summary
variable {enqueuetimestamp dequeuetimestamp : List Ticks} {timestamps : List (Ticks × Ticks)}

/-- The summary is right of both arrays, whatever qsort does within its contract. -/
def Reports (enqueuetimestamp dequeuetimestamp : List Ticks) (rdtsc_overhead : ℕ) : Prop :=
  ∀ qsort, Sorts qsort → ∃ enqueues dequeues,
    ComputeSummary qsort enqueuetimestamp dequeuetimestamp rdtsc_overhead =
      some (enqueues, dequeues) ∧
    Right (elapsed enqueuetimestamp rdtsc_overhead) enqueues ∧
    Right (elapsed dequeuetimestamp rdtsc_overhead) dequeues

def MpiReports (timestamps : List (Ticks × Ticks)) : Prop :=
  ∀ qsort, Sorts qsort → ∃ tickMin tickMax tickAverage,
    mpiSummary qsort timestamps = some (tickMin, tickMax, tickAverage) ∧
    IsLeast {tick | tick ∈ mpiTicks timestamps} tickMin ∧
    IsGreatest {tick | tick ∈ mpiTicks timestamps} tickMax

theorem reports_of_comparable (enqueued : enqueuetimestamp ≠ []) (dequeued : dequeuetimestamp ≠ [])
    (enqueuesLong : ∀ sample ∈ enqueuetimestamp, rdtsc_overhead ≤ sample.val)
    (dequeuesLong : ∀ sample ∈ dequeuetimestamp, rdtsc_overhead ≤ sample.val)
    (enqueuesExact : MiddleExact (elapsed enqueuetimestamp rdtsc_overhead))
    (dequeuesExact : MiddleExact (elapsed dequeuetimestamp rdtsc_overhead))
    (enqueues : Comparable enqueuetimestamp) (dequeues : Comparable dequeuetimestamp) :
    Reports enqueuetimestamp dequeuetimestamp rdtsc_overhead := by
  intro qsort sorts
  rw [← comparable_numTicks enqueuesLong, ← agreesOn_iff] at enqueues
  rw [← comparable_numTicks dequeuesLong, ← agreesOn_iff] at dequeues
  obtain ⟨enqueueSummary, enqueueFound, enqueueRight⟩ :=
    numTicks_right sorts enqueued enqueuesLong enqueuesExact enqueues
  obtain ⟨dequeueSummary, dequeueFound, dequeueRight⟩ :=
    numTicks_right sorts dequeued dequeuesLong dequeuesExact dequeues
  refine ⟨enqueueSummary, dequeueSummary, ?_, enqueueRight, dequeueRight⟩
  change (summarise _ _ _).bind (fun enqueues => (summarise _ _ _).bind _) = _
  rw [enqueueFound, dequeueFound]
  rfl

theorem mpiReports_of_comparable (called : timestamps ≠ [])
    (comparable : Comparable (mpiTicks timestamps)) : MpiReports timestamps := by
  intro qsort sorts
  obtain ⟨same, sorted⟩ := sorts.le_of_agrees (agreesOn_iff.mpr comparable)
  have positive := List.length_pos_iff.mpr called
  have ticks : (mpiTicks timestamps).length = timestamps.length := List.length_map ..
  obtain ⟨tickMin, minFound, least⟩ := exists_nth sorted same (by omega : 0 < _)
  obtain ⟨tickMax, maxFound, greatest⟩ := exists_nth sorted same
    (by omega : timestamps.length - 1 < _)
  unfold mpiSummary SortTicks
  dsimp only
  rw [minFound, maxFound]
  exact ⟨tickMin, tickMax, _, rfl, least.isLeast, greatest.isGreatest (by omega)⟩

/-- The comparator has the right sign exactly of ticks that are near. Of samples that are near
to each other the summaries are right, and of two samples they are right of no others. -/
theorem summary_right_iff (enqueued : enqueuetimestamp ≠ []) (dequeued : dequeuetimestamp ≠ [])
    (enqueuesLong : ∀ sample ∈ enqueuetimestamp, rdtsc_overhead ≤ sample.val)
    (dequeuesLong : ∀ sample ∈ dequeuetimestamp, rdtsc_overhead ≤ sample.val)
    (enqueuesExact : MiddleExact (elapsed enqueuetimestamp rdtsc_overhead))
    (dequeuesExact : MiddleExact (elapsed dequeuetimestamp rdtsc_overhead))
    (called : timestamps ≠ []) :
    (∀ a b, Agrees cmpfunc a b ↔ Near a b) ∧
      (AgreesOn (numTicks enqueuetimestamp rdtsc_overhead) ↔ Comparable enqueuetimestamp) ∧
      (AgreesOn (numTicks dequeuetimestamp rdtsc_overhead) ↔ Comparable dequeuetimestamp) ∧
      (AgreesOn (mpiTicks timestamps) ↔ Comparable (mpiTicks timestamps)) ∧
      (Comparable enqueuetimestamp → Comparable dequeuetimestamp →
        Reports enqueuetimestamp dequeuetimestamp rdtsc_overhead) ∧
      (Comparable (mpiTicks timestamps) → MpiReports timestamps) ∧
      ∀ first second : Ticks, MiddleExact [first.val, second.val] →
        ((∀ qsort, Sorts qsort → ∃ summary, summarise (SortTicks qsort [first, second])
          [first, second].sum 2 = some summary ∧ Right [first.val, second.val] summary) ↔
            Near first second ∧ Near second first) := by
  refine ⟨agrees_iff, ?_, ?_, agreesOn_iff, ?_, mpiReports_of_comparable called, ?_⟩
  · rw [agreesOn_iff, comparable_numTicks enqueuesLong]
  · rw [agreesOn_iff, comparable_numTicks dequeuesLong]
  · exact reports_of_comparable enqueued dequeued enqueuesLong dequeuesLong enqueuesExact
      dequeuesExact
  · intro first second
    exact two_samples_iff

end Summary

theorem middleExact_of_lt {samples : List ℕ} (small : ∀ sample ∈ samples, sample < 2 ^ 52) :
    MiddleExact samples := by
  intro _ lower upper lowerNth upperNth
  have lowerSmall := small lower lowerNth.member
  have upperSmall := small upper upperNth.member
  omega

theorem comparable_of_lt {samples : List Ticks} (small : ∀ sample ∈ samples, sample.val < 2 ^ 31) :
    Comparable samples := by
  intro a aMember b bMember
  have aSmall := small a aMember
  have bSmall := small b bMember
  unfold Near
  rw [Fin.ext_iff, Fin.lt_def, Fin.lt_def]
  omega

/-- The second array is one sample of `2 ^ 53` ticks after the overhead. -/
theorem summary_right_iff_shortSamples :
    Reports [1000030, 30] [9007199254741022] 30 ∧ MpiReports [(7, 9), (20, 25)] ∧
      AgreesOn (numTicks [1000030, 30] 30) := by
  obtain ⟨-, agrees, -, -, reports, mpiReports, -⟩ :=
    @summary_right_iff 30 [1000030, 30] [9007199254741022] [(7, 9), (20, 25)]
      (List.cons_ne_nil _ _) (List.cons_ne_nil _ _) (by simp) (by simp)
      (middleExact_of_lt (by simp [elapsed])) (fun even => absurd even (by decide))
      (List.cons_ne_nil _ _)
  have near : Comparable [1000030, 30] := comparable_of_lt (by simp)
  refine ⟨reports near ?_, mpiReports (comparable_of_lt (by simp [mpiTicks])), agrees.mpr near⟩
  intro a aMember b bMember
  rw [List.mem_singleton.mp aMember, List.mem_singleton.mp bMember]
  exact Or.inl rfl

/-- Two samples with one low half: the comparator calls them equal, and a routine that leaves
equal elements alone puts the longer one first. -/
theorem equal_low_halves : cmpfunc 0 (2 ^ 32) = 0 ∧ ∃ qsort, Sorts qsort ∧
    ∃ enqueues dequeues, ComputeSummary qsort [2 ^ 32, 0] [0] 0 = some (enqueues, dequeues) ∧
      enqueues.tickMin = 2 ^ 32 ∧ enqueues.tickMax = 0 := by
  have kept (samples : List Ticks) (equal : samples.Pairwise (fun a b => cmpfunc a b ≤ 0)) :
      SortTicks mergeSortBy samples = samples :=
    mergeSortBy_eq_self equal
  refine ⟨by decide, mergeSortBy, mergeSortBy_sorts, ?_⟩
  unfold ComputeSummary
  dsimp only
  rw [kept _ (by decide), kept _ (by decide)]
  exact ⟨_, _, rfl, rfl, rfl⟩

end QueueBench.Latency
