import QueueBench.Lib.Buckets
import QueueBench.Lib.Machine

/-! rand_interval of QueueBenchmarks/sqmain.c: as many buckets as the interval has numbers, and
draws until one falls into a bucket. The stream `rand` is what the calls of rand() return. -/

namespace QueueBench.RandInterval
open Buckets (Unbiased div_unbiased beyond_card_le)
open Machine (Outcome Returns guarded guarded_eq)

abbrev Unsigned : Type := BitVec 32

def UINT_MAX : Unsigned := BitVec.allOnes 32

section Source
variable (RAND_MAX : ℕ) (min max : Unsigned)

def range : Unsigned := 1 + max - min

def buckets : Unsigned := BitVec.ofNat 32 RAND_MAX / range min max

def limit : Unsigned := buckets RAND_MAX min max * range min max

def result (r : ℤ) : Unsigned := min + BitVec.ofInt 32 r / buckets RAND_MAX min max

inductive Pc where
  | range
  | buckets
  | rand
  | test (r : ℤ)
  | result (r : ℤ)
deriving DecidableEq, Repr

def rand_interval : Pc := .range

/-- The memory is the number of calls of rand() so far. A division by zero has no step. -/
def step (rand : ℕ → ℤ) (pc : Pc) (calls : ℕ) : Option (ℕ × Outcome Pc Unsigned) :=
  match pc with
  | .range => some (calls, .goto .buckets)
  | .buckets => if range min max = 0 then none else some (calls, .goto .rand)
  | .rand => some (calls + 1, .goto (.test (rand calls)))
  | .test r =>
      if limit RAND_MAX min max ≤ BitVec.ofInt 32 r then some (calls, .retry .rand)
      else some (calls, .goto (.result r))
  | .result r =>
      if buckets RAND_MAX min max = 0 then none
      else some (calls, .ret (result RAND_MAX min max r))

/-- Which of the unsigned operations made there wrap around. -/
def wraps : Pc → List Bool
  | .range => [BitVec.uaddOverflow 1 max, BitVec.usubOverflow (1 + max) min]
  | .buckets => [BitVec.umulOverflow (buckets RAND_MAX min max) (range min max)]
  | .result r => [BitVec.uaddOverflow min (BitVec.ofInt 32 r / buckets RAND_MAX min max)]
  | .rand | .test _ => []

def Exact (pc : Pc) : Prop := ∀ wrapped ∈ wraps RAND_MAX min max pc, wrapped = false

instance : DecidablePred (Exact RAND_MAX min max) :=
  fun pc => inferInstanceAs (Decidable (∀ wrapped ∈ wraps RAND_MAX min max pc, wrapped = false))

/-- None does but those of `1 + max - min` for the greatest max. -/
def Checked (pc : Pc) : Prop := Exact RAND_MAX min max pc ∨ pc = .range ∧ max = UINT_MAX

instance : DecidablePred (Checked RAND_MAX min max) :=
  fun pc => inferInstanceAs (Decidable (Exact RAND_MAX min max pc ∨ pc = .range ∧ max = UINT_MAX))

end Source

/-! ### What the operations compute -/

def numbers (min max : Unsigned) : ℕ := max.toNat - min.toNat + 1

section Values
variable {RAND_MAX : ℕ} {min max : Unsigned}

theorem numbers_pos (min max : Unsigned) : 0 < numbers min max := Nat.succ_pos _

theorem range_toNat (order : min ≤ max) (fits : numbers min max < 2 ^ 32) :
    (range min max).toNat = numbers min max := by
  have low := BitVec.le_def.mp order
  have high := max.isLt
  have one : (1 : Unsigned).toNat = 1 := rfl
  unfold numbers at fits ⊢
  rw [range, BitVec.toNat_sub, BitVec.toNat_add, one]
  omega

theorem buckets_toNat (int : RAND_MAX < 2 ^ 31) (order : min ≤ max)
    (fits : numbers min max ≤ RAND_MAX) :
    (buckets RAND_MAX min max).toNat = RAND_MAX / numbers min max := by
  rw [buckets, BitVec.toNat_udiv, range_toNat order (by omega), BitVec.toNat_ofNat,
    Nat.mod_eq_of_lt (by omega)]

theorem buckets_pos (int : RAND_MAX < 2 ^ 31) (order : min ≤ max)
    (fits : numbers min max ≤ RAND_MAX) : 0 < (buckets RAND_MAX min max).toNat := by
  rw [buckets_toNat int order fits]
  exact Nat.div_pos fits (numbers_pos min max)

theorem limit_toNat (int : RAND_MAX < 2 ^ 31) (order : min ≤ max)
    (fits : numbers min max ≤ RAND_MAX) :
    (limit RAND_MAX min max).toNat = RAND_MAX / numbers min max * numbers min max := by
  have whole := Nat.div_mul_le_self RAND_MAX (numbers min max)
  rw [limit, BitVec.toNat_mul, buckets_toNat int order fits, range_toNat order (by omega),
    Nat.mod_eq_of_lt (by omega)]

theorem ofInt_toNat (r : ℕ) (int : r < 2 ^ 31) : (BitVec.ofInt 32 (r : ℤ)).toNat = r := by
  rw [BitVec.toNat_ofInt]
  omega

theorem result_toNat (int : RAND_MAX < 2 ^ 31) (order : min ≤ max)
    (fits : numbers min max ≤ RAND_MAX) {r : ℕ} (accepted : r < (limit RAND_MAX min max).toNat) :
    r / (buckets RAND_MAX min max).toNat < numbers min max ∧
      (result RAND_MAX min max r).toNat = min.toNat + r / (buckets RAND_MAX min max).toNat := by
  have low := BitVec.le_def.mp order
  have high := max.isLt
  have bound := limit_toNat int order fits
  have whole := Nat.div_mul_le_self RAND_MAX (numbers min max)
  have bucket : r / (buckets RAND_MAX min max).toNat < numbers min max := by
    rw [bound, ← buckets_toNat int order fits] at accepted
    exact Nat.div_lt_of_lt_mul accepted
  refine ⟨bucket, ?_⟩
  unfold numbers at bucket
  rw [result, BitVec.toNat_add, BitVec.toNat_udiv, ofInt_toNat r (by omega),
    Nat.mod_eq_of_lt (by omega)]

theorem counted_bijOn (order : min ≤ max) :
    Set.BijOn (fun index => min + BitVec.ofNat 32 index) {index | index < numbers min max}
      {value | min ≤ value ∧ value ≤ max} := by
  have low := BitVec.le_def.mp order
  have high := max.isLt
  have counted : ∀ index < numbers min max,
      (min + BitVec.ofNat 32 index).toNat = min.toNat + index := by
    intro index inside
    unfold numbers at inside
    rw [BitVec.toNat_add, BitVec.toNat_ofNat]
    omega
  refine ⟨?_, ?_, ?_⟩
  · intro index inside
    have sum := counted index inside
    change index < max.toNat - min.toNat + 1 at inside
    refine ⟨BitVec.le_def.mpr ?_, BitVec.le_def.mpr ?_⟩
    · change min.toNat ≤ (min + BitVec.ofNat 32 index).toNat
      omega
    · change (min + BitVec.ofNat 32 index).toNat ≤ max.toNat
      omega
  · intro index inside other otherInside same
    have sums := congrArg BitVec.toNat same
    rw [counted index inside, counted other otherInside] at sums
    exact Nat.add_left_cancel sums
  · intro value between
    have above := BitVec.le_def.mp between.1
    have below := BitVec.le_def.mp between.2
    have inside : value.toNat - min.toNat < numbers min max := by
      unfold numbers
      omega
    refine ⟨value.toNat - min.toNat, inside, BitVec.eq_of_toNat_eq ?_⟩
    rw [counted _ inside]
    omega

/-- Every number of the interval is the result of `buckets` of the accepted draws. -/
theorem result_unbiased (int : RAND_MAX < 2 ^ 31) (order : min ≤ max)
    (fits : numbers min max ≤ RAND_MAX) :
    Unbiased (Finset.range (limit RAND_MAX min max).toNat)
      (fun r : ℕ => result RAND_MAX min max r) {value | min ≤ value ∧ value ≤ max}
      (buckets RAND_MAX min max).toNat := by
  have spread := div_unbiased (buckets_pos int order fits) (numbers min max)
  have line : (buckets RAND_MAX min max).toNat * numbers min max =
      (limit RAND_MAX min max).toNat := by
    rw [limit_toNat int order fits, buckets_toNat int order fits]
  rw [line] at spread
  apply spread.rename (counted_bijOn order)
  intro r accepted
  obtain ⟨bucket, sum⟩ := result_toNat int order fits (Finset.mem_range.mp accepted)
  have low := BitVec.le_def.mp order
  have high := max.isLt
  unfold numbers at bucket
  apply BitVec.eq_of_toNat_eq
  rw [sum, BitVec.toNat_add, BitVec.toNat_ofNat]
  omega

theorem rejected_card_le (int : RAND_MAX < 2 ^ 31) (order : min ≤ max)
    (fits : numbers min max ≤ RAND_MAX) :
    ((Finset.range (RAND_MAX + 1)).filter
      (fun r => (limit RAND_MAX min max).toNat ≤ r)).card ≤ (range min max).toNat := by
  rw [limit_toNat int order fits, range_toNat order (by omega)]
  exact beyond_card_le (numbers_pos min max)

/-! ### The loop -/

theorem test_iff {r : ℕ} (int : r < 2 ^ 31) :
    limit RAND_MAX min max ≤ BitVec.ofInt 32 (r : ℤ) ↔ (limit RAND_MAX min max).toNat ≤ r := by
  rw [BitVec.le_def, ofInt_toNat r int]

theorem checked_of_wraps {pc : Pc} (none : wraps RAND_MAX min max pc = []) :
    Checked RAND_MAX min max pc := by
  left
  intro wrapped member
  rw [none] at member
  cases member

theorem checked_range (order : min ≤ max) : Checked RAND_MAX min max .range := by
  by_cases greatest : max = UINT_MAX
  · exact Or.inr ⟨rfl, greatest⟩
  · have low := BitVec.le_def.mp order
    have high := max.isLt
    have one : (1 : Unsigned).toNat = 1 := rfl
    have below : max.toNat ≠ 2 ^ 32 - 1 := by
      intro same
      apply greatest
      apply BitVec.eq_of_toNat_eq
      rw [same, UINT_MAX, BitVec.toNat_allOnes]
    have sum : (1 + max).toNat = 1 + max.toNat := by
      rw [BitVec.toNat_add, one]
      omega
    left
    intro wrapped member
    rcases List.mem_pair.mp member with rfl | rfl
    · rw [BitVec.uaddOverflow, one]
      exact decide_eq_false (by omega)
    · rw [BitVec.usubOverflow, sum]
      exact decide_eq_false (by omega)

theorem checked_buckets (int : RAND_MAX < 2 ^ 31) (order : min ≤ max)
    (fits : numbers min max ≤ RAND_MAX) : Checked RAND_MAX min max .buckets := by
  have whole := Nat.div_mul_le_self RAND_MAX (numbers min max)
  left
  intro wrapped member
  rw [List.mem_singleton.mp member, BitVec.umulOverflow, buckets_toNat int order fits,
    range_toNat order (by omega)]
  exact decide_eq_false (by omega)

theorem checked_result (int : RAND_MAX < 2 ^ 31) (order : min ≤ max)
    (fits : numbers min max ≤ RAND_MAX) {r : ℕ} (accepted : r < (limit RAND_MAX min max).toNat) :
    Checked RAND_MAX min max (.result r) := by
  have low := BitVec.le_def.mp order
  have high := max.isLt
  have bound := limit_toNat int order fits
  have whole := Nat.div_mul_le_self RAND_MAX (numbers min max)
  obtain ⟨bucket, -⟩ := result_toNat int order fits accepted
  unfold numbers at bucket
  left
  intro wrapped member
  rw [List.mem_singleton.mp member, BitVec.uaddOverflow, BitVec.toNat_udiv,
    ofInt_toNat r (by omega)]
  exact decide_eq_false (by omega)

theorem ne_zero_of_pos {value : Unsigned} (positive : 0 < value.toNat) : value ≠ 0 := by
  intro zero
  rw [zero] at positive
  exact Nat.lt_irrefl 0 positive

theorem range_ne_zero (order : min ≤ max) (fits : numbers min max < 2 ^ 32) :
    range min max ≠ 0 := by
  apply ne_zero_of_pos
  rw [range_toNat order fits]
  exact numbers_pos min max

theorem buckets_ne_zero (int : RAND_MAX < 2 ^ 31) (order : min ≤ max)
    (fits : numbers min max ≤ RAND_MAX) : buckets RAND_MAX min max ≠ 0 :=
  ne_zero_of_pos (buckets_pos int order fits)

/-- The run with the draws up to the first one below limit. -/
theorem rand_interval_returns (int : RAND_MAX < 2 ^ 31) (order : min ≤ max)
    (fits : numbers min max ≤ RAND_MAX) {rand : ℕ → ℕ} (drawn : ∀ call, rand call ≤ RAND_MAX)
    {call : ℕ} (rejected : ∀ earlier < call, (limit RAND_MAX min max).toNat ≤ rand earlier)
    (accepted : rand call < (limit RAND_MAX min max).toNat) :
    Returns (guarded (Checked RAND_MAX min max) (step RAND_MAX min max (fun call => rand call)))
      rand_interval 0 (call + 1) (result RAND_MAX min max (rand call)) call := by
  have small (call : ℕ) : rand call < 2 ^ 31 := (drawn call).trans_lt int
  have loops : Returns
      (guarded (Checked RAND_MAX min max) (step RAND_MAX min max (fun call => rand call))) .rand 0
      (call + 1) (result RAND_MAX min max (rand call)) call := by
    apply @Returns.of_retries _ _ _ _ _ _ (fun _ => Pc.rand) (fun turn => turn) call
    · intro turn early left later
      have beyond := (test_iff (small turn)).mpr (rejected turn early)
      apply Returns.of_goto (guarded_eq (checked_of_wraps rfl))
      exact Returns.of_retry ((guarded_eq (checked_of_wraps rfl)).trans (if_pos beyond)) later
    · have within := mt (test_iff (small call)).mp (Nat.not_le.mpr accepted)
      apply Returns.of_goto (guarded_eq (checked_of_wraps rfl))
      apply Returns.of_goto ((guarded_eq (checked_of_wraps rfl)).trans (if_neg within))
      exact Returns.of_ret ((guarded_eq (checked_result int order fits accepted)).trans
        (if_neg (buckets_ne_zero int order fits)))
  apply Returns.of_goto (guarded_eq (checked_range order))
  exact Returns.of_goto ((guarded_eq (checked_buckets int order fits)).trans
    (if_neg (range_ne_zero order (by omega)))) loops

end Values

/-! ### Every interval -/

/-- In range and unbiased. The guard is that nothing wraps around, but for the range of an interval
that ends at UINT_MAX, which comes out right all the same. -/
theorem rand_interval_unbiased {RAND_MAX : ℕ} {min max : Unsigned} {rand : ℕ → ℤ}
    (int : RAND_MAX < 2 ^ 31) (order : min ≤ max) (fits : max.toNat - min.toNat + 1 ≤ RAND_MAX)
    (drawn : ∀ call, 0 ≤ rand call ∧ rand call ≤ RAND_MAX)
    (accepted : ∃ call, rand call < (limit RAND_MAX min max).toNat) :
    (range min max).toNat = max.toNat - min.toNat + 1 ∧
      (∃ call, (∀ earlier < call, (limit RAND_MAX min max).toNat ≤ rand earlier) ∧
        rand call < (limit RAND_MAX min max).toNat ∧
        Returns (guarded (Checked RAND_MAX min max) (step RAND_MAX min max rand)) rand_interval 0
          (call + 1) (result RAND_MAX min max (rand call)) call ∧
        min ≤ result RAND_MAX min max (rand call) ∧
        result RAND_MAX min max (rand call) ≤ max) ∧
      Unbiased (Finset.range (limit RAND_MAX min max).toNat)
        (fun r : ℕ => result RAND_MAX min max r) {value | min ≤ value ∧ value ≤ max}
        (buckets RAND_MAX min max).toNat ∧
      ((Finset.range (RAND_MAX + 1)).filter
        (fun r => (limit RAND_MAX min max).toNat ≤ r)).card ≤ (range min max).toNat := by
  have unbiased := result_unbiased int order fits
  refine ⟨range_toNat order (fits.trans_lt (int.trans (by decide))), ?_, unbiased,
    rejected_card_le int order fits⟩
  -- The comparison with limit is unsigned, so the draws have to be known as naturals.
  lift rand to ℕ → ℕ using fun call => (drawn call).1
  have first := Nat.find_spec accepted
  have stops := Int.ofNat_lt.mp first
  have rejected (earlier : ℕ) (before : earlier < Nat.find accepted) :
      (limit RAND_MAX min max).toNat ≤ rand earlier :=
    Int.ofNat_le.mp (not_lt.mp (Nat.find_min accepted before))
  have small (call : ℕ) : rand call ≤ RAND_MAX := Int.ofNat_le.mp (drawn call).2
  obtain ⟨above, below⟩ := unbiased.inside _ (Finset.mem_range.mpr stops)
  exact ⟨Nat.find accepted, fun earlier before => Int.ofNat_le.mpr (rejected earlier before), first,
    rand_interval_returns int order fits small rejected stops, above, below⟩

def secondTry : ℕ → ℤ
  | 0 => 2147483647
  | _ + 1 => 4

theorem rand_interval_unbiased_six :
    (range 10 15).toNat = 15 - 10 + 1 ∧
      (∃ call, (∀ earlier < call, (limit 2147483647 10 15).toNat ≤ secondTry earlier) ∧
        secondTry call < (limit 2147483647 10 15).toNat ∧
        Returns (guarded (Checked 2147483647 10 15) (step 2147483647 10 15 secondTry))
          rand_interval 0 (call + 1) (result 2147483647 10 15 (secondTry call)) call ∧
        10 ≤ result 2147483647 10 15 (secondTry call) ∧
        result 2147483647 10 15 (secondTry call) ≤ 15) ∧
      Unbiased (Finset.range (limit 2147483647 10 15).toNat)
        (fun r : ℕ => result 2147483647 10 15 r) {value | 10 ≤ value ∧ value ≤ 15}
        (buckets 2147483647 10 15).toNat ∧
      ((Finset.range (2147483647 + 1)).filter
        (fun r => (limit 2147483647 10 15).toNat ≤ r)).card ≤ (range 10 15).toNat := by
  apply rand_interval_unbiased
  · decide
  · decide
  · decide
  · intro call
    cases call with
    | zero => decide
    | succ call =>
        change (0 : ℤ) ≤ 4 ∧ (4 : ℤ) ≤ 2147483647
        decide
  · exact ⟨1, by decide⟩

/-- The interval of UINT_MAX alone: `1 + max` is 0. -/
theorem greatest_interval_wraps :
    UINT_MAX ≤ UINT_MAX ∧ UINT_MAX.toNat - UINT_MAX.toNat + 1 ≤ 2147483647 ∧
      (0 : ℤ) < (limit 2147483647 UINT_MAX UINT_MAX).toNat ∧
      BitVec.uaddOverflow 1 UINT_MAX = true ∧
      ∀ after value retries, ¬ Returns (guarded (Exact 2147483647 UINT_MAX UINT_MAX)
        (step 2147483647 UINT_MAX UINT_MAX (fun _ => 0))) rand_interval 0 after value retries := by
  refine ⟨by decide, by decide, by decide, by decide, ?_⟩
  intro after value retries returns
  apply returns.not_stuck
  exact if_neg (by decide)

end QueueBench.RandInterval
