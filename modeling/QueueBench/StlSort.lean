import QueueBench.Lib.CountedLoop
import QueueBench.Lib.OrderStatistics
import QueueBench.Lib.Word

/-! The sort of stlqueue.cpp, which exchanges into place `i` whatever is smaller behind it. -/

namespace QueueBench.Stl
open CountedLoop (forLoop forLoop_invariant)
open OrderStatistics (IsNth getElem_ascending_iff)
open Word (Word64)

abbrev Ticks : Type := Word64

/-- The body of the inner loop; `none` is an access outside the array. -/
def exchange (i j : ℕ) (numTicks : Array Ticks) : Option (Array Ticks) :=
  match numTicks[i]?, numTicks[j]? with
  | some first, some second =>
      if first > second then some ((numTicks.setIfInBounds i second).setIfInBounds j first)
      else some numTicks
  | _, _ => none

def SortTicks (NUM_SAMPLES : ℕ) (numTicks : Array Ticks) : Option (Array Ticks) :=
  forLoop NUM_SAMPLES (fun i => forLoop NUM_SAMPLES (exchange i) (i + 1)) 0 numTicks

variable {numTicks array : Array Ticks} {i j : ℕ}

theorem write_eq {value : Ticks} (inside : i < array.size) :
    array.setIfInBounds i value = array.set i value inside :=
  dif_pos inside

theorem exchange_eq (before : i < j) (inside : j < array.size) :
    exchange i j array = some (if array[i] > array[j] then array.swap i j else array) := by
  unfold exchange
  rw [Array.getElem?_eq_getElem (by omega), Array.getElem?_eq_getElem inside]
  change (if array[i] > array[j] then _ else _) = _
  split
  · rw [Array.swap_def, write_eq (by omega : i < array.size), write_eq (by rwa [Array.size_set])]
  · rfl

/-- Before turn `i` of the outer loop: the elements in front of it are in their places. -/
structure Placed (numTicks : Array Ticks) (i : ℕ) (array : Array Ticks) : Prop where
  same : array.Perm numTicks
  below : ∀ (early late : ℕ) (inside : late < array.size) (order : early < late),
    early < i → array[early] ≤ array[late]

/-- Before turn `j` of the inner loop: nothing scanned so far is below place `i`. -/
structure Scanned (numTicks : Array Ticks) (i j : ℕ) (array : Array Ticks) : Prop
    extends Placed numTicks i array where
  least : ∀ (scanned : ℕ) (inside : scanned < array.size) (order : i < scanned),
    scanned < j → array[i] ≤ array[scanned]

theorem Scanned.turn (before : i < j) (inside : j < numTicks.size)
    (scanned : Scanned numTicks i j array) :
    ∃ next, exchange i j array = some next ∧ Scanned numTicks i (j + 1) next := by
  rw [← scanned.same.size_eq] at inside
  refine ⟨_, exchange_eq before inside, ?_⟩
  split
  case isTrue smaller =>
    refine { same := (Array.swap_perm _ _).trans scanned.same, below := ?_, least := ?_ }
    · intro early late lateInside order first
      rw [Array.size_swap] at lateInside
      have lateBelow := scanned.below early late lateInside order first
      have ontoFirst := scanned.below early i (by omega) first first
      have ontoSecond := scanned.below early j inside (by omega) first
      rw [Array.getElem_swap, Array.getElem_swap, if_neg (by omega), if_neg (by omega)]
      split
      · exact ontoSecond
      · split
        · exact ontoFirst
        · exact lateBelow
    · intro place placeInside order scannedPlace
      rw [Array.size_swap] at placeInside
      rw [Array.getElem_swap, Array.getElem_swap, if_pos rfl, if_neg (by omega)]
      split
      · exact smaller.le
      · exact smaller.le.trans (scanned.least place placeInside order (by omega))
  case isFalse notSmaller =>
    refine { scanned with least := ?_ }
    intro place placeInside order scannedPlace
    rcases Nat.lt_succ_iff_lt_or_eq.mp scannedPlace with earlier | rfl
    · exact scanned.least place placeInside order earlier
    · exact not_lt.mp notSmaller

theorem Placed.turn (inside : i < numTicks.size) (placed : Placed numTicks i array) :
    ∃ next, forLoop numTicks.size (exchange i) (i + 1) array = some next ∧
      Placed numTicks (i + 1) next := by
  have started : Scanned numTicks i (i + 1) array :=
    { placed with least := fun scanned _ order early => absurd early (by omega) }
  obtain ⟨next, ended, scanned⟩ := forLoop_invariant
    (fun j array before within scanned => Scanned.turn before within scanned)
    (by omega) started
  refine ⟨next, ended, { same := scanned.same, below := ?_ }⟩
  intro early late lateInside order placedEarly
  rcases Nat.lt_succ_iff_lt_or_eq.mp placedEarly with first | rfl
  · exact scanned.below early late lateInside order first
  · exact scanned.least late lateInside order (scanned.same.size_eq ▸ lateInside)

theorem sortTicks_ascending (numTicks : Array Ticks) :
    ∃ sorted, SortTicks numTicks.size numTicks = some sorted ∧ sorted.Perm numTicks ∧
      sorted.toList.Pairwise (· ≤ ·) := by
  have started : Placed numTicks 0 numTicks :=
    { same := Array.Perm.refl _, below := fun early _ _ _ none => absurd none (by omega) }
  obtain ⟨sorted, ended, placed⟩ := forLoop_invariant
    (fun i array _ inside placed => Placed.turn inside placed) (Nat.zero_le _) started
  refine ⟨sorted, ended, placed.same, ?_⟩
  rw [List.pairwise_iff_getElem]
  intro early late _ inside order
  rw [Array.length_toList] at inside
  exact placed.below early late inside order (by rw [← placed.same.size_eq]; omega)

/-- `SortTicks` returns, stays inside the array, and sorts it, so that `ComputeSummary` finds
the least tick in front and the greatest at the end. -/
theorem sortTicks_sorts (NUM_SAMPLES : ℕ) (numTicks : Vector Ticks NUM_SAMPLES) :
    ∃ sorted, SortTicks NUM_SAMPLES numTicks.toArray = some sorted ∧
      sorted.Perm numTicks.toArray ∧ sorted.toList.Pairwise (· ≤ ·) ∧
      (∀ enqueuetickMin, sorted[0]? = some enqueuetickMin →
        IsLeast {tick | tick ∈ numTicks.toList} enqueuetickMin) ∧
      ∀ enqueuetickMax, sorted[NUM_SAMPLES - 1]? = some enqueuetickMax →
        IsGreatest {tick | tick ∈ numTicks.toList} enqueuetickMax := by
  rcases numTicks with ⟨numTicks, rfl⟩
  obtain ⟨sorted, ended, same, ascending⟩ := sortTicks_ascending numTicks
  have nth {index : ℕ} {tick : Ticks} (found : sorted[index]? = some tick) :
      IsNth numTicks.toList index tick := by
    rw [← Array.getElem?_toList] at found
    exact (getElem_ascending_iff ascending same.toList).mp found
  refine ⟨sorted, ended, same, ascending, fun _ found => (nth found).isLeast, ?_⟩
  intro enqueuetickMax found
  exact (nth found).isGreatest (by rw [Array.length_toList]; omega)

example : SortTicks 3 #[7, 5, 6] = some #[5, 6, 7] := by
  simp [SortTicks, forLoop, exchange]

end QueueBench.Stl
