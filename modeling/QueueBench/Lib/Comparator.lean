import Mathlib.Algebra.Order.Ring.Int
import Mathlib.Data.List.Basic

/-! Sorting routines that order an array by a comparator the caller supplies: their contract,
and what they do with a comparator that follows a linear order. -/

namespace QueueBench.Comparator

variable {α : Type*} {compar : α → α → ℤ} {array : List α}

structure Consistent (compar : α → α → ℤ) (array : List α) : Prop where
  reverse : ∀ first ∈ array, ∀ second ∈ array, compar first second < 0 ↔ 0 < compar second first
  trans : ∀ first ∈ array, ∀ second ∈ array, ∀ third ∈ array,
    compar first second ≤ 0 → compar second third ≤ 0 → compar first third ≤ 0

/-- Nothing is promised of a comparator that is not consistent, and no order among elements
that compare equal. -/
structure Sorts (qsort : (α → α → ℤ) → List α → List α) : Prop where
  same : ∀ compar array, Consistent compar array → (qsort compar array).Perm array
  ascending : ∀ compar array, Consistent compar array →
    (qsort compar array).Pairwise (fun first second => compar first second ≤ 0)

def mergeSortBy (compar : α → α → ℤ) (array : List α) : List α :=
  (array.attach.mergeSort (fun first second => decide (compar first second ≤ 0))).map Subtype.val

theorem mergeSortBy_sorts : Sorts (mergeSortBy (α := α)) := by
  constructor
  · intro compar array _
    have merged := (List.mergeSort_perm array.attach
      (fun first second => decide (compar first second ≤ 0))).map Subtype.val
    rwa [List.attach_map_subtype_val] at merged
  · intro compar array consistent
    unfold mergeSortBy
    rw [List.pairwise_map]
    refine (List.pairwise_mergeSort ?_ ?_ array.attach).imp of_decide_eq_true
    · intro first second third low high
      exact decide_eq_true (consistent.trans first first.2 second second.2 third third.2
        (of_decide_eq_true low) (of_decide_eq_true high))
    · intro first second
      have reverse := consistent.reverse second second.2 first first.2
      rw [Bool.or_eq_true, decide_eq_true_eq, decide_eq_true_eq]
      omega

theorem mergeSortBy_eq_self
    (ordered : array.Pairwise (fun first second => compar first second ≤ 0)) :
    mergeSortBy compar array = array := by
  unfold mergeSortBy
  rw [List.mergeSort_of_pairwise, List.attach_map_subtype_val]
  rw [← List.attach_map_subtype_val array, List.pairwise_map] at ordered
  exact ordered.imp decide_eq_true

variable [LinearOrder α]

/-- The sign that qsort wants to see. -/
structure Agrees (compar : α → α → ℤ) (first second : α) : Prop where
  negative : compar first second < 0 ↔ first < second
  zero : compar first second = 0 ↔ first = second
  positive : 0 < compar first second ↔ second < first

theorem Agrees.le_iff {first second : α} (agrees : Agrees compar first second) :
    compar first second ≤ 0 ↔ first ≤ second := by
  rw [← not_lt, agrees.positive, not_lt]

theorem consistent_of_agrees (agrees : ∀ first ∈ array, ∀ second ∈ array,
    Agrees compar first second) : Consistent compar array := by
  constructor
  · intro first firstMember second secondMember
    rw [(agrees first firstMember second secondMember).negative,
      (agrees second secondMember first firstMember).positive]
  · intro first firstMember second secondMember third thirdMember low high
    have low := (agrees first firstMember second secondMember).le_iff.mp low
    have high := (agrees second secondMember third thirdMember).le_iff.mp high
    exact (agrees first firstMember third thirdMember).le_iff.mpr (low.trans high)

theorem Sorts.le_of_agrees {qsort : (α → α → ℤ) → List α → List α} (sorts : Sorts qsort)
    (agrees : ∀ first ∈ array, ∀ second ∈ array, Agrees compar first second) :
    (qsort compar array).Perm array ∧ (qsort compar array).Pairwise (· ≤ ·) := by
  have consistent := consistent_of_agrees agrees
  have same := sorts.same compar array consistent
  refine ⟨same, (sorts.ascending compar array consistent).imp_of_mem ?_⟩
  intro first second firstMember secondMember ordered
  exact (agrees first (same.mem_iff.mp firstMember) second
    (same.mem_iff.mp secondMember)).le_iff.mp ordered

end QueueBench.Comparator
