import Mathlib.Data.List.Basic
import Mathlib.Order.Bounds.Basic
import Mathlib.Order.Monotone.Basic

/-! Order statistics of a list, counted without putting it in order, and where they stand once
it is. -/

namespace QueueBench.OrderStatistics

variable {α : Type*} [LinearOrder α] {values ascending : List α} {index : ℕ} {value : α}

/-- `value` is the one with this many before it when the values are put in ascending order. -/
structure IsNth (values : List α) (index : ℕ) (value : α) : Prop where
  member : value ∈ values
  below : values.countP (· < value) ≤ index
  upTo : index < values.countP (· ≤ value)

theorem IsNth.le {other : α} (nth : IsNth values index value)
    (otherNth : IsNth values index other) : value ≤ other := by
  by_contra above
  rw [not_le] at above
  have within : values.countP (· ≤ other) ≤ values.countP (· < value) := by
    apply List.countP_mono_left
    intro present _ most
    have most := of_decide_eq_true most
    exact decide_eq_true (most.trans_lt above)
  have below := nth.below
  have upTo := otherNth.upTo
  omega

theorem IsNth.unique {other : α} (nth : IsNth values index value)
    (otherNth : IsNth values index other) : value = other :=
  le_antisymm (nth.le otherNth) (otherNth.le nth)

theorem IsNth.of_perm {others : List α} (same : values.Perm others)
    (nth : IsNth values index value) : IsNth others index value := by
  constructor
  · exact same.mem_iff.mp nth.member
  · rw [← same.countP_eq]
    exact nth.below
  · rw [← same.countP_eq]
    exact nth.upTo

theorem IsNth.cons {head : α} (smallest : ∀ other ∈ values, head ≤ other)
    (nth : IsNth values index value) : IsNth (head :: values) (index + 1) value := by
  have least := smallest value nth.member
  have below := nth.below
  have upTo := nth.upTo
  constructor
  · exact List.mem_cons_of_mem head nth.member
  · rw [List.countP_cons]
    split <;> omega
  · rw [List.countP_cons, if_pos (decide_eq_true least)]
    omega

theorem isNth_head {head : α} (smallest : ∀ other ∈ values, head ≤ other) :
    IsNth (head :: values) 0 head := by
  constructor
  · exact List.mem_cons_self
  · rw [Nat.le_zero, List.countP_eq_zero]
    intro other member low
    have low := of_decide_eq_true low
    rcases List.mem_cons.mp member with rfl | later
    · exact lt_irrefl _ low
    · exact absurd low (smallest other later).not_gt
  · rw [List.countP_cons, if_pos (decide_eq_true le_rfl)]
    omega

theorem isNth_of_ascending (sorted : ascending.Pairwise (· ≤ ·))
    (found : ascending[index]? = some value) : IsNth ascending index value := by
  induction ascending generalizing index with
  | nil => cases found
  | cons head rest ih =>
      obtain ⟨smallest, restSorted⟩ := List.pairwise_cons.mp sorted
      cases index with
      | zero =>
          obtain rfl : head = value := Option.some.inj found
          exact isNth_head smallest
      | succ index => exact (ih restSorted found).cons smallest

theorem getElem_ascending_iff (sorted : ascending.Pairwise (· ≤ ·))
    (same : ascending.Perm values) :
    ascending[index]? = some value ↔ IsNth values index value := by
  constructor
  · intro found
    exact (isNth_of_ascending sorted found).of_perm same
  · intro nth
    have inside : index < ascending.length := by
      have upTo := nth.upTo
      have most : values.countP (· ≤ value) ≤ values.length := List.countP_le_length
      rw [same.length_eq]
      omega
    have found := List.getElem?_eq_getElem inside
    rw [found, nth.unique ((isNth_of_ascending sorted found).of_perm same)]

theorem exists_nth (sorted : ascending.Pairwise (· ≤ ·)) (same : ascending.Perm values)
    (inside : index < values.length) :
    ∃ value, ascending[index]? = some value ∧ IsNth values index value := by
  rw [← same.length_eq] at inside
  have found := List.getElem?_eq_getElem inside
  exact ⟨_, found, (getElem_ascending_iff sorted same).mp found⟩

theorem IsNth.map {β : Type*} [LinearOrder β] {image : α → β} (mono : StrictMono image)
    (nth : IsNth values index value) : IsNth (values.map image) index (image value) := by
  constructor
  · exact List.mem_map_of_mem nth.member
  · rw [List.countP_map]
    calc
      _ = values.countP (· < value) := List.countP_congr fun other _ => by
        rw [Function.comp_apply, decide_eq_true_eq, decide_eq_true_eq, mono.lt_iff_lt]
      _ ≤ index := nth.below
  · rw [List.countP_map]
    calc
      index < values.countP (· ≤ value) := nth.upTo
      _ = _ := List.countP_congr fun other _ => by
        rw [Function.comp_apply, decide_eq_true_eq, decide_eq_true_eq, mono.le_iff_le]

theorem IsNth.isLeast (nth : IsNth values 0 value) : IsLeast {other | other ∈ values} value := by
  constructor
  · exact nth.member
  · intro other member
    have notBelow := List.countP_eq_zero.mp (Nat.le_zero.mp nth.below) other member
    rwa [decide_eq_true_eq, not_lt] at notBelow

theorem IsNth.isGreatest (nth : IsNth values index value) (last : values.length ≤ index + 1) :
    IsGreatest {other | other ∈ values} value := by
  constructor
  · exact nth.member
  · intro other member
    have all : values.countP (· ≤ value) = values.length := by
      have upTo := nth.upTo
      have most : values.countP (· ≤ value) ≤ values.length := List.countP_le_length
      omega
    exact of_decide_eq_true (List.countP_eq_length.mp all other member)

end QueueBench.OrderStatistics
