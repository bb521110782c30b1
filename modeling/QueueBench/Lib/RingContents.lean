import Mathlib.Algebra.BigOperators.Group.Finset.Basic
import Mathlib.Algebra.BigOperators.Group.Multiset.Basic

/-! The items in the cells of an array that has a mark for empty cells, as a
multiset. -/

namespace QueueBench

open scoped BigOperators

variable {α : Type*} [DecidableEq α]

def occupant (mark value : α) : Multiset α := if value = mark then 0 else {value}

def contents (size : ℕ) (mark : α) (cells : ℤ → α) : Multiset α :=
  ∑ cell ∈ Finset.range size, occupant mark (cells cell)

variable {size : ℕ} {mark value : α} {cells : ℤ → α}

@[simp] theorem occupant_mark (mark : α) : occupant mark mark = 0 := if_pos rfl

theorem occupant_of_ne (different : value ≠ mark) : occupant mark value = {value} :=
  if_neg different

theorem contents_blank (size : ℕ) (mark : α) : contents size mark (fun _ => mark) = 0 := by
  simp only [contents, occupant_mark, Finset.sum_const_zero]

theorem occupant_eq_zero : occupant mark value = 0 ↔ value = mark := by
  constructor
  · intro nothing
    by_contra different
    rw [occupant_of_ne different] at nothing
    exact Multiset.singleton_ne_zero value nothing
  · intro same
    rw [same, occupant_mark]

/-- A write to one cell exchanges what it holds. -/
theorem contents_update (mark : α) (cells : ℤ → α) {cell : ℤ} (low : 0 ≤ cell)
    (high : cell < size) (value : α) :
    contents size mark (Function.update cells cell value) + occupant mark (cells cell) =
      contents size mark cells + occupant mark value := by
  have member : cell.toNat ∈ Finset.range size := Finset.mem_range.mpr (by omega)
  have index : (cell.toNat : ℤ) = cell := Int.toNat_of_nonneg low
  have rest : ∑ other ∈ (Finset.range size).erase cell.toNat,
        occupant mark (Function.update cells cell value other) =
      ∑ other ∈ (Finset.range size).erase cell.toNat, occupant mark (cells other) := by
    apply Finset.sum_congr rfl
    intro other inside
    have different : (other : ℤ) ≠ cell := by
      have apart := Finset.ne_of_mem_erase inside
      omega
    rw [Function.update_of_ne different]
  unfold contents
  rw [← Finset.add_sum_erase _ _ member, ← Finset.add_sum_erase _ _ member, rest, index,
    Function.update_self]
  calc occupant mark value + _ + occupant mark (cells cell)
      = occupant mark (cells cell) + (occupant mark value + _) := add_comm _ _
    _ = occupant mark (cells cell) + (_ + occupant mark value) := by
        rw [add_comm (occupant mark value)]
    _ = occupant mark (cells cell) + _ + occupant mark value := (add_assoc _ _ _).symm

theorem distinct_le_size {values : List α} (nodup : values.Nodup)
    (held : ∀ value ∈ values, ∃ cell : ℕ, cell < size ∧ cells cell = value) :
    values.length ≤ size := by
  have inside : values.toFinset ⊆ (Finset.range size).image (fun cell : ℕ => cells cell) := by
    intro value member
    obtain ⟨cell, low, same⟩ := held value (List.mem_toFinset.mp member)
    exact Finset.mem_image.mpr ⟨cell, Finset.mem_range.mpr low, same⟩
  have count := (Finset.card_le_card inside).trans Finset.card_image_le
  rwa [List.toFinset_card_of_nodup nodup, Finset.card_range] at count

end QueueBench
