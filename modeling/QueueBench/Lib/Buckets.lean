import Mathlib.Algebra.Order.Ring.Int
import Mathlib.Data.Finset.Card
import Mathlib.Data.Set.Function
import Mathlib.Order.Interval.Finset.Nat

/-! Numbers that fall into buckets of one size, all in a row, and maps that give every outcome
the same number of chances. -/

namespace QueueBench.Buckets

variable {α β γ : Type*}

/-- Nothing but the outcomes comes out of the accepted values, and each of them `share` times. -/
structure Unbiased [DecidableEq β] (accepted : Finset α) (outcome : α → β) (outcomes : Set β)
    (share : ℕ) : Prop where
  inside : ∀ value ∈ accepted, outcome value ∈ outcomes
  even : ∀ result ∈ outcomes, (accepted.filter (fun value => outcome value = result)).card = share

section Maps
variable [DecidableEq β] [DecidableEq γ] {accepted : Finset α} {outcome : α → β}
variable {outcomes : Set β} {share : ℕ}

theorem Unbiased.rename (unbiased : Unbiased accepted outcome outcomes share) {name : β → γ}
    {renamed : α → γ} {names : Set γ} (bijective : Set.BijOn name outcomes names)
    (same : ∀ value ∈ accepted, renamed value = name (outcome value)) :
    Unbiased accepted renamed names share := by
  constructor
  · intro value member
    rw [same value member]
    exact bijective.mapsTo (unbiased.inside value member)
  · intro named possible
    obtain ⟨result, inside, rfl⟩ := bijective.surjOn possible
    rw [← unbiased.even result inside]
    congr 1
    apply Finset.filter_congr
    intro value member
    rw [same value member]
    exact bijective.injOn.eq_iff (unbiased.inside value member) inside

end Maps

theorem div_unbiased {size : ℕ} (positive : 0 < size) (count : ℕ) :
    Unbiased (Finset.range (size * count)) (fun value => value / size) {index | index < count}
      size := by
  constructor
  · intro value member
    exact Nat.div_lt_of_lt_mul (Finset.mem_range.mp member)
  · intro index inside
    have above : (index + 1) * size ≤ size * count := by
      rw [Nat.mul_comm]
      exact Nat.mul_le_mul_left size inside
    have bucket : (Finset.range (size * count)).filter (fun value => value / size = index) =
        Finset.Ico (index * size) ((index + 1) * size) := by
      ext value
      rw [Finset.mem_filter, Finset.mem_range, Finset.mem_Ico, Nat.div_eq_iff positive]
      rw [Nat.succ_mul] at above ⊢
      omega
    rw [bucket, Nat.card_Ico, Nat.succ_mul, Nat.add_sub_cancel_left]

/-- Buckets of the greatest size leave less than one number for each of them at the end of the
line, not counting the last number. -/
theorem beyond_card_le {total count : ℕ} (positive : 0 < count) :
    ((Finset.range (total + 1)).filter (fun value => total / count * count ≤ value)).card ≤
      count := by
  have rest : (Finset.range (total + 1)).filter (fun value => total / count * count ≤ value) =
      Finset.Ico (total / count * count) (total + 1) := by
    ext value
    rw [Finset.mem_filter, Finset.mem_range, Finset.mem_Ico, and_comm]
  have whole := Nat.div_add_mod' total count
  have left := Nat.mod_lt total positive
  rw [rest, Nat.card_Ico]
  omega

end QueueBench.Buckets
