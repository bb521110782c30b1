import Mathlib.Algebra.Order.BigOperators.Group.Finset
import Mathlib.Algebra.BigOperators.Group.Finset.Piecewise
import Mathlib.Data.List.Nodup

/-! Numbers dealt in turn to a fixed number of hands: number `i` goes to hand
`i % hands`. -/

namespace QueueBench.RoundRobin

open scoped BigOperators

/-- How many of the first `dealt` numbers a hand gets. -/
def share (hands hand dealt : ℕ) : ℕ := dealt / hands + if hand < dealt % hands then 1 else 0

variable {hands hand dealt : ℕ}

theorem share_zero (hands hand : ℕ) : share hands hand 0 = 0 := by
  rw [share, Nat.zero_div, Nat.zero_mod, if_neg (Nat.not_lt_zero hand)]

theorem share_succ (inside : hand < hands) (dealt : ℕ) :
    share hands hand (dealt + 1) = share hands hand dealt + if hand = dealt % hands then 1 else 0 := by
  have positive : 0 < hands := by omega
  have below := Nat.mod_lt dealt positive
  have whole := Nat.div_add_mod dealt hands
  by_cases last : dealt % hands + 1 = hands
  · have split : (dealt + 1) / hands = dealt / hands + 1 ∧ (dealt + 1) % hands = 0 := by
      rw [Nat.div_mod_unique positive, Nat.mul_add, Nat.mul_one]
      exact ⟨by omega, positive⟩
    rw [share, share, split.1, split.2, if_neg (Nat.not_lt_zero hand)]
    by_cases mine : hand = dealt % hands
    · rw [if_pos mine, if_neg (by omega)]
    · rw [if_neg mine, if_pos (by omega)]
  · have split : (dealt + 1) / hands = dealt / hands ∧
        (dealt + 1) % hands = dealt % hands + 1 := by
      rw [Nat.div_mod_unique positive]
      exact ⟨by omega, by omega⟩
    rw [share, share, split.1, split.2]
    by_cases mine : hand = dealt % hands
    · rw [if_pos mine, if_pos (by omega), if_neg (by omega)]
    · rw [if_neg mine]
      by_cases before : hand < dealt % hands
      · rw [if_pos before, if_pos (by omega)]
      · rw [if_neg before, if_neg (by omega)]

theorem share_mono (inside : hand < hands) {more : ℕ} (le : dealt ≤ more) :
    share hands hand dealt ≤ share hands hand more := by
  induction le with
  | refl => exact Nat.le_refl _
  | step _ ih =>
      rw [Nat.succ_eq_add_one, share_succ inside]
      omega

theorem share_le_dealt (inside : hand < hands) (dealt : ℕ) : share hands hand dealt ≤ dealt := by
  induction dealt with
  | zero => rw [share_zero]
  | succ dealt ih =>
      rw [share_succ inside]
      split <;> omega

theorem share_rounds (positive : 0 < hands) (hand rounds : ℕ) :
    share hands hand (rounds * hands) = rounds := by
  rw [share, Nat.mul_div_cancel rounds positive, Nat.mul_mod_left, if_neg (Nat.not_lt_zero hand),
    Nat.add_zero]

theorem share_turn (hands dealt : ℕ) : share hands (dealt % hands) dealt = dealt / hands := by
  rw [share, if_neg (Nat.lt_irrefl _), Nat.add_zero]

/-- What a hand gets in the first rounds, counting numbers from one. -/
def received (hands hand rounds : ℕ) : List ℤ :=
  (List.range rounds).map (fun round : ℕ => ((round * hands + hand + 1 : ℕ) : ℤ))

theorem received_succ (hands hand rounds : ℕ) :
    received hands hand (rounds + 1) =
      received hands hand rounds ++ [((rounds * hands + hand + 1 : ℕ) : ℤ)] := by
  rw [received, received, List.range_succ, List.map_append, List.map_singleton]

theorem received_getElem? {rounds round : ℕ} {value : ℤ}
    (found : (received hands hand rounds)[round]? = some value) :
    value = ((round * hands + hand + 1 : ℕ) : ℤ) := by
  obtain ⟨inside, same⟩ := List.getElem?_eq_some_iff.mp found
  rw [← same]
  simp only [received, List.getElem_map, List.getElem_range]

theorem mem_received {rounds : ℕ} {value : ℤ} :
    value ∈ received hands hand rounds ↔
      ∃ round < rounds, ((round * hands + hand + 1 : ℕ) : ℤ) = value := by
  simp only [received, List.mem_map, List.mem_range]

theorem received_nodup (positive : 0 < hands) (rounds : ℕ) : (received hands hand rounds).Nodup := by
  apply List.Nodup.map _ List.nodup_range
  intro left right same
  have equal : left * hands = right * hands := by
    have cast : ((left * hands + hand + 1 : ℕ) : ℤ) = ((right * hands + hand + 1 : ℕ) : ℤ) := same
    omega
  exact Nat.eq_of_mul_eq_mul_right positive equal

theorem count_received (positive : 0 < hands) (rounds : ℕ) (value : ℤ) :
    ∑ hand ∈ Finset.range hands, (received hands hand rounds).count value =
      if 1 ≤ value ∧ value ≤ rounds * hands then 1 else 0 := by
  have single : ∀ hand, (received hands hand rounds).count value =
      if value ∈ received hands hand rounds then 1 else 0 :=
    fun hand => List.Nodup.count (received_nodup positive rounds)
  simp only [single]
  by_cases inside : 1 ≤ value ∧ value ≤ rounds * hands
  · obtain ⟨number, rfl⟩ := Int.eq_ofNat_of_zero_le (show 0 ≤ value from by omega)
    rw [if_pos inside]
    have below := Nat.mod_lt (number - 1) positive
    have whole := Nat.div_add_mod' (number - 1) hands
    rw [Finset.sum_eq_single ((number - 1) % hands)]
    · rw [if_pos]
      rw [mem_received]
      refine ⟨(number - 1) / hands, ?_, by omega⟩
      rw [Nat.div_lt_iff_lt_mul positive]
      have high : number ≤ rounds * hands := by exact_mod_cast inside.2
      omega
    · intro other range different
      rw [if_neg]
      intro member
      obtain ⟨round, _, same⟩ := mem_received.mp member
      apply different
      have smaller := Finset.mem_range.mp range
      have split : number - 1 = round * hands + other := by omega
      rw [split, Nat.add_comm, Nat.add_mul_mod_self_right, Nat.mod_eq_of_lt smaller]
    · intro outside
      exact absurd (Finset.mem_range.mpr below) outside
  · rw [if_neg inside]
    apply Finset.sum_eq_zero
    intro hand range
    rw [if_neg]
    intro member
    obtain ⟨round, low, rfl⟩ := mem_received.mp member
    apply inside
    have smaller := Finset.mem_range.mp range
    have more : (round + 1) * hands ≤ rounds * hands := Nat.mul_le_mul_right hands low
    rw [Nat.add_mul, Nat.one_mul] at more
    have bound : ((round * hands + hand + 1 : ℕ) : ℤ) ≤ ((rounds * hands : ℕ) : ℤ) := by omega
    push_cast at bound ⊢
    omega

end QueueBench.RoundRobin
