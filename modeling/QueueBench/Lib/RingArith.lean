import Mathlib.Algebra.Order.Ring.Int
import Mathlib.Logic.Function.Basic

/-! Counters held in a C `int` and the slots of a ring they select with `%`. -/

namespace QueueBench.RingArith

/-- Two's complement wrap-around of a 32-bit `int`. -/
def wrap32 (value : ℤ) : ℤ := value.bmod (2 ^ 32)

/-- `__sync_add_and_fetch(&counter, 1)` -/
def addAndFetch (counter : ℤ) : ℤ := wrap32 (counter + 1)

theorem wrap32_eq {value : ℤ} (low : -2 ^ 31 ≤ value) (high : value < 2 ^ 31) :
    wrap32 value = value := by
  unfold wrap32
  rw [Int.bmod_def]
  split <;> omega

theorem addAndFetch_eq {counter : ℤ} (low : -1 ≤ counter) (high : counter + 1 < 2 ^ 31) :
    addAndFetch counter = counter + 1 :=
  wrap32_eq (by omega) high

/-- C's `%` on a ticket that has not wrapped. -/
theorem tmod_of_nonneg {ticket : ℤ} (nonneg : 0 ≤ ticket) (size : ℤ) :
    ticket.tmod size = ticket % size :=
  Int.tmod_eq_emod_of_nonneg nonneg

theorem tmod_add_lap {ticket : ℤ} (nonneg : 0 ≤ ticket) (size : ℕ) :
    (ticket + size).tmod size = ticket.tmod size := by
  rw [tmod_of_nonneg (by omega), tmod_of_nonneg nonneg, Int.add_emod_right]

theorem lap_le {size early late : ℤ} (order : early < late)
    (same : early % size = late % size) : early + size ≤ late := by
  obtain ⟨laps, apart⟩ := Int.dvd_of_emod_eq_zero
    (Int.emod_eq_emod_iff_emod_sub_eq_zero.mp same.symm)
  rcases lt_or_ge 0 size with positive | negative
  · have turned : 0 < laps := by
      by_contra stuck
      have down : size * laps ≤ 0 :=
        Int.mul_nonpos_of_nonneg_of_nonpos (by omega) (by omega)
      omega
    have one : size * 1 ≤ size * laps := Int.mul_le_mul_of_nonneg_left (by omega) (by omega)
    omega
  · omega

/-- A window of at most one lap has at most one ticket for each slot. -/
theorem eq_of_slot_eq {size first second low : ℤ} (same : first % size = second % size)
    (firstLow : low < first) (firstHigh : first ≤ low + size)
    (secondLow : low < second) (secondHigh : second ≤ low + size) : first = second := by
  rcases lt_trichotomy first second with before | equal | after
  · have apart := lap_le before same
    omega
  · exact equal
  · have apart := lap_le after same.symm
    omega

/-- Tickets drawn one after the other select different slots, also past the end of `int`. -/
theorem next_slot_ne {size : ℕ} (large : 2 ≤ size) (divides : (size : ℤ) ∣ 2 ^ 32) (counter : ℤ) :
    (addAndFetch counter).tmod size ≠ counter.tmod size := by
  intro same
  have wraps : (2 ^ 32 : ℤ) ∣ addAndFetch counter - (counter + 1) :=
    Int.dvd_bmod_sub_self
  have early : (size : ℤ) ∣ counter - counter.tmod size := Int.dvd_self_sub_tmod
  have late : (size : ℤ) ∣ addAndFetch counter - (addAndFetch counter).tmod size :=
    Int.dvd_self_sub_tmod
  rw [same] at late
  have one : (size : ℤ) ∣ 1 := by
    have apart := Int.dvd_sub (Int.dvd_sub late early) (Int.dvd_trans divides wraps)
    have simpler : addAndFetch counter - counter.tmod size - (counter - counter.tmod size) -
        (addAndFetch counter - (counter + 1)) = 1 := by omega
    rwa [simpler] at apart
  have small := Int.le_of_dvd Int.one_pos one
  omega

theorem slot_range {size : ℤ} (positive : 0 < size) (ticket : ℤ) :
    0 ≤ ticket % size ∧ ticket % size < size :=
  ⟨Int.emod_nonneg ticket (by omega), Int.emod_lt_of_pos ticket positive⟩

theorem slot_reached {size : ℕ} {slot : ℤ} (low : 0 ≤ slot) (high : slot < size) (first : ℤ) :
    ∃ distance : ℕ, distance < size ∧ (first + distance) % size = slot := by
  have range := slot_range (show (0 : ℤ) < size from by omega) (slot - first)
  refine ⟨((slot - first) % size).toNat, by omega, ?_⟩
  rw [Int.toNat_of_nonneg range.1, Int.add_emod_emod, add_sub_cancel]
  exact Int.emod_eq_of_lt low high

def fill {α : Type*} (size : ℕ) (value : α) (junk : ℤ → α) : ℤ → α :=
  (List.range size).foldl (fun cells (index : ℕ) => Function.update cells (index : ℤ) value) junk

theorem fill_apply {α : Type*} (size : ℕ) (value : α) (junk : ℤ → α) (index : ℤ) :
    fill size value junk index =
      if 0 ≤ index ∧ index < size then value else junk index := by
  induction size with
  | zero =>
      rw [if_neg (by omega)]
      rfl
  | succ size ih =>
      unfold fill at ih ⊢
      rw [List.range_succ, List.foldl_append, List.foldl_cons, List.foldl_nil]
      by_cases last : index = size
      · subst index
        rw [Function.update_self, if_pos (by omega)]
      · rw [Function.update_of_ne last, ih]
        by_cases inside : 0 ≤ index ∧ index < size
        · rw [if_pos inside, if_pos (by omega)]
        · rw [if_neg inside, if_neg (by omega)]

end QueueBench.RingArith
