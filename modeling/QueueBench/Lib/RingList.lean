import QueueBench.Lib.RingArith

/-! A list kept in consecutive cells of a ring. The position of its first element
only ever grows; `%` selects the cell. -/

namespace QueueBench

variable {α : Type*}

/-- The cells from position `first` on hold the items. -/
structure RingList (size : ℕ) (cells : ℤ → α) (first : ℤ) (items : List α) : Prop where
  fits : items.length ≤ size
  holds : ∀ (index : ℕ) item, items[index]? = some item → cells ((first + index) % size) = item

namespace RingList

variable {size : ℕ} {cells : ℤ → α} {first : ℤ} {items : List α} {item : α}

theorem empty (size : ℕ) (cells : ℤ → α) (first : ℤ) : RingList size cells first [] :=
  { fits := Nat.zero_le size
    holds := by intro index item impossible; cases impossible }

theorem apart {left right : ℕ} (leftIn : left < size) (rightIn : right < size)
    (different : left ≠ right) : (first + left) % size ≠ (first + right) % (size : ℤ) := by
  intro same
  have equal := RingArith.eq_of_slot_eq same (show first - 1 < first + left from by omega)
    (by omega) (by omega) (by omega)
  omega

theorem frame (ring : RingList size cells first items) {cell : ℤ} (value : α)
    (outside : ∀ index : ℕ, index < items.length → (first + index) % size ≠ cell) :
    RingList size (Function.update cells cell value) first items := by
  refine
    { fits := ring.fits
      holds := ?_ }
  intro index item found
  obtain ⟨inside, _⟩ := List.getElem?_eq_some_iff.mp found
  rw [Function.update_of_ne (outside index inside)]
  exact ring.holds index item found

theorem push (ring : RingList size cells first items) (room : items.length < size) (item : α) :
    RingList size (Function.update cells ((first + items.length) % size) item) first
      (items ++ [item]) := by
  refine
    { fits := ?_
      holds := ?_ }
  · rw [List.length_append, List.length_singleton]
    exact room
  · intro index value found
    obtain ⟨inside, _⟩ := List.getElem?_eq_some_iff.mp found
    rw [List.length_append, List.length_singleton] at inside
    by_cases newest : index = items.length
    · subst index
      rw [List.getElem?_concat_length] at found
      cases found
      exact Function.update_self _ _ cells
    · rw [List.getElem?_append_left (by omega)] at found
      rw [Function.update_of_ne (apart (by omega) room newest)]
      exact ring.holds index value found

theorem head (ring : RingList size cells first (item :: items)) :
    cells (first % size) = item := by
  have found := ring.holds 0 item rfl
  rwa [Nat.cast_zero, add_zero] at found

theorem pop (ring : RingList size cells first (item :: items)) :
    RingList size cells (first + 1) items := by
  have fits := ring.fits
  rw [List.length_cons] at fits
  refine
    { fits := by omega
      holds := ?_ }
  intro index value found
  have shifted := ring.holds (index + 1) value found
  rwa [Nat.cast_add, Nat.cast_one, add_comm (index : ℤ) 1, ← add_assoc] at shifted

end RingList

/-- A ring list whose other cells all hold the mark of an empty cell. -/
structure MarkedRing (size : ℕ) (mark : α) (cells : ℤ → α) (first : ℤ) (items : List α) : Prop
    extends RingList size cells first items where
  blank : ∀ cell : ℤ, 0 ≤ cell → cell < size →
    (∀ index : ℕ, index < items.length → (first + index) % size ≠ cell) → cells cell = mark

namespace MarkedRing

variable {size : ℕ} {mark : α} {cells : ℤ → α} {first : ℤ} {items : List α} {item : α}

theorem start (size : ℕ) (mark : α) (junk : ℤ → α) (first : ℤ) :
    MarkedRing size mark (RingArith.fill size mark junk) first [] :=
  { RingList.empty size _ first with
    blank := by
      intro cell low high _
      rw [RingArith.fill_apply, if_pos ⟨low, high⟩] }

theorem next_blank (ring : MarkedRing size mark cells first items)
    (room : items.length < size) : cells ((first + items.length) % size) = mark := by
  have range := RingArith.slot_range (show (0 : ℤ) < size from by omega) (first + items.length)
  apply ring.blank _ range.1 range.2
  intro index inside
  exact RingList.apart (by omega) room (by omega)

theorem push (ring : MarkedRing size mark cells first items) (room : items.length < size)
    (item : α) :
    MarkedRing size mark (Function.update cells ((first + items.length) % size) item) first
      (items ++ [item]) := by
  refine
    { ring.toRingList.push room item with
      blank := ?_ }
  intro cell low high outside
  rw [List.length_append, List.length_singleton] at outside
  have different : cell ≠ (first + items.length) % size :=
    (outside items.length (by omega)).symm
  rw [Function.update_of_ne different]
  exact ring.blank cell low high (fun index inside => outside index (by omega))

theorem pop (ring : MarkedRing size mark cells first (item :: items)) :
    MarkedRing size mark (Function.update cells (first % size) mark) (first + 1) items := by
  have fits := ring.fits
  rw [List.length_cons] at fits
  have others : ∀ index : ℕ, index < items.length →
      (first + 1 + index) % size ≠ first % (size : ℤ) := by
    intro index inside same
    have equal := RingArith.eq_of_slot_eq same (show first - 1 < first + 1 + index from by omega)
      (by omega) (by omega) (by omega)
    omega
  refine
    { ring.toRingList.pop.frame mark others with
      blank := ?_ }
  intro cell low high outside
  by_cases same : cell = first % size
  · rw [same, Function.update_self]
  · rw [Function.update_of_ne same]
    apply ring.blank cell low high
    intro index inside
    rw [List.length_cons] at inside
    cases index with
    | zero =>
        rw [Nat.cast_zero, add_zero]
        exact fun equal => same equal.symm
    | succ index =>
        rw [Nat.cast_add, Nat.cast_one, add_comm (index : ℤ) 1, ← add_assoc]
        exact outside index (by omega)

end MarkedRing

end QueueBench
