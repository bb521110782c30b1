import Mathlib.Data.Int.Interval
import Mathlib.Logic.Function.Basic

/-! A counter that hands out consecutive tickets. Every ticket handed out is held
by exactly one owner until it is settled. -/

namespace QueueBench

variable {ι : Type*}

/-- `last` is the newest ticket, `settled` the finished ones in the order they
finished, `held` the ticket of each owner. -/
structure Dispenser (last : ℤ) (settled : List ℤ) (held : ι → Option ℤ) : Prop where
  last_ge : -1 ≤ last
  held_range : ∀ owner ticket, held owner = some ticket → 0 ≤ ticket ∧ ticket ≤ last
  held_open : ∀ owner ticket, held owner = some ticket → ticket ∉ settled
  held_unique : ∀ left right ticket,
    held left = some ticket → held right = some ticket → left = right
  covered : ∀ ticket, 0 ≤ ticket → ticket ≤ last →
    ticket ∈ settled ∨ ∃ owner, held owner = some ticket
  settled_range : ∀ ticket ∈ settled, 0 ≤ ticket ∧ ticket ≤ last
  settled_nodup : settled.Nodup

namespace Dispenser

variable {last : ℤ} {settled : List ℤ} {held : ι → Option ℤ}

theorem start : Dispenser (ι := ι) (-1) [] (fun _ => none) :=
  { last_ge := by omega
    held_range := by intro owner ticket impossible; cases impossible
    held_open := by intro owner ticket impossible; cases impossible
    held_unique := by intro left right ticket impossible; cases impossible
    covered := by intro ticket low high; omega
    settled_range := by intro ticket impossible; cases impossible
    settled_nodup := List.nodup_nil }

section Operations

variable [DecidableEq ι]

theorem draw (dispenser : Dispenser last settled held) (owner : ι)
    (free : held owner = none) :
    Dispenser (last + 1) settled (Function.update held owner (some (last + 1))) := by
  have lastGe := dispenser.last_ge
  -- A ticket held by someone else is an old one.
  have old : ∀ other ticket, other ≠ owner →
      Function.update held owner (some (last + 1)) other = some ticket →
      held other = some ticket := by
    intro other ticket different holds
    rwa [Function.update_of_ne different] at holds
  have mine : ∀ ticket, Function.update held owner (some (last + 1)) owner = some ticket →
      ticket = last + 1 := by
    intro ticket holds
    rw [Function.update_self] at holds
    exact (Option.some.inj holds).symm
  refine
    { last_ge := by omega
      held_range := ?_
      held_open := ?_
      held_unique := ?_
      covered := ?_
      settled_range := ?_
      settled_nodup := dispenser.settled_nodup }
  · intro other ticket holds
    by_cases same : other = owner
    · subst other
      have newest := mine ticket holds
      omega
    · have range := dispenser.held_range other ticket (old other ticket same holds)
      omega
  · intro other ticket holds member
    by_cases same : other = owner
    · subst other
      have newest := mine ticket holds
      have range := dispenser.settled_range ticket member
      omega
    · exact dispenser.held_open other ticket (old other ticket same holds) member
  · intro left right ticket leftHolds rightHolds
    by_cases leftSame : left = owner
    · by_cases rightSame : right = owner
      · rw [leftSame, rightSame]
      · subst left
        have newest := mine ticket leftHolds
        have range := dispenser.held_range right ticket (old right ticket rightSame rightHolds)
        omega
    · by_cases rightSame : right = owner
      · subst right
        have newest := mine ticket rightHolds
        have range := dispenser.held_range left ticket (old left ticket leftSame leftHolds)
        omega
      · exact dispenser.held_unique left right ticket (old left ticket leftSame leftHolds)
          (old right ticket rightSame rightHolds)
  · intro ticket low high
    by_cases newest : ticket = last + 1
    · subst ticket
      exact Or.inr ⟨owner, Function.update_self owner _ held⟩
    · rcases dispenser.covered ticket low (by omega) with done | ⟨other, holds⟩
      · exact Or.inl done
      · have different : other ≠ owner := by
          rintro rfl
          rw [free] at holds
          cases holds
        exact Or.inr ⟨other, by rw [Function.update_of_ne different]; exact holds⟩
  · intro ticket member
    have range := dispenser.settled_range ticket member
    omega

theorem settle (dispenser : Dispenser last settled held) (owner : ι) {ticket : ℤ}
    (holds : held owner = some ticket) :
    Dispenser last (settled ++ [ticket]) (Function.update held owner none) := by
  have old : ∀ other number, Function.update held owner none other = some number →
      other ≠ owner ∧ held other = some number := by
    intro other number still
    by_cases same : other = owner
    · rw [same, Function.update_self] at still
      cases still
    · rw [Function.update_of_ne same] at still
      exact ⟨same, still⟩
  refine
    { last_ge := dispenser.last_ge
      held_range := fun other number still =>
        dispenser.held_range other number (old other number still).2
      held_open := ?_
      held_unique := fun left right number leftStill rightStill =>
        dispenser.held_unique left right number (old left number leftStill).2
          (old right number rightStill).2
      covered := ?_
      settled_range := ?_
      settled_nodup := ?_ }
  · intro other number still member
    obtain ⟨different, holding⟩ := old other number still
    rcases List.mem_append.mp member with earlier | newest
    · exact dispenser.held_open other number holding earlier
    · rw [List.mem_singleton.mp newest] at holding
      exact different (dispenser.held_unique other owner ticket holding holds)
  · intro number low high
    rcases dispenser.covered number low high with done | ⟨other, holding⟩
    · exact Or.inl (List.mem_append_left _ done)
    · by_cases same : other = owner
      · rw [same, holds] at holding
        cases holding
        exact Or.inl (List.mem_append_right _ (List.mem_singleton_self _))
      · exact Or.inr ⟨other, by rw [Function.update_of_ne same]; exact holding⟩
  · intro number member
    rcases List.mem_append.mp member with earlier | newest
    · exact dispenser.settled_range number earlier
    · rw [List.mem_singleton.mp newest]
      exact dispenser.held_range owner ticket holds
  · rw [List.nodup_append]
    refine ⟨dispenser.settled_nodup, List.nodup_singleton ticket, ?_⟩
    intro number member other newest same
    rw [List.mem_singleton.mp newest] at same
    subst number
    exact dispenser.held_open owner ticket holds member

end Operations

theorem settled_iff (dispenser : Dispenser last settled held)
    (quiet : ∀ owner, held owner = none) (ticket : ℤ) :
    ticket ∈ settled ↔ 0 ≤ ticket ∧ ticket ≤ last := by
  constructor
  · exact dispenser.settled_range ticket
  · intro range
    rcases dispenser.covered ticket range.1 range.2 with done | ⟨owner, holds⟩
    · exact done
    · rw [quiet owner] at holds
      cases holds

theorem settled_length (dispenser : Dispenser last settled held)
    (quiet : ∀ owner, held owner = none) : (settled.length : ℤ) = last + 1 := by
  have all : settled.toFinset = Finset.Icc 0 last := by
    ext ticket
    rw [List.mem_toFinset, Finset.mem_Icc]
    exact dispenser.settled_iff quiet ticket
  have count := congrArg Finset.card all
  rw [List.toFinset_card_of_nodup dispenser.settled_nodup, Int.card_Icc] at count
  have lastGe := dispenser.last_ge
  omega

end Dispenser

end QueueBench
