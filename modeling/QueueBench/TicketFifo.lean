import QueueBench.Lib.RingList
import QueueBench.TicketQueue

/-! A ticket ring used by one thread at a time: it holds a list, an enqueue appends
to it and a dequeue takes its first element, without a failed spin read. -/

namespace QueueBench.TicketQueue
open Machine (Outcome Returns exec exec_more)
open RingArith (addAndFetch addAndFetch_eq tmod_of_nonneg)

/-- The ring holds the items between the two counters, and nothing else. -/
structure Holds (size : ℕ) (q : Queue) (items : List ℤ) : Prop where
  ring : MarkedRing size 0 q.data (q.head + 1) items
  counters : q.tail = q.head + items.length
  head_ge : -1 ≤ q.head
  nonzero : ∀ item ∈ items, item ≠ 0

variable {size : ℕ} {headFirst : Bool} {q after : Queue} {items : List ℤ} {elem : ℤ}

theorem holds_init (size : ℕ) (junk : ℤ → ℤ) : Holds size (init size junk) [] :=
  { ring := MarkedRing.start size 0 junk _
    counters := rfl
    head_ge := by change (-1 : ℤ) ≤ -1; omega
    nonzero := by intro item impossible; cases impossible }

theorem Holds.empty_iff (holds : Holds size q items) : q.head = q.tail ↔ items = [] := by
  have counters := holds.counters
  rw [← List.length_eq_zero_iff]
  omega

theorem Holds.enqueue (holds : Holds size q items) (headFirst : Bool)
    (room : items.length < size) (nonzero : elem ≠ 0) (low : q.tail + 1 < 2 ^ 31) :
    ∃ after, Returns (step size headFirst) (.add elem) q after TRUE 0 ∧
      Holds size after (items ++ [elem]) ∧ after.head = q.head ∧ after.tail = q.tail + 1 := by
  have headGe := holds.head_ge
  have counters := holds.counters
  have ticket : addAndFetch q.tail = q.tail + 1 := addAndFetch_eq (by omega) low
  have cell : (q.tail + 1).tmod size = (q.head + 1 + items.length) % size := by
    rw [tmod_of_nonneg (by omega), counters, add_right_comm]
  refine ⟨{ q with
      data := Function.update q.data ((q.tail + 1).tmod size) elem
      tail := q.tail + 1 }, ?_, ?_, rfl, rfl⟩
  · have drawn : step size headFirst (.add elem) q =
        some ({ q with tail := q.tail + 1 }, .goto (.store elem (q.tail + 1))) := by
      simp only [step, ticket]
    exact Returns.of_goto drawn (Returns.of_ret rfl)
  · refine
      { ring := ?_
        counters := ?_
        head_ge := headGe
        nonzero := ?_ }
    · rw [cell]
      exact holds.ring.push room elem
    · change q.tail + 1 = q.head + (items ++ [elem]).length
      rw [List.length_append, List.length_singleton]
      push_cast
      omega
    · intro item member
      rcases List.mem_append.mp member with earlier | newest
      · exact holds.nonzero item earlier
      · rw [List.mem_singleton.mp newest]
        exact nonzero

theorem Holds.draw (holds : Holds size q (elem :: items)) (headFirst : Bool)
    (low : q.head + 1 < 2 ^ 31) :
    ∃ after, Returns (step size headFirst) .draw q after elem 0 ∧ Holds size after items ∧
      after.head = q.head + 1 ∧ after.tail = q.tail := by
  have headGe := holds.head_ge
  have counters := holds.counters
  have first := holds.ring.head
  have nonzero := holds.nonzero elem List.mem_cons_self
  have ticket : addAndFetch q.head = q.head + 1 := addAndFetch_eq (by omega) low
  have cell : (q.head + 1).tmod size = (q.head + 1) % size := tmod_of_nonneg (by omega) size
  refine ⟨{ q with
      data := Function.update q.data ((q.head + 1) % size) 0
      head := q.head + 1 }, ?_, ?_, rfl, rfl⟩
  · have drawn : step size headFirst .draw q =
        some ({ q with head := q.head + 1 }, .goto (.spin (q.head + 1))) := by
      simp only [step, ticket]
    have seen : step size headFirst (.spin (q.head + 1)) { q with head := q.head + 1 } =
        some ({ q with head := q.head + 1 }, .goto (.read (q.head + 1))) := by
      simp only [step, cell, first, if_neg nonzero]
    have taken : step size headFirst (.read (q.head + 1)) { q with head := q.head + 1 } =
        some ({ q with head := q.head + 1 }, .goto (.clear (q.head + 1) elem)) := by
      simp only [step, cell, first]
    have cleared : step size headFirst (.clear (q.head + 1) elem)
        { q with head := q.head + 1 } =
        some ({ q with
          data := Function.update q.data ((q.head + 1) % size) 0
          head := q.head + 1 }, .ret elem) := by
      simp only [step, cell]
    exact Returns.of_goto drawn (Returns.of_goto seen (Returns.of_goto taken
      (Returns.of_ret cleared)))
  · refine
      { ring := holds.ring.pop
        counters := ?_
        head_ge := by change -1 ≤ q.head + 1; omega
        nonzero := fun item member => holds.nonzero item (List.mem_cons_of_mem elem member) }
    rw [List.length_cons] at counters
    push_cast at counters
    change q.tail = q.head + 1 + items.length
    omega

theorem Holds.compare (holds : Holds size q (elem :: items)) (headFirst : Bool)
    (low : q.head + 1 < 2 ^ 31) :
    ∃ after, Returns (step size headFirst) .compare q after elem 0 ∧ Holds size after items ∧
      after.head = q.head + 1 ∧ after.tail = q.tail := by
  obtain ⟨after, returns, left, counters⟩ := holds.draw headFirst low
  have different : q.head ≠ q.tail := by
    intro same
    have empty := holds.empty_iff.mp same
    cases empty
  have passes : step size headFirst (.compareWith (if headFirst then q.head else q.tail)) q =
      some (q, .goto .draw) := by
    cases headFirst with
    | true =>
        simp only [step, if_true, if_neg different]
    | false =>
        simp only [step, Bool.false_eq_true, if_false, if_neg different.symm]
  exact ⟨after, Returns.of_goto rfl (Returns.of_goto passes returns), left, counters⟩

theorem compare_empty (size : ℕ) (headFirst : Bool) (equal : q.head = q.tail) :
    Returns (step size headFirst) .compare q q (-1) 0 := by
  have stops : step size headFirst (.compareWith (if headFirst then q.head else q.tail)) q =
      some (q, .ret (-1)) := by
    cases headFirst with
    | true => simp only [step, if_true, if_pos equal]
    | false => simp only [step, Bool.false_eq_true, if_false, if_pos equal.symm]
  exact Returns.of_goto rfl (Returns.of_ret stops)

theorem Holds.gate (holds : Holds size q (elem :: items)) (headFirst : Bool)
    (low : q.head + 1 < 2 ^ 31) :
    ∃ after, Returns (step size headFirst) .gate q after elem 0 ∧ Holds size after items ∧
      after.head = q.head + 1 ∧ after.tail = q.tail := by
  by_cases wrapped : q.tail - size > 0
  · obtain ⟨after, returns, rest⟩ := holds.compare headFirst low
    have goes : step size headFirst .gate q = some (q, .goto .compare) := by
      simp only [step, if_pos wrapped]
    exact ⟨after, Returns.of_goto goes returns, rest⟩
  · obtain ⟨after, returns, rest⟩ := holds.draw headFirst low
    have goes : step size headFirst .gate q = some (q, .goto .draw) := by
      simp only [step, if_neg wrapped]
    exact ⟨after, Returns.of_goto goes returns, rest⟩

/-! ### Calls on a ring no other thread uses -/

def Pc.rank : Pc → ℕ
  | .add _ => 2
  | .store _ _ => 1
  | .gate => 7
  | .compare => 6
  | .compareWith _ => 5
  | .draw => 4
  | .spin _ => 3
  | .read _ => 2
  | .clear _ _ => 1

/-- A call run to its end on a private ring. -/
def callAlone (size : ℕ) (headFirst : Bool) (pc : Pc) (q : Queue) : Option (Queue × ℤ) :=
  (exec (step size headFirst) pc.rank pc q).map (fun out => (out.1, out.2.1))

theorem exec_spin (cur_head : ℤ) (fuel : ℕ) (zero : q.data (cur_head.tmod size) = 0) :
    exec (step size headFirst) fuel (.spin cur_head) q = none := by
  induction fuel with
  | zero => rfl
  | succ fuel ih => simp only [exec, step, if_pos zero, ih, Option.map_none]

theorem step_rank {pc next : Pc} {middle : Queue}
    (moved : step size headFirst pc q = some (middle, .goto next)) : next.rank < pc.rank := by
  cases pc with
  | add elem => cases moved; exact Nat.lt_succ_self 1
  | store elem cur_tail => cases moved
  | gate =>
      simp only [step] at moved
      split at moved <;> cases moved <;> decide
  | compare => cases moved; exact Nat.lt_succ_self 5
  | compareWith first =>
      simp only [step] at moved
      split at moved
      all_goals split at moved
      all_goals cases moved
      all_goals exact Nat.lt_succ_self 4
  | draw => cases moved; exact Nat.lt_succ_self 3
  | spin cur_head =>
      simp only [step] at moved
      split at moved
      · cases moved
      · cases moved; exact Nat.lt_succ_self 2
  | read cur_head => cases moved; exact Nat.lt_succ_self 1
  | clear cur_head elem => cases moved

theorem retry_spins {pc next : Pc} {middle : Queue}
    (moved : step size headFirst pc q = some (middle, .retry next)) :
    ∃ cur_head, pc = .spin cur_head ∧ q.data (cur_head.tmod size) = 0 := by
  cases pc with
  | spin cur_head =>
      refine ⟨cur_head, rfl, ?_⟩
      by_contra nonzero
      simp only [step, if_neg nonzero] at moved
      cases moved
  | compareWith first =>
      simp only [step] at moved
      split at moved
      all_goals split at moved
      all_goals cases moved
  | _ => cases moved

theorem rank_pos (pc : Pc) : 0 < pc.rank := by
  cases pc <;> exact Nat.succ_pos _

/-- On a private ring a call that returns at all has returned after `rank` steps, so
`callAlone` misses no call that ends. -/
theorem exec_rank {pc : Pc} {fuel : ℕ} {out : Queue × ℤ × ℕ}
    (ran : exec (step size headFirst) fuel pc q = some out) :
    exec (step size headFirst) pc.rank pc q = some out := by
  induction fuel generalizing pc q out with
  | zero => cases ran
  | succ fuel ih =>
      have whole : pc.rank = pc.rank - 1 + 1 := by
        have positive := rank_pos pc
        omega
      rw [whole]
      unfold exec at ran ⊢
      cases moved : step size headFirst pc q with
      | none => rw [moved] at ran; cases ran
      | some result =>
          obtain ⟨middle, outcome⟩ := result
          rw [moved] at ran
          cases outcome with
          | ret value => exact ran
          | goto next =>
              have rest := ih ran
              have lower := step_rank moved
              have enough : pc.rank - 1 = next.rank + (pc.rank - 1 - next.rank) := by omega
              simp only
              rw [enough]
              exact exec_more _ rest
          | retry next =>
              -- Only a spin retries, and nobody else will fill its slot.
              exfalso
              obtain ⟨cur_head, rfl, zero⟩ := retry_spins moved
              simp only [step, if_pos zero] at moved
              cases moved
              simp only [exec_spin cur_head fuel zero, Option.map_none] at ran
              cases ran

theorem callAlone_of_returns {pc : Pc} {value : ℤ} {retries : ℕ}
    (returns : Returns (step size headFirst) pc q after value retries) :
    callAlone size headFirst pc q = some (after, value) := by
  obtain ⟨fuel, ran⟩ := returns
  rw [callAlone, exec_rank ran]
  rfl

end QueueBench.TicketQueue
