import QueueBench.SpmcDeal

/-! When the run of queue type 8 delivers what was dealt: exactly if the number of queues
divides NUM_SAMPLES. -/

namespace QueueBench.SpmcQueues
open Machine (Outcome Pool Program Act Thread work_le_load)
open RingArith (addAndFetch addAndFetch_eq tmod_of_nonneg)
open RoundRobin (share share_zero share_succ share_rounds share_le_dealt received_getElem?)
open TicketQueue (Queue Pc InitQueues EnqueueMultiple QUEUE_SIZE)
open Transition (Run Meets Reaches meets_snoc meets_true)

variable {NUM_SAMPLES NUM_QUEUES dealt : ℕ} {headFirst : Bool}
variable {state : SpmcPool NUM_QUEUES}

/-! ### The producer alone -/

/-- The first `dealt` samples are stored and nobody has dequeued; of the rings only the
first slot of the first one matters. -/
structure Poured (NUM_SAMPLES NUM_QUEUES dealt : ℕ) (state : SpmcPool NUM_QUEUES) : Prop where
  idle : state.thread .producer = .idle ((enqueuespmc_handler NUM_SAMPLES NUM_QUEUES).drop dealt)
  tail_eq : (state.mem 0).tail + 1 = share NUM_QUEUES 0 dealt
  first : 0 < dealt → (state.mem 0).data 0 ≠ 0

structure Drawn (NUM_SAMPLES NUM_QUEUES dealt : ℕ) (cur_tail : ℤ) (state : SpmcPool NUM_QUEUES) :
    Prop where
  busy : state.thread .producer =
    .busy (dealt % NUM_QUEUES, .store ((dealt : ℤ) + 1) cur_tail)
      ((enqueuespmc_handler NUM_SAMPLES NUM_QUEUES).drop (dealt + 1))
  tail_eq : (state.mem 0).tail + 1 = share NUM_QUEUES 0 (dealt + 1)
  mine : dealt % NUM_QUEUES = 0 → cur_tail = share NUM_QUEUES 0 dealt
  first : 0 < dealt → (state.mem 0).data 0 ≠ 0

abbrev Arrives (NUM_SAMPLES NUM_QUEUES : ℕ) (headFirst : Bool) (junk : ℕ → ℤ → ℤ)
    (state : SpmcPool NUM_QUEUES) : Prop :=
  Reaches (program NUM_SAMPLES NUM_QUEUES headFirst).next (fun _ _ => True)
    (SpmcQueues.start NUM_SAMPLES NUM_QUEUES junk) state

variable {junk : ℕ → ℤ → ℤ}

theorem Poured.draw (poured : Poured NUM_SAMPLES NUM_QUEUES dealt state)
    (arrives : Arrives NUM_SAMPLES NUM_QUEUES headFirst junk state) (positive : 0 < NUM_QUEUES)
    (more : dealt < NUM_SAMPLES) (int : NUM_SAMPLES < 2 ^ 31) :
    ∃ next cur_tail, Arrives NUM_SAMPLES NUM_QUEUES headFirst junk next ∧
      Drawn NUM_SAMPLES NUM_QUEUES dealt cur_tail next := by
  have idle := poured.idle
  rw [handler_drop more] at idle
  have called : (program NUM_SAMPLES NUM_QUEUES headFirst).call
      ((dealt % NUM_QUEUES, EnqueueMultiple ((dealt : ℤ) + 1)) ::
        (enqueuespmc_handler NUM_SAMPLES NUM_QUEUES).drop (dealt + 1))
      (dealt % NUM_QUEUES, EnqueueMultiple ((dealt : ℤ) + 1)) =
      some ((enqueuespmc_handler NUM_SAMPLES NUM_QUEUES).drop (dealt + 1)) := if_pos rfl
  obtain ⟨entered, call, entry⟩ := Program.call_exists idle called
  let q := entered.mem (dealt % NUM_QUEUES)
  have stepped : (program NUM_SAMPLES NUM_QUEUES headFirst).step
      (dealt % NUM_QUEUES, EnqueueMultiple ((dealt : ℤ) + 1)) entered.mem =
      some (Function.update entered.mem (dealt % NUM_QUEUES) { q with tail := addAndFetch q.tail },
        .goto (dealt % NUM_QUEUES, .store ((dealt : ℤ) + 1) (addAndFetch q.tail))) := rfl
  obtain ⟨next, moved, facts⟩ := Program.move_exists entry.thread_eq stepped
  have bound := share_le_dealt positive dealt
  have tail := poured.tail_eq
  have step := share_succ positive dealt
  rw [← entry.mem_eq] at tail
  refine ⟨next, addAndFetch q.tail, (arrives.tail trivial call).tail trivial moved, ?_⟩
  by_cases turn : dealt % NUM_QUEUES = 0
  · have mine : q = entered.mem 0 := by
      change entered.mem (dealt % NUM_QUEUES) = _
      rw [turn]
    have ticket : addAndFetch q.tail = q.tail + 1 := by
      rw [mine]
      exact addAndFetch_eq (by omega) (by omega)
    have mem : next.mem 0 = { q with tail := q.tail + 1 } := by
      rw [facts.mem_eq, turn, Function.update_self, ticket]
    rw [if_pos turn.symm] at step
    refine
      { busy := facts.thread_eq
        tail_eq := ?_
        mine := ?_
        first := ?_ }
    · rw [mem, step, mine]
      change (entered.mem 0).tail + 1 + 1 = _
      rw [tail]
      push_cast
      rfl
    · intro _
      rw [ticket, mine]
      exact tail
    · rw [mem, mine, entry.mem_eq]
      exact poured.first
  · have mem : next.mem 0 = entered.mem 0 := by
      rw [facts.mem_eq, Function.update_of_ne (fun same => turn same.symm)]
    rw [if_neg (fun same => turn same.symm)] at step
    refine
      { busy := facts.thread_eq
        tail_eq := by rw [mem, step, tail, Nat.add_zero]
        mine := fun same => absurd same turn
        first := ?_ }
    rw [mem, entry.mem_eq]
    exact poured.first

private theorem store_step (queues : ℕ → Queue) (queue : ℕ) (elem cur_tail : ℤ) :
    (program NUM_SAMPLES NUM_QUEUES headFirst).step (queue, .store elem cur_tail) queues =
      some (Function.update queues queue { queues queue with
        data := Function.update (queues queue).data
          (cur_tail.tmod (QUEUE_SIZE NUM_SAMPLES NUM_QUEUES)) elem }, .ret TicketQueue.TRUE) := rfl

theorem Poured.next (poured : Poured NUM_SAMPLES NUM_QUEUES dealt state)
    (arrives : Arrives NUM_SAMPLES NUM_QUEUES headFirst junk state) (positive : 0 < NUM_QUEUES)
    (more : dealt < NUM_SAMPLES) (int : NUM_SAMPLES < 2 ^ 31) :
    ∃ next, Arrives NUM_SAMPLES NUM_QUEUES headFirst junk next ∧
      Poured NUM_SAMPLES NUM_QUEUES (dealt + 1) next := by
  obtain ⟨middle, cur_tail, reached, drawn⟩ := poured.draw arrives positive more int
  obtain ⟨next, moved, facts⟩ := Program.move_exists drawn.busy (store_step middle.mem _ _ _)
  refine ⟨next, reached.tail trivial moved, ?_⟩
  by_cases turn : dealt % NUM_QUEUES = 0
  · have mem : next.mem 0 = { middle.mem 0 with
        data := Function.update (middle.mem 0).data
          (cur_tail.tmod (QUEUE_SIZE NUM_SAMPLES NUM_QUEUES)) ((dealt : ℤ) + 1) } := by
      rw [facts.mem_eq, turn, Function.update_self]
    refine
      { idle := facts.thread_eq
        tail_eq := by rw [mem]; exact drawn.tail_eq
        first := ?_ }
    intro _
    rw [mem]
    change Function.update (middle.mem 0).data _ ((dealt : ℤ) + 1) 0 ≠ 0
    by_cases here : 0 = cur_tail.tmod (QUEUE_SIZE NUM_SAMPLES NUM_QUEUES)
    · rw [← here, Function.update_self]
      omega
    · rw [Function.update_of_ne here]
      apply drawn.first
      by_contra zero
      apply here
      have start : dealt = 0 := by omega
      rw [drawn.mine turn, start, share_zero]
      exact (Int.zero_tmod _).symm
  · have mem : next.mem 0 = middle.mem 0 := by
      rw [facts.mem_eq, Function.update_of_ne (fun same => turn same.symm)]
    have started : 0 < dealt := by
      by_contra zero
      apply turn
      rw [Nat.eq_zero_of_not_pos zero, Nat.zero_mod]
    exact
      { idle := facts.thread_eq
        tail_eq := by rw [mem]; exact drawn.tail_eq
        first := fun _ => by rw [mem]; exact drawn.first started }

/-- In every run no sample is overwritten, consumer `my_cpu` receives its samples in
order, some thread has work left until all have finished, the work is bounded, and at the
end every sample has been received once. -/
structure Delivers (NUM_SAMPLES NUM_QUEUES : ℕ) (headFirst : Bool) (junk : ℕ → ℤ → ℤ) : Prop where
  intact : ∀ trace state, Run (program NUM_SAMPLES NUM_QUEUES headFirst).next
    (SpmcQueues.start NUM_SAMPLES NUM_QUEUES junk) trace state →
    Meets (Intact NUM_SAMPLES NUM_QUEUES) trace
  order : ∀ trace state, Run (program NUM_SAMPLES NUM_QUEUES headFirst).next
    (SpmcQueues.start NUM_SAMPLES NUM_QUEUES junk) trace state →
    ∀ (my_cpu : Fin NUM_QUEUES) (k : ℕ) value, (state.hist my_cpu)[k]? = some value →
      value = ((k * NUM_QUEUES + my_cpu + 1 : ℕ) : ℤ)
  progress : ∀ trace state, Run (program NUM_SAMPLES NUM_QUEUES headFirst).next
    (SpmcQueues.start NUM_SAMPLES NUM_QUEUES junk) trace state → ¬ Finished state →
    (program NUM_SAMPLES NUM_QUEUES headFirst).Progress state
  bounded : ∃ bound, ∀ trace state, Run (program NUM_SAMPLES NUM_QUEUES headFirst).next
    (SpmcQueues.start NUM_SAMPLES NUM_QUEUES junk) trace state →
    (program NUM_SAMPLES NUM_QUEUES headFirst).work trace ≤ bound
  once : ∀ trace state, Run (program NUM_SAMPLES NUM_QUEUES headFirst).next
    (SpmcQueues.start NUM_SAMPLES NUM_QUEUES junk) trace state → Finished state →
    Once NUM_SAMPLES NUM_QUEUES state

end QueueBench.SpmcQueues
