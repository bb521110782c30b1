import QueueBench.Lib.RoundRobin
import QueueBench.Lib.Work
import QueueBench.SpmcQueues
import QueueBench.TicketFifo

/-! What the consumers of queue type 8 receive. If the number of queues divides
NUM_SAMPLES, the ring of a queue, its share of the samples and the calls of its consumer
agree, and no ring ever reaches a second lap; otherwise the producer can overwrite a
sample. -/

namespace QueueBench.SpmcQueues
open Machine (Outcome Pool Program Act Thread Ranked scriptClient_call work_le_load)
open RingArith (addAndFetch addAndFetch_eq tmod_of_nonneg)
open RoundRobin (share share_zero share_succ share_mono share_rounds share_turn received
  received_succ received_getElem? count_received)
open TicketQueue (Queue Pc InitQueues EnqueueMultiple DequeueMultiple QUEUE_SIZE)
open Transition (Run Meets Reaches meets_snoc run_of_play)

/-! ### One queue -/

/-- The slots from `cleared` up to `stored` hold samples, the others are zero. -/
structure Lane (rounds hands hand : ℕ) (q : Queue) (added stored cleared : ℕ) : Prop where
  tail_eq : q.tail + 1 = added
  cleared_le : cleared ≤ stored
  data_eq : ∀ slot : ℕ, slot < rounds → q.data slot =
    if cleared ≤ slot ∧ slot < stored then ((slot * hands + hand + 1 : ℕ) : ℤ) else 0

variable {rounds hands hand added stored cleared : ℕ} {q : Queue}

theorem lane_start (NUM_SAMPLES NUM_QUEUES hand : ℕ) (junk : ℤ → ℤ) :
    Lane (NUM_SAMPLES / NUM_QUEUES) NUM_QUEUES hand
      (InitQueues NUM_SAMPLES NUM_QUEUES junk hand) 0 0 0 :=
  { tail_eq := rfl
    cleared_le := Nat.le_refl 0
    data_eq := by
      intro slot inside
      change RingArith.fill (NUM_SAMPLES / NUM_QUEUES) 0 junk slot = _
      rw [RingArith.fill_apply, if_pos ⟨by omega, by omega⟩, if_neg (by omega)] }

theorem Lane.store (lane : Lane rounds hands hand q added stored cleared) :
    Lane rounds hands hand
      { q with data := Function.update q.data stored ((stored * hands + hand + 1 : ℕ) : ℤ) }
      added (stored + 1) cleared := by
  have clearedLe := lane.cleared_le
  refine
    { tail_eq := lane.tail_eq
      cleared_le := by omega
      data_eq := ?_ }
  intro slot inside
  change Function.update q.data stored _ (slot : ℤ) = _
  by_cases newest : slot = stored
  · subst slot
    rw [Function.update_self, if_pos (by omega)]
  · rw [Function.update_of_ne (by omega), lane.data_eq slot inside]
    by_cases within : cleared ≤ slot ∧ slot < stored
    · rw [if_pos within, if_pos (by omega)]
    · rw [if_neg within, if_neg (by omega)]

theorem Lane.clear (lane : Lane rounds hands hand q added stored cleared)
    (more : cleared < stored) :
    Lane rounds hands hand { q with data := Function.update q.data cleared 0 }
      added stored (cleared + 1) := by
  refine
    { tail_eq := lane.tail_eq
      cleared_le := more
      data_eq := ?_ }
  intro slot inside
  change Function.update q.data cleared 0 (slot : ℤ) = _
  by_cases oldest : slot = cleared
  · subst slot
    rw [Function.update_self, if_neg (by omega)]
  · rw [Function.update_of_ne (by omega), lane.data_eq slot inside]
    by_cases within : cleared ≤ slot ∧ slot < stored
    · rw [if_pos within, if_pos (by omega)]
    · rw [if_neg within, if_neg (by omega)]

theorem Lane.spin_filled (lane : Lane rounds hands hand q added stored cleared)
    (inside : cleared < rounds) (filled : cleared < stored) (headFirst : Bool) :
    TicketQueue.step rounds headFirst (.spin cleared) q = some (q, .goto (.read cleared)) := by
  have slot : (cleared : ℤ).tmod rounds = cleared := by
    rw [tmod_of_nonneg (Int.natCast_nonneg _)]
    exact Int.emod_eq_of_lt (Int.natCast_nonneg _) (Int.ofNat_lt.mpr inside)
  have found := lane.data_eq cleared inside
  rw [if_pos ⟨Nat.le_refl _, filled⟩] at found
  simp only [TicketQueue.step, slot, found]
  rw [if_neg (Int.natCast_ne_zero.mpr (Nat.succ_ne_zero _))]

/-! ### Where the threads stand -/

/-- The producer has stored `dealt` samples and drawn tickets for `added`. -/
def Deals (NUM_SAMPLES NUM_QUEUES dealt added : ℕ) : Thread QueuePc (List QueuePc) → Prop
  | .idle script =>
      dealt ≤ NUM_SAMPLES ∧ added = dealt ∧
        script = (enqueuespmc_handler NUM_SAMPLES NUM_QUEUES).drop dealt
  | .busy (queue, .add elem) script =>
      dealt < NUM_SAMPLES ∧ queue = dealt % NUM_QUEUES ∧ elem = (dealt : ℤ) + 1 ∧ added = dealt ∧
        script = (enqueuespmc_handler NUM_SAMPLES NUM_QUEUES).drop (dealt + 1)
  | .busy (queue, .store elem cur_tail) script =>
      dealt < NUM_SAMPLES ∧ queue = dealt % NUM_QUEUES ∧ elem = (dealt : ℤ) + 1 ∧
        added = dealt + 1 ∧ cur_tail = (dealt / NUM_QUEUES : ℕ) ∧
        script = (enqueuespmc_handler NUM_SAMPLES NUM_QUEUES).drop (dealt + 1)
  | _ => False

def Fetches (hands hand stored : ℕ) (head : ℤ) (cleared : ℕ) : Pc → Prop
  | .gate | .draw => head + 1 = cleared
  | .spin cur_head => head = cleared ∧ cur_head = cleared
  | .read cur_head => head = cleared ∧ cur_head = cleared ∧ cleared < stored
  | .clear cur_head elem =>
      head = cleared ∧ cur_head = cleared ∧ cleared < stored ∧
        elem = ((cleared * hands + hand + 1 : ℕ) : ℤ)
  | _ => False

def Drains (rounds hands hand stored : ℕ) (head : ℤ) (cleared : ℕ) :
    Thread QueuePc (List QueuePc) → Prop
  | .idle script =>
      cleared ≤ rounds ∧ head + 1 = cleared ∧
        script = List.replicate (rounds - cleared) (hand, DequeueMultiple)
  | .busy (queue, pc) script =>
      cleared < rounds ∧ queue = hand ∧ Fetches hands hand stored head cleared pc ∧
        script = List.replicate (rounds - (cleared + 1)) (hand, DequeueMultiple)

theorem Drains.more {head : ℤ} {standing : Thread QueuePc (List QueuePc)} {more : ℕ}
    (drains : Drains rounds hands hand stored head cleared standing) (le : stored ≤ more) :
    Drains rounds hands hand more head cleared standing := by
  cases standing with
  | idle script => exact drains
  | busy place script =>
      obtain ⟨queue, pc⟩ := place
      obtain ⟨inside, mine, fetches, rest⟩ := drains
      refine ⟨inside, mine, ?_, rest⟩
      cases pc with
      | read cur_head => exact ⟨fetches.1, fetches.2.1, by have low := fetches.2.2; omega⟩
      | clear cur_head elem =>
          exact ⟨fetches.1, fetches.2.1, by have low := fetches.2.2.1; omega, fetches.2.2.2⟩
      | _ => exact fetches

/-- The state of a run between the producer and the consumers. -/
structure Dealing (NUM_SAMPLES NUM_QUEUES : ℕ) (state : SpmcPool NUM_QUEUES) (dealt added : ℕ) :
    Prop where
  producer : Deals NUM_SAMPLES NUM_QUEUES dealt added (state.thread .producer)
  consumer : ∀ my_cpu : Fin NUM_QUEUES,
    Drains (NUM_SAMPLES / NUM_QUEUES) NUM_QUEUES my_cpu (share NUM_QUEUES my_cpu dealt)
      (state.mem my_cpu).head (state.hist my_cpu).length (state.thread (.consumer my_cpu))
  lane : ∀ my_cpu : Fin NUM_QUEUES,
    Lane (NUM_SAMPLES / NUM_QUEUES) NUM_QUEUES my_cpu (state.mem my_cpu)
      (share NUM_QUEUES my_cpu added) (share NUM_QUEUES my_cpu dealt) (state.hist my_cpu).length
  returned : ∀ my_cpu : Fin NUM_QUEUES,
    state.hist my_cpu = received NUM_QUEUES my_cpu (state.hist my_cpu).length

variable {NUM_SAMPLES NUM_QUEUES dealt : ℕ} {headFirst : Bool}
variable {state next : SpmcPool NUM_QUEUES} {act : Act (Worker NUM_QUEUES) QueuePc}

theorem dealing_start (NUM_SAMPLES NUM_QUEUES : ℕ) (junk : ℕ → ℤ → ℤ) :
    Dealing NUM_SAMPLES NUM_QUEUES (SpmcQueues.start NUM_SAMPLES NUM_QUEUES junk) 0 0 :=
  { producer := ⟨Nat.zero_le _, rfl, rfl⟩
    consumer := fun my_cpu => ⟨Nat.zero_le _, rfl, rfl⟩
    lane := by
      intro my_cpu
      rw [share_zero]
      exact lane_start NUM_SAMPLES NUM_QUEUES my_cpu (junk my_cpu)
    returned := fun my_cpu => rfl }

theorem handler_drop (more : dealt < NUM_SAMPLES) :
    (enqueuespmc_handler NUM_SAMPLES NUM_QUEUES).drop dealt =
      (dealt % NUM_QUEUES, EnqueueMultiple ((dealt : ℤ) + 1)) ::
        (enqueuespmc_handler NUM_SAMPLES NUM_QUEUES).drop (dealt + 1) := by
  have inside : dealt < (enqueuespmc_handler NUM_SAMPLES NUM_QUEUES).length := by
    rw [enqueuespmc_handler, List.length_map, List.length_range]
    exact more
  rw [List.drop_eq_getElem_cons inside]
  simp only [enqueuespmc_handler, List.getElem_map, List.getElem_range]

theorem handler_drop_nil {rest : List QueuePc} {entry : QueuePc} (dealt : ℕ)
    (left : entry :: rest = (enqueuespmc_handler NUM_SAMPLES NUM_QUEUES).drop dealt) :
    dealt < NUM_SAMPLES := by
  by_contra exceeds
  rw [List.drop_eq_nil_of_le] at left
  · cases left
  · rw [enqueuespmc_handler, List.length_map, List.length_range]
    omega

/-! ### What a step does -/

theorem step_eq {size queue : ℕ} {pc : Pc} {queues : ℕ → Queue} {after : Queue}
    {outcome : Outcome Pc ℤ}
    (stepped : TicketQueue.step size headFirst pc (queues queue) = some (after, outcome)) :
    step size headFirst (queue, pc) queues = some (Function.update queues queue after,
      outcome.map (fun next => (queue, next))) := by
  simp only [step, stepped, Option.map_some]

theorem Dealing.added_le (dealing : Dealing NUM_SAMPLES NUM_QUEUES state dealt added) :
    added ≤ NUM_SAMPLES ∧ dealt ≤ NUM_SAMPLES := by
  have deals := dealing.producer
  cases standing : state.thread .producer with
  | idle script =>
      rw [standing] at deals
      have facts : dealt ≤ NUM_SAMPLES ∧ added = dealt ∧ _ := deals
      omega
  | busy place script =>
      obtain ⟨queue, pc⟩ := place
      rw [standing] at deals
      cases pc with
      | add elem =>
          obtain ⟨low, _, _, same, _⟩ := deals
          omega
      | store elem cur_tail =>
          obtain ⟨low, _, _, same, _⟩ := deals
          omega
      | _ => exact deals.elim

/-- No ring gets more samples than it has slots. -/
theorem share_le (divides : NUM_QUEUES ∣ NUM_SAMPLES) (my_cpu : Fin NUM_QUEUES) {count : ℕ}
    (le : count ≤ NUM_SAMPLES) :
    share NUM_QUEUES my_cpu count ≤ NUM_SAMPLES / NUM_QUEUES := by
  have positive : 0 < NUM_QUEUES := Nat.lt_of_le_of_lt (Nat.zero_le _) my_cpu.isLt
  have bound := share_mono my_cpu.isLt le
  have whole := Nat.div_mul_cancel divides
  rw [← whole, share_rounds positive] at bound
  exact bound

theorem Dealing.produce (dealing : Dealing NUM_SAMPLES NUM_QUEUES state dealt added)
    {target : Fin NUM_QUEUES} {after : Queue} {dealt' added' : ℕ}
    (mem : next.mem = Function.update state.mem target after) (hist : next.hist = state.hist)
    (others : ∀ worker, worker ≠ .producer → next.thread worker = state.thread worker)
    (deals : Deals NUM_SAMPLES NUM_QUEUES dealt' added' (next.thread .producer))
    (later : dealt ≤ dealt') (head : after.head = (state.mem target).head)
    (lane : Lane (NUM_SAMPLES / NUM_QUEUES) NUM_QUEUES target after
      (share NUM_QUEUES target added') (share NUM_QUEUES target dealt')
      (state.hist target).length)
    (rest : ∀ my_cpu : Fin NUM_QUEUES, my_cpu ≠ target →
      share NUM_QUEUES my_cpu added' = share NUM_QUEUES my_cpu added ∧
        share NUM_QUEUES my_cpu dealt' = share NUM_QUEUES my_cpu dealt) :
    Dealing NUM_SAMPLES NUM_QUEUES next dealt' added' := by
  have apart : ∀ my_cpu : Fin NUM_QUEUES, my_cpu ≠ target → next.mem my_cpu = state.mem my_cpu := by
    intro my_cpu different
    rw [mem, Function.update_of_ne (fun same => different (Fin.ext same))]
  refine
    { producer := deals
      consumer := ?_
      lane := ?_
      returned := by rw [hist]; exact dealing.returned }
  · intro my_cpu
    have drains := (dealing.consumer my_cpu).more (share_mono my_cpu.isLt later)
    rw [others (.consumer my_cpu) (by intro impossible; cases impossible), hist]
    by_cases mine : my_cpu = target
    · subst my_cpu
      rw [mem, Function.update_self, head]
      exact drains
    · rw [apart my_cpu mine]
      exact drains
  · intro my_cpu
    rw [hist]
    by_cases mine : my_cpu = target
    · subst my_cpu
      rw [mem, Function.update_self]
      exact lane
    · rw [apart my_cpu mine, (rest my_cpu mine).1, (rest my_cpu mine).2]
      exact dealing.lane my_cpu

theorem Dealing.consume (dealing : Dealing NUM_SAMPLES NUM_QUEUES state dealt added)
    {target : Fin NUM_QUEUES} {after : Queue} {values : List ℤ}
    (mem : next.mem = Function.update state.mem target after)
    (hist : next.hist = Function.update state.hist target values)
    (others : ∀ worker, worker ≠ .consumer target → next.thread worker = state.thread worker)
    (drains : Drains (NUM_SAMPLES / NUM_QUEUES) NUM_QUEUES target
      (share NUM_QUEUES target dealt) after.head values.length (next.thread (.consumer target)))
    (lane : Lane (NUM_SAMPLES / NUM_QUEUES) NUM_QUEUES target after
      (share NUM_QUEUES target added) (share NUM_QUEUES target dealt) values.length)
    (values_eq : values = received NUM_QUEUES target values.length) :
    Dealing NUM_SAMPLES NUM_QUEUES next dealt added := by
  have apart : ∀ my_cpu : Fin NUM_QUEUES, my_cpu ≠ target →
      next.mem my_cpu = state.mem my_cpu ∧ next.hist my_cpu = state.hist my_cpu := by
    intro my_cpu different
    have numbers : (my_cpu : ℕ) ≠ target := fun same => different (Fin.ext same)
    rw [mem, hist, Function.update_of_ne numbers, Function.update_of_ne numbers]
    exact ⟨rfl, rfl⟩
  refine
    { producer := ?_
      consumer := ?_
      lane := ?_
      returned := ?_ }
  · rw [others .producer (by intro impossible; cases impossible)]
    exact dealing.producer
  · intro my_cpu
    by_cases mine : my_cpu = target
    · subst my_cpu
      rw [mem, hist, Function.update_self, Function.update_self]
      exact drains
    · have other : Worker.consumer my_cpu ≠ .consumer target := by
        intro same
        cases same
        exact mine rfl
      rw [(apart my_cpu mine).1, (apart my_cpu mine).2, others _ other]
      exact dealing.consumer my_cpu
  · intro my_cpu
    by_cases mine : my_cpu = target
    · subst my_cpu
      rw [mem, hist, Function.update_self, Function.update_self]
      exact lane
    · rw [(apart my_cpu mine).1, (apart my_cpu mine).2]
      exact dealing.lane my_cpu
  · intro my_cpu
    by_cases mine : my_cpu = target
    · subst my_cpu
      rw [hist, Function.update_self]
      exact values_eq
    · rw [(apart my_cpu mine).2]
      exact dealing.returned my_cpu

theorem hands_pos (divides : NUM_QUEUES ∣ NUM_SAMPLES) (more : dealt < NUM_SAMPLES) :
    0 < NUM_QUEUES := by
  rcases Nat.eq_zero_or_pos NUM_QUEUES with zero | positive
  · rw [zero, Nat.zero_dvd] at divides
    omega
  · exact positive

private theorem share_others (target : Fin NUM_QUEUES) {my_cpu : Fin NUM_QUEUES}
    (turn : (target : ℕ) = dealt % NUM_QUEUES)
    (different : my_cpu ≠ target) :
    share NUM_QUEUES my_cpu (dealt + 1) = share NUM_QUEUES my_cpu dealt := by
  rw [share_succ my_cpu.isLt, if_neg, Nat.add_zero]
  intro same
  exact different (Fin.ext (same.trans turn.symm))

private theorem share_mine (target : Fin NUM_QUEUES) (turn : (target : ℕ) = dealt % NUM_QUEUES) :
    share NUM_QUEUES target dealt = dealt / NUM_QUEUES ∧
      share NUM_QUEUES target (dealt + 1) = dealt / NUM_QUEUES + 1 := by
  have before : share NUM_QUEUES target dealt = dealt / NUM_QUEUES := by
    rw [turn, share_turn]
  refine ⟨before, ?_⟩
  rw [share_succ target.isLt, if_pos turn, before]

theorem Dealing.add (dealing : Dealing NUM_SAMPLES NUM_QUEUES state dealt added)
    (divides : NUM_QUEUES ∣ NUM_SAMPLES) (int : NUM_SAMPLES < 2 ^ 31) {queue : ℕ} {elem : ℤ}
    {script : List QueuePc}
    (busy : state.thread .producer = .busy (queue, .add elem) script)
    (moved : (program NUM_SAMPLES NUM_QUEUES headFirst).next state (.move .producer) = some next) :
    Dealing NUM_SAMPLES NUM_QUEUES next dealt (dealt + 1) := by
  have deals := dealing.producer
  rw [busy] at deals
  obtain ⟨more, rfl, value, rfl, rest⟩ := deals
  have positive := hands_pos divides more
  let target : Fin NUM_QUEUES := ⟨added % NUM_QUEUES, Nat.mod_lt added positive⟩
  have lane := dealing.lane target
  obtain ⟨before, after⟩ := share_mine target rfl
  have quotient : added / NUM_QUEUES ≤ added := Nat.div_le_self added NUM_QUEUES
  have tail := lane.tail_eq
  rw [before] at tail
  have ticket : addAndFetch (state.mem target).tail = (state.mem target).tail + 1 :=
    addAndFetch_eq (by omega) (by omega)
  have stepped : TicketQueue.step (QUEUE_SIZE NUM_SAMPLES NUM_QUEUES) headFirst (.add elem)
      (state.mem target) = some ({ state.mem target with tail := (state.mem target).tail + 1 },
        .goto (.store elem ((state.mem target).tail + 1))) := by
    simp only [TicketQueue.step, ticket]
  have facts := Program.moved_of busy (step_eq stepped) moved
  refine dealing.produce facts.mem_eq facts.hist_eq
    (fun worker different => facts.others worker different) ?_ (Nat.le_refl added) rfl ?_ ?_
  · rw [facts.thread_eq]
    exact ⟨more, rfl, value, rfl, tail, rest⟩
  · rw [after]
    exact
      { tail_eq := by
          change (state.mem target).tail + 1 + 1 = _
          rw [tail]
          push_cast
          rfl
        cleared_le := lane.cleared_le
        data_eq := lane.data_eq }
  · intro my_cpu different
    exact ⟨share_others target rfl different, rfl⟩

theorem store_slot (divides : NUM_QUEUES ∣ NUM_SAMPLES) (more : dealt < NUM_SAMPLES) :
    dealt / NUM_QUEUES < NUM_SAMPLES / NUM_QUEUES ∧
      ((dealt / NUM_QUEUES : ℕ) : ℤ).tmod (QUEUE_SIZE NUM_SAMPLES NUM_QUEUES) =
        (dealt / NUM_QUEUES : ℕ) := by
  have positive := hands_pos divides more
  have inside : dealt / NUM_QUEUES < NUM_SAMPLES / NUM_QUEUES := by
    rw [Nat.div_lt_iff_lt_mul positive, Nat.div_mul_cancel divides]
    exact more
  refine ⟨inside, ?_⟩
  rw [tmod_of_nonneg (Int.natCast_nonneg _)]
  exact Int.emod_eq_of_lt (Int.natCast_nonneg _) (Int.ofNat_lt.mpr inside)

theorem Dealing.store (dealing : Dealing NUM_SAMPLES NUM_QUEUES state dealt added)
    (divides : NUM_QUEUES ∣ NUM_SAMPLES) {queue : ℕ} {elem cur_tail : ℤ}
    {script : List QueuePc}
    (busy : state.thread .producer = .busy (queue, .store elem cur_tail) script)
    (moved : (program NUM_SAMPLES NUM_QUEUES headFirst).next state (.move .producer) = some next) :
    Dealing NUM_SAMPLES NUM_QUEUES next (dealt + 1) (dealt + 1) ∧
      Clean (QUEUE_SIZE NUM_SAMPLES NUM_QUEUES) state.mem (queue, .store elem cur_tail) := by
  have deals := dealing.producer
  rw [busy] at deals
  obtain ⟨more, rfl, value, rfl, position, rest⟩ := deals
  have positive := hands_pos divides more
  obtain ⟨inside, slot⟩ := store_slot divides more
  let target : Fin NUM_QUEUES := ⟨dealt % NUM_QUEUES, Nat.mod_lt dealt positive⟩
  have lane := dealing.lane target
  obtain ⟨before, after⟩ := share_mine target rfl
  rw [before, after] at lane
  have whole := Nat.div_add_mod' dealt NUM_QUEUES
  have sample : elem = ((dealt / NUM_QUEUES * NUM_QUEUES + target + 1 : ℕ) : ℤ) := by
    change elem = ((dealt / NUM_QUEUES * NUM_QUEUES + dealt % NUM_QUEUES + 1 : ℕ) : ℤ)
    omega
  have stepped : TicketQueue.step (QUEUE_SIZE NUM_SAMPLES NUM_QUEUES) headFirst
      (.store elem cur_tail) (state.mem target) = some ({ state.mem target with
        data := Function.update (state.mem target).data (dealt / NUM_QUEUES : ℕ) elem },
        .ret TicketQueue.TRUE) := by
    simp only [TicketQueue.step, position, slot]
  have facts := Program.moved_of busy (step_eq stepped) moved
  refine ⟨dealing.produce facts.mem_eq facts.hist_eq
    (fun worker different => facts.others worker different) ?_ (Nat.le_succ dealt) rfl ?_ ?_, ?_⟩
  · rw [facts.thread_eq]
    exact ⟨more, rfl, rest⟩
  · rw [after, sample]
    exact lane.store
  · intro my_cpu different
    exact ⟨rfl, share_others target rfl different⟩
  · change (state.mem target).data (cur_tail.tmod (QUEUE_SIZE NUM_SAMPLES NUM_QUEUES)) = 0
    rw [position, slot, lane.data_eq _ inside, if_neg (by omega)]

theorem Dealing.stay (dealing : Dealing NUM_SAMPLES NUM_QUEUES state dealt added)
    {target : Fin NUM_QUEUES} {pc reached : Pc} {script : List QueuePc} {outcome : Outcome Pc ℤ}
    (busy : state.thread (.consumer target) = .busy ((target : ℕ), pc) script)
    (stepped : TicketQueue.step (QUEUE_SIZE NUM_SAMPLES NUM_QUEUES) headFirst pc
      (state.mem target) = some (state.mem target, outcome))
    (onward : outcome = .goto reached ∨ outcome = .retry reached)
    (silent : record headFirst (Worker.consumer target) ((target : ℕ), pc) state.mem state.hist =
      state.hist)
    (fetches : Fetches NUM_QUEUES target (share NUM_QUEUES target dealt) (state.mem target).head
      (state.hist target).length reached)
    (moved : (program NUM_SAMPLES NUM_QUEUES headFirst).next state (.move (.consumer target)) =
      some next) :
    Dealing NUM_SAMPLES NUM_QUEUES next dealt added := by
  have facts := Program.moved_of busy (step_eq stepped) moved
  have hist : next.hist = Function.update state.hist target (state.hist target) := by
    rw [facts.hist_eq, Function.update_eq_self]
    exact silent
  have standing : next.thread (.consumer target) = .busy ((target : ℕ), reached) script := by
    rw [facts.thread_eq]
    rcases onward with rfl | rfl <;> rfl
  have drains := dealing.consumer target
  rw [busy] at drains
  refine dealing.consume facts.mem_eq hist (fun worker different => facts.others worker different)
    ?_ (dealing.lane target) (dealing.returned target)
  rw [standing]
  exact ⟨drains.1, rfl, fetches, drains.2.2.2⟩

/-- The ring of a consumer is never a lap ahead, so isEmpty stops at its first operand. -/
theorem Dealing.gate_closed (dealing : Dealing NUM_SAMPLES NUM_QUEUES state dealt added)
    (divides : NUM_QUEUES ∣ NUM_SAMPLES) (target : Fin NUM_QUEUES) :
    ¬ (state.mem target).tail - QUEUE_SIZE NUM_SAMPLES NUM_QUEUES > 0 := by
  have tail := (dealing.lane target).tail_eq
  have bound := share_le divides target dealing.added_le.1
  change ¬ (state.mem target).tail - (NUM_SAMPLES / NUM_QUEUES : ℕ) > 0
  generalize NUM_SAMPLES / NUM_QUEUES = slots at bound ⊢
  omega

theorem Dealing.fetch (dealing : Dealing NUM_SAMPLES NUM_QUEUES state dealt added)
    (divides : NUM_QUEUES ∣ NUM_SAMPLES) (int : NUM_SAMPLES < 2 ^ 31) {target : Fin NUM_QUEUES}
    {queue : ℕ} {pc : Pc} {script : List QueuePc}
    (busy : state.thread (.consumer target) = .busy (queue, pc) script)
    (moved : (program NUM_SAMPLES NUM_QUEUES headFirst).next state (.move (.consumer target)) =
      some next) :
    Dealing NUM_SAMPLES NUM_QUEUES next dealt added := by
  have drains := dealing.consumer target
  rw [busy] at drains
  obtain ⟨inside, rfl, fetches, rest⟩ := drains
  have lane := dealing.lane target
  have samples : NUM_SAMPLES / NUM_QUEUES ≤ NUM_SAMPLES := Nat.div_le_self _ _
  have slot : ((state.hist target).length : ℤ).tmod (QUEUE_SIZE NUM_SAMPLES NUM_QUEUES) =
      (state.hist target).length := by
    rw [tmod_of_nonneg (Int.natCast_nonneg _)]
    exact Int.emod_eq_of_lt (Int.natCast_nonneg _) (Int.ofNat_lt.mpr inside)
  have found := lane.data_eq (state.hist target).length inside
  cases pc with
  | gate =>
      have stepped : TicketQueue.step (QUEUE_SIZE NUM_SAMPLES NUM_QUEUES) headFirst .gate
          (state.mem target) = some (state.mem target, .goto .draw) := by
        simp only [TicketQueue.step, if_neg (dealing.gate_closed divides target)]
      exact dealing.stay busy stepped (Or.inl rfl) rfl fetches moved
  | draw =>
      have head : (state.mem target).head + 1 = (state.hist target).length := fetches
      have ticket : addAndFetch (state.mem target).head = (state.hist target).length := by
        rw [addAndFetch_eq (by omega) (by omega), head]
      have stepped : TicketQueue.step (QUEUE_SIZE NUM_SAMPLES NUM_QUEUES) headFirst .draw
          (state.mem target) = some ({ state.mem target with
            head := ((state.hist target).length : ℤ) },
            .goto (.spin (state.hist target).length)) := by
        simp only [TicketQueue.step, ticket]
      have facts := Program.moved_of busy (step_eq stepped) moved
      have hist : next.hist = Function.update state.hist target (state.hist target) := by
        rw [facts.hist_eq, Function.update_eq_self]
        rfl
      refine dealing.consume facts.mem_eq hist
        (fun worker different => facts.others worker different) ?_ ?_ (dealing.returned target)
      · rw [facts.thread_eq]
        exact ⟨inside, rfl, ⟨rfl, rfl⟩, rest⟩
      · exact
          { tail_eq := lane.tail_eq
            cleared_le := lane.cleared_le
            data_eq := lane.data_eq }
  | spin cur_head =>
      obtain ⟨head, rfl⟩ := fetches
      by_cases filled : (state.hist target).length < share NUM_QUEUES target dealt
      · exact dealing.stay busy (lane.spin_filled inside filled headFirst) (Or.inl rfl) rfl
          ⟨head, rfl, filled⟩ moved
      · rw [if_neg (fun both => filled both.2)] at found
        have stepped : TicketQueue.step (QUEUE_SIZE NUM_SAMPLES NUM_QUEUES) headFirst
            (.spin (state.hist target).length) (state.mem target) =
            some (state.mem target, .retry (.spin (state.hist target).length)) := by
          simp only [TicketQueue.step, slot, if_pos found]
        exact dealing.stay busy stepped (Or.inr rfl) rfl ⟨head, rfl⟩ moved
  | read cur_head =>
      obtain ⟨head, rfl, filled⟩ := fetches
      rw [if_pos ⟨Nat.le_refl _, filled⟩] at found
      have stepped : TicketQueue.step (QUEUE_SIZE NUM_SAMPLES NUM_QUEUES) headFirst
          (.read (state.hist target).length) (state.mem target) =
          some (state.mem target, .goto (.clear (state.hist target).length
            (((state.hist target).length * NUM_QUEUES + target + 1 : ℕ) : ℤ))) := by
        simp only [TicketQueue.step, slot, found]
      exact dealing.stay busy stepped (Or.inl rfl) rfl ⟨head, rfl, filled, rfl⟩ moved
  | clear cur_head elem =>
      obtain ⟨head, rfl, filled, rfl⟩ := fetches
      have stepped : TicketQueue.step (QUEUE_SIZE NUM_SAMPLES NUM_QUEUES) headFirst
          (.clear (state.hist target).length
            (((state.hist target).length * NUM_QUEUES + target + 1 : ℕ) : ℤ))
          (state.mem target) = some ({ state.mem target with
            data := Function.update (state.mem target).data (state.hist target).length 0 },
            .ret (((state.hist target).length * NUM_QUEUES + target + 1 : ℕ) : ℤ)) := by
        simp only [TicketQueue.step, slot]
      have facts := Program.moved_of busy (step_eq stepped) moved
      have grown : (state.hist target ++
          [(((state.hist target).length * NUM_QUEUES + target + 1 : ℕ) : ℤ)]).length =
          (state.hist target).length + 1 := by
        rw [List.length_append, List.length_singleton]
      refine dealing.consume facts.mem_eq facts.hist_eq
        (fun worker different => facts.others worker different) ?_ ?_ ?_
      · rw [facts.thread_eq, grown]
        refine ⟨inside, ?_, rest⟩
        change (state.mem target).head + 1 = _
        rw [head]
        push_cast
        rfl
      · rw [grown]
        exact lane.clear filled
      · rw [grown, received_succ, ← dealing.returned target]
  | add elem => exact fetches.elim
  | store elem cur_tail => exact fetches.elim
  | compare => exact fetches.elim
  | compareWith first => exact fetches.elim

/-! ### Runs -/

theorem Dealing.call (dealing : Dealing NUM_SAMPLES NUM_QUEUES state dealt added)
    {worker : Worker NUM_QUEUES} {entry : QueuePc} {left : List QueuePc}
    (idle : state.thread worker = .idle (entry :: left)) :
    Dealing NUM_SAMPLES NUM_QUEUES
      { state with thread := Function.update state.thread worker (.busy entry left) }
      dealt added := by
  refine
    { producer := ?_
      consumer := ?_
      lane := dealing.lane
      returned := dealing.returned }
  · cases worker with
    | consumer target => exact dealing.producer
    | producer =>
        have deals := dealing.producer
        rw [idle] at deals
        obtain ⟨_, same, rest⟩ := deals
        have more := handler_drop_nil dealt rest
        rw [handler_drop more] at rest
        cases rest
        exact ⟨more, rfl, rfl, same, rfl⟩
  · intro my_cpu
    have drains := dealing.consumer my_cpu
    by_cases mine : worker = .consumer my_cpu
    · subst worker
      rw [idle] at drains
      obtain ⟨_, head, rest⟩ := drains
      change Drains _ _ _ _ _ _ (Function.update state.thread (.consumer my_cpu) _ _)
      rw [Function.update_self]
      have more : (state.hist my_cpu).length < NUM_SAMPLES / NUM_QUEUES := by
        by_contra exceeds
        rw [Nat.sub_eq_zero_of_le (Nat.le_of_not_lt exceeds)] at rest
        cases rest
      have split : NUM_SAMPLES / NUM_QUEUES - (state.hist my_cpu).length =
          NUM_SAMPLES / NUM_QUEUES - ((state.hist my_cpu).length + 1) + 1 := by omega
      rw [split, List.replicate_succ] at rest
      cases rest
      exact ⟨more, rfl, head, rfl⟩
    · change Drains _ _ _ _ _ _ (Function.update state.thread worker _ _)
      rw [Function.update_of_ne (fun same => mine same.symm)]
      exact drains

def Dealt (NUM_SAMPLES NUM_QUEUES : ℕ) (state : SpmcPool NUM_QUEUES) : Prop :=
  ∃ dealt added, Dealing NUM_SAMPLES NUM_QUEUES state dealt added

theorem dealt_next (divides : NUM_QUEUES ∣ NUM_SAMPLES) (int : NUM_SAMPLES < 2 ^ 31)
    (run : Dealt NUM_SAMPLES NUM_QUEUES state)
    (moved : (program NUM_SAMPLES NUM_QUEUES headFirst).next state act = some next) :
    Dealt NUM_SAMPLES NUM_QUEUES next ∧ Intact NUM_SAMPLES NUM_QUEUES state act := by
  obtain ⟨dealt, added, dealing⟩ := run
  rcases Program.next_cases moved with
    ⟨worker, entry, script, left, rfl, idle, called, rfl⟩ |
    ⟨worker, script, left, rfl, idle, left?, rfl⟩ |
    ⟨worker, ⟨queue, pc⟩, script, mem, outcome, rfl, busy, stepped, same⟩
  · rw [scriptClient_call called] at idle
    exact ⟨⟨dealt, added, dealing.call idle⟩, trivial⟩
  · cases left?
  · have clean : Clean (QUEUE_SIZE NUM_SAMPLES NUM_QUEUES) state.mem (queue, pc) →
        Intact NUM_SAMPLES NUM_QUEUES state (.move worker) := by
      intro intact other at_
      rw [Pool.at, busy] at at_
      cases at_
      exact intact
    cases worker with
    | consumer target =>
        have drains := dealing.consumer target
        rw [busy] at drains
        refine ⟨⟨dealt, added, dealing.fetch divides int busy moved⟩, clean ?_⟩
        cases pc with
        | store elem cur_tail => exact drains.2.2.1.elim
        | _ => trivial
    | producer =>
        have deals := dealing.producer
        rw [busy] at deals
        cases pc with
        | add elem => exact ⟨⟨dealt, dealt + 1, dealing.add divides int busy moved⟩, clean trivial⟩
        | store elem cur_tail =>
            obtain ⟨later, intact⟩ := dealing.store divides busy moved
            exact ⟨⟨dealt + 1, dealt + 1, later⟩, clean intact⟩
        | _ => exact deals.elim

theorem dealt_of_run (divides : NUM_QUEUES ∣ NUM_SAMPLES) (int : NUM_SAMPLES < 2 ^ 31)
    (junk : ℕ → ℤ → ℤ)
    {trace : List (SpmcPool NUM_QUEUES × Act (Worker NUM_QUEUES) QueuePc)}
    (run : Run (program NUM_SAMPLES NUM_QUEUES headFirst).next
      (SpmcQueues.start NUM_SAMPLES NUM_QUEUES junk) trace state) :
    Dealt NUM_SAMPLES NUM_QUEUES state ∧ Meets (Intact NUM_SAMPLES NUM_QUEUES) trace := by
  induction run with
  | nil => exact ⟨⟨0, 0, dealing_start NUM_SAMPLES NUM_QUEUES junk⟩, Transition.meets_nil _⟩
  | snoc before moved ih =>
      obtain ⟨later, intact⟩ := dealt_next divides int ih.1 moved
      exact ⟨later, (meets_snoc _).mpr ⟨ih.2, intact⟩⟩

/-! ### The end of the run -/

private theorem first_call (entry : QueuePc) (left : List QueuePc) :
    (program NUM_SAMPLES NUM_QUEUES headFirst).call (entry :: left) entry = some left :=
  if_pos rfl

theorem progress_of_working {worker : Worker NUM_QUEUES} {queue : ℕ} {pc : Pc}
    {script : List QueuePc} (busy : state.thread worker = .busy (queue, pc) script)
    (working : ∀ cur_head, pc ≠ .spin cur_head) :
    (program NUM_SAMPLES NUM_QUEUES headFirst).Progress state := by
  obtain ⟨after, outcome, stepped⟩ : ∃ after outcome,
      TicketQueue.step (QUEUE_SIZE NUM_SAMPLES NUM_QUEUES) headFirst pc (state.mem queue) =
        some (after, outcome) := by
    cases pc <;> exact ⟨_, _, rfl⟩
  refine Program.progress_move busy (step_eq stepped) ?_
  intro again same
  cases outcome with
  | goto next => cases same
  | ret value => cases same
  | retry next =>
      obtain ⟨cur_head, spins, _⟩ := TicketQueue.retry_spins stepped
      exact working cur_head spins

theorem Dealing.producer_progress (dealing : Dealing NUM_SAMPLES NUM_QUEUES state dealt added)
    (unfinished : state.thread .producer ≠ .idle []) :
    (program NUM_SAMPLES NUM_QUEUES headFirst).Progress state := by
  have deals := dealing.producer
  cases standing : state.thread .producer with
  | idle script =>
      cases script with
      | nil => exact absurd standing unfinished
      | cons entry left => exact Program.progress_call standing (first_call entry left)
  | busy place script =>
      obtain ⟨queue, pc⟩ := place
      rw [standing] at deals
      apply progress_of_working standing
      rintro cur_head rfl
      exact deals.elim

/-- Once the producer is done, no consumer waits. -/
theorem Dealing.consumer_progress (dealing : Dealing NUM_SAMPLES NUM_QUEUES state dealt added)
    (divides : NUM_QUEUES ∣ NUM_SAMPLES) (done : state.thread .producer = .idle [])
    {target : Fin NUM_QUEUES} (unfinished : state.thread (.consumer target) ≠ .idle []) :
    (program NUM_SAMPLES NUM_QUEUES headFirst).Progress state := by
  have deals := dealing.producer
  rw [done] at deals
  obtain ⟨low, _, rest⟩ := deals
  have all : dealt = NUM_SAMPLES := by
    by_contra short
    rw [handler_drop (by omega)] at rest
    cases rest
  have positive : 0 < NUM_QUEUES := Nat.lt_of_le_of_lt (Nat.zero_le _) target.isLt
  have full : share NUM_QUEUES target dealt = NUM_SAMPLES / NUM_QUEUES := by
    rw [all]
    have rounds := share_rounds positive target (NUM_SAMPLES / NUM_QUEUES)
    rw [Nat.div_mul_cancel divides] at rounds
    exact rounds
  have drains := dealing.consumer target
  cases standing : state.thread (.consumer target) with
  | idle script =>
      cases script with
      | nil => exact absurd standing unfinished
      | cons entry left => exact Program.progress_call standing (first_call entry left)
  | busy place script =>
      obtain ⟨queue, pc⟩ := place
      rw [standing] at drains
      obtain ⟨inside, rfl, fetches, _⟩ := drains
      cases pc with
      | spin cur_head =>
          obtain ⟨_, rfl⟩ := fetches
          have served := (dealing.lane target).spin_filled inside (by rw [full]; exact inside)
            headFirst
          exact Program.progress_move standing (step_eq served)
            (by intro again impossible; cases impossible)
      | _ => exact progress_of_working standing (by rintro cur_head ⟨⟩)

theorem Dealing.progress (dealing : Dealing NUM_SAMPLES NUM_QUEUES state dealt added)
    (divides : NUM_QUEUES ∣ NUM_SAMPLES) (unfinished : ¬ Finished state) :
    (program NUM_SAMPLES NUM_QUEUES headFirst).Progress state := by
  by_cases done : state.thread .producer = .idle []
  · obtain ⟨worker, waiting⟩ := not_forall.mp unfinished
    cases worker with
    | producer => exact absurd done waiting
    | consumer target => exact dealing.consumer_progress divides done waiting
  · exact dealing.producer_progress done

theorem Dealing.all_received (dealing : Dealing NUM_SAMPLES NUM_QUEUES state dealt added)
    (finished : Finished state) (my_cpu : Fin NUM_QUEUES) :
    state.hist my_cpu = received NUM_QUEUES my_cpu (NUM_SAMPLES / NUM_QUEUES) := by
  have drains := dealing.consumer my_cpu
  rw [finished (.consumer my_cpu)] at drains
  obtain ⟨low, _, rest⟩ := drains
  have length := congrArg List.length rest
  rw [List.length_nil, List.length_replicate] at length
  have all : (state.hist my_cpu).length = NUM_SAMPLES / NUM_QUEUES := by omega
  rw [dealing.returned my_cpu, all]

def Once (NUM_SAMPLES NUM_QUEUES : ℕ) (state : SpmcPool NUM_QUEUES) : Prop :=
  ∀ value : ℤ, ∑ my_cpu ∈ Finset.range NUM_QUEUES, (state.hist my_cpu).count value =
    if 1 ≤ value ∧ value ≤ NUM_SAMPLES then 1 else 0

theorem Dealing.once (dealing : Dealing NUM_SAMPLES NUM_QUEUES state dealt added)
    (divides : NUM_QUEUES ∣ NUM_SAMPLES) (positive : 0 < NUM_QUEUES) (finished : Finished state) :
    Once NUM_SAMPLES NUM_QUEUES state := by
  intro value
  have counted := count_received positive (NUM_SAMPLES / NUM_QUEUES) value
  have whole : ((NUM_SAMPLES / NUM_QUEUES : ℕ) : ℤ) * NUM_QUEUES = NUM_SAMPLES := by
    exact_mod_cast Nat.div_mul_cancel divides
  rw [whole] at counted
  rw [← counted]
  apply Finset.sum_congr rfl
  intro my_cpu range
  rw [← dealing.all_received finished ⟨my_cpu, Finset.mem_range.mp range⟩]

theorem ranked (size : ℕ) (headFirst : Bool) :
    Ranked (step size headFirst) (fun place => place.2.rank) := by
  constructor
  · intro place next queues after stepped
    obtain ⟨⟨q, outcome⟩, moved, same⟩ := Option.map_eq_some_iff.mp stepped
    cases outcome with
    | goto reached => cases same; exact TicketQueue.step_rank moved
    | retry reached => cases same
    | ret value => cases same
  · intro place next queues after stepped
    obtain ⟨⟨q, outcome⟩, moved, same⟩ := Option.map_eq_some_iff.mp stepped
    cases outcome with
    | goto reached => cases same
    | ret value => cases same
    | retry reached =>
        cases same
        obtain ⟨cur_head, spins, zero⟩ := TicketQueue.retry_spins moved
        rw [spins] at moved ⊢
        simp only [TicketQueue.step, if_pos zero] at moved
        cases moved
        exact Nat.le_refl _

end QueueBench.SpmcQueues
