import QueueBench.TicketQueue

/-! The emptiness test of mpi_queue/xtaskqueue.c under interference. It reads two counters that
both move, in an order that C leaves open. With the head read first an empty answer was true at
some instant of the call; with the tail read first it need not have been. -/

namespace QueueBench.TicketQueue
open Machine (Outcome Pool Program Client Act)
open RingArith (addAndFetch wrap32 wrap32_eq)
open Transition (Run Meets meets_true meets_append run_of_play)

def mpiClient : Client Pc ℤ Unit :=
  { call := fun _ pc =>
      match pc with
      | .add _ => some ()
      | .compare => some ()
      | _ => none
    quit := fun _ => none
    done := fun _ _ => () }

abbrev MpiPool (ι : Type*) : Type _ := Pool ι Queue Pc Unit (Hist ι)

def mpiProgram (ι : Type*) (MAX_SIZE : ℕ) (headFirst : Bool) :
    Program ι Queue Pc ℤ Unit (Hist ι) :=
  program MAX_SIZE headFirst mpiClient

def mpiStart (ι : Type*) (MAX_SIZE : ℕ) (junk : ℤ → ℤ) : MpiPool ι :=
  start (InitXTaskQueue MAX_SIZE junk) (fun _ => ())

variable {ι : Type*} {size : ℕ} {headFirst : Bool}

/-- The steps from the call of DequeueFromQ by the thread to its `return -1`, the last of
them. -/
def EmptyCall (MAX_SIZE : ℕ) (headFirst : Bool) (thread : ι) (call : List (MpiPool ι × Act ι Pc)) :
    Prop :=
  ∃ entered inner last, call = (entered, .call thread mpiDequeueFromQ) :: inner ++
      [(last, .move thread)] ∧
    (∀ taken ∈ inner, ∀ pc, taken.2 ≠ .call thread pc) ∧
    ∃ first mem, last.at thread = some (.compareWith first) ∧
      step MAX_SIZE headFirst (.compareWith first) last.mem = some (mem, .ret (-1))

/-- Whenever DequeueFromQ answers that the queue is empty, no enqueued ticket was unclaimed at
some instant of the call. -/
def Truthful (MAX_SIZE : ℕ) (headFirst : Bool) (trace : List (MpiPool ι × Act ι Pc)) : Prop :=
  ∀ thread earlier call later, trace = earlier ++ (call ++ later) →
    EmptyCall MAX_SIZE headFirst thread call →
    ∃ taken ∈ call, taken.1.mem.tail ≤ taken.1.mem.head

/-- A comparison that has read the tail first finds equal counters only while the tail has not
moved on. -/
def Settles (headFirst : Bool) (q : Queue) : Pc → Prop
  | .compareWith first => headFirst = true ∨ (q.head = first → q.tail = first)
  | _ => True

def Settled (headFirst : Bool) (state : MpiPool ι) : Act ι Pc → Prop :=
  state.Moving (Settles headFirst state.mem)

/-! ### Counters that wrap -/

structure Ranged (q : Queue) : Prop where
  head_ge : -2 ^ 31 ≤ q.head
  head_lt : q.head < 2 ^ 31
  tail_ge : -2 ^ 31 ≤ q.tail
  tail_lt : q.tail < 2 ^ 31

theorem addAndFetch_range (counter : ℤ) :
    -2 ^ 31 ≤ addAndFetch counter ∧ addAndFetch counter < 2 ^ 31 := by
  unfold addAndFetch wrap32
  have low := @Int.le_bmod (counter + 1) (2 ^ 32) (by decide)
  have high := @Int.bmod_lt (counter + 1) (2 ^ 32) (by decide)
  omega

theorem Ranged.stays {q after : Queue} {pc : Pc} {outcome : Outcome Pc ℤ} (ranged : Ranged q)
    (stepped : step size headFirst pc q = some (after, outcome)) : Ranged after := by
  cases pc with
  | add elem =>
      cases stepped
      obtain ⟨low, high⟩ := addAndFetch_range q.tail
      exact { ranged with
        tail_ge := low
        tail_lt := high }
  | draw =>
      cases stepped
      obtain ⟨low, high⟩ := addAndFetch_range q.head
      exact { ranged with
        head_ge := low
        head_lt := high }
  | store elem ticket =>
      cases stepped
      exact { ranged with }
  | clear ticket elem =>
      cases stepped
      exact { ranged with }
  | _ => cases stepped; exact ranged

/-- The head falls only from the greatest `int`, which the tail does not exceed. -/
theorem Ranged.head_le {q after : Queue} {pc : Pc} {outcome : Outcome Pc ℤ} (ranged : Ranged q)
    (stepped : step size headFirst pc q = some (after, outcome)) :
    q.head ≤ after.head ∨ q.tail ≤ q.head := by
  cases pc with
  | draw =>
      cases stepped
      by_cases last : q.head + 1 < 2 ^ 31
      · have low := ranged.head_ge
        left
        change q.head ≤ wrap32 (q.head + 1)
        rw [wrap32_eq (by omega) last]
        omega
      · have tail := ranged.tail_lt
        right
        omega
  | _ => cases stepped; exact Or.inl (Int.le_refl _)

theorem reads_head {q after : Queue} {pc : Pc} {outcome : Outcome Pc ℤ} {first : ℤ}
    (stepped : step size true pc q = some (after, outcome))
    (reached : outcome.pc? = some (.compareWith first)) : first = after.head := by
  cases pc with
  | compare => cases stepped; cases reached; rfl
  | compareWith other =>
      simp only [step] at stepped
      split at stepped <;> split at stepped <;> cases stepped <;> cases reached
  | spin ticket =>
      simp only [step] at stepped
      split at stepped <;> cases stepped <;> cases reached
  | gate =>
      simp only [step] at stepped
      split at stepped <;> cases stepped <;> cases reached
  | _ => cases stepped; cases reached

variable [DecidableEq ι]
variable {state next : MpiPool ι} {act : Act ι Pc} {trace : List (MpiPool ι × Act ι Pc)}

theorem ranged_next (ranged : Ranged state.mem)
    (moved : (mpiProgram ι size headFirst).next state act = some next) : Ranged next.mem := by
  rcases Program.next_cases moved with
    ⟨thread, entry, script, left, rfl, idle, called, rfl⟩ |
    ⟨thread, script, left, rfl, idle, impossible, rfl⟩ |
    ⟨thread, pc, script, mem, outcome, rfl, busy, stepped, rfl⟩
  · exact ranged
  · cases impossible
  · exact ranged.stays stepped

theorem ranged_of_run {junk : ℤ → ℤ}
    (run : Run (mpiProgram ι size headFirst).next (mpiStart ι size junk) trace state) :
    Ranged state.mem := by
  have started : Ranged (mpiStart ι size junk).mem :=
    { head_ge := by change (-2 ^ 31 : ℤ) ≤ -1; decide
      head_lt := by change (-1 : ℤ) < 2 ^ 31; decide
      tail_ge := by change (-2 ^ 31 : ℤ) ≤ -1; decide
      tail_lt := by change (-1 : ℤ) < 2 ^ 31; decide }
  exact run.invariant (meets_true trace) started
    (fun _ _ _ ranged _ moved => ranged_next ranged moved)

/-! ### One call -/

def CaughtUp (trace : List (MpiPool ι × Act ι Pc)) : Prop :=
  ∃ taken ∈ trace, taken.1.mem.tail ≤ taken.1.mem.head

/-- The head value a thread compares with is not ahead of the head. -/
def Behind (thread : ι) (state : MpiPool ι) : Prop :=
  ∀ first, state.at thread = some (.compareWith first) → first ≤ state.mem.head

theorem behind_next {thread : ι} (ranged : Ranged state.mem)
    (moved : (mpiProgram ι size true).next state act = some next)
    (inside : ∀ pc, act ≠ .call thread pc) (behind : Behind thread state) :
    Behind thread next ∨ state.mem.tail ≤ state.mem.head := by
  by_cases mine : thread = act.thread
  · left
    subst mine
    intro first reached
    cases standing : state.at act.thread with
    | none =>
        obtain ⟨called, _⟩ := Program.own_call moved standing reached
        exact absurd called (inside _)
    | some pc =>
        obtain ⟨_, outcome, stepped, at_, _⟩ := Program.own_move moved standing
        rw [reached] at at_
        exact Int.le_of_eq (reads_head stepped at_.symm)
  · have same : next.at thread = state.at thread := by
      rw [Pool.at, Program.next_other moved mine]
      rfl
    rcases Program.next_cases moved with
      ⟨other, entry, script, left, rfl, idle, called, rfl⟩ |
      ⟨other, script, left, rfl, idle, impossible, rfl⟩ |
      ⟨other, pc, script, mem, outcome, rfl, busy, stepped, rfl⟩
    · left
      intro first at_
      rw [same] at at_
      exact behind first at_
    · cases impossible
    · rcases ranged.head_le stepped with up | caught
      · left
        intro first at_
        rw [same] at at_
        exact (behind first at_).trans up
      · exact Or.inr caught

theorem behind_of_run {thread : ι} {final : MpiPool ι} (ranged : Ranged state.mem)
    (behind : Behind thread state)
    (run : Run (mpiProgram ι size true).next state trace final)
    (inside : ∀ taken ∈ trace, ∀ pc, taken.2 ≠ .call thread pc) :
    Behind thread final ∨ CaughtUp trace := by
  induction run with
  | nil => exact Or.inl behind
  | @snoc earlier middle last label before moved ih =>
      have newest : (middle, label) ∈ earlier ++ [(middle, label)] :=
        List.mem_append_right _ (List.mem_singleton_self _)
      have now : Ranged middle.mem := before.invariant (meets_true earlier) ranged
        (fun _ _ _ ranged _ moved => ranged_next ranged moved)
      rcases ih (fun taken member => inside taken (List.mem_append_left _ member)) with
        kept | ⟨taken, member, caught⟩
      · rcases behind_next now moved (inside _ newest) kept with kept | caught
        · exact Or.inl kept
        · exact Or.inr ⟨(middle, label), newest, caught⟩
      · exact Or.inr ⟨taken, List.mem_append_left _ member, caught⟩

theorem answer_eq {first : ℤ} {q after : Queue}
    (stepped : step size headFirst (.compareWith first) q = some (after, .ret (-1))) :
    first = if headFirst then q.tail else q.head := by
  by_contra different
  simp only [step, if_neg different] at stepped
  cases stepped

theorem truthful_of_settled {junk : ℤ → ℤ}
    (run : Run (mpiProgram ι size headFirst).next (mpiStart ι size junk) trace state)
    (settled : Meets (Settled headFirst) trace) : Truthful size headFirst trace := by
  rintro thread earlier call later rfl ⟨entered, inner, last, rfl, inside, first, mem, at_, stepped⟩
  have equal := answer_eq stepped
  have newest : (last, Act.move thread) ∈
      (entered, Act.call thread mpiDequeueFromQ) :: inner ++ [(last, .move thread)] :=
    List.mem_append_right _ (List.mem_singleton_self _)
  cases headFirst with
  | true =>
      rw [List.cons_append, List.cons_append, List.append_assoc] at run
      obtain ⟨before, next, moved, rest⟩ := run.cut
      obtain ⟨during, _⟩ := rest.cut
      have ranged := ranged_of_run before
      have behind : Behind thread next := by
        intro other reached
        have fresh : next.at thread = some mpiDequeueFromQ := by
          rcases Program.next_cases moved with
            ⟨_, _, _, _, same, _, _, rfl⟩ | ⟨_, _, _, same, _⟩ | ⟨_, _, _, _, _, same, _⟩
          · cases same
            change (Function.update entered.thread thread _ thread).pc? = _
            rw [Function.update_self]
            rfl
          · cases same
          · cases same
        cases fresh.symm.trans reached
      rcases behind_of_run (ranged_next ranged moved) behind during inside with
        kept | ⟨taken, member, caught⟩
      · have low := kept first at_
        rw [if_pos rfl] at equal
        exact ⟨_, newest, by rw [← equal]; exact low⟩
      · exact ⟨taken, List.mem_append_left _ (List.mem_cons_of_mem _ member), caught⟩
  | false =>
      have met := (meets_append _).mp ((meets_append _).mp settled).2 |>.1
      have still : Settles false last.mem (.compareWith first) := met _ newest _ at_
      rw [if_neg Bool.false_ne_true] at equal
      rcases still with impossible | still
      · cases impossible
      · have tail := still equal.symm
        exact ⟨_, newest, by change last.mem.tail ≤ last.mem.head; omega⟩

/-! ### An answer that was never true -/

private def firstTicket (early : ι) : List (Act ι Pc) := [.call early (.add 1), .move early]

/-- The call reads the tail; then ticket 1 is drawn for an element and ticket 0 for a dequeue
before it reads the head. -/
private def overtakenCall (late taking waiting : ι) : List (Act ι Pc) :=
  [.call waiting mpiDequeueFromQ, .move waiting, .call late (.add 2), .move late,
    .call taking mpiDequeueFromQ, .move taking, .move taking, .move taking, .move waiting]

theorem overtaken (size : ℕ) (junk : ℤ → ℤ) :
    ∃ (trace : _) (state : MpiPool (Fin 4)),
      Run (mpiProgram (Fin 4) size false).next (mpiStart (Fin 4) size junk) trace state ∧
        ¬ Truthful size false trace := by
  have run : Run (mpiProgram (Fin 4) size false).next (mpiStart (Fin 4) size junk) _ _ :=
    run_of_play (firstTicket 0 ++ overtakenCall 1 2 3) rfl
  refine ⟨_, _, run, ?_⟩
  intro truthful
  have acts : ∀ act ∈ ((overtakenCall 1 2 3 : List (Act (Fin 4) Pc)).drop 1).dropLast,
      act.thread = 3 → act = .move 3 := by decide
  obtain ⟨taken, member, caught⟩ := truthful 3 [_, _] [_, _, _, _, _, _, _, _, _] [] rfl (by
    refine ⟨_, [_, _, _, _, _, _, _], _, rfl, ?_, 0, _, rfl, rfl⟩
    intro taken inner pc same
    have moves := acts taken.2 (List.mem_map_of_mem (f := Prod.snd) inner) (by rw [same]; rfl)
    rw [same] at moves
    cases moves)
  -- The counters before each step of the call.
  have ahead : ∀ counters ∈ [(-1, 0), (-1, 0), (-1, 0), (-1, 0), (-1, 1), (-1, 1), (-1, 1), (-1, 1),
      ((0, 1) : ℤ × ℤ)], ¬ counters.2 ≤ counters.1 := by decide
  exact ahead (taken.1.mem.head, taken.1.mem.tail)
    (List.mem_map_of_mem (f := fun taken => (taken.1.mem.head, taken.1.mem.tail)) member) caught

/-- No empty answer is ever false exactly if the comparison reads the head first. -/
theorem empty_answers_iff (MAX_SIZE : ℕ) (headFirst : Bool) (junk : ℤ → ℤ) :
    (∀ (ι : Type) [DecidableEq ι] (trace : List (MpiPool ι × Act ι Pc)) (state : MpiPool ι),
      Run (mpiProgram ι MAX_SIZE headFirst).next (mpiStart ι MAX_SIZE junk) trace state →
      Truthful MAX_SIZE headFirst trace) ↔ headFirst = true := by
  constructor
  · intro all
    cases headFirst with
    | true => rfl
    | false =>
        obtain ⟨trace, state, run, false_⟩ := overtaken MAX_SIZE junk
        exact absurd (all (Fin 4) trace state run) false_
  · rintro rfl ι _ trace state run
    apply truthful_of_settled run
    intro taken member
    cases taken.2 with
    | call thread entry => trivial
    | quit thread => trivial
    | move thread =>
        intro pc at_
        cases pc with
        | compareWith first => exact Or.inl rfl
        | _ => trivial

/-- The ring of mpi_queue/squeue.h, with the tail read first. -/
theorem empty_answer_overtaken :
    ∃ (trace : _) (state : MpiPool (Fin 4)),
      Run (mpiProgram (Fin 4) 16000 false).next (mpiStart (Fin 4) 16000 (fun _ => 0)) trace state ∧
        ¬ Truthful 16000 false trace :=
  overtaken 16000 (fun _ => 0)

end QueueBench.TicketQueue
