import QueueBench.SpmcDelivery

/-! The run of queue type 4 in QueueBenchmarks/sqmain.c, LATENCY build: as many rings of
QueueBenchmarks/squeuemultiple.c as there are pairs of threads, and each pair keeps to its own. A
pair does not see the others, so it runs as the run of queue type 8 does with one queue. -/

namespace QueueBench.MultipleQueues
open Machine (Outcome Pool Program Act Thread Ranked scriptProgram scriptClient_call script_call
  calls_next work_le_load)
open SpmcQueues (QueuePc SpmcPool)
open TicketQueue (Queue Pc InitQueues EnqueueMultiple DequeueMultiple QUEUE_SIZE)
open Transition (Run Meets Reaches meets_snoc meets_true run_of_play)

inductive Worker (NUM_QUEUES : ℕ) where
  | producer (my_cpu : Fin NUM_QUEUES)
  | consumer (my_cpu : Fin NUM_QUEUES)
deriving DecidableEq, Fintype, Repr

def Worker.my_cpu {NUM_QUEUES : ℕ} : Worker NUM_QUEUES → Fin NUM_QUEUES
  | .producer my_cpu => my_cpu
  | .consumer my_cpu => my_cpu

/-- `enqueuemultiple_handler`: `EnqueueMultiple((atom) (i + 1), queues[my_cpu], my_cpu)`. -/
def enqueuemultiple_handler (NUM_SAMPLES CUR_NUM_THREADS my_cpu : ℕ) : List QueuePc :=
  (List.range (NUM_SAMPLES / CUR_NUM_THREADS)).map
    (fun i : ℕ => (my_cpu, EnqueueMultiple ((i : ℤ) + 1)))

def workermultiple_handler (NUM_SAMPLES CUR_NUM_THREADS my_cpu : ℕ) : List QueuePc :=
  List.replicate (NUM_SAMPLES / CUR_NUM_THREADS) (my_cpu, DequeueMultiple)

def scripts (NUM_SAMPLES NUM_QUEUES : ℕ) : Worker NUM_QUEUES → List QueuePc
  | .producer my_cpu => enqueuemultiple_handler NUM_SAMPLES NUM_QUEUES my_cpu
  | .consumer my_cpu => workermultiple_handler NUM_SAMPLES NUM_QUEUES my_cpu

abbrev MultiPool (NUM_QUEUES : ℕ) : Type :=
  Pool (Worker NUM_QUEUES) (ℕ → Queue) QueuePc (List QueuePc) (ℕ → List ℤ)

/-- `case 4`. -/
def program (NUM_SAMPLES NUM_QUEUES : ℕ) (headFirst : Bool) :
    Program (Worker NUM_QUEUES) (ℕ → Queue) QueuePc ℤ (List QueuePc) (ℕ → List ℤ) :=
  scriptProgram (SpmcQueues.step (QUEUE_SIZE NUM_SAMPLES NUM_QUEUES) headFirst)
    (SpmcQueues.record headFirst)

def start (NUM_SAMPLES NUM_QUEUES : ℕ) (junk : ℕ → ℤ → ℤ) : MultiPool NUM_QUEUES :=
  { mem := fun queue => InitQueues NUM_SAMPLES NUM_QUEUES (junk queue) queue
    thread := fun worker => .idle (scripts NUM_SAMPLES NUM_QUEUES worker)
    hist := fun _ => [] }

def Intact (NUM_SAMPLES NUM_QUEUES : ℕ) (state : MultiPool NUM_QUEUES) :
    Act (Worker NUM_QUEUES) QueuePc → Prop :=
  state.Moving (SpmcQueues.Clean (QUEUE_SIZE NUM_SAMPLES NUM_QUEUES) state.mem)

def Finished {NUM_QUEUES : ℕ} (state : MultiPool NUM_QUEUES) : Prop :=
  ∀ worker, state.thread worker = .idle []

/-! ### One pair -/

def Worker.role {NUM_QUEUES : ℕ} : Worker NUM_QUEUES → SpmcQueues.Worker 1
  | .producer _ => .producer
  | .consumer _ => .consumer 0

def seat {NUM_QUEUES : ℕ} (my_cpu : Fin NUM_QUEUES) : SpmcQueues.Worker 1 → Worker NUM_QUEUES
  | .producer => .producer my_cpu
  | .consumer _ => .consumer my_cpu

def rename (place : QueuePc) : QueuePc := (0, place.2)

def renamed : Thread QueuePc (List QueuePc) → Thread QueuePc (List QueuePc)
  | .idle script => .idle (script.map rename)
  | .busy place script => .busy (rename place) (script.map rename)

def retold {NUM_QUEUES : ℕ} : Act (Worker NUM_QUEUES) QueuePc → Act (SpmcQueues.Worker 1) QueuePc
  | .call worker entry => .call worker.role (rename entry)
  | .quit worker => .quit worker.role
  | .move worker => .move worker.role

variable {NUM_SAMPLES NUM_QUEUES : ℕ} {headFirst : Bool} {junk : ℕ → ℤ → ℤ}

/-- What a pair of threads and its ring look like on their own. -/
def pair (NUM_SAMPLES : ℕ) (junk : ℕ → ℤ → ℤ) (my_cpu : Fin NUM_QUEUES)
    (state : MultiPool NUM_QUEUES) : SpmcPool 1 :=
  { mem := Function.update
      (SpmcQueues.start (NUM_SAMPLES / NUM_QUEUES) 1 (fun _ => junk my_cpu)).mem 0
      (state.mem my_cpu)
    thread := fun role => renamed (state.thread (seat my_cpu role))
    hist := Function.update (fun _ => []) 0 (state.hist my_cpu) }

theorem pair_mem (my_cpu : Fin NUM_QUEUES) (state : MultiPool NUM_QUEUES) :
    (pair NUM_SAMPLES junk my_cpu state).mem = Function.update
      (SpmcQueues.start (NUM_SAMPLES / NUM_QUEUES) 1 (fun _ => junk my_cpu)).mem 0
      (state.mem my_cpu) := rfl

theorem pair_ring (my_cpu : Fin NUM_QUEUES) (state : MultiPool NUM_QUEUES) :
    (pair NUM_SAMPLES junk my_cpu state).mem 0 = state.mem my_cpu := by
  rw [pair_mem, Function.update_self]

theorem pair_hist (my_cpu : Fin NUM_QUEUES) (state : MultiPool NUM_QUEUES) :
    (pair NUM_SAMPLES junk my_cpu state).hist =
      Function.update (fun _ => []) 0 (state.hist my_cpu) := rfl

theorem pair_returned (my_cpu : Fin NUM_QUEUES) (state : MultiPool NUM_QUEUES) :
    (pair NUM_SAMPLES junk my_cpu state).hist 0 = state.hist my_cpu := by
  rw [pair_hist, Function.update_self]

def Own (worker : Worker NUM_QUEUES) (place : QueuePc) : Prop := place.1 = worker.my_cpu

variable {state next : MultiPool NUM_QUEUES} {act : Act (Worker NUM_QUEUES) QueuePc}

theorem seat_role (worker : Worker NUM_QUEUES) : seat worker.my_cpu worker.role = worker := by
  cases worker <;> rfl

theorem seat_my_cpu (my_cpu : Fin NUM_QUEUES) (role : SpmcQueues.Worker 1) :
    (seat my_cpu role).my_cpu = my_cpu := by
  cases role <;> rfl

theorem role_seat (my_cpu : Fin NUM_QUEUES) (role : SpmcQueues.Worker 1) :
    (seat my_cpu role).role = role := by
  cases role with
  | producer => rfl
  | consumer only =>
      rw [Subsingleton.elim only 0]
      rfl

variable {worker : Worker NUM_QUEUES} {standing : Thread QueuePc (List QueuePc)}

theorem pair_own (threads : next.thread = Function.update state.thread worker standing) :
    (pair NUM_SAMPLES junk worker.my_cpu next).thread =
      Function.update (pair NUM_SAMPLES junk worker.my_cpu state).thread worker.role
        (renamed standing) := by
  funext role
  change renamed (next.thread (seat worker.my_cpu role)) = _
  rw [threads]
  by_cases mine : role = worker.role
  · rw [mine, Function.update_self, seat_role, Function.update_self]
  · have other : seat worker.my_cpu role ≠ worker := by
      intro same
      exact mine ((role_seat worker.my_cpu role).symm.trans (congrArg Worker.role same))
    rw [Function.update_of_ne mine, Function.update_of_ne other]
    rfl

theorem pair_other {my_cpu : Fin NUM_QUEUES} (apart : worker.my_cpu ≠ my_cpu)
    (threads : next.thread = Function.update state.thread worker standing) :
    (pair NUM_SAMPLES junk my_cpu next).thread = (pair NUM_SAMPLES junk my_cpu state).thread := by
  funext role
  change renamed (next.thread (seat my_cpu role)) = renamed (state.thread (seat my_cpu role))
  have other : seat my_cpu role ≠ worker := by
    intro same
    exact apart ((congrArg Worker.my_cpu same).symm.trans (seat_my_cpu my_cpu role))
  rw [threads, Function.update_of_ne other]

theorem pair_start (my_cpu : Fin NUM_QUEUES) :
    pair NUM_SAMPLES junk my_cpu (MultipleQueues.start NUM_SAMPLES NUM_QUEUES junk) =
      SpmcQueues.start (NUM_SAMPLES / NUM_QUEUES) 1 (fun _ => junk my_cpu) := by
  apply Pool.eq_of_parts
  · apply Function.update_eq_self_iff.mpr
    change TicketQueue.init (NUM_SAMPLES / NUM_QUEUES) (junk my_cpu) =
      TicketQueue.init (NUM_SAMPLES / NUM_QUEUES / 1) (junk my_cpu)
    rw [Nat.div_one]
  · funext role
    cases role with
    | producer =>
        change Thread.idle ((enqueuemultiple_handler NUM_SAMPLES NUM_QUEUES my_cpu).map rename) =
          .idle (SpmcQueues.enqueuespmc_handler (NUM_SAMPLES / NUM_QUEUES) 1)
        rw [enqueuemultiple_handler, List.map_map, SpmcQueues.enqueuespmc_handler]
        simp only [Nat.mod_one]
        rfl
    | consumer only =>
        change Thread.idle ((workermultiple_handler NUM_SAMPLES NUM_QUEUES my_cpu).map rename) =
          .idle (SpmcQueues.workerspmc_handler (NUM_SAMPLES / NUM_QUEUES) 1 only)
        rw [workermultiple_handler, List.map_replicate, SpmcQueues.workerspmc_handler, Nat.div_one,
          Subsingleton.elim only 0]
        rfl
  · exact Function.update_eq_self_iff.mpr rfl

theorem own_start (worker : Worker NUM_QUEUES) :
    ∀ place ∈ ((MultipleQueues.start NUM_SAMPLES NUM_QUEUES junk).thread worker).calls,
      Own worker place := by
  intro place member
  cases worker with
  | producer my_cpu =>
      obtain ⟨i, _, rfl⟩ := List.mem_map.mp member
      rfl
  | consumer my_cpu =>
      rw [List.eq_of_mem_replicate member]
      rfl

theorem step_ring {size : ℕ} {place reached : QueuePc} {queues after : ℕ → Queue}
    {outcome : Outcome QueuePc ℤ}
    (stepped : SpmcQueues.step size headFirst place queues = some (after, outcome))
    (onward : outcome.pc? = some reached) : reached.1 = place.1 := by
  obtain ⟨⟨q, result⟩, _, same⟩ := Option.map_eq_some_iff.mp stepped
  cases same
  cases result <;> cases onward <;> rfl

theorem own_next (moved : (program NUM_SAMPLES NUM_QUEUES headFirst).next state act = some next)
    (all : ∀ worker, ∀ place ∈ (state.thread worker).calls, Own worker place) :
    ∀ worker, ∀ place ∈ (next.thread worker).calls, Own worker place := by
  apply calls_next _ moved all
  intro worker place mem after outcome reached stepped onward own
  exact (step_ring stepped onward).trans own

theorem record_other {worker : Worker NUM_QUEUES} {place : QueuePc} {queues : ℕ → Queue}
    {returned : ℕ → List ℤ} {queue : ℕ} (apart : place.1 ≠ queue) :
    SpmcQueues.record headFirst worker place queues returned queue = returned queue := by
  obtain ⟨ring, pc⟩ := place
  cases pc with
  | clear cur_head elem => exact Function.update_of_ne (Ne.symm apart) _ _
  | compareWith first =>
      simp only [SpmcQueues.record]
      split
      · split
        · exact Function.update_of_ne (Ne.symm apart) _ _
        · rfl
      · split
        · exact Function.update_of_ne (Ne.symm apart) _ _
        · rfl
  | _ => rfl

theorem record_own {worker : Worker NUM_QUEUES} (role : SpmcQueues.Worker 1) {place : QueuePc}
    {queues others : ℕ → Queue} {returned : ℕ → List ℤ} {before : List ℤ}
    (ring : others 0 = queues place.1) (same : before = returned place.1) :
    SpmcQueues.record headFirst role (rename place) others (Function.update (fun _ => []) 0 before) =
      Function.update (fun _ => []) 0
        (SpmcQueues.record headFirst worker place queues returned place.1) := by
  subst same
  obtain ⟨queue, pc⟩ := place
  have mine : ∀ value, Function.update (Function.update (fun _ : ℕ => ([] : List ℤ)) 0
      (returned queue)) 0 (Function.update (fun _ => []) 0 (returned queue) 0 ++ [value]) =
        Function.update (fun _ => []) 0
          (Function.update returned queue (returned queue ++ [value]) queue) := by
    intro value
    rw [Function.update_idem, Function.update_self, Function.update_self]
  cases pc with
  | clear cur_head elem => exact mine elem
  | compareWith first =>
      simp only [SpmcQueues.record, rename, ring]
      by_cases empty : first = (if headFirst then (queues queue).tail else (queues queue).head)
      · rw [if_pos empty, if_pos empty]
        exact mine (-1)
      · rw [if_neg empty, if_neg empty]
  | _ => rfl

theorem pair_busy {worker : Worker NUM_QUEUES} (standing : Thread QueuePc (List QueuePc))
    (stands : state.thread worker = standing) :
    (pair NUM_SAMPLES junk worker.my_cpu state).thread worker.role = renamed standing := by
  change renamed (state.thread (seat worker.my_cpu worker.role)) = _
  rw [seat_role, stands]

/-- What a thread does in its pair it does in the run with one queue, and the other pairs do not
see it. -/
theorem pair_next (all : ∀ worker, ∀ place ∈ (state.thread worker).calls, Own worker place)
    (moved : (program NUM_SAMPLES NUM_QUEUES headFirst).next state act = some next)
    (my_cpu : Fin NUM_QUEUES) :
    (act.thread.my_cpu = my_cpu ∧
      (SpmcQueues.program (NUM_SAMPLES / NUM_QUEUES) 1 headFirst).next
        (pair NUM_SAMPLES junk my_cpu state) (retold act) =
          some (pair NUM_SAMPLES junk my_cpu next)) ∨
    (act.thread.my_cpu ≠ my_cpu ∧
      pair NUM_SAMPLES junk my_cpu next = pair NUM_SAMPLES junk my_cpu state) := by
  rcases Program.next_cases moved with
    ⟨worker, entry, script, left, rfl, idle, called, same⟩ |
    ⟨worker, script, left, rfl, idle, impossible, same⟩ |
    ⟨worker, place, script, mem, outcome, rfl, busy, stepped, same⟩
  · have threads : next.thread = Function.update state.thread worker (.busy entry left) := by
      rw [same]
    rw [scriptClient_call called] at idle
    by_cases mine : worker.my_cpu = my_cpu
    · subst mine
      refine Or.inl ⟨rfl, ?_⟩
      refine (Program.next_call (pair_busy _ idle)
        (script_call _ _ (rename entry) (left.map rename))).trans (congrArg some ?_)
      apply Pool.eq_of_parts
      · rw [same]
        rfl
      · exact (pair_own threads).symm
      · rw [same]
        rfl
    · refine Or.inr ⟨mine, ?_⟩
      apply Pool.eq_of_parts
      · rw [same]
        rfl
      · exact pair_other mine threads
      · rw [same]
        rfl
  · cases impossible
  · have threads : next.thread = Function.update state.thread worker
        ((program NUM_SAMPLES NUM_QUEUES headFirst).resume script outcome) := by
      rw [same]
    have own : place.1 = worker.my_cpu := all worker place (Pool.at_mem_calls (Pool.at_busy busy))
    obtain ⟨⟨after, result⟩, ticket, also⟩ := Option.map_eq_some_iff.mp stepped
    cases also
    have memory : next.mem = Function.update state.mem place.1 after := by
      rw [same]
    have history : next.hist =
        SpmcQueues.record headFirst worker place state.mem state.hist := by
      rw [same]
      rfl
    by_cases mine : worker.my_cpu = my_cpu
    · subst mine
      refine Or.inl ⟨rfl, ?_⟩
      have ring : (pair NUM_SAMPLES junk worker.my_cpu state).mem 0 = state.mem place.1 := by
        rw [own, pair_ring]
      have alone : SpmcQueues.step (QUEUE_SIZE (NUM_SAMPLES / NUM_QUEUES) 1) headFirst
          (rename place) (pair NUM_SAMPLES junk worker.my_cpu state).mem =
            some (Function.update (pair NUM_SAMPLES junk worker.my_cpu state).mem 0 after,
              result.map (fun next => (0, next))) := by
        apply SpmcQueues.step_eq
        rw [ring, QUEUE_SIZE, Nat.div_one]
        exact ticket
      refine (Program.next_move (pair_busy _ busy) alone).trans (congrArg some ?_)
      apply Pool.eq_of_parts
      · rw [pair_mem, pair_mem, Function.update_idem, memory, own, Function.update_self]
      · rw [pair_own threads]
        cases result <;> rfl
      · rw [pair_hist, pair_hist, history, ← own]
        exact record_own worker.role ring rfl
    · refine Or.inr ⟨mine, ?_⟩
      have elsewhere : (my_cpu : ℕ) ≠ place.1 := by
        rw [own]
        intro equal
        exact mine (Fin.ext equal.symm)
      apply Pool.eq_of_parts
      · rw [pair_mem, pair_mem, memory, Function.update_of_ne elsewhere]
      · exact pair_other mine threads
      · rw [pair_hist, pair_hist, history, record_other elsewhere.symm]

/-! ### All pairs -/

variable {trace : List (MultiPool NUM_QUEUES × Act (Worker NUM_QUEUES) QueuePc)}

theorem own_of_run (run : Run (program NUM_SAMPLES NUM_QUEUES headFirst).next
    (MultipleQueues.start NUM_SAMPLES NUM_QUEUES junk) trace state) :
    ∀ worker, ∀ place ∈ (state.thread worker).calls, Own worker place :=
  run.invariant (meets_true _) own_start (fun _ _ _ all _ moved => own_next moved all)

theorem pair_reaches (my_cpu : Fin NUM_QUEUES)
    (run : Run (program NUM_SAMPLES NUM_QUEUES headFirst).next
      (MultipleQueues.start NUM_SAMPLES NUM_QUEUES junk) trace state) :
    Reaches (SpmcQueues.program (NUM_SAMPLES / NUM_QUEUES) 1 headFirst).next (fun _ _ => True)
      (SpmcQueues.start (NUM_SAMPLES / NUM_QUEUES) 1 (fun _ => junk my_cpu))
      (pair NUM_SAMPLES junk my_cpu state) := by
  rw [← pair_start]
  apply run.simulated (pair NUM_SAMPLES junk my_cpu) own_start
    (fun _ _ _ all moved => own_next moved all)
  intro state act next all moved
  rcases pair_next all moved my_cpu with ⟨_, taken⟩ | ⟨_, still⟩
  · exact (Reaches.refl _ _ _).tail trivial taken
  · rw [still]
    exact Reaches.refl _ _ _

theorem renamed_done {standing : Thread QueuePc (List QueuePc)} (done : renamed standing = .idle []) :
    standing = .idle [] := by
  cases standing with
  | busy place script => cases done
  | idle script =>
      cases script with
      | nil => rfl
      | cons entry rest => cases done

theorem pair_progress (my_cpu : Fin NUM_QUEUES)
    (all : ∀ worker, ∀ place ∈ (state.thread worker).calls, Own worker place)
    (goes : (SpmcQueues.program (NUM_SAMPLES / NUM_QUEUES) 1 headFirst).Progress
      (pair NUM_SAMPLES junk my_cpu state)) :
    (program NUM_SAMPLES NUM_QUEUES headFirst).Progress state := by
  obtain ⟨act, next, moved, working⟩ := goes
  rcases Program.next_cases moved with
    ⟨role, entry, script, left, rfl, idle, called, _⟩ |
    ⟨role, script, left, rfl, idle, impossible, _⟩ |
    ⟨role, place, script, mem, outcome, rfl, busy, stepped, _⟩
  · change renamed (state.thread (seat my_cpu role)) = .idle script at idle
    rw [scriptClient_call called] at idle
    cases standing : state.thread (seat my_cpu role) with
    | busy place rest => rw [standing] at idle; cases idle
    | idle calls =>
        rw [standing] at idle
        cases calls with
        | nil => cases idle
        | cons first rest => exact Program.progress_call standing (script_call _ _ first rest)
  · cases impossible
  · have at_ := busy
    change renamed (state.thread (seat my_cpu role)) = .busy place script at busy
    cases standing : state.thread (seat my_cpu role) with
    | idle calls => rw [standing] at busy; cases busy
    | busy origin rest =>
        rw [standing] at busy
        cases busy
        have own : origin.1 = my_cpu := by
          have mine := all _ origin (Pool.at_mem_calls (Pool.at_busy standing))
          rw [Own, seat_my_cpu] at mine
          exact mine
        obtain ⟨⟨after, result⟩, ticket, same⟩ := Option.map_eq_some_iff.mp stepped
        cases same
        change TicketQueue.step (QUEUE_SIZE (NUM_SAMPLES / NUM_QUEUES) 1) headFirst origin.2
          ((pair NUM_SAMPLES junk my_cpu state).mem 0) = _ at ticket
        rw [pair_ring, ← own, QUEUE_SIZE, Nat.div_one] at ticket
        apply Program.progress_move standing (SpmcQueues.step_eq ticket)
        intro again waits
        apply working
        cases result with
        | goto onward => cases waits
        | ret value => cases waits
        | retry onward => exact ⟨role, _, _, (0, onward), rfl, Pool.at_busy at_, stepped⟩

/-- In every run no sample is overwritten, consumer `my_cpu` receives 1, 2, 3 and so on, some
thread has work left until all have finished, the work is bounded, and at the end every consumer
has received what its producer has put. -/
structure Delivers (NUM_SAMPLES NUM_QUEUES : ℕ) (headFirst : Bool) (junk : ℕ → ℤ → ℤ) : Prop where
  intact : ∀ trace state, Run (program NUM_SAMPLES NUM_QUEUES headFirst).next
    (MultipleQueues.start NUM_SAMPLES NUM_QUEUES junk) trace state →
    Meets (Intact NUM_SAMPLES NUM_QUEUES) trace
  order : ∀ trace state, Run (program NUM_SAMPLES NUM_QUEUES headFirst).next
    (MultipleQueues.start NUM_SAMPLES NUM_QUEUES junk) trace state →
    ∀ (my_cpu : Fin NUM_QUEUES) (k : ℕ) value, (state.hist my_cpu)[k]? = some value →
      value = (k : ℤ) + 1
  progress : ∀ trace state, Run (program NUM_SAMPLES NUM_QUEUES headFirst).next
    (MultipleQueues.start NUM_SAMPLES NUM_QUEUES junk) trace state → ¬ Finished state →
    (program NUM_SAMPLES NUM_QUEUES headFirst).Progress state
  bounded : ∃ bound, ∀ trace state, Run (program NUM_SAMPLES NUM_QUEUES headFirst).next
    (MultipleQueues.start NUM_SAMPLES NUM_QUEUES junk) trace state →
    (program NUM_SAMPLES NUM_QUEUES headFirst).work trace ≤ bound
  all : ∀ trace state, Run (program NUM_SAMPLES NUM_QUEUES headFirst).next
    (MultipleQueues.start NUM_SAMPLES NUM_QUEUES junk) trace state → Finished state →
    ∀ my_cpu : Fin NUM_QUEUES, (state.hist my_cpu).length = NUM_SAMPLES / NUM_QUEUES

theorem intact_of_pair (own : ∀ worker, ∀ place ∈ (state.thread worker).calls, Own worker place)
    (intact : SpmcQueues.Intact (NUM_SAMPLES / NUM_QUEUES) 1
      (pair NUM_SAMPLES junk act.thread.my_cpu state) (retold act)) :
    Intact NUM_SAMPLES NUM_QUEUES state act := by
  cases act with
  | call worker entry => trivial
  | quit worker => trivial
  | move worker =>
      intro place at_
      have busy := Pool.at_eq_some at_
      have mine : place.1 = worker.my_cpu := own worker place (Pool.at_mem_calls at_)
      have clean : SpmcQueues.Clean (QUEUE_SIZE (NUM_SAMPLES / NUM_QUEUES) 1)
          (pair NUM_SAMPLES junk worker.my_cpu state).mem (rename place) :=
        intact (rename place) (Pool.at_busy (pair_busy _ busy))
      obtain ⟨queue, pc⟩ := place
      cases pc with
      | store elem cur_tail =>
          change ((pair NUM_SAMPLES junk worker.my_cpu state).mem 0).data
            (cur_tail.tmod (QUEUE_SIZE (NUM_SAMPLES / NUM_QUEUES) 1)) = 0 at clean
          rw [pair_ring, ← mine, QUEUE_SIZE, Nat.div_one] at clean
          exact clean
      | _ => trivial

theorem intact_of_run (int : NUM_SAMPLES < 2 ^ 31)
    (run : Run (program NUM_SAMPLES NUM_QUEUES headFirst).next
      (MultipleQueues.start NUM_SAMPLES NUM_QUEUES junk) trace state) :
    Meets (Intact NUM_SAMPLES NUM_QUEUES) trace := by
  have bound : NUM_SAMPLES / NUM_QUEUES < 2 ^ 31 := Nat.lt_of_le_of_lt (Nat.div_le_self _ _) int
  induction run with
  | nil => exact Transition.meets_nil _
  | @snoc earlier middle last act before moved ih =>
      have own := own_of_run before
      rcases pair_next own moved act.thread.my_cpu with ⟨_, taken⟩ | ⟨apart, _⟩
      · obtain ⟨path, reached, _⟩ := pair_reaches act.thread.my_cpu before
        have dealt := SpmcQueues.dealt_of_run (Nat.one_dvd _) bound _ (.snoc reached taken)
        exact (meets_snoc _).mpr ⟨ih, intact_of_pair own ((meets_snoc _).mp dealt.2).2⟩
      · exact absurd rfl apart

/-- The run of queue type 4 delivers what is put, whatever the number of queues: with queue type 8
it has to divide the number of samples. -/
theorem multiple_queues_deliver (int : NUM_SAMPLES < 2 ^ 31) (headFirst : Bool)
    (junk : ℕ → ℤ → ℤ) : Delivers NUM_SAMPLES NUM_QUEUES headFirst junk := by
  have bound : NUM_SAMPLES / NUM_QUEUES < 2 ^ 31 := Nat.lt_of_le_of_lt (Nat.div_le_self _ _) int
  have dealing : ∀ (trace : _) (state : MultiPool NUM_QUEUES),
      Run (program NUM_SAMPLES NUM_QUEUES headFirst).next
        (MultipleQueues.start NUM_SAMPLES NUM_QUEUES junk) trace state →
      ∀ my_cpu, ∃ dealt added, SpmcQueues.Dealing (NUM_SAMPLES / NUM_QUEUES) 1
        (pair NUM_SAMPLES junk my_cpu state) dealt added := by
    intro trace state run my_cpu
    obtain ⟨path, reached, _⟩ := pair_reaches my_cpu run
    exact (SpmcQueues.dealt_of_run (Nat.one_dvd _) bound _ reached).1
  constructor
  · intro trace state run
    exact intact_of_run int run
  · intro trace state run my_cpu k value found
    obtain ⟨dealt, added, now⟩ := dealing trace state run my_cpu
    have returned := now.returned 0
    rw [Fin.val_zero, pair_returned] at returned
    rw [returned] at found
    rw [RoundRobin.received_getElem? found]
    push_cast
    omega
  · intro trace state run unfinished
    obtain ⟨worker, left⟩ := not_forall.mp unfinished
    obtain ⟨dealt, added, now⟩ := dealing trace state run worker.my_cpu
    apply pair_progress worker.my_cpu (own_of_run run)
    apply now.progress (Nat.one_dvd _)
    intro done
    apply left
    have mine := done worker.role
    rw [pair_busy _ rfl] at mine
    exact renamed_done mine
  · exact ⟨_, fun trace state run => work_le_load (SpmcQueues.ranked _ headFirst) run⟩
  · intro trace state run finished my_cpu
    obtain ⟨dealt, added, now⟩ := dealing trace state run my_cpu
    have done : SpmcQueues.Finished (pair NUM_SAMPLES junk my_cpu state) := by
      intro role
      change renamed (state.thread (seat my_cpu role)) = _
      rw [finished]
      rfl
    have received := now.all_received done 0
    rw [Fin.val_zero, pair_returned] at received
    rw [received, RoundRobin.received, List.length_map, List.length_range, Nat.div_one]

theorem multiple_queues_deliver_six : Delivers 262144 6 true (fun _ _ => 0) :=
  multiple_queues_deliver (by decide) true _

end QueueBench.MultipleQueues
