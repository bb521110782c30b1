import QueueBench.Lib.Mutex
import QueueBench.Lib.RingArith
import QueueBench.Lib.Work

/-! The lock benchmark of locks/locks.c: threads that increment one shared counter, each
iteration under the lock of its run. `mutex`, `lock` and `semvar` are local variables of
worker_handler, so every thread has its own; only `olock` is shared. -/

namespace QueueBench.Locks
open Machine (Outcome Pool Program Act Thread Returns scriptProgram scriptClient_call scripts_reach
  at_update script_total_next total_done)
open RingArith (wrap32 wrap32_eq)
open Transition (Run Reaches meets_true run_of_play)

open scoped BigOperators

/-- A lock object; `owner` is the thread whose local variable it is. -/
inductive Guard (ι : Type*) where
  | semvar (owner : ι)
  | mutex (owner : ι)
  | lock (owner : ι)
  | olock
deriving DecidableEq, Repr

/-- `counter++` is a load and a store, with or without a lock around it. -/
inductive Pc (ι : Type*) where
  | fetchAndAdd
  | localcounter (owner : ι)
  | acquire (guard : Guard ι)
  | load (guard : Option (Guard ι))
  | store (guard : Option (Guard ι)) (value : ℤ)
  | release (guard : Guard ι)
deriving DecidableEq, Repr

structure Memory (ι : Type*) where
  counter : ℤ
  olock : Bool
  mutex : ι → Bool
  lock : ι → ℤ
  semvar : ι → ℕ
  localcounter : ι → ℤ

variable {ι : Type*} [DecidableEq ι]

/-- Taking a lock; none where the thread waits in the kernel or the runtime. -/
def acquire (mem : Memory ι) : Guard ι → Option (Memory ι × Bool)
  -- `sem_post` comes first in this run, and never waits
  | .semvar owner =>
      some ({ mem with semvar := Function.update mem.semvar owner (mem.semvar owner + 1) }, true)
  | .mutex owner =>
      if mem.mutex owner then none
      else some ({ mem with mutex := Function.update mem.mutex owner true }, true)
  -- `spinlock`: a failed compare-and-swap yields and tries again
  | .lock owner =>
      if mem.lock owner = 0 then
        some ({ mem with lock := Function.update mem.lock owner 1 }, true)
      else some (mem, false)
  | .olock => if mem.olock then none else some ({ mem with olock := true }, true)

/-- Giving a lock back; `sem_wait` is the only one that can wait. -/
def release (mem : Memory ι) : Guard ι → Option (Memory ι)
  | .semvar owner =>
      if mem.semvar owner = 0 then none
      else some { mem with semvar := Function.update mem.semvar owner (mem.semvar owner - 1) }
  | .mutex owner => some { mem with mutex := Function.update mem.mutex owner false }
  | .lock owner => some { mem with lock := Function.update mem.lock owner 0 }
  | .olock => some { mem with olock := false }

def step (pc : Pc ι) (mem : Memory ι) : Option (Memory ι × Outcome (Pc ι) Unit) :=
  match pc with
  | .fetchAndAdd => some ({ mem with counter := wrap32 (mem.counter + 1) }, .ret ())
  | .localcounter owner =>
      some ({ mem with
        localcounter := Function.update mem.localcounter owner
          (wrap32 (mem.localcounter owner + 1)) }, .ret ())
  | .acquire guard =>
      (acquire mem guard).map (fun result =>
        (result.1, if result.2 then .goto (.load (some guard)) else .retry (.acquire guard)))
  | .load guard => some (mem, .goto (.store guard mem.counter))
  | .store guard value =>
      some ({ mem with counter := wrap32 (value + 1) },
        match guard with
        | some taken => .goto (.release taken)
        | none => .ret ())
  | .release guard => (release mem guard).map (fun after => (after, .ret ()))

/-- The body of the measured loop, by the cases of `run`. -/
def iteration (run : ℤ) (owner : ι) : Pc ι :=
  if run = 0 then .fetchAndAdd
  else if run = 1 then .acquire (.semvar owner)
  else if run = 2 then .acquire (.mutex owner)
  else if run = 3 then .acquire (.lock owner)
  else if run = 4 then .load none
  else if run = 5 then .localcounter owner
  else .acquire .olock

def worker_handler (NUM_SAMPLES : ℕ) (run : ℤ) (owner : ι) : List (Pc ι) :=
  List.replicate NUM_SAMPLES (iteration run owner)

abbrev LockPool (ι : Type*) : Type _ := Pool ι (Memory ι) (Pc ι) (List (Pc ι)) Unit

def program (ι : Type*) [DecidableEq ι] :
    Program ι (Memory ι) (Pc ι) Unit (List (Pc ι)) Unit :=
  scriptProgram step (fun _ _ _ hist => hist)

/-- All threads are created with the same `run`; `semvar` is never initialised. -/
def start (NUM_SAMPLES : ℕ) (run counter : ℤ) (semvar : ι → ℕ) : LockPool ι :=
  { mem :=
      { counter := counter
        olock := false
        mutex := fun _ => false
        lock := fun _ => 0
        semvar := semvar
        localcounter := fun _ => 0 }
    thread := fun owner => .idle (worker_handler NUM_SAMPLES run owner)
    hist := () }

def Pc.Inside : Pc ι → Prop
  | .load (some _) | .store (some _) _ | .release _ => True
  | _ => False

def Exclusive (place : ι → Option (Pc ι)) : Prop :=
  ∀ left right pc other, place left = some pc → place right = some other →
    pc.Inside → other.Inside → left = right

def Finished (state : LockPool ι) : Prop := ∀ thread, state.thread thread = .idle []

def KeepsCount (T NUM_SAMPLES : ℕ) (run counter : ℤ) (semvar : Fin T → ℕ) : Prop :=
  ∀ trace state, Run (program (Fin T)).next (start NUM_SAMPLES run counter semvar) trace state →
    Exclusive state.at ∧ (Finished state → state.mem.counter = counter + T * NUM_SAMPLES)

/-- The runs whose increments are synchronised: atomic, mutex, spinlock, omp lock. -/
def Synchronised (run : ℤ) : Prop := run = 0 ∨ run = 2 ∨ run = 3 ∨ run = 6

/-! ### Threads keep to their branch -/

def Pc.entry : Pc ι → Pc ι
  | .fetchAndAdd => .fetchAndAdd
  | .localcounter owner => .localcounter owner
  | .acquire guard | .load (some guard) | .store (some guard) _ | .release guard => .acquire guard
  | .load none | .store none _ => .load none

def Working (run : ℤ) (owner : ι) (standing : Thread (Pc ι) (List (Pc ι))) : Prop :=
  (∀ pc, standing.pc? = some pc → pc.entry = iteration run owner) ∧
    ∀ pc ∈ standing.script, pc = iteration run owner

theorem step_entry {pc next : Pc ι} {mem after : Memory ι} {outcome : Outcome (Pc ι) Unit}
    (stepped : step pc mem = some (after, outcome)) (onward : outcome.pc? = some next) :
    next.entry = pc.entry := by
  cases pc with
  | fetchAndAdd => cases stepped; cases onward
  | localcounter owner => cases stepped; cases onward
  | acquire guard =>
      obtain ⟨⟨taken, free⟩, _, same⟩ := Option.map_eq_some_iff.mp stepped
      cases same
      cases free <;> cases onward <;> rfl
  | load guard => cases stepped; cases onward; cases guard <;> rfl
  | store guard value =>
      cases stepped
      cases guard with
      | none => cases onward
      | some taken => cases onward; rfl
  | release guard =>
      obtain ⟨taken, _, same⟩ := Option.map_eq_some_iff.mp stepped
      cases same
      cases onward

variable {state next : LockPool ι} {act : Act ι (Pc ι)} {run : ℤ}

omit [DecidableEq ι] in
theorem iteration_entry (run : ℤ) (owner : ι) :
    (iteration run owner).entry = iteration run owner := by
  unfold iteration
  repeat' split
  all_goals rfl

omit [DecidableEq ι] in
theorem working_start (NUM_SAMPLES : ℕ) (run counter : ℤ) (semvar : ι → ℕ) (owner : ι) :
    Working run owner ((start NUM_SAMPLES run counter semvar).thread owner) := by
  constructor
  · intro pc impossible
    cases impossible
  · intro pc member
    exact List.eq_of_mem_replicate member

theorem working_next (all : ∀ thread, Working run thread (state.thread thread))
    (moved : (program ι).next state act = some next) :
    ∀ thread, Working run thread (next.thread thread) := by
  apply Program.each_next (Working run) moved all
  · intro thread script entry left idle called
    have working := all thread
    rw [idle, scriptClient_call called] at working
    constructor
    · intro pc same
      cases same
      rw [working.2 entry List.mem_cons_self, iteration_entry]
    · intro pc member
      exact working.2 pc (List.mem_cons_of_mem entry member)
  · intro thread script left idle impossible
    cases impossible
  · intro thread pc script mem outcome _ busy stepped
    have working := all thread
    rw [busy] at working
    constructor
    · intro reached same
      rw [Program.resume_pc] at same
      rw [step_entry stepped same]
      exact working.1 pc rfl
    · cases outcome <;> exact working.2

omit [DecidableEq ι] in
theorem Working.synchronised {owner : ι} {standing : Thread (Pc ι) (List (Pc ι))} {pc : Pc ι}
    (working : Working run owner standing) (kind : Synchronised run)
    (at_ : standing.pc? = some pc) :
    pc ≠ .load none ∧ (∀ value, pc ≠ .store none value) ∧ ∀ own, pc ≠ .localcounter own := by
  have entry := working.1 pc at_
  unfold iteration at entry
  refine ⟨?_, ?_, ?_⟩
  · rintro rfl
    rcases kind with rfl | rfl | rfl | rfl <;> cases entry
  · rintro value rfl
    rcases kind with rfl | rfl | rfl | rfl <;> cases entry
  · rintro own rfl
    rcases kind with rfl | rfl | rfl | rfl <;> cases entry

/-! ### The shared lock -/

theorem mutex_next (shared : ∀ owner : ι, iteration run owner = .acquire .olock)
    (all : ∀ thread, Working run thread (state.thread thread))
    (mutex : Mutex Pc.Inside state.mem.olock state.at)
    (moved : (program ι).next state act = some next) :
    Mutex Pc.Inside next.mem.olock next.at := by
  rcases Program.next_cases moved with
    ⟨thread, entry, script, left, rfl, idle, called, rfl⟩ |
    ⟨thread, script, left, rfl, idle, impossible, rfl⟩ |
    ⟨thread, pc, script, mem, outcome, rfl, busy, stepped, rfl⟩
  · have outside : ¬ entry.Inside := by
      have working := (all thread).2
      rw [idle, scriptClient_call called] at working
      rw [working entry List.mem_cons_self, shared]
      exact id
    change Mutex Pc.Inside state.mem.olock
      (fun other => (Function.update state.thread thread _ other).pc?)
    rw [at_update]
    exact mutex.enter (Pool.at_idle idle) outside
  · cases impossible
  · have at_ : state.at thread = some pc := Pool.at_busy busy
    have entered : pc.entry = .acquire .olock := by
      rw [(all thread).1 pc at_, shared]
    change Mutex Pc.Inside mem.olock
      (fun other => (Function.update state.thread thread _ other).pc?)
    rw [at_update, Program.resume_pc]
    cases pc with
    | fetchAndAdd => cases entered
    | localcounter owner => cases entered
    | acquire guard =>
        cases entered
        cases taken : state.mem.olock with
        | true =>
            simp only [program, scriptProgram, step, acquire, taken, if_true, Option.map_none]
              at stepped
            cases stepped
        | false =>
            simp only [program, scriptProgram, step, acquire, taken, Bool.false_eq_true, if_false,
              Option.map_some] at stepped
            cases stepped
            rw [taken] at mutex
            exact mutex.acquire thread trivial
    | load guard =>
        cases guard with
        | none => cases entered
        | some guard =>
            cases stepped
            exact mutex.stay at_ trivial trivial
    | store guard value =>
        cases guard with
        | none => cases entered
        | some guard =>
            cases stepped
            exact mutex.stay at_ trivial trivial
    | release guard =>
        cases entered
        cases stepped
        apply mutex.release at_ trivial
        intro pc impossible
        cases impossible

/-- Why at most one thread is inside: nobody is, the lock is shared, or there is one thread. -/
inductive Guarded (run : ℤ) (state : LockPool ι) : Prop where
  | lockless (entry : ∀ owner : ι, iteration run owner = .fetchAndAdd)
  | shared (entry : ∀ owner : ι, iteration run owner = .acquire .olock)
      (mutex : Mutex Pc.Inside state.mem.olock state.at)
  | single (same : ∀ left right : ι, left = right)

omit [DecidableEq ι] in
theorem Guarded.exclusive (guarded : Guarded run state)
    (all : ∀ thread, Working run thread (state.thread thread)) : Exclusive state.at := by
  intro left right pc other leftAt rightAt inside beside
  cases guarded with
  | lockless entry =>
      have entered := (all left).1 pc leftAt
      rw [entry] at entered
      cases pc with
      | load guard => cases guard <;> cases entered
      | store guard value => cases guard <;> cases entered
      | release guard => cases entered
      | fetchAndAdd => exact absurd inside id
      | localcounter owner => exact absurd inside id
      | acquire guard => exact absurd inside id
  | shared entry mutex => exact mutex.alone left right pc other leftAt rightAt inside beside
  | single same => exact same left right

theorem Guarded.kept (guarded : Guarded run state)
    (all : ∀ thread, Working run thread (state.thread thread))
    (moved : (program ι).next state act = some next) : Guarded run next := by
  cases guarded with
  | lockless entry => exact .lockless entry
  | shared entry mutex => exact .shared entry (mutex_next entry all mutex moved)
  | single same => exact .single same

/-! ### What is counted -/

def pending : Pc ι → ℤ
  | .release _ => 0
  | _ => 1

omit [DecidableEq ι] in
theorem pending_nonneg (pc : Pc ι) : 0 ≤ pending pc := by
  unfold pending
  split <;> omega

omit [DecidableEq ι] in
theorem pending_iteration (run : ℤ) (owner : ι) : pending (iteration run owner) = 1 := by
  unfold iteration
  repeat' split
  all_goals rfl

def account [Fintype ι] (state : LockPool ι) : ℤ :=
  state.total (fun mem _ => mem.counter) (Thread.due pending)

structure Counted [Fintype ι] (run low high : ℤ) (state : LockPool ι) : Prop where
  working : ∀ thread, Working run thread (state.thread thread)
  guarded : Guarded run state
  fresh : ∀ thread guard value, state.at thread = some (.store guard value) →
    value = state.mem.counter
  above : low ≤ state.mem.counter
  balance : account state = high

variable [Fintype ι] {low high : ℤ}

omit [DecidableEq ι] in
theorem Counted.room (counted : Counted run low high state) {thread : ι} {pc : Pc ι}
    (at_ : state.at thread = some pc) (due : pending pc = 1) : state.mem.counter + 1 ≤ high := by
  rw [← due, ← counted.balance]
  exact Pool.due_le_total (fun mem _ => mem.counter) pending_nonneg at_

omit [DecidableEq ι] in
theorem Counted.increment (counted : Counted run low high state) (least : -2 ^ 31 ≤ low)
    (most : high < 2 ^ 31) {thread : ι} {pc : Pc ι} (at_ : state.at thread = some pc)
    (due : pending pc = 1) : wrap32 (state.mem.counter + 1) = state.mem.counter + 1 := by
  have above := counted.above
  have room := counted.room at_ due
  exact wrap32_eq (by omega) (by omega)

omit [Fintype ι] in
theorem acquire_counter {mem after : Memory ι} {guard : Guard ι} {free : Bool}
    (took : acquire mem guard = some (after, free)) : after.counter = mem.counter := by
  cases guard with
  | semvar owner => cases took; rfl
  | mutex owner =>
      simp only [acquire] at took
      split at took <;> cases took
      rfl
  | lock owner =>
      simp only [acquire] at took
      split at took <;> cases took <;> rfl
  | olock =>
      simp only [acquire] at took
      split at took <;> cases took
      rfl

omit [Fintype ι] in
theorem release_counter {mem after : Memory ι} {guard : Guard ι}
    (gave : release mem guard = some after) : after.counter = mem.counter := by
  cases guard with
  | semvar owner =>
      simp only [release] at gave
      split at gave <;> cases gave
      rfl
  | mutex owner => cases gave; rfl
  | lock owner => cases gave; rfl
  | olock => cases gave; rfl

inductive Effect (pc : Pc ι) (mem after : Memory ι) (outcome : Outcome (Pc ι) Unit) : Prop where
  | keeps (counter : after.counter = mem.counter)
      (weight : outcome.pc?.elim 0 pending = pending pc)
      (fresh : ∀ guard value, outcome.pc? = some (.store guard value) → value = mem.counter)
  | counts (counter : after.counter = wrap32 (mem.counter + 1)) (due : pending pc = 1)
      (weight : outcome.pc?.elim 0 pending = 0) (alone : pc = .fetchAndAdd ∨ pc.Inside)
      (past : ∀ guard value, outcome.pc? ≠ some (.store guard value))

omit [Fintype ι] in
theorem step_effect {pc : Pc ι} {mem after : Memory ι} {outcome : Outcome (Pc ι) Unit}
    (stepped : step pc mem = some (after, outcome))
    (fresh : ∀ guard value, pc = .store guard value → value = mem.counter)
    (synchronised : pc ≠ .load none ∧ (∀ value, pc ≠ .store none value) ∧
      ∀ own, pc ≠ .localcounter own) : Effect pc mem after outcome := by
  cases pc with
  | fetchAndAdd =>
      cases stepped
      exact .counts rfl rfl rfl (Or.inl rfl) (by intro guard value impossible; cases impossible)
  | localcounter owner => exact absurd rfl (synchronised.2.2 owner)
  | acquire guard =>
      obtain ⟨⟨taken, free⟩, took, same⟩ := Option.map_eq_some_iff.mp stepped
      cases same
      have counter := acquire_counter took
      cases free with
      | true => exact .keeps counter rfl (by intro guard value impossible; cases impossible)
      | false => exact .keeps counter rfl (by intro guard value impossible; cases impossible)
  | load guard =>
      cases stepped
      exact .keeps rfl rfl (by intro guard value same; cases same; rfl)
  | store guard value =>
      cases stepped
      cases guard with
      | none => exact absurd rfl (synchronised.2.1 value)
      | some taken =>
          have inside : (Pc.store (some taken) value).Inside := trivial
          apply Effect.counts _ rfl rfl (Or.inr inside)
          · intro guard other impossible
            cases impossible
          · change wrap32 (value + 1) = _
            rw [fresh _ value rfl]
  | release guard =>
      obtain ⟨freed, gave, same⟩ := Option.map_eq_some_iff.mp stepped
      cases same
      exact .keeps (release_counter gave) rfl (by intro guard value impossible; cases impossible)

omit [DecidableEq ι] [Fintype ι] in
theorem run_of_fetchAndAdd {owner : ι} (entry : iteration run owner = .fetchAndAdd) : run = 0 := by
  unfold iteration at entry
  by_contra other
  rw [if_neg other] at entry
  repeat' split at entry
  all_goals cases entry

omit [DecidableEq ι] in
/-- An increment is made while no other thread holds an old value of the counter. -/
theorem Counted.others (counted : Counted run low high state) {thread other : ι} {pc : Pc ι}
    {guard : Option (Guard ι)} {value : ℤ} (kind : Synchronised run)
    (at_ : state.at thread = some pc) (alone : pc = .fetchAndAdd ∨ pc.Inside)
    (different : other ≠ thread) : state.at other ≠ some (.store guard value) := by
  intro standing
  have working := counted.working other
  rcases alone with rfl | inside
  · have mine := (counted.working thread).1 _ at_
    have zero := run_of_fetchAndAdd mine.symm
    have theirs := working.1 _ standing
    rw [zero] at theirs
    cases guard <;> cases theirs
  · cases guard with
    | none => exact (working.synchronised kind standing).2.1 value rfl
    | some taken =>
        have exclusive := counted.guarded.exclusive counted.working
        exact different (exclusive other thread _ pc standing at_ trivial inside)

theorem Counted.effect (counted : Counted run low high state) (kind : Synchronised run)
    {thread : ι} {pc : Pc ι} {mem : Memory ι} {outcome : Outcome (Pc ι) Unit}
    (at_ : state.at thread = some pc) (stepped : step pc state.mem = some (mem, outcome)) :
    Effect pc state.mem mem outcome :=
  step_effect stepped (fun guard value same => counted.fresh thread guard value (same ▸ at_))
    ((counted.working thread).synchronised kind at_)

theorem Counted.account_next (counted : Counted run low high state) (kind : Synchronised run)
    (least : -2 ^ 31 ≤ low) (most : high < 2 ^ 31)
    (moved : (program ι).next state act = some next) : account next = high := by
  rw [← counted.balance]
  apply script_total_next moved
  intro thread pc mem outcome _ at_ stepped
  cases counted.effect kind at_ stepped with
  | keeps counter weight fresh => rw [counter, weight]
  | counts counter due weight alone past =>
      rw [counter, counted.increment least most at_ due, weight, due, Int.add_zero]

theorem Counted.next_of_move (counted : Counted run low high state) (kind : Synchronised run)
    (least : -2 ^ 31 ≤ low) (most : high < 2 ^ 31) {thread : ι} {pc : Pc ι} {script : List (Pc ι)}
    {mem : Memory ι} {outcome : Outcome (Pc ι) Unit} (busy : state.thread thread = .busy pc script)
    (stepped : step pc state.mem = some (mem, outcome)) (moved :
      (program ι).next state (.move thread) = some next) : Counted run low high next := by
  have at_ : state.at thread = some pc := Pool.at_busy busy
  have stepping : (program ι).step pc state.mem = some (mem, outcome) := stepped
  have facts := Program.moved_of busy stepping moved
  have effect := counted.effect kind at_ stepped
  have stands : next.at thread = outcome.pc? := by
    rw [Pool.at, facts.thread_eq, Program.resume_pc]
  have elsewhere : ∀ other, other ≠ thread → next.at other = state.at other := by
    intro other different
    rw [Pool.at, facts.others other different]
    rfl
  have working := working_next counted.working moved
  have guarded := counted.guarded.kept counted.working moved
  have above := counted.above
  have balance := counted.account_next kind least most moved
  cases effect with
  | keeps counter weight fresh =>
      rw [← facts.mem_eq] at counter
      constructor
      · exact working
      · exact guarded
      · intro other guard value standing
        rw [counter]
        by_cases same : other = thread
        · subst other
          rw [stands] at standing
          exact fresh guard value standing
        · rw [elsewhere other same] at standing
          exact counted.fresh other guard value standing
      · omega
      · exact balance
  | counts counter due weight alone past =>
      rw [← facts.mem_eq, counted.increment least most at_ due] at counter
      constructor
      · exact working
      · exact guarded
      · intro other guard value standing
        exfalso
        by_cases same : other = thread
        · subst other
          rw [stands] at standing
          exact past guard value standing
        · rw [elsewhere other same] at standing
          exact counted.others kind at_ alone same standing
      · omega
      · exact balance

theorem Counted.kept (counted : Counted run low high state) (kind : Synchronised run)
    (least : -2 ^ 31 ≤ low) (most : high < 2 ^ 31)
    (moved : (program ι).next state act = some next) : Counted run low high next := by
  rcases Program.next_cases moved with
    ⟨thread, entry, script, left, rfl, idle, called, same⟩ |
    ⟨thread, script, left, rfl, idle, impossible, same⟩ |
    ⟨thread, pc, script, mem, outcome, rfl, busy, stepped, same⟩
  · have working := (counted.working thread).2
    have whole := scriptClient_call called
    rw [idle, whole] at working
    have entered := iteration_entry run thread
    rw [← working entry List.mem_cons_self] at entered
    have starts : ∀ guard value, entry ≠ .store guard value := by
      rintro guard value rfl
      cases guard <;> cases entered
    obtain ⟨reached, also, facts⟩ := Program.call_exists idle called
    cases also.symm.trans moved
    constructor
    · exact working_next counted.working moved
    · exact counted.guarded.kept counted.working moved
    · intro other guard value standing
      rw [facts.mem_eq]
      by_cases self : other = thread
      · subst other
        rw [Pool.at, facts.thread_eq] at standing
        cases standing
        exact absurd rfl (starts guard value)
      · rw [Pool.at, facts.others other self] at standing
        exact counted.fresh other guard value standing
    · rw [facts.mem_eq]
      exact counted.above
    · exact counted.account_next kind least most moved
  · cases impossible
  · exact counted.next_of_move kind least most busy stepped moved

theorem Counted.begins {T NUM_SAMPLES : ℕ} {counter : ℤ} (semvar : Fin T → ℕ)
    (condition : run = 0 ∨ run = 6 ∨ T = 1) :
    Counted run counter (counter + T * NUM_SAMPLES) (start NUM_SAMPLES run counter semvar) := by
  constructor
  · exact working_start NUM_SAMPLES run counter semvar
  · rcases condition with rfl | rfl | rfl
    · exact .lockless (fun _ => rfl)
    · exact .shared (fun _ => rfl) Mutex.start
    · exact .single Subsingleton.elim
  · intro thread guard value impossible
    cases impossible
  · exact le_refl counter
  · have each : ∀ owner : Fin T,
        Thread.due pending ((start NUM_SAMPLES run counter semvar).thread owner) = NUM_SAMPLES := by
      intro owner
      change ((List.replicate NUM_SAMPLES (iteration run owner)).map pending).sum = _
      rw [List.map_replicate, pending_iteration, List.sum_replicate, nsmul_eq_mul, mul_one]
    change counter + ∑ owner, Thread.due pending _ = _
    rw [Finset.sum_congr rfl (fun owner _ => each owner), Finset.sum_const, Finset.card_univ,
      Fintype.card_fin, nsmul_eq_mul]

theorem keepsCount_of {T NUM_SAMPLES : ℕ} {counter : ℤ} {semvar : Fin T → ℕ}
    (kind : Synchronised run) (least : -2 ^ 31 ≤ counter) (condition : run = 0 ∨ run = 6 ∨ T = 1)
    (most : counter + T * NUM_SAMPLES < 2 ^ 31) : KeepsCount T NUM_SAMPLES run counter semvar := by
  intro trace state ran
  have counted : Counted run counter (counter + T * NUM_SAMPLES) state :=
    ran.invariant (meets_true trace) (Counted.begins semvar condition)
      (fun _ _ _ now _ moved => now.kept kind least most moved)
  constructor
  · exact counted.guarded.exclusive counted.working
  · intro finished
    have balance := counted.balance
    rw [account, total_done _ _ finished] at balance
    exact balance

/-! ### One thread after the other -/

omit [Fintype ι] in
structure Resting (counter : ℤ) (calls : ℕ) (mem : Memory ι) : Prop where
  olock_free : mem.olock = false
  mutex_free : ∀ owner, mem.mutex owner = false
  lock_free : ∀ owner, mem.lock owner = 0
  counted : mem.counter = wrap32 (counter + calls)

theorem wrap32_succ (value : ℤ) : wrap32 (wrap32 value + 1) = wrap32 (value + 1) :=
  Int.bmod_add_bmod

omit [Fintype ι] in
/-- An iteration run alone takes its lock, increments and gives the lock back. -/
theorem Resting.iterates {counter : ℤ} {calls : ℕ} {mem : Memory ι}
    (resting : Resting counter calls mem) (kind : Synchronised run) (owner : ι) :
    ∃ after value retries, Returns step (iteration run owner) mem after value retries ∧
      Resting counter (calls + 1) after := by
  have counted : wrap32 (mem.counter + 1) = wrap32 (counter + (calls + 1 : ℕ)) := by
    rw [resting.counted, wrap32_succ, Int.add_assoc]
    rfl
  rcases kind with rfl | rfl | rfl | rfl
  · exact ⟨_, (), 0, Returns.of_ret rfl,
      { olock_free := resting.olock_free
        mutex_free := resting.mutex_free
        lock_free := resting.lock_free
        counted := counted }⟩
  · have takes : step (.acquire (.mutex owner)) mem = some
        ({ mem with mutex := Function.update mem.mutex owner true },
          .goto (.load (some (.mutex owner)))) := by
      simp only [step, acquire, resting.mutex_free, Bool.false_eq_true, if_false, Option.map_some,
        if_true]
    refine ⟨_, (), 0, Returns.of_goto takes (Returns.of_goto rfl
      (Returns.of_goto rfl (Returns.of_ret rfl))), ?_⟩
    constructor
    · exact resting.olock_free
    · intro other
      change Function.update (Function.update mem.mutex owner true) owner false other = false
      by_cases same : other = owner
      · rw [same, Function.update_self]
      · rw [Function.update_of_ne same, Function.update_of_ne same, resting.mutex_free]
    · exact resting.lock_free
    · exact counted
  · have takes : step (.acquire (.lock owner)) mem = some
        ({ mem with lock := Function.update mem.lock owner 1 },
          .goto (.load (some (.lock owner)))) := by
      simp only [step, acquire, resting.lock_free, if_true, Option.map_some]
    refine ⟨_, (), 0, Returns.of_goto takes (Returns.of_goto rfl
      (Returns.of_goto rfl (Returns.of_ret rfl))), ?_⟩
    constructor
    · exact resting.olock_free
    · exact resting.mutex_free
    · intro other
      change Function.update (Function.update mem.lock owner 1) owner 0 other = 0
      by_cases same : other = owner
      · rw [same, Function.update_self]
      · rw [Function.update_of_ne same, Function.update_of_ne same, resting.lock_free]
    · exact counted
  · have takes : step (.acquire .olock) mem = some
        ({ mem with olock := true }, .goto (.load (some .olock))) := by
      simp only [step, acquire, resting.olock_free, Bool.false_eq_true, if_false, Option.map_some,
        if_true]
    refine ⟨_, (), 0, Returns.of_goto takes (Returns.of_goto rfl
      (Returns.of_goto rfl (Returns.of_ret rfl))), ?_⟩
    constructor
    · rfl
    · exact resting.mutex_free
    · exact resting.lock_free
    · exact counted

theorem finishes {NUM_SAMPLES : ℕ} {counter : ℤ} {calls : ℕ} (kind : Synchronised run)
    (state : LockPool ι) (resting : Resting counter calls state.mem)
    (idle : ∀ thread, state.thread thread = .idle (worker_handler NUM_SAMPLES run thread)) :
    ∃ final, Reaches (program ι).next (fun _ _ => True) state final ∧ Finished final ∧
      final.mem.counter = wrap32 (counter + (calls + Fintype.card ι * NUM_SAMPLES : ℕ)) := by
  obtain ⟨final, reached, ended, done, _⟩ := scripts_reach (Resting counter)
    (worker_handler NUM_SAMPLES run) calls Finset.univ
    (by
      intro n mem thread pc _ member held
      rw [List.eq_of_mem_replicate member]
      exact held.iterates kind thread)
    (fun thread _ => idle thread) resting
  refine ⟨final, reached, fun thread => done thread (Finset.mem_univ thread), ?_⟩
  rw [ended.counted]
  simp only [worker_handler, List.length_replicate, Finset.sum_const, Finset.card_univ,
    nsmul_eq_mul, Nat.cast_id]

theorem wrap32_lt (value : ℤ) : wrap32 value < 2 ^ 31 := by
  have bound : value.bmod (2 ^ 32) < ((2 ^ 32 : ℕ) + 1) / 2 := Int.bmod_lt (by omega)
  unfold wrap32
  omega

theorem within_int {T NUM_SAMPLES : ℕ} {counter : ℤ} {semvar : Fin T → ℕ}
    (kind : Synchronised run) (least : -2 ^ 31 ≤ counter) (most : counter < 2 ^ 31)
    (keeps : KeepsCount T NUM_SAMPLES run counter semvar) :
    counter + T * NUM_SAMPLES < 2 ^ 31 := by
  have resting : Resting counter 0 (start NUM_SAMPLES run counter semvar).mem :=
    { olock_free := rfl
      mutex_free := fun _ => rfl
      lock_free := fun _ => rfl
      counted := by
        rw [Nat.cast_zero, Int.add_zero, wrap32_eq least most]
        rfl }
  obtain ⟨final, ⟨trace, ran, _⟩, finished, counted⟩ :=
    finishes kind (start NUM_SAMPLES run counter semvar) resting (fun _ => rfl)
  have kept := (keeps trace final ran).2 finished
  have bound := wrap32_lt (counter + (0 + Fintype.card (Fin T) * NUM_SAMPLES : ℕ))
  rw [← counted, kept] at bound
  exact bound

/-! ### Threads that each take their own lock -/

omit [Fintype ι] in
theorem enters (state : LockPool ι) {thread : ι} (guard : Guard ι) {rest : List (Pc ι)}
    {mem : Memory ι} (idle : state.thread thread = .idle (.acquire guard :: rest))
    (free : acquire state.mem guard = some (mem, true)) :
    ∃ final, Reaches (program ι).next (fun _ _ => True) state final ∧ final.mem = mem ∧
      final.at thread = some (.load (some guard)) ∧
      ∀ other, other ≠ thread → final.thread other = state.thread other := by
  have called : (program ι).call (.acquire guard :: rest) (.acquire guard) = some rest := if_pos rfl
  obtain ⟨middle, call, entered⟩ := Program.call_exists idle called
  have takes : step (.acquire guard) middle.mem = some (mem, .goto (.load (some guard))) := by
    simp only [step, entered.mem_eq, free, Option.map_some, if_true]
  obtain ⟨final, moved, facts⟩ := (program ι).move_exists entered.thread_eq takes
  refine ⟨final, ((Reaches.refl _ _ state).tail trivial call).tail trivial moved, facts.mem_eq,
    ?_, ?_⟩
  · rw [Pool.at, facts.thread_eq]
    rfl
  · intro other different
    rw [facts.others other different, entered.others other different]

theorem both_inside {T NUM_SAMPLES : ℕ} {counter : ℤ} {semvar : Fin T → ℕ}
    (sampled : 0 < NUM_SAMPLES) (several : 1 < T) (own : run = 2 ∨ run = 3) :
    ¬ KeepsCount T NUM_SAMPLES run counter semvar := by
  intro keeps
  let left : Fin T := ⟨0, by omega⟩
  let right : Fin T := ⟨1, several⟩
  have apart : right ≠ left := by
    intro same
    cases Fin.mk.inj same
  have makes : ∀ owner : Fin T, worker_handler NUM_SAMPLES run owner =
      iteration run owner :: List.replicate (NUM_SAMPLES - 1) (iteration run owner) := by
    intro owner
    rw [← List.replicate_succ, Nat.sub_add_cancel sampled]
    rfl
  have meet : ∃ final, Reaches (program (Fin T)).next (fun _ _ => True)
      (start NUM_SAMPLES run counter semvar) final ∧
      (∃ guard, final.at left = some (.load (some guard))) ∧
      ∃ guard, final.at right = some (.load (some guard)) := by
    rcases own with rfl | rfl
    · obtain ⟨middle, early, mem, first, others⟩ :=
        enters (start NUM_SAMPLES 2 counter semvar) (.mutex left)
          (congrArg Thread.idle (makes left)) rfl
      have free : middle.mem.mutex right = false := by
        rw [mem]
        exact Function.update_of_ne apart true (fun _ => false)
      have takes : acquire middle.mem (.mutex right) = some
          ({ middle.mem with mutex := Function.update middle.mem.mutex right true }, true) := by
        simp only [acquire, free, Bool.false_eq_true, if_false]
      obtain ⟨final, late, _, second, same⟩ := enters middle (.mutex right)
        ((others right apart).trans (congrArg Thread.idle (makes right))) takes
      refine ⟨final, early.trans late, ⟨.mutex left, ?_⟩, ⟨.mutex right, second⟩⟩
      rw [Pool.at, same left apart.symm]
      exact first
    · obtain ⟨middle, early, mem, first, others⟩ :=
        enters (start NUM_SAMPLES 3 counter semvar) (.lock left)
          (congrArg Thread.idle (makes left)) rfl
      have free : middle.mem.lock right = 0 := by
        rw [mem]
        exact Function.update_of_ne apart 1 (fun _ => (0 : ℤ))
      have takes : acquire middle.mem (.lock right) = some
          ({ middle.mem with lock := Function.update middle.mem.lock right 1 }, true) := by
        simp only [acquire, free, if_true]
      obtain ⟨final, late, _, second, same⟩ := enters middle (.lock right)
        ((others right apart).trans (congrArg Thread.idle (makes right))) takes
      refine ⟨final, early.trans late, ⟨.lock left, ?_⟩, ⟨.lock right, second⟩⟩
      rw [Pool.at, same left apart.symm]
      exact first
  obtain ⟨final, ⟨trace, ran, _⟩, ⟨guard, first⟩, ⟨other, second⟩⟩ := meet
  exact apart ((keeps trace final ran).1 left right _ _ first second trivial trivial).symm

def overlap (first second : Fin 2) : List (Act (Fin 2) (Pc (Fin 2))) :=
  [.call first (.acquire (.mutex first)), .move first, .move first,
    .call second (.acquire (.mutex second)), .move second, .move second, .move first,
    .move first, .move second, .move second]

theorem overlap_loses (more : ℕ) :
    ∃ trace state, Run (program (Fin 2)).next (start (more + 1) 2 0 (fun _ => 0)) trace state ∧
      Resting 0 1 state.mem ∧
      ∀ thread, state.thread thread = .idle (worker_handler more 2 thread) := by
  have ran : Run (program (Fin 2)).next (start (more + 1) 2 0 (fun _ => 0)) _ _ :=
    run_of_play (overlap 0 1) rfl
  refine ⟨_, _, ran, ?_, ?_⟩
  · constructor
    · rfl
    · exact Fin.forall_fin_two.mpr ⟨rfl, rfl⟩
    · exact fun _ => rfl
    · rfl
  · exact Fin.forall_fin_two.mpr ⟨rfl, rfl⟩

/-! ### What the benchmark counts -/

/-- No update is lost where the lock of the run is shared by all its threads. -/
theorem lock_keeps_count_iff {T NUM_SAMPLES : ℕ} {run counter : ℤ} {semvar : Fin T → ℕ}
    (threads : 1 ≤ T) (sampled : 0 < NUM_SAMPLES) (kind : Synchronised run)
    (least : -2 ^ 31 ≤ counter) (most : counter < 2 ^ 31) :
    KeepsCount T NUM_SAMPLES run counter semvar ↔
      (run = 0 ∨ run = 6 ∨ T = 1) ∧ counter + T * NUM_SAMPLES < 2 ^ 31 := by
  constructor
  · intro keeps
    constructor
    · by_contra other
      rw [not_or, not_or] at other
      obtain ⟨atomic, omp, several⟩ := other
      rcases kind with zero | two | three | six
      · exact atomic zero
      · exact both_inside sampled (by omega) (Or.inl two) keeps
      · exact both_inside sampled (by omega) (Or.inr three) keeps
      · exact omp six
    · exact within_int kind least most keeps
  · intro both
    exact keepsCount_of kind least both.1 both.2

theorem lock_keeps_count_omp :
    KeepsCount 4 1000001 6 0 (fun _ => 0) :=
  (lock_keeps_count_iff (by decide) (by decide) (Or.inr (Or.inr (Or.inr rfl))) (by decide)
    (by decide)).mpr ⟨Or.inr (Or.inl rfl), by decide⟩

/-- Two threads under the mutex run finish one increment short. -/
theorem mutex_run_loses_update :
    ∃ trace state, Run (program (Fin 2)).next (start 1000001 2 0 (fun _ => 0)) trace state ∧
      Finished state ∧ state.mem.counter = 2 * 1000001 - 1 := by
  obtain ⟨early, middle, ran, resting, idle⟩ := overlap_loses 1000000
  obtain ⟨final, ⟨late, onward, _⟩, finished, counted⟩ :=
    finishes (Or.inr (Or.inl rfl)) middle resting idle
  refine ⟨early ++ late, final, ran.append onward, finished, ?_⟩
  rw [counted, wrap32_eq]
  · rfl
  · decide
  · decide

end QueueBench.Locks
