import QueueBench.Lib.LostUpdate
import QueueBench.LockCounter

/-! What the lock benchmark of locks/locks.c can leave in `counter` where its threads share no
lock: in the mutex run and the spinlock run, as in the run without a lock, an iteration is a load
and a store with nothing that keeps the other threads out. -/

namespace QueueBench.Locks
open LostUpdate (Race Sound Leads)
open Machine (Outcome Pool Program Act Thread scriptProgram scriptClient_call script_call
  resume_calls)
open RingArith (wrap32 wrap32_eq)
open Transition (Run Reaches meets_true run_of_play)

open scoped BigOperators

variable {ι : Type*} [DecidableEq ι]

/-- The runs mutex, spinlock and vanila shared. -/
def Unshared (run : ℤ) : Prop := run = 2 ∨ run = 3 ∨ run = 4

def guard (run : ℤ) (owner : ι) : Option (Guard ι) :=
  if run = 2 then some (.mutex owner) else if run = 3 then some (.lock owner) else none

def unread : Pc ι → ℕ
  | .acquire _ | .load _ => 1
  | _ => 0

def Pc.loaded? : Pc ι → Option ℤ
  | .store _ value => some value
  | _ => none

/-- The increments as loads and stores. -/
def race (state : LockPool ι) : Race ι :=
  { left := fun thread => Thread.due unread (state.thread thread)
    read := fun thread => (state.at thread).bind Pc.loaded?
    value := state.mem.counter }

variable {run : ℤ} {state next : LockPool ι} {act : Act ι (Pc ι)}

omit [DecidableEq ι] in
theorem unread_iteration (kind : Unshared run) (owner : ι) :
    unread (iteration run owner) = 1 ∧ Pc.loaded? (iteration run owner) = none := by
  rcases kind with rfl | rfl | rfl <;> exact ⟨rfl, rfl⟩

omit [DecidableEq ι] in
theorem Working.unshared {owner : ι} {standing : Thread (Pc ι) (List (Pc ι))} {pc : Pc ι}
    (working : Working run owner standing) (kind : Unshared run) (at_ : standing.pc? = some pc) :
    pc ≠ .fetchAndAdd ∧ ∀ own, pc ≠ .localcounter own := by
  have entry := working.1 pc at_
  constructor
  · rintro rfl
    rcases kind with rfl | rfl | rfl <;> cases entry
  · rintro own rfl
    rcases kind with rfl | rfl | rfl <;> cases entry

/-! ### Every step is one of the race, or none -/

variable {thread : ι} {standing : Thread (Pc ι) (List (Pc ι))}

theorem race_eq (threads : next.thread = Function.update state.thread thread standing) :
    race next =
      { left := Function.update (race state).left thread (Thread.due unread standing)
        read := Function.update (race state).read thread (standing.pc?.bind Pc.loaded?)
        value := next.mem.counter } := by
  apply Race.ext
  · funext other
    change Thread.due unread (next.thread other) = Function.update (race state).left thread _ other
    rw [threads]
    by_cases same : other = thread
    · rw [same, Function.update_self, Function.update_self]
    · rw [Function.update_of_ne same, Function.update_of_ne same]
      rfl
  · funext other
    change (next.thread other).pc?.bind _ = Function.update (race state).read thread _ other
    rw [threads]
    by_cases same : other = thread
    · rw [same, Function.update_self, Function.update_self]
    · rw [Function.update_of_ne same, Function.update_of_ne same]
      rfl
  · rfl

theorem race_same (threads : next.thread = Function.update state.thread thread standing)
    (counter : next.mem.counter = state.mem.counter)
    (left : Thread.due unread standing = Thread.due unread (state.thread thread))
    (read : standing.pc?.bind Pc.loaded? = (state.at thread).bind Pc.loaded?) :
    race next = race state := by
  rw [race_eq threads, counter, left, read]
  apply Race.ext
  · exact Function.update_eq_self _ _
  · exact Function.update_eq_self _ _
  · rfl

variable [Fintype ι] {samples : ℕ} {low high : ℤ}

omit [Fintype ι] in
theorem due_resume (script : List (Pc ι)) (outcome : Outcome (Pc ι) Unit) :
    Thread.due unread ((program ι).resume script outcome) =
      outcome.pc?.elim 0 unread + (script.map unread).sum := by
  unfold Thread.due
  change (((scriptProgram step (fun _ _ _ hist => hist)).resume script outcome).calls.map
    unread).sum = _
  rw [resume_calls, List.map_append, List.sum_append]
  cases outcome <;> rfl

omit [DecidableEq ι] in
theorem store_exact {race : Race ι} (sound : Sound samples low high race) (least : -2 ^ 31 ≤ low)
    (most : high < 2 ^ 31) {thread : ι} {value : ℤ} (holds : race.read thread = some value) :
    wrap32 (value + 1) = value + 1 := by
  have above := sound.read_above thread value holds
  have below := sound.read_below thread value holds
  have owes := Race.owed_pos holds
  have part : race.owed thread ≤ ∑ other, race.owed other :=
    Finset.single_le_sum_of_canonicallyOrdered (Finset.mem_univ thread)
  exact wrap32_eq (by omega) (by omega)

omit [Fintype ι] in
theorem store_past {guard : Option (Guard ι)} {value : ℤ} {mem after : Memory ι}
    {outcome : Outcome (Pc ι) Unit} (stepped : step (.store guard value) mem = some (after, outcome)) :
    after.counter = wrap32 (value + 1) ∧ outcome.pc?.elim 0 unread = 0 ∧
      outcome.pc?.bind Pc.loaded? = none := by
  cases stepped
  cases guard <;> exact ⟨rfl, rfl, rfl⟩

theorem race_next (kind : Unshared run) (all : ∀ thread, Working run thread (state.thread thread))
    (sound : Sound samples low high (race state)) (least : -2 ^ 31 ≤ low) (most : high < 2 ^ 31)
    (moved : (program ι).next state act = some next) : Leads (race state) (race next) := by
  rcases Program.next_cases moved with
    ⟨thread, entry, script, left, rfl, idle, called, same⟩ |
    ⟨thread, script, left, rfl, idle, impossible, same⟩ |
    ⟨thread, pc, script, mem, outcome, rfl, busy, stepped, same⟩
  · have whole := scriptClient_call called
    have first : entry = iteration run thread := by
      have working := (all thread).2
      rw [idle, whole] at working
      exact working entry List.mem_cons_self
    have threads : next.thread = Function.update state.thread thread (.busy entry left) := by
      rw [same]
    rw [race_same threads]
    · exact Reaches.refl _ _ _
    · rw [same]
    · rw [idle, whole]
      rfl
    · rw [Pool.at_idle idle, first]
      exact (unread_iteration kind thread).2
  · cases impossible
  · have at_ : state.at thread = some pc := Pool.at_busy busy
    have unshared := (all thread).unshared kind at_
    have threads : next.thread =
        Function.update state.thread thread ((program ι).resume script outcome) := by
      rw [same]
    have counter : next.mem.counter = mem.counter := by
      rw [same]
    have due : Thread.due unread (state.thread thread) = unread pc + (script.map unread).sum := by
      rw [busy]
      rfl
    have quiet : mem.counter = state.mem.counter → outcome.pc?.elim 0 unread = unread pc →
        outcome.pc?.bind Pc.loaded? = pc.loaded? → Leads (race state) (race next) := by
      intro unchanged left read
      rw [race_same threads (counter.trans unchanged)]
      · exact Reaches.refl _ _ _
      · rw [due_resume, due, left]
      · rw [Program.resume_pc, read, at_]
        rfl
    cases pc with
    | fetchAndAdd => exact absurd rfl unshared.1
    | localcounter owner => exact absurd rfl (unshared.2 owner)
    | acquire guard =>
        obtain ⟨⟨taken, free⟩, took, result⟩ := Option.map_eq_some_iff.mp stepped
        cases result
        cases free with
        | true => exact quiet (acquire_counter took) rfl rfl
        | false => exact quiet (acquire_counter took) rfl rfl
    | release guard =>
        obtain ⟨freed, gave, result⟩ := Option.map_eq_some_iff.mp stepped
        cases result
        exact quiet (release_counter gave) rfl rfl
    | load guard =>
        cases stepped
        have idle : (race state).read thread = none := by
          change (state.at thread).bind _ = _
          rw [at_]
          rfl
        have more : (race state).left thread = 1 + (script.map unread).sum := due
        have loads : LostUpdate.next (race state) (.load thread) = some (race next) := by
          rw [LostUpdate.next_load idle (by omega), race_eq threads, due_resume, counter]
          have fewer : (race state).left thread - 1 = 0 + (script.map unread).sum := by
            rw [more]
            omega
          rw [Race.load, fewer]
          rfl
        exact (Reaches.refl _ _ _).tail trivial loads
    | store guard value =>
        obtain ⟨stored, left, read⟩ := store_past stepped
        have holds : (race state).read thread = some value := by
          change (state.at thread).bind _ = _
          rw [at_]
          rfl
        have still : (race state).left thread = 0 + (script.map unread).sum := due
        have stores : LostUpdate.next (race state) (.store thread) = some (race next) := by
          rw [LostUpdate.next_store holds, race_eq threads, due_resume, Program.resume_pc, left,
            read, ← still, Function.update_eq_self, counter, stored,
            store_exact sound least most holds]
          rfl
        exact (Reaches.refl _ _ _).tail trivial stores

/-! ### Every step of the race can be taken -/

/-- The threads stand between their calls, or have loaded and are about to store. -/
structure Stands (run : ℤ) (race : Race ι) (state : LockPool ι) : Prop where
  idle : ∀ owner, race.read owner = none →
    state.thread owner = .idle (List.replicate (race.left owner) (iteration run owner))
  busy : ∀ owner value, race.read owner = some value →
    state.thread owner = .busy (.store (guard run owner) value)
      (List.replicate (race.left owner) (iteration run owner))
  mutex : ∀ owner, state.mem.mutex owner = (run == 2 && (race.read owner).isSome)
  lock : ∀ owner, state.mem.lock owner = if run = 3 ∧ (race.read owner).isSome then 1 else 0
  counter : state.mem.counter = race.value

omit [DecidableEq ι] [Fintype ι] in
theorem stands_start (samples : ℕ) (run counter : ℤ) (semvar : ι → ℕ) :
    Stands run (Race.start ι samples counter) (start samples run counter semvar) :=
  { idle := fun _ _ => rfl
    busy := by intro owner value impossible; cases impossible
    mutex := fun _ => (Bool.and_false _).symm
    lock := by
      intro owner
      rw [if_neg]
      · rfl
      · rintro ⟨_, impossible⟩
        cases impossible
    counter := rfl }

def holding (mem : Memory ι) (run : ℤ) (owner : ι) (held : Bool) : Memory ι :=
  { mem with
    mutex := if run = 2 then Function.update mem.mutex owner held else mem.mutex
    lock :=
      if run = 3 then Function.update mem.lock owner (if held then 1 else 0) else mem.lock }

variable {owner : ι} {script : List (Pc ι)}

omit [Fintype ι] in
/-- A thread begins an iteration and loads, while the others wait. -/
theorem loads_alone (kind : Unshared run)
    (idle : state.thread owner = .idle (iteration run owner :: script))
    (mutex : state.mem.mutex owner = false) (lock : state.mem.lock owner = 0) :
    (program ι).Alone state owner (holding state.mem run owner true)
      (.busy (.store (guard run owner) state.mem.counter) script) := by
  have standing := (program ι).alone_start state owner
  rw [idle] at standing
  have called := standing.call (script_call step (fun _ _ _ hist => hist) _ script)
  rcases kind with rfl | rfl | rfl
  · have takes : step (iteration 2 owner) state.mem =
        some (holding state.mem 2 owner true, .goto (.load (some (.mutex owner)))) := by
      change (acquire state.mem (.mutex owner)).map _ = _
      simp only [acquire, mutex, Bool.false_eq_true, if_false, Option.map_some, if_true]
      rfl
    exact (called.move takes).move rfl
  · have takes : step (iteration 3 owner) state.mem =
        some (holding state.mem 3 owner true, .goto (.load (some (.lock owner)))) := by
      change (acquire state.mem (.lock owner)).map _ = _
      simp only [acquire, lock, if_true, Option.map_some]
      rfl
    exact (called.move takes).move rfl
  · exact called.move rfl

omit [Fintype ι] in
theorem stores_alone (kind : Unshared run) {value : ℤ}
    (busy : state.thread owner = .busy (.store (guard run owner) value) script) :
    (program ι).Alone state owner
      { holding state.mem run owner false with counter := wrap32 (value + 1) } (.idle script) := by
  have standing := (program ι).alone_start state owner
  rw [busy] at standing
  rcases kind with rfl | rfl | rfl
  · exact (standing.move rfl).move rfl
  · exact (standing.move rfl).move rfl
  · exact standing.move rfl

variable {stage : Race ι}

omit [Fintype ι] in
theorem Stands.moved (stands : Stands run stage state) (after : Race ι) {held : Bool}
    {standing : Thread (Pc ι) (List (Pc ι))} (alone : (program ι).Alone state owner
      { holding state.mem run owner held with counter := after.value } standing)
    (read : ∀ other, other ≠ owner → after.read other = stage.read other)
    (left : ∀ other, other ≠ owner → after.left other = stage.left other)
    (taken : (after.read owner).isSome = held)
    (idle : after.read owner = none →
      standing = .idle (List.replicate (after.left owner) (iteration run owner)))
    (busy : ∀ value, after.read owner = some value → standing = .busy
      (.store (guard run owner) value) (List.replicate (after.left owner) (iteration run owner))) :
    ∃ next, Reaches (program ι).next (fun _ _ => True) state next ∧ Stands run after next := by
  obtain ⟨next, reached, same, thread, others⟩ := alone
  refine ⟨next, reached, ?_⟩
  constructor
  · intro other none
    by_cases mine : other = owner
    · subst other
      rw [thread, idle none]
    · rw [others other mine, left other mine]
      exact stands.idle other (by rw [← read other mine]; exact none)
  · intro other value holds
    by_cases mine : other = owner
    · subst other
      rw [thread, busy value holds]
    · rw [others other mine, left other mine]
      exact stands.busy other value (by rw [← read other mine]; exact holds)
  · intro other
    rw [same]
    change (if run = 2 then Function.update state.mem.mutex owner held else state.mem.mutex) other = _
    have before := stands.mutex other
    by_cases two : run = 2
    · rw [if_pos two, Function.update_apply]
      by_cases mine : other = owner
      · rw [if_pos mine, mine, taken, two]
        rfl
      · rw [if_neg mine, before, read other mine]
    · rw [if_neg two, before, beq_false_of_ne two, Bool.false_and, Bool.false_and]
  · intro other
    rw [same]
    change (if run = 3 then Function.update state.mem.lock owner _ else state.mem.lock) other = _
    have before := stands.lock other
    by_cases three : run = 3
    · rw [if_pos three, Function.update_apply]
      by_cases mine : other = owner
      · rw [if_pos mine, mine, taken]
        simp only [three, true_and]
      · rw [if_neg mine, before, read other mine]
    · rw [if_neg three, before, if_neg (fun both => three both.1),
        if_neg (fun both => three both.1)]
  · rw [same]

omit [Fintype ι] in
theorem Stands.load (stands : Stands run stage state) (kind : Unshared run)
    (idle : stage.read owner = none) (more : 0 < stage.left owner) :
    ∃ next, Reaches (program ι).next (fun _ _ => True) state next ∧
      Stands run (stage.load owner) next := by
  have standing := stands.idle owner idle
  rw [← Nat.sub_add_cancel more, List.replicate_succ] at standing
  have mutex := stands.mutex owner
  have lock := stands.lock owner
  rw [idle, Option.isSome_none, Bool.and_false] at mutex
  rw [idle, if_neg (by simp only [Option.isSome_none, Bool.false_eq_true, and_false,
    not_false_eq_true])] at lock
  have alone := loads_alone kind standing mutex lock
  have here : (stage.load owner).read owner = some stage.value := Function.update_self _ _ _
  have less : (stage.load owner).left owner = stage.left owner - 1 := Function.update_self _ _ _
  have counter : { holding state.mem run owner true with counter := (stage.load owner).value } =
      holding state.mem run owner true := by
    change { holding state.mem run owner true with counter := stage.value } = _
    rw [← stands.counter]
    rfl
  rw [← counter, stands.counter] at alone
  apply stands.moved (stage.load owner) alone
    (fun other different => Function.update_of_ne different _ _)
    (fun other different => Function.update_of_ne different _ _)
  · rw [here]
    rfl
  · intro impossible
    rw [here] at impossible
    cases impossible
  · intro value holds
    rw [here] at holds
    cases holds
    rw [less]

omit [Fintype ι] in
theorem Stands.store (stands : Stands run stage state) (kind : Unshared run) {value : ℤ}
    (holds : stage.read owner = some value) (fits : wrap32 (value + 1) = value + 1) :
    ∃ next, Reaches (program ι).next (fun _ _ => True) state next ∧
      Stands run (stage.store owner value) next := by
  have alone := stores_alone kind (stands.busy owner value holds)
  rw [fits] at alone
  have here : (stage.store owner value).read owner = none := Function.update_self _ _ _
  apply stands.moved (stage.store owner value) alone
    (fun other different => Function.update_of_ne different _ _) (fun other _ => rfl)
  · rw [here]
    rfl
  · intro _
    rfl
  · intro other impossible
    rw [here] at impossible
    cases impossible

/-! ### Runs -/

theorem sound_leads (several : 2 ≤ samples) {after : Race ι}
    (sound : Sound samples low high stage) (leads : Leads stage after) :
    Sound samples low high after := by
  obtain ⟨path, run_, met⟩ := leads
  exact run_.invariant met sound (fun _ _ _ held _ taken => held.next several taken)

theorem Stands.leads (stands : Stands run stage state) (kind : Unshared run)
    (sound : Sound samples low high stage) (several : 2 ≤ samples) (least : -2 ^ 31 ≤ low)
    (most : high < 2 ^ 31) {after : Race ι} (leads : Leads stage after) :
    ∃ final, Reaches (program ι).next (fun _ _ => True) state final ∧ Stands run after final := by
  obtain ⟨trace, path, met⟩ := leads
  clear met
  induction path with
  | nil => exact ⟨state, Reaches.refl _ _ state, stands⟩
  | snoc before moved ih =>
      obtain ⟨middle, reached, there⟩ := ih
      have kept := sound_leads several sound ⟨_, before, meets_true _⟩
      rcases LostUpdate.next_cases moved with ⟨owner, idle, more, rfl⟩ | ⟨owner, value, holds, rfl⟩
      · obtain ⟨final, onward, stands⟩ := there.load kind idle more
        exact ⟨final, reached.trans onward, stands⟩
      · obtain ⟨final, onward, stands⟩ :=
          there.store kind holds (store_exact kept least most holds)
        exact ⟨final, reached.trans onward, stands⟩

omit [DecidableEq ι] [Fintype ι] in
theorem race_start (kind : Unshared run) (samples : ℕ) (counter : ℤ) (semvar : ι → ℕ) :
    race (start samples run counter semvar) = Race.start ι samples counter := by
  apply Race.ext
  · funext owner
    change ((List.replicate samples (iteration run owner)).map unread).sum = samples
    rw [List.map_replicate, (unread_iteration kind owner).1, List.sum_replicate, nsmul_eq_mul,
      Nat.cast_id, Nat.mul_one]
  · rfl
  · rfl

theorem race_leads (kind : Unshared run) (several : 2 ≤ samples) [Nonempty ι] {counter : ℤ}
    (least : -2 ^ 31 ≤ counter) (most : counter + (Fintype.card ι * samples : ℕ) < 2 ^ 31)
    (semvar : ι → ℕ) {trace : List (LockPool ι × Act ι (Pc ι))}
    (ran : Run (program ι).next (start samples run counter semvar) trace state) :
    Leads (Race.start ι samples counter) (race state) := by
  rw [← race_start kind samples counter semvar]
  let holds : LockPool ι → Prop := fun now => (∀ thread, Working run thread (now.thread thread)) ∧
    Sound samples counter (counter + (Fintype.card ι * samples : ℕ)) (race now)
  have begins : holds (start samples run counter semvar) := by
    refine ⟨working_start samples run counter semvar, ?_⟩
    rw [race_start kind]
    exact LostUpdate.sound_start (by omega) counter
  apply ran.simulated race begins
  · intro state act next held moved
    have leads := race_next kind held.1 held.2 least most moved
    exact ⟨working_next held.1 moved, sound_leads several held.2 leads⟩
  · intro state act next held moved
    exact race_next kind held.1 held.2 least most moved

omit [DecidableEq ι] [Fintype ι] in
theorem Stands.finished (stands : Stands run stage state) (ended : stage.Over) : Finished state := by
  intro owner
  rw [stands.idle owner (ended owner).2, (ended owner).1]
  rfl

omit [DecidableEq ι] [Fintype ι] in
theorem over_of_finished (finished : Finished state) : (race state).Over := by
  intro owner
  constructor
  · change Thread.due unread (state.thread owner) = 0
    rw [finished owner]
    rfl
  · change (state.thread owner).pc?.bind Pc.loaded? = none
    rw [finished owner]
    rfl

/-- The threads of a run whose lock is not shared leave in `counter` what unsynchronised
increments can leave: anything from two more than at the start up to the full count. -/
theorem unshared_counter_iff {T NUM_SAMPLES : ℕ} {run counter : ℤ} (semvar : Fin T → ℕ)
    (kind : Unshared run) (threads : 2 ≤ T) (sampled : 2 ≤ NUM_SAMPLES)
    (least : -2 ^ 31 ≤ counter) (most : counter + T * NUM_SAMPLES < 2 ^ 31) (value : ℤ) :
    (∃ trace state, Run (program (Fin T)).next (start NUM_SAMPLES run counter semvar) trace state ∧
      Finished state ∧ state.mem.counter = value) ↔
      counter + 2 ≤ value ∧ value ≤ counter + T * NUM_SAMPLES := by
  have several : Nontrivial (Fin T) := Fin.nontrivial_iff_two_le.mpr threads
  have all : ((Fintype.card (Fin T) * NUM_SAMPLES : ℕ) : ℤ) = T * NUM_SAMPLES := by
    rw [Fintype.card_fin, Nat.cast_mul]
  have possible := LostUpdate.left_iff (ι := Fin T) sampled counter value
  rw [all] at possible
  rw [← possible]
  rw [← all] at most
  constructor
  · rintro ⟨trace, state, ran, finished, rfl⟩
    exact ⟨race state, race_leads kind sampled least most semvar ran, over_of_finished finished, rfl⟩
  · rintro ⟨final, leads, ended, rfl⟩
    obtain ⟨state, ⟨trace, ran, _⟩, stands⟩ := (stands_start NUM_SAMPLES run counter semvar).leads
      kind (LostUpdate.sound_start (show 0 < NUM_SAMPLES by omega) counter) sampled least most leads
    exact ⟨trace, state, ran, stands.finished ended, stands.counter⟩

theorem unshared_counter_iff_two :
    ∃ trace state, Run (program (Fin 8)).next (start 1000001 3 0 (fun _ => 0)) trace state ∧
      Finished state ∧ state.mem.counter = 2 :=
  (unshared_counter_iff (fun _ => 0) (Or.inr (Or.inl rfl)) (by decide) (by decide) (by decide)
    (by decide) 2).mpr (by decide)

end QueueBench.Locks
