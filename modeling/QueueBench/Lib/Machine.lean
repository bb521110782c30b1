import Mathlib.Logic.Function.Basic
import QueueBench.Lib.Transition

/-! Threads over one shared memory. A machine says what one atomic step of a
call does; a program adds what a thread calls next and a history of the run. -/

namespace QueueBench.Machine

/-- `retry` marks the back edge of a waiting loop: a failed spin read or a failed
compare-and-swap. -/
inductive Outcome (ℓ ρ : Type*) where
  | goto (pc : ℓ)
  | retry (pc : ℓ)
  | ret (value : ρ)
deriving DecidableEq, Repr

def Outcome.pc? {ℓ ρ : Type*} : Outcome ℓ ρ → Option ℓ
  | .goto pc => some pc
  | .retry pc => some pc
  | .ret _ => none

def Outcome.map {ℓ ℓ' ρ : Type*} (rename : ℓ → ℓ') : Outcome ℓ ρ → Outcome ℓ' ρ
  | .goto pc => .goto (rename pc)
  | .retry pc => .retry (rename pc)
  | .ret value => .ret value

section Solo

variable {σ ℓ ρ : Type*}

/-- One call run without interference; the count is the number of retries. A
blocked step stops it. -/
def exec (step : ℓ → σ → Option (σ × Outcome ℓ ρ)) : ℕ → ℓ → σ → Option (σ × ρ × ℕ)
  | 0, _, _ => none
  | fuel + 1, pc, mem =>
      match step pc mem with
      | none => none
      | some (after, .goto next) => exec step fuel next after
      | some (after, .retry next) =>
          (exec step fuel next after).map (fun out => (out.1, out.2.1, out.2.2 + 1))
      | some (after, .ret value) => some (after, value, 0)

def Returns (step : ℓ → σ → Option (σ × Outcome ℓ ρ)) (pc : ℓ) (mem after : σ)
    (value : ρ) (retries : ℕ) : Prop :=
  ∃ fuel, exec step fuel pc mem = some (after, value, retries)

variable {step : ℓ → σ → Option (σ × Outcome ℓ ρ)} {pc next : ℓ} {mem middle after : σ}
variable {value : ρ} {retries : ℕ}

theorem Returns.of_ret (moved : step pc mem = some (after, .ret value)) :
    Returns step pc mem after value 0 := by
  refine ⟨1, ?_⟩
  simp only [exec, moved]

theorem Returns.of_goto (moved : step pc mem = some (middle, .goto next))
    (rest : Returns step next middle after value retries) :
    Returns step pc mem after value retries := by
  obtain ⟨fuel, ran⟩ := rest
  refine ⟨fuel + 1, ?_⟩
  simp only [exec, moved, ran]

theorem Returns.of_retry (moved : step pc mem = some (middle, .retry next))
    (rest : Returns step next middle after value retries) :
    Returns step pc mem after value (retries + 1) := by
  obtain ⟨fuel, ran⟩ := rest
  refine ⟨fuel + 1, ?_⟩
  simp only [exec, moved, ran, Option.map_some]

/-- A waiting loop makes one retry in each of its rounds and none at the end. -/
theorem Returns.of_retries {pc : ℕ → ℓ} {mem : ℕ → σ} {rounds : ℕ}
    (round : ∀ turn < rounds, ∀ left,
      Returns step (pc (turn + 1)) (mem (turn + 1)) after value left →
      Returns step (pc turn) (mem turn) after value (left + 1))
    (ends : Returns step (pc rounds) (mem rounds) after value 0) :
    Returns step (pc 0) (mem 0) after value rounds := by
  have counted : ∀ left turn, turn + left = rounds →
      Returns step (pc turn) (mem turn) after value left := by
    intro left
    induction left with
    | zero =>
        intro turn last
        rw [← last] at ends
        exact ends
    | succ left ih =>
        intro turn within
        exact round turn (by omega) left (ih (turn + 1) (by omega))
  exact counted rounds 0 (Nat.zero_add rounds)

theorem Returns.goto_inv (returns : Returns step pc mem after value retries)
    (moved : step pc mem = some (middle, .goto next)) :
    Returns step next middle after value retries := by
  obtain ⟨fuel, ran⟩ := returns
  cases fuel with
  | zero => cases ran
  | succ fuel =>
      simp only [exec, moved] at ran
      exact ⟨fuel, ran⟩

theorem Returns.retry_inv (returns : Returns step pc mem after value retries)
    (moved : step pc mem = some (middle, .retry next)) :
    ∃ fewer, retries = fewer + 1 ∧ Returns step next middle after value fewer := by
  obtain ⟨fuel, ran⟩ := returns
  cases fuel with
  | zero => cases ran
  | succ fuel =>
      simp only [exec, moved] at ran
      obtain ⟨⟨mem, answer, count⟩, rest, same⟩ := Option.map_eq_some_iff.mp ran
      cases same
      exact ⟨count, rfl, fuel, rest⟩

theorem exec_more {fuel : ℕ} {out : σ × ρ × ℕ} (more : ℕ)
    (ran : exec step fuel pc mem = some out) : exec step (fuel + more) pc mem = some out := by
  induction fuel generalizing pc mem out with
  | zero => cases ran
  | succ fuel ih =>
      rw [Nat.succ_add]
      unfold exec at ran ⊢
      cases moved : step pc mem with
      | none => rw [moved] at ran; cases ran
      | some result =>
          obtain ⟨entered, outcome⟩ := result
          rw [moved] at ran
          cases outcome with
          | goto next => exact ih ran
          | ret value => exact ran
          | retry next =>
              obtain ⟨inner, stopped, same⟩ := Option.map_eq_some_iff.mp ran
              simp only [ih stopped, Option.map_some, same]

theorem Returns.not_stuck (returns : Returns step pc mem after value retries) :
    step pc mem ≠ none := by
  intro stuck
  obtain ⟨fuel, ran⟩ := returns
  cases fuel with
  | zero => cases ran
  | succ fuel =>
      simp only [exec, stuck] at ran
      cases ran

def guarded (allowed : ℓ → Prop) [DecidablePred allowed]
    (step : ℓ → σ → Option (σ × Outcome ℓ ρ)) (pc : ℓ) (mem : σ) : Option (σ × Outcome ℓ ρ) :=
  if allowed pc then step pc mem else none

theorem guarded_eq {allowed : ℓ → Prop} [DecidablePred allowed] (may : allowed pc) :
    guarded allowed step pc mem = step pc mem := if_pos may

/-- A machine that runs on a part of the memory of another one. -/
structure Embeds {σ' ℓ' : Type*} (step : ℓ → σ → Option (σ × Outcome ℓ ρ))
    (host : ℓ' → σ' → Option (σ' × Outcome ℓ' ρ)) (wrap : ℓ → ℓ') (get : σ' → σ)
    (put : σ' → σ → σ') : Prop where
  runs : ∀ pc mem, host (wrap pc) mem = (step pc (get mem)).map (fun result =>
    (put mem result.1, result.2.map wrap))
  get_put : ∀ mem part, get (put mem part) = part
  put_put : ∀ mem part other, put (put mem part) other = put mem other

theorem Returns.embed {σ' ℓ' : Type*} {host : ℓ' → σ' → Option (σ' × Outcome ℓ' ρ)}
    {wrap : ℓ → ℓ'} {get : σ' → σ} {put : σ' → σ → σ'} (embeds : Embeds step host wrap get put)
    {whole : σ'} (returns : Returns step pc (get whole) after value retries) :
    Returns host (wrap pc) whole (put whole after) value retries := by
  obtain ⟨fuel, ran⟩ := returns
  refine ⟨fuel, ?_⟩
  induction fuel generalizing pc whole retries with
  | zero => cases ran
  | succ fuel ih =>
      unfold exec at ran ⊢
      rw [embeds.runs]
      cases moved : step pc (get whole) with
      | none => rw [moved] at ran; cases ran
      | some result =>
          obtain ⟨entered, outcome⟩ := result
          rw [moved] at ran
          have onward : ∀ next count, exec step fuel next entered = some (after, value, count) →
              exec host fuel (wrap next) (put whole entered) =
                some (put whole after, value, count) := by
            intro next count rest
            rw [← embeds.get_put whole entered] at rest
            rw [ih rest, embeds.put_put]
          cases outcome with
          | goto next => exact onward next retries ran
          | ret result => cases ran; rfl
          | retry next =>
              obtain ⟨⟨mem, answer, count⟩, rest, same⟩ := Option.map_eq_some_iff.mp ran
              cases same
              exact Option.map_eq_some_iff.mpr ⟨_, onward next count rest, rfl⟩

theorem Returns.unique {other : σ} {result : ρ} {count : ℕ}
    (left : Returns step pc mem after value retries)
    (right : Returns step pc mem other result count) :
    other = after ∧ result = value ∧ count = retries := by
  obtain ⟨fuel, ran⟩ := left
  obtain ⟨amount, ended⟩ := right
  have first := exec_more amount ran
  have second := exec_more fuel ended
  rw [Nat.add_comm] at second
  rw [first] at second
  cases second
  exact ⟨rfl, rfl, rfl⟩

end Solo

/-- A thread is between calls or inside one; `script` is its own loop state. -/
inductive Thread (ℓ κ : Type*) where
  | idle (script : κ)
  | busy (pc : ℓ) (script : κ)
deriving DecidableEq, Repr

variable {ι σ ℓ ρ κ γ : Type*}

def Thread.pc? : Thread ℓ κ → Option ℓ
  | .idle _ => none
  | .busy pc _ => some pc

def Thread.script : Thread ℓ κ → κ
  | .idle script => script
  | .busy _ script => script

structure Pool (ι σ ℓ κ γ : Type*) where
  mem : σ
  thread : ι → Thread ℓ κ
  hist : γ

theorem Pool.eq_of_parts {state other : Pool ι σ ℓ κ γ} (mem : state.mem = other.mem)
    (thread : state.thread = other.thread) (hist : state.hist = other.hist) : state = other := by
  cases state
  cases other
  cases mem
  cases thread
  cases hist
  rfl

def Pool.at (state : Pool ι σ ℓ κ γ) (thread : ι) : Option ℓ :=
  (state.thread thread).pc?

theorem Pool.at_eq_some {state : Pool ι σ ℓ κ γ} {thread : ι} {pc : ℓ}
    (at_ : state.at thread = some pc) :
    state.thread thread = .busy pc (state.thread thread).script := by
  unfold Pool.at at at_
  cases standing : state.thread thread with
  | idle script => rw [standing] at at_; cases at_
  | busy place script => rw [standing] at at_; cases at_; rfl

theorem Pool.at_busy {state : Pool ι σ ℓ κ γ} {thread : ι} {pc : ℓ} {script : κ}
    (busy : state.thread thread = .busy pc script) : state.at thread = some pc := by
  rw [Pool.at, busy]
  rfl

theorem Pool.at_idle {state : Pool ι σ ℓ κ γ} {thread : ι} {script : κ}
    (idle : state.thread thread = .idle script) : state.at thread = none := by
  rw [Pool.at, idle]
  rfl

def Pool.Quiet (state : Pool ι σ ℓ κ γ) : Prop :=
  ∀ thread, state.at thread = none

/-- `call` is the script left after a call of the given entry point, `quit` leaves
the loop without a call, `done` takes a returned value. -/
structure Client (ℓ ρ κ : Type*) where
  call : κ → ℓ → Option κ
  quit : κ → Option κ
  done : κ → ρ → κ

structure Program (ι σ ℓ ρ κ γ : Type*) extends Client ℓ ρ κ where
  step : ℓ → σ → Option (σ × Outcome ℓ ρ)
  record : ι → ℓ → σ → γ → γ

inductive Act (ι ℓ : Type*) where
  | call (thread : ι) (entry : ℓ)
  | quit (thread : ι)
  | move (thread : ι)
deriving DecidableEq, Repr

def Act.thread : Act ι ℓ → ι
  | .call thread _ => thread
  | .quit thread => thread
  | .move thread => thread

def Program.resume (program : Program ι σ ℓ ρ κ γ) (script : κ) :
    Outcome ℓ ρ → Thread ℓ κ
  | .goto pc => .busy pc script
  | .retry pc => .busy pc script
  | .ret value => .idle (program.done script value)

@[simp] theorem Program.resume_pc (program : Program ι σ ℓ ρ κ γ) (script : κ)
    (outcome : Outcome ℓ ρ) : (program.resume script outcome).pc? = outcome.pc? := by
  cases outcome <;> rfl

/-- A condition on the steps threads take inside their calls. -/
def Pool.Moving (state : Pool ι σ ℓ κ γ) (allowed : ℓ → Prop) : Act ι ℓ → Prop
  | .move thread => ∀ pc, state.at thread = some pc → allowed pc
  | _ => True

instance (state : Pool ι σ ℓ κ γ) (allowed : ℓ → Prop) [DecidablePred allowed]
    (act : Act ι ℓ) : Decidable (state.Moving allowed act) :=
  match act with
  | .call _ _ => isTrue trivial
  | .quit _ => isTrue trivial
  | .move thread =>
      match standing : state.at thread with
      | none => isTrue (fun pc at_ => by rw [standing] at at_; cases at_)
      | some pc =>
          decidable_of_iff (allowed pc)
            ⟨fun may other at_ => by rw [standing] at at_; cases at_; exact may,
              fun all => all pc standing⟩

variable [DecidableEq ι]

def turns (thread : ι) (trace : List (Pool ι σ ℓ κ γ × Act ι ℓ)) : ℕ :=
  trace.countP (fun taken => taken.2.thread = thread)

def Program.next (program : Program ι σ ℓ ρ κ γ) (state : Pool ι σ ℓ κ γ) :
    Act ι ℓ → Option (Pool ι σ ℓ κ γ)
  | .call thread entry =>
      match state.thread thread with
      | .idle script => (program.call script entry).map (fun left =>
          { state with thread := Function.update state.thread thread (.busy entry left) })
      | .busy _ _ => none
  | .quit thread =>
      match state.thread thread with
      | .idle script => (program.quit script).map (fun left =>
          { state with thread := Function.update state.thread thread (.idle left) })
      | .busy _ _ => none
  | .move thread =>
      match state.thread thread with
      | .idle _ => none
      | .busy pc script => (program.step pc state.mem).map (fun result =>
          { mem := result.1
            thread := Function.update state.thread thread (program.resume script result.2)
            hist := program.record thread pc state.mem state.hist })

variable {program : Program ι σ ℓ ρ κ γ} {state next : Pool ι σ ℓ κ γ} {act : Act ι ℓ}

/-- Everything one step of a pool can do. -/
theorem Program.next_cases (moved : program.next state act = some next) :
    (∃ thread entry script left, act = .call thread entry ∧
      state.thread thread = .idle script ∧ program.call script entry = some left ∧
      next = { state with
        thread := Function.update state.thread thread (.busy entry left) }) ∨
    (∃ thread script left, act = .quit thread ∧
      state.thread thread = .idle script ∧ program.quit script = some left ∧
      next = { state with thread := Function.update state.thread thread (.idle left) }) ∨
    (∃ thread pc script mem outcome, act = .move thread ∧
      state.thread thread = .busy pc script ∧
      program.step pc state.mem = some (mem, outcome) ∧
      next =
        { mem := mem
          thread := Function.update state.thread thread (program.resume script outcome)
          hist := program.record thread pc state.mem state.hist }) := by
  cases act with
  | call thread entry =>
      cases standing : state.thread thread with
      | busy pc script => simp only [Program.next, standing] at moved; cases moved
      | idle script =>
          simp only [Program.next, standing] at moved
          obtain ⟨left, called, same⟩ := Option.map_eq_some_iff.mp moved
          exact Or.inl ⟨thread, entry, script, left, rfl, standing, called, same.symm⟩
  | quit thread =>
      cases standing : state.thread thread with
      | busy pc script => simp only [Program.next, standing] at moved; cases moved
      | idle script =>
          simp only [Program.next, standing] at moved
          obtain ⟨left, left?, same⟩ := Option.map_eq_some_iff.mp moved
          exact Or.inr (Or.inl ⟨thread, script, left, rfl, standing, left?, same.symm⟩)
  | move thread =>
      cases standing : state.thread thread with
      | idle script => simp only [Program.next, standing] at moved; cases moved
      | busy pc script =>
          simp only [Program.next, standing] at moved
          obtain ⟨⟨mem, outcome⟩, stepped, same⟩ := Option.map_eq_some_iff.mp moved
          exact Or.inr (Or.inr
            ⟨thread, pc, script, mem, outcome, rfl, standing, stepped, same.symm⟩)

theorem Program.next_other (moved : program.next state act = some next) {other : ι}
    (different : other ≠ act.thread) : next.thread other = state.thread other := by
  rcases Program.next_cases moved with
    ⟨thread, entry, script, left, rfl, standing, called, rfl⟩ |
    ⟨thread, script, left, rfl, standing, left?, rfl⟩ |
    ⟨thread, pc, script, mem, outcome, rfl, standing, stepped, rfl⟩
  · exact Function.update_of_ne different _ _
  · exact Function.update_of_ne different _ _
  · exact Function.update_of_ne different _ _

theorem Program.own_move (moved : program.next state act = some next) {pc : ℓ}
    (at_ : state.at act.thread = some pc) :
    act = .move act.thread ∧ ∃ outcome, program.step pc state.mem = some (next.mem, outcome) ∧
      next.at act.thread = outcome.pc? ∧
      next.hist = program.record act.thread pc state.mem state.hist := by
  have busy := Pool.at_eq_some at_
  rcases Program.next_cases moved with
    ⟨thread, entry, script, left, rfl, standing, called, rfl⟩ |
    ⟨thread, script, left, rfl, standing, left?, rfl⟩ |
    ⟨thread, place, script, mem, outcome, rfl, standing, stepped, rfl⟩
  · cases busy.symm.trans standing
  · cases busy.symm.trans standing
  · cases busy.symm.trans standing
    refine ⟨rfl, outcome, stepped, ?_, rfl⟩
    change (Function.update state.thread thread _ thread).pc? = _
    rw [Function.update_self, Program.resume_pc]

theorem Program.own_call (moved : program.next state act = some next) {pc : ℓ}
    (idle : state.at act.thread = none) (reached : next.at act.thread = some pc) :
    act = .call act.thread pc ∧ ∃ script left, program.call script pc = some left := by
  rcases Program.next_cases moved with
    ⟨thread, entry, script, left, rfl, standing, called, rfl⟩ |
    ⟨thread, script, left, rfl, standing, left?, rfl⟩ |
    ⟨thread, place, script, mem, outcome, rfl, standing, stepped, rfl⟩
  · change (Function.update state.thread thread _ thread).pc? = some pc at reached
    rw [Function.update_self] at reached
    cases reached
    exact ⟨rfl, script, left, called⟩
  · change (Function.update state.thread thread _ thread).pc? = some pc at reached
    rw [Function.update_self] at reached
    cases reached
  · change (state.thread thread).pc? = none at idle
    rw [standing] at idle
    cases idle

/-- A property every thread keeps by its own steps. -/
theorem Program.each_next (holds : ι → Thread ℓ κ → Prop)
    (moved : program.next state act = some next)
    (all : ∀ thread, holds thread (state.thread thread))
    (call : ∀ thread script entry left, state.thread thread = .idle script →
      program.call script entry = some left → holds thread (.busy entry left))
    (quit : ∀ thread script left, state.thread thread = .idle script →
      program.quit script = some left → holds thread (.idle left))
    (move : ∀ thread pc script mem outcome, act = .move thread →
      state.thread thread = .busy pc script →
      program.step pc state.mem = some (mem, outcome) →
      holds thread (program.resume script outcome)) :
    ∀ thread, holds thread (next.thread thread) := by
  rcases Program.next_cases moved with
    ⟨thread, entry, script, left, rfl, standing, called, rfl⟩ |
    ⟨thread, script, left, rfl, standing, left?, rfl⟩ |
    ⟨thread, pc, script, mem, outcome, rfl, standing, stepped, rfl⟩
  · exact (Function.forall_update_iff _ holds).mpr
      ⟨call thread script entry left standing called, fun other _ => all other⟩
  · exact (Function.forall_update_iff _ holds).mpr
      ⟨quit thread script left standing left?, fun other _ => all other⟩
  · exact (Function.forall_update_iff _ holds).mpr
      ⟨move thread pc script mem outcome rfl standing stepped, fun other _ => all other⟩

/-- The action is a turn of a waiting loop that finds nothing to go on with. -/
def Program.Waits (program : Program ι σ ℓ ρ κ γ) (state : Pool ι σ ℓ κ γ)
    (act : Act ι ℓ) : Prop :=
  ∃ thread pc mem again, act = .move thread ∧ state.at thread = some pc ∧
    program.step pc state.mem = some (mem, .retry again)

def Program.Progress (program : Program ι σ ℓ ρ κ γ) (state : Pool ι σ ℓ κ γ) : Prop :=
  ∃ act next, program.next state act = some next ∧ ¬ program.Waits state act

theorem Program.next_move {thread : ι} {pc : ℓ} {script : κ} {mem : σ} {outcome : Outcome ℓ ρ}
    (standing : state.thread thread = .busy pc script)
    (stepped : program.step pc state.mem = some (mem, outcome)) :
    program.next state (.move thread) = some
      { mem := mem
        thread := Function.update state.thread thread (program.resume script outcome)
        hist := program.record thread pc state.mem state.hist } := by
  simp only [Program.next, standing, stepped, Option.map_some]

theorem Program.next_call {thread : ι} {entry : ℓ} {script left : κ}
    (standing : state.thread thread = .idle script)
    (called : program.call script entry = some left) :
    program.next state (.call thread entry) = some
      { state with thread := Function.update state.thread thread (.busy entry left) } := by
  simp only [Program.next, standing, called, Option.map_some]

structure Moved (program : Program ι σ ℓ ρ κ γ) (state : Pool ι σ ℓ κ γ) (thread : ι)
    (pc : ℓ) (mem : σ) (standing : Thread ℓ κ) (next : Pool ι σ ℓ κ γ) : Prop where
  mem_eq : next.mem = mem
  thread_eq : next.thread thread = standing
  hist_eq : next.hist = program.record thread pc state.mem state.hist
  others : ∀ other, other ≠ thread → next.thread other = state.thread other

theorem Program.move_exists {thread : ι} {pc : ℓ} {script : κ} {mem : σ} {outcome : Outcome ℓ ρ}
    (standing : state.thread thread = .busy pc script)
    (stepped : program.step pc state.mem = some (mem, outcome)) :
    ∃ next, program.next state (.move thread) = some next ∧
      Moved program state thread pc mem (program.resume script outcome) next :=
  ⟨_, Program.next_move standing stepped,
    { mem_eq := rfl
      thread_eq := Function.update_self thread _ state.thread
      hist_eq := rfl
      others := fun _ different => Function.update_of_ne different _ _ }⟩

theorem Program.moved_of {thread : ι} {pc : ℓ} {script : κ} {mem : σ} {outcome : Outcome ℓ ρ}
    (standing : state.thread thread = .busy pc script)
    (stepped : program.step pc state.mem = some (mem, outcome))
    (moved : program.next state (.move thread) = some next) :
    Moved program state thread pc mem (program.resume script outcome) next := by
  obtain ⟨reached, also, facts⟩ := Program.move_exists standing stepped
  cases moved.symm.trans also
  exact facts

structure Called (state : Pool ι σ ℓ κ γ) (thread : ι) (standing : Thread ℓ κ)
    (next : Pool ι σ ℓ κ γ) : Prop where
  mem_eq : next.mem = state.mem
  thread_eq : next.thread thread = standing
  hist_eq : next.hist = state.hist
  others : ∀ other, other ≠ thread → next.thread other = state.thread other

theorem Program.call_exists {thread : ι} {entry : ℓ} {script left : κ}
    (standing : state.thread thread = .idle script)
    (called : program.call script entry = some left) :
    ∃ next, program.next state (.call thread entry) = some next ∧
      Called state thread (.busy entry left) next :=
  ⟨_, Program.next_call standing called,
    { mem_eq := rfl
      thread_eq := Function.update_self thread _ state.thread
      hist_eq := rfl
      others := fun _ different => Function.update_of_ne different _ _ }⟩

theorem Program.quit_exists {thread : ι} {script left : κ}
    (standing : state.thread thread = .idle script) (quits : program.quit script = some left) :
    ∃ next, program.next state (.quit thread) = some next ∧
      Called state thread (.idle left) next := by
  have moved : program.next state (.quit thread) = some
      { state with thread := Function.update state.thread thread (.idle left) } := by
    simp only [Program.next, standing, quits, Option.map_some]
  exact ⟨_, moved,
    { mem_eq := rfl
      thread_eq := Function.update_self thread _ state.thread
      hist_eq := rfl
      others := fun _ different => Function.update_of_ne different _ _ }⟩

theorem Returns.reaches (program : Program ι σ ℓ ρ κ γ) {thread : ι} {pc : ℓ} {script : κ}
    {after : σ} {value : ρ} {retries : ℕ}
    (returns : Returns program.step pc state.mem after value retries)
    (standing : state.thread thread = .busy pc script) :
    ∃ final, Transition.Reaches program.next (fun _ _ => True) state final ∧ final.mem = after ∧
      final.thread thread = .idle (program.done script value) ∧
      ∀ other, other ≠ thread → final.thread other = state.thread other := by
  obtain ⟨fuel, ran⟩ := returns
  induction fuel generalizing pc state retries with
  | zero => cases ran
  | succ fuel ih =>
      unfold exec at ran
      cases stepped : program.step pc state.mem with
      | none => rw [stepped] at ran; cases ran
      | some result =>
          obtain ⟨mem, outcome⟩ := result
          rw [stepped] at ran
          obtain ⟨middle, moved, facts⟩ := Program.move_exists standing stepped
          have onward : ∀ next retries', exec program.step fuel next mem =
              some (after, value, retries') → middle.thread thread = .busy next script →
              ∃ final, Transition.Reaches program.next (fun _ _ => True) state final ∧
                final.mem = after ∧ final.thread thread = .idle (program.done script value) ∧
                ∀ other, other ≠ thread → final.thread other = state.thread other := by
            intro next retries' rest at_
            rw [← facts.mem_eq] at rest
            obtain ⟨final, reached, ended, idle, others⟩ := ih at_ rest
            refine ⟨final, ((Transition.Reaches.refl _ _ state).tail trivial moved).trans reached,
              ended, idle, ?_⟩
            intro other different
            rw [others other different, facts.others other different]
          cases outcome with
          | goto next => exact onward next retries ran facts.thread_eq
          | retry next =>
              obtain ⟨⟨mem', value', count⟩, rest, same⟩ := Option.map_eq_some_iff.mp ran
              cases same
              exact onward next count rest facts.thread_eq
          | ret value' =>
              cases ran
              exact ⟨middle, (Transition.Reaches.refl _ _ state).tail trivial moved,
                facts.mem_eq, facts.thread_eq, facts.others⟩

theorem Program.progress_call {thread : ι} {entry : ℓ} {script left : κ}
    (standing : state.thread thread = .idle script)
    (called : program.call script entry = some left) : program.Progress state := by
  refine ⟨.call thread entry, _, Program.next_call standing called, ?_⟩
  rintro ⟨other, pc, mem, again, impossible, _⟩
  cases impossible

theorem Program.progress_move {thread : ι} {pc : ℓ} {script : κ} {mem : σ} {outcome : Outcome ℓ ρ}
    (standing : state.thread thread = .busy pc script)
    (stepped : program.step pc state.mem = some (mem, outcome))
    (onward : ∀ again, outcome ≠ .retry again) : program.Progress state := by
  refine ⟨.move thread, _, Program.next_move standing stepped, ?_⟩
  rintro ⟨other, place, after, again, same, at_, waited⟩
  cases same
  rw [Pool.at, standing] at at_
  cases at_
  rw [stepped] at waited
  cases waited
  exact onward again rfl

def Thread.calls : Thread ℓ (List ℓ) → List ℓ
  | .idle script => script
  | .busy pc script => pc :: script

omit [DecidableEq ι] in
theorem Pool.at_mem_calls {state : Pool ι σ ℓ (List ℓ) γ} {thread : ι} {pc : ℓ}
    (at_ : state.at thread = some pc) : pc ∈ (state.thread thread).calls := by
  rw [Pool.at_eq_some at_]
  exact List.mem_cons_self

/-- A thread that makes a fixed list of calls, one after the other. -/
def scriptClient (ℓ ρ : Type*) [DecidableEq ℓ] : Client ℓ ρ (List ℓ) :=
  { call := fun script entry =>
      match script with
      | [] => none
      | first :: rest => if entry = first then some rest else none
    quit := fun _ => none
    done := fun script _ => script }

def scriptProgram [DecidableEq ℓ] (step : ℓ → σ → Option (σ × Outcome ℓ ρ))
    (record : ι → ℓ → σ → γ → γ) : Program ι σ ℓ ρ (List ℓ) γ :=
  { scriptClient ℓ ρ with
    step := step
    record := record }

theorem scriptClient_call [DecidableEq ℓ] {script left : List ℓ} {entry : ℓ}
    (called : (scriptClient ℓ ρ).call script entry = some left) : script = entry :: left := by
  cases script with
  | nil => cases called
  | cons first rest =>
      simp only [scriptClient] at called
      split at called
      · rename_i same
        cases called
        rw [same]
      · cases called

omit [DecidableEq ι] in
theorem script_call [DecidableEq ℓ] (step : ℓ → σ → Option (σ × Outcome ℓ ρ))
    (record : ι → ℓ → σ → γ → γ) (entry : ℓ) (rest : List ℓ) :
    (scriptProgram step record).call (entry :: rest) entry = some rest := if_pos rfl

omit [DecidableEq ι] in
theorem resume_calls [DecidableEq ℓ] (step : ℓ → σ → Option (σ × Outcome ℓ ρ))
    (record : ι → ℓ → σ → γ → γ) (script : List ℓ) (outcome : Outcome ℓ ρ) :
    ((scriptProgram step record).resume script outcome).calls = outcome.pc?.toList ++ script := by
  cases outcome <;> rfl

theorem calls_next [DecidableEq ℓ] {step : ℓ → σ → Option (σ × Outcome ℓ ρ)}
    {record : ι → ℓ → σ → γ → γ} {state next : Pool ι σ ℓ (List ℓ) γ} {holds : ι → ℓ → Prop}
    (onward : ∀ thread pc mem after outcome reached, step pc mem = some (after, outcome) →
      outcome.pc? = some reached → holds thread pc → holds thread reached)
    (moved : (scriptProgram step record).next state act = some next)
    (all : ∀ thread, ∀ pc ∈ (state.thread thread).calls, holds thread pc) :
    ∀ thread, ∀ pc ∈ (next.thread thread).calls, holds thread pc := by
  apply Program.each_next (fun thread standing => ∀ pc ∈ standing.calls, holds thread pc) moved all
  · intro thread script entry left idle called
    have before := all thread
    rw [idle, scriptClient_call called] at before
    exact before
  · intro thread script left idle impossible
    cases impossible
  · intro thread pc script mem outcome _ busy stepped other member
    have before := all thread
    rw [busy] at before
    rw [resume_calls, List.mem_append, Option.mem_toList] at member
    rcases member with reached | later
    · exact onward thread pc _ mem outcome other stepped reached
        (before pc List.mem_cons_self)
    · exact before other (List.mem_cons_of_mem pc later)

/-- A call that can never take its step is never finished. -/
theorem stuck_next [DecidableEq ℓ] {step : ℓ → σ → Option (σ × Outcome ℓ ρ)}
    {record : ι → ℓ → σ → γ → γ} {state next : Pool ι σ ℓ (List ℓ) γ} {stuck : ℓ} {owner : ι}
    (never : ∀ mem, step stuck mem = none)
    (moved : (scriptProgram step record).next state act = some next)
    (member : stuck ∈ (state.thread owner).calls) : stuck ∈ (next.thread owner).calls := by
  by_cases mine : owner = act.thread
  · rcases Program.next_cases moved with
      ⟨thread, entry, script, left, rfl, idle, called, rfl⟩ |
      ⟨thread, script, left, rfl, idle, impossible, rfl⟩ |
      ⟨thread, pc, script, mem, outcome, rfl, busy, stepped, rfl⟩
    · subst mine
      rw [idle, scriptClient_call called] at member
      change stuck ∈ (Function.update state.thread _ _ _).calls
      rw [Function.update_self]
      exact member
    · cases impossible
    · subst mine
      rw [busy] at member
      change stuck ∈ (Function.update state.thread _ _ _).calls
      rw [Function.update_self, resume_calls]
      rcases List.mem_cons.mp member with rfl | later
      · cases (never state.mem).symm.trans stepped
      · exact List.mem_append_right _ later
  · rw [Program.next_other moved mine]
    exact member

theorem script_next [DecidableEq ℓ] {step : ℓ → σ → Option (σ × Outcome ℓ ρ)}
    {record : ι → ℓ → σ → γ → γ} {state next : Pool ι σ ℓ (List ℓ) γ} {holds : ι → ℓ → Prop}
    (moved : (scriptProgram step record).next state act = some next)
    (all : ∀ thread, ∀ pc ∈ (state.thread thread).script, holds thread pc) :
    ∀ thread, ∀ pc ∈ (next.thread thread).script, holds thread pc := by
  apply Program.each_next (fun thread standing => ∀ pc ∈ standing.script, holds thread pc) moved all
  · intro thread script entry left idle called pc member
    have before := all thread
    rw [idle, scriptClient_call called] at before
    exact before pc (List.mem_cons_of_mem entry member)
  · intro thread script left idle impossible
    cases impossible
  · intro thread pc script mem outcome _ busy _
    have before := all thread
    rw [busy] at before
    cases outcome <;> exact before

theorem at_update (threads : ι → Thread ℓ κ) (thread : ι) (standing : Thread ℓ κ) :
    (fun other => (Function.update threads thread standing other).pc?) =
      Function.update (fun other => (threads other).pc?) thread standing.pc? := by
  funext other
  by_cases same : other = thread
  · subst other
    rw [Function.update_self, Function.update_self]
  · rw [Function.update_of_ne same, Function.update_of_ne same]

end QueueBench.Machine
