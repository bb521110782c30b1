import QueueBench.Lib.Machine

/-! Linearizability. An object that takes each operation in one indivisible step explains what
callers of a concurrent one see if every operation can be given such a step between its call and
its return. A map from the states of a program to those of the indivisible object proves it. -/

namespace QueueBench.Linearization
open Machine (Pool Program Act Thread Outcome)
open Transition (Run Meets meets_snoc)

variable {ι σ ω ρ : Type*}

inductive Event (ι ω ρ : Type*) where
  | invoke (thread : ι) (op : ω)
  | respond (thread : ι) (answer : ρ)
deriving DecidableEq, Repr

inductive Status (ω ρ : Type*) where
  | idle
  | pending (op : ω)
  | done (answer : ρ)
deriving DecidableEq, Repr

@[ext] structure Atomic (ι σ ω ρ : Type*) where
  value : σ
  status : ι → Status ω ρ

def Atomic.start (value : σ) : Atomic ι σ ω ρ :=
  { value := value
    status := fun _ => .idle }

def Atomic.set [DecidableEq ι] (now : Atomic ι σ ω ρ) (thread : ι) (status : Status ω ρ)
    (value : σ) : Atomic ι σ ω ρ :=
  { value := value
    status := Function.update now.status thread status }

/-! ### What explains a history -/

inductive Legal (acts : σ → ω → ρ → σ → Prop) (value : σ) : List (ω × ρ) → σ → Prop where
  | nil : Legal acts value [] value
  | snoc {taken : List (ω × ρ)} {middle final : σ} {op : ω} {answer : ρ}
      (before : Legal acts value taken middle) (acted : acts middle op answer final) :
      Legal acts value (taken ++ [(op, answer)]) final

section Projections
variable [DecidableEq ι]

def invoked (thread : ι) (history : List (Event ι ω ρ)) : List ω :=
  history.filterMap (fun event =>
    match event with
    | .invoke caller op => if caller = thread then some op else none
    | .respond _ _ => none)

def responded (thread : ι) (history : List (Event ι ω ρ)) : List ρ :=
  history.filterMap (fun event =>
    match event with
    | .invoke _ _ => none
    | .respond caller answer => if caller = thread then some answer else none)

def own (thread : ι) (effects : List (ι × ω × ρ)) : List (ω × ρ) :=
  (effects.filter (fun effect => effect.1 = thread)).map Prod.snd

/-- In the order of the effects the object does what it may, every thread gets the answers of its
own operations, and an operation has its effect after its call and before its return. -/
structure Explains (acts : σ → ω → ρ → σ → Prop) (value : σ) (history : List (Event ι ω ρ))
    (effects : List (ι × ω × ρ)) : Prop where
  legal : ∃ final, Legal acts value (effects.map Prod.snd) final
  asked : ∀ thread, (own thread effects).map Prod.fst <+: invoked thread history
  answered : ∀ thread, responded thread history <+: (own thread effects).map Prod.snd
  real_time : ∀ early late, history = early ++ late → ∃ first second, effects = first ++ second ∧
    ∀ thread, (responded thread early).length ≤ (own thread first).length ∧
      (own thread first).length ≤ (invoked thread early).length

def Linearizable (acts : σ → ω → ρ → σ → Prop) (value : σ) (history : List (Event ι ω ρ)) : Prop :=
  ∃ effects, Explains acts value history effects

/-! ### Runs of the indivisible object -/

/-- Calls, effects and returns in any order; the two lists are the history and the effects. -/
inductive Linear (acts : σ → ω → ρ → σ → Prop) (start : Atomic ι σ ω ρ) :
    List (Event ι ω ρ) → List (ι × ω × ρ) → Atomic ι σ ω ρ → Prop where
  | nil : Linear acts start [] [] start
  | invoke {history : List (Event ι ω ρ)} {effects : List (ι × ω × ρ)} {now : Atomic ι σ ω ρ}
      {thread : ι} (op : ω) (before : Linear acts start history effects now)
      (idle : now.status thread = .idle) :
      Linear acts start (history ++ [.invoke thread op]) effects
        (now.set thread (.pending op) now.value)
  | effect {history : List (Event ι ω ρ)} {effects : List (ι × ω × ρ)} {now : Atomic ι σ ω ρ}
      {thread : ι} {op : ω} {answer : ρ} {value : σ}
      (before : Linear acts start history effects now) (pending : now.status thread = .pending op)
      (acted : acts now.value op answer value) :
      Linear acts start history (effects ++ [(thread, op, answer)])
        (now.set thread (.done answer) value)
  | respond {history : List (Event ι ω ρ)} {effects : List (ι × ω × ρ)} {now : Atomic ι σ ω ρ}
      {thread : ι} {answer : ρ} (before : Linear acts start history effects now)
      (done : now.status thread = .done answer) :
      Linear acts start (history ++ [.respond thread answer]) effects
        (now.set thread .idle now.value)

variable {acts : σ → ω → ρ → σ → Prop} {start now middle final : Atomic ι σ ω ρ}
variable {history later : List (Event ι ω ρ)} {effects more : List (ι × ω × ρ)}
variable {thread : ι} {op : ω} {answer : ρ}

theorem Linear.trans (first : Linear acts start history effects middle)
    (second : Linear acts middle later more final) :
    Linear acts start (history ++ later) (effects ++ more) final := by
  induction second with
  | nil =>
      rw [List.append_nil, List.append_nil]
      exact first
  | invoke op before idle ih =>
      rw [← List.append_assoc]
      exact .invoke op ih idle
  | effect before pending acted ih =>
      rw [← List.append_assoc]
      exact .effect ih pending acted
  | respond before done ih =>
      rw [← List.append_assoc]
      exact .respond ih done

theorem Linear.legal (linear : Linear acts start history effects final) :
    Legal acts start.value (effects.map Prod.snd) final.value := by
  induction linear with
  | nil => exact .nil
  | invoke op before idle ih => exact ih
  | effect before pending acted ih =>
      rw [List.map_append]
      exact .snoc ih acted
  | respond before done ih => exact ih

@[simp] def Status.waiting : Status ω ρ → List ω
  | .pending op => [op]
  | .idle | .done _ => []

@[simp] def Status.owed : Status ω ρ → List ρ
  | .done answer => [answer]
  | .idle | .pending _ => []

theorem invoked_append (thread : ι) (early late : List (Event ι ω ρ)) :
    invoked thread (early ++ late) = invoked thread early ++ invoked thread late :=
  List.filterMap_append

theorem responded_append (thread : ι) (early late : List (Event ι ω ρ)) :
    responded thread (early ++ late) = responded thread early ++ responded thread late :=
  List.filterMap_append

theorem own_append (thread : ι) (first second : List (ι × ω × ρ)) :
    own thread (first ++ second) = own thread first ++ own thread second := by
  rw [own, List.filter_append, List.map_append]
  rfl

theorem own_single (thread caller : ι) (op : ω) (answer : ρ) :
    own thread [(caller, op, answer)] = if caller = thread then [(op, answer)] else [] := by
  by_cases mine : caller = thread
  · simp [own, mine]
  · simp [own, mine]

@[simp] theorem invoked_respond (thread caller : ι) (answer : ρ) :
    invoked thread [(.respond caller answer : Event ι ω ρ)] = [] := rfl

@[simp] theorem responded_invoke (thread caller : ι) (op : ω) :
    responded thread [(.invoke caller op : Event ι ω ρ)] = [] := rfl

theorem invoked_invoke (thread caller : ι) (op : ω) :
    invoked thread [(.invoke caller op : Event ι ω ρ)] = if caller = thread then [op] else [] := by
  by_cases mine : caller = thread
  · simp [invoked, mine]
  · simp [invoked, mine]

theorem responded_respond (thread caller : ι) (answer : ρ) :
    responded thread [(.respond caller answer : Event ι ω ρ)] =
      if caller = thread then [answer] else [] := by
  by_cases mine : caller = thread
  · simp [responded, mine]
  · simp [responded, mine]

theorem Atomic.set_status (now : Atomic ι σ ω ρ) (thread other : ι) (status : Status ω ρ)
    (value : σ) : (now.set thread status value).status other =
      if thread = other then status else now.status other := by
  by_cases same : thread = other
  · subst same
    rw [if_pos rfl]
    exact Function.update_self thread status now.status
  · rw [if_neg same]
    exact Function.update_of_ne (Ne.symm same) status now.status

theorem Atomic.set_same {status : Status ω ρ} (stands : now.status thread = status) :
    now.set thread status now.value = now := by
  rw [← stands, Atomic.set, Function.update_eq_self]

theorem Linear.balance (linear : Linear acts start history effects final)
    (fresh : ∀ thread, start.status thread = .idle) (thread : ι) :
    invoked thread history =
        (own thread effects).map Prod.fst ++ (final.status thread).waiting ∧
      (own thread effects).map Prod.snd =
        responded thread history ++ (final.status thread).owed := by
  induction linear with
  | nil =>
      rw [fresh thread]
      exact ⟨rfl, rfl⟩
  | @invoke history effects now caller op before idle ih =>
      obtain ⟨asked, answered⟩ := ih
      rw [invoked_append, responded_append, invoked_invoke, Atomic.set_status]
      by_cases mine : caller = thread
      · subst mine
        rw [idle] at asked answered
        rw [if_pos rfl, if_pos rfl, asked, answered]
        simp
      · rw [if_neg mine, if_neg mine, asked, answered]
        simp
  | @effect history effects now caller op answer value before pending acted ih =>
      obtain ⟨asked, answered⟩ := ih
      rw [own_append, own_single, List.map_append, List.map_append, Atomic.set_status]
      by_cases mine : caller = thread
      · subst mine
        rw [pending] at asked answered
        rw [if_pos rfl, if_pos rfl, asked, answered]
        simp
      · rw [if_neg mine, if_neg mine, asked, answered]
        simp
  | @respond history effects now caller answer before done ih =>
      obtain ⟨asked, answered⟩ := ih
      rw [invoked_append, responded_append, responded_respond, Atomic.set_status]
      by_cases mine : caller = thread
      · subst mine
        rw [done] at asked answered
        rw [if_pos rfl, if_pos rfl, asked, answered]
        simp
      · rw [if_neg mine, if_neg mine, asked, answered]
        simp

theorem Linear.cut {early late : List (Event ι ω ρ)}
    (linear : Linear acts start history effects final) (split : history = early ++ late) :
    ∃ first second middle, effects = first ++ second ∧ Linear acts start early first middle ∧
      Linear acts middle late second final := by
  induction linear generalizing late with
  | nil =>
      obtain ⟨rfl, rfl⟩ := List.append_eq_nil_iff.mp split.symm
      exact ⟨[], [], start, rfl, .nil, .nil⟩
  | @invoke history effects now caller op before idle ih =>
      rcases List.eq_nil_or_concat late with rfl | ⟨front, last, rfl⟩
      · rw [List.append_nil] at split
        subst split
        exact ⟨effects, [], _, (List.append_nil effects).symm, .invoke op before idle, .nil⟩
      · rw [List.concat_eq_append, ← List.append_assoc] at split
        obtain ⟨same, tail⟩ := List.append_inj' split rfl
        cases tail
        obtain ⟨first, second, middle, whole, left, right⟩ := ih same
        rw [List.concat_eq_append]
        exact ⟨first, second, middle, whole, left, .invoke op right idle⟩
  | @effect history effects now caller op answer value before pending acted ih =>
      obtain ⟨first, second, middle, whole, left, right⟩ := ih split
      refine ⟨first, second ++ [(caller, op, answer)], middle, ?_, left,
        .effect right pending acted⟩
      rw [whole, List.append_assoc]
  | @respond history effects now caller answer before done ih =>
      rcases List.eq_nil_or_concat late with rfl | ⟨front, last, rfl⟩
      · rw [List.append_nil] at split
        subst split
        exact ⟨effects, [], _, (List.append_nil effects).symm, .respond before done, .nil⟩
      · rw [List.concat_eq_append, ← List.append_assoc] at split
        obtain ⟨same, tail⟩ := List.append_inj' split rfl
        cases tail
        obtain ⟨first, second, middle, whole, left, right⟩ := ih same
        rw [List.concat_eq_append]
        exact ⟨first, second, middle, whole, left, .respond right done⟩

/-- What a run of the indivisible object shows is explained by its effects. -/
theorem Linear.explains {value : σ} (linear : Linear acts (.start value) history effects final) :
    Explains acts value history effects := by
  have fresh : ∀ thread : ι, (Atomic.start value : Atomic ι σ ω ρ).status thread = .idle :=
    fun _ => rfl
  constructor
  · exact ⟨final.value, linear.legal⟩
  · intro thread
    rw [(linear.balance fresh thread).1]
    exact List.prefix_append _ _
  · intro thread
    rw [(linear.balance fresh thread).2]
    exact List.prefix_append _ _
  · intro early late split
    obtain ⟨first, second, middle, whole, left, _⟩ := linear.cut split
    refine ⟨first, second, whole, ?_⟩
    intro thread
    obtain ⟨asked, answered⟩ := left.balance fresh thread
    have calls := congrArg List.length asked
    have returns := congrArg List.length answered
    rw [List.length_append, List.length_map] at calls
    rw [List.length_append, List.length_map] at returns
    omega

end Projections

/-! ### Programs -/

section Programs
variable [DecidableEq ι] {μ ℓ κ γ : Type*}

def returning (thread : ι) : Outcome ℓ ρ → List (Event ι ω ρ)
  | .ret answer => [.respond thread answer]
  | .goto _ | .retry _ => []

/-- What a step shows to the callers, given the operation that begins at an entry point. -/
def shown (program : Program ι μ ℓ ρ κ γ) (opOf : ℓ → Option ω) (state : Pool ι μ ℓ κ γ) :
    Act ι ℓ → List (Event ι ω ρ)
  | .call thread entry => ((opOf entry).map (Event.invoke thread)).toList
  | .quit _ => []
  | .move thread =>
      match (state.at thread).bind (fun pc => program.step pc state.mem) with
      | some (_, outcome) => returning thread outcome
      | none => []

def history (program : Program ι μ ℓ ρ κ γ) (opOf : ℓ → Option ω)
    (trace : List (Pool ι μ ℓ κ γ × Act ι ℓ)) : List (Event ι ω ρ) :=
  trace.flatMap (fun taken => shown program opOf taken.1 taken.2)

variable {program : Program ι μ ℓ ρ κ γ} {opOf : ℓ → Option ω}
variable {acts : σ → ω → ρ → σ → Prop}

omit [DecidableEq ι] in
theorem shown_move {state : Pool ι μ ℓ κ γ} {thread : ι} {pc : ℓ} {after : μ}
    {outcome : Outcome ℓ ρ} (at_ : state.at thread = some pc)
    (stepped : program.step pc state.mem = some (after, outcome)) :
    shown program opOf state (.move thread) = returning thread outcome := by
  simp only [shown, at_, Option.bind_some, stepped]

/-- How the states of a program are read as states of the indivisible object. -/
structure View (μ ℓ γ σ ω ρ : Type*) where
  value : μ → γ → σ
  status : μ → γ → ℓ → Status ω ρ

namespace View
variable (view : View μ ℓ γ σ ω ρ)

def statusAt (mem : μ) (hist : γ) : Option ℓ → Status ω ρ
  | none => .idle
  | some pc => view.status mem hist pc

def atomic (state : Pool ι μ ℓ κ γ) : Atomic ι σ ω ρ :=
  { value := view.value state.mem state.hist
    status := fun thread => view.statusAt state.mem state.hist (state.at thread) }

variable {view}

omit [DecidableEq ι] in
theorem atomic_status {state : Pool ι μ ℓ κ γ} {thread : ι} {pc : ℓ}
    (at_ : state.at thread = some pc) :
    (view.atomic state).status thread = view.status state.mem state.hist pc := by
  simp only [atomic, at_, statusAt]

theorem atomic_update {state : Pool ι μ ℓ κ γ} {thread : ι} {after : μ} {later : γ}
    {standing : Thread ℓ κ}
    (others : ∀ other pc, other ≠ thread → state.at other = some pc →
      view.status after later pc = view.status state.mem state.hist pc) :
    view.atomic
        { mem := after
          thread := Function.update state.thread thread standing
          hist := later } =
      (view.atomic state).set thread (view.statusAt after later standing.pc?)
        (view.value after later) := by
  have statuses : (fun other => view.statusAt after later
      (Function.update state.thread thread standing other).pc?) =
      Function.update (fun other => view.statusAt state.mem state.hist (state.at other)) thread
        (view.statusAt after later standing.pc?) := by
    funext other
    by_cases same : other = thread
    · subst other
      rw [Function.update_self, Function.update_self]
    · rw [Function.update_of_ne same, Function.update_of_ne same]
      change view.statusAt after later (state.at other) = _
      cases standing : state.at other with
      | none => rfl
      | some pc => exact others other pc same standing
  simp only [atomic, Atomic.set, Pool.at, statusAt] at statuses ⊢
  rw [statuses]

end View

/-! ### One step of a program -/

theorem Linear.of_call {start final : Atomic ι σ ω ρ} {thread : ι} {op : ω}
    (idle : start.status thread = .idle) (same : final = start.set thread (.pending op) start.value) :
    Linear acts start [.invoke thread op] [] final := by
  rw [same]
  exact .invoke op .nil idle

theorem Linear.of_effect {start final : Atomic ι σ ω ρ} {thread : ι} {op : ω} {answer : ρ}
    {value : σ} (pending : start.status thread = .pending op)
    (acted : acts start.value op answer value)
    (same : final = start.set thread (.done answer) value) :
    Linear acts start [] [(thread, op, answer)] final := by
  rw [same]
  exact .effect .nil pending acted

theorem Linear.of_respond {start final : Atomic ι σ ω ρ} {thread : ι} {answer : ρ}
    (done : start.status thread = .done answer)
    (same : final = start.set thread .idle start.value) :
    Linear acts start [.respond thread answer] [] final := by
  rw [same]
  exact .respond .nil done

theorem Linear.of_both {start final : Atomic ι σ ω ρ} {thread : ι} {op : ω} {answer : ρ}
    {value : σ} (pending : start.status thread = .pending op)
    (acted : acts start.value op answer value) (same : final = start.set thread .idle value) :
    Linear acts start [.respond thread answer] [(thread, op, answer)] final := by
  have done : (start.set thread (.done answer) value).status thread = .done answer :=
    Function.update_self thread _ start.status
  have responds : Linear acts (start.set thread (.done answer) value)
      [.respond thread answer] [] final := by
    apply Linear.of_respond done
    rw [same]
    simp only [Atomic.set, Function.update_idem]
  exact (Linear.of_effect pending acted rfl).trans responds

section Matching
variable {view : View μ ℓ γ σ ω ρ} {state : Pool ι μ ℓ κ γ} {thread : ι} {script : κ}

theorem View.match_call {entry : ℓ} {op : ω} {left : κ}
    (idle : state.thread thread = .idle script) (begins : opOf entry = some op)
    (waits : view.status state.mem state.hist entry = .pending op) :
    Linear acts (view.atomic state) (shown program opOf state (.call thread entry)) []
      (view.atomic
        { state with thread := Function.update state.thread thread (.busy entry left) }) := by
  have calls : shown program opOf state (.call thread entry) = [.invoke thread op] := by
    simp only [shown, begins, Option.map_some, Option.toList_some]
  rw [calls]
  apply Linear.of_call
  · simp only [View.atomic, Pool.at, idle, Thread.pc?, View.statusAt]
  · have calls : view.atomic
        { state with thread := Function.update state.thread thread (.busy entry left) } =
        (view.atomic state).set thread
          (view.statusAt state.mem state.hist (Thread.busy entry left).pc?)
          (view.value state.mem state.hist) := View.atomic_update (fun _ _ _ _ => rfl)
    rw [calls]
    exact congrArg (fun status => (view.atomic state).set thread status (view.atomic state).value)
      waits

theorem View.match_move {pc : ℓ} {after : μ} {outcome : Outcome ℓ ρ}
    {effects : List (ι × ω × ρ)} (busy : state.thread thread = .busy pc script)
    (stepped : program.step pc state.mem = some (after, outcome))
    (others : ∀ other place, other ≠ thread → state.at other = some place →
      view.status after (program.record thread pc state.mem state.hist) place =
        view.status state.mem state.hist place)
    (own : Linear acts (view.atomic state) (returning thread outcome) effects
      ((view.atomic state).set thread
        (view.statusAt after (program.record thread pc state.mem state.hist) outcome.pc?)
        (view.value after (program.record thread pc state.mem state.hist)))) :
    Linear acts (view.atomic state) (shown program opOf state (.move thread)) effects
      (view.atomic
        { mem := after
          thread := Function.update state.thread thread (program.resume script outcome)
          hist := program.record thread pc state.mem state.hist }) := by
  rw [shown_move (Pool.at_busy busy) stepped, View.atomic_update others, Program.resume_pc]
  exact own

theorem View.match_silent {pc target : ℓ} {after : μ} {outcome : Outcome ℓ ρ}
    (busy : state.thread thread = .busy pc script)
    (stepped : program.step pc state.mem = some (after, outcome))
    (others : ∀ other place, other ≠ thread → state.at other = some place →
      view.status after (program.record thread pc state.mem state.hist) place =
        view.status state.mem state.hist place)
    (onward : outcome.pc? = some target)
    (same : view.status after (program.record thread pc state.mem state.hist) target =
      view.status state.mem state.hist pc)
    (kept : view.value after (program.record thread pc state.mem state.hist) =
      view.value state.mem state.hist) :
    Linear acts (view.atomic state) (shown program opOf state (.move thread)) []
      (view.atomic
        { mem := after
          thread := Function.update state.thread thread (program.resume script outcome)
          hist := program.record thread pc state.mem state.hist }) := by
  apply View.match_move busy stepped others
  have stays : (view.atomic state).set thread (view.status state.mem state.hist pc)
      (view.value state.mem state.hist) = view.atomic state :=
    Atomic.set_same (View.atomic_status (Pool.at_busy busy))
  rw [onward, View.statusAt, same, kept, stays]
  cases outcome with
  | ret answer => cases onward
  | goto place => exact .nil
  | retry place => exact .nil

theorem View.match_effect {pc target : ℓ} {after : μ} {outcome : Outcome ℓ ρ} {op : ω}
    {answer : ρ} (busy : state.thread thread = .busy pc script)
    (stepped : program.step pc state.mem = some (after, outcome))
    (others : ∀ other place, other ≠ thread → state.at other = some place →
      view.status after (program.record thread pc state.mem state.hist) place =
        view.status state.mem state.hist place)
    (pending : view.status state.mem state.hist pc = .pending op)
    (onward : outcome.pc? = some target)
    (done : view.status after (program.record thread pc state.mem state.hist) target =
      .done answer)
    (acted : acts (view.value state.mem state.hist) op answer
      (view.value after (program.record thread pc state.mem state.hist))) :
    Linear acts (view.atomic state) (shown program opOf state (.move thread))
      [(thread, op, answer)]
      (view.atomic
        { mem := after
          thread := Function.update state.thread thread (program.resume script outcome)
          hist := program.record thread pc state.mem state.hist }) := by
  apply View.match_move busy stepped others
  have waits : (view.atomic state).status thread = .pending op := by
    rw [View.atomic_status (Pool.at_busy busy), pending]
  have effect := Linear.of_effect waits acted rfl
  rw [onward, View.statusAt, done]
  cases outcome with
  | ret value => cases onward
  | goto place => exact effect
  | retry place => exact effect

theorem View.match_return {pc : ℓ} {after : μ} {answer : ρ}
    (busy : state.thread thread = .busy pc script)
    (stepped : program.step pc state.mem = some (after, .ret answer))
    (others : ∀ other place, other ≠ thread → state.at other = some place →
      view.status after (program.record thread pc state.mem state.hist) place =
        view.status state.mem state.hist place)
    (done : view.status state.mem state.hist pc = .done answer)
    (kept : view.value after (program.record thread pc state.mem state.hist) =
      view.value state.mem state.hist) :
    Linear acts (view.atomic state) (shown program opOf state (.move thread)) []
      (view.atomic
        { mem := after
          thread := Function.update state.thread thread (program.resume script (.ret answer))
          hist := program.record thread pc state.mem state.hist }) := by
  apply View.match_move busy stepped others
  have owes : (view.atomic state).status thread = .done answer := by
    rw [View.atomic_status (Pool.at_busy busy), done]
  rw [kept]
  exact Linear.of_respond owes rfl

theorem View.match_both {pc : ℓ} {after : μ} {op : ω} {answer : ρ}
    (busy : state.thread thread = .busy pc script)
    (stepped : program.step pc state.mem = some (after, .ret answer))
    (others : ∀ other place, other ≠ thread → state.at other = some place →
      view.status after (program.record thread pc state.mem state.hist) place =
        view.status state.mem state.hist place)
    (pending : view.status state.mem state.hist pc = .pending op)
    (acted : acts (view.value state.mem state.hist) op answer
      (view.value after (program.record thread pc state.mem state.hist))) :
    Linear acts (view.atomic state) (shown program opOf state (.move thread))
      [(thread, op, answer)]
      (view.atomic
        { mem := after
          thread := Function.update state.thread thread (program.resume script (.ret answer))
          hist := program.record thread pc state.mem state.hist }) := by
  apply View.match_move busy stepped others
  have waits : (view.atomic state).status thread = .pending op := by
    rw [View.atomic_status (Pool.at_busy busy), pending]
  exact Linear.of_both waits acted rfl

/-- What a step of a call may do where the program point alone says whether the effect has been. -/
inductive Shows (acts : σ → ω → ρ → σ → Prop) (status : ℓ → Status ω ρ) (pc : ℓ) (value : σ) :
    Outcome ℓ ρ → σ → Prop where
  | goto {target : ℓ} (same : status target = status pc) :
      Shows acts status pc value (.goto target) value
  | retry {target : ℓ} (same : status target = status pc) :
      Shows acts status pc value (.retry target) value
  | effect {target : ℓ} {op : ω} {answer : ρ} {later : σ} (pending : status pc = .pending op)
      (done : status target = .done answer) (acted : acts value op answer later) :
      Shows acts status pc value (.goto target) later
  | answer {answer : ρ} (done : status pc = .done answer) :
      Shows acts status pc value (.ret answer) value
  | both {op : ω} {answer : ρ} {later : σ} (pending : status pc = .pending op)
      (acted : acts value op answer later) : Shows acts status pc value (.ret answer) later

theorem View.match_shows {status : ℓ → Status ω ρ} {pc : ℓ} {after : μ} {outcome : Outcome ℓ ρ}
    (static : ∀ mem hist, view.status mem hist = status)
    (busy : state.thread thread = .busy pc script)
    (stepped : program.step pc state.mem = some (after, outcome))
    (shows : Shows acts status pc (view.value state.mem state.hist) outcome
      (view.value after (program.record thread pc state.mem state.hist))) :
    ∃ effects, Linear acts (view.atomic state) (shown program opOf state (.move thread)) effects
      (view.atomic
        { mem := after
          thread := Function.update state.thread thread (program.resume script outcome)
          hist := program.record thread pc state.mem state.hist }) := by
  have others : ∀ other place, other ≠ thread → state.at other = some place →
      view.status after (program.record thread pc state.mem state.hist) place =
        view.status state.mem state.hist place := by
    intro other place _ _
    rw [static, static]
  have now : view.status state.mem state.hist pc = status pc := by rw [static]
  have onward : ∀ target, view.status after (program.record thread pc state.mem state.hist)
      target = status target := by
    intro target
    rw [static]
  generalize kept : view.value after (program.record thread pc state.mem state.hist) = later
    at shows
  cases shows with
  | @goto target same =>
      exact ⟨[], View.match_silent busy stepped others rfl (by rw [onward, now, same]) kept⟩
  | @retry target same =>
      exact ⟨[], View.match_silent busy stepped others rfl (by rw [onward, now, same]) kept⟩
  | @effect target op answer later pending done acted =>
      rw [← kept] at acted
      exact ⟨_, View.match_effect busy stepped others (now.trans pending) rfl
        ((onward target).trans done) acted⟩
  | answer done => exact ⟨[], View.match_return busy stepped others (now.trans done) kept⟩
  | both pending acted =>
      rw [← kept] at acted
      exact ⟨_, View.match_both busy stepped others (now.trans pending) acted⟩

end Matching

/-- The forward simulation: every step shows what some steps of the indivisible object show. -/
theorem linear_of_run {view : View μ ℓ γ σ ω ρ} {holds : Pool ι μ ℓ κ γ → Prop}
    {condition : Pool ι μ ℓ κ γ → Act ι ℓ → Prop} {start final : Pool ι μ ℓ κ γ}
    {trace : List (Pool ι μ ℓ κ γ × Act ι ℓ)} (run : Run program.next start trace final)
    (meets : Meets condition trace) (initial : holds start)
    (preserved : ∀ state act next, holds state → condition state act →
      program.next state act = some next → holds next)
    (matched : ∀ state act next, holds state → condition state act →
      program.next state act = some next → ∃ effects, Linear acts (view.atomic state)
        (shown program opOf state act) effects (view.atomic next)) :
    ∃ effects, Linear acts (view.atomic start) (history program opOf trace) effects
      (view.atomic final) := by
  induction run with
  | nil => exact ⟨[], .nil⟩
  | @snoc trace middle last act before moved ih =>
      rw [meets_snoc] at meets
      obtain ⟨effects, linear⟩ := ih meets.1
      have held := before.invariant meets.1 initial preserved
      obtain ⟨more, onward⟩ := matched middle act last held meets.2 moved
      refine ⟨effects ++ more, ?_⟩
      rw [history, List.flatMap_append, List.flatMap_singleton]
      exact linear.trans onward

end Programs

/-! ### The queue -/

inductive QueueOp (α : Type*) where
  | put (item : α)
  | get
deriving DecidableEq, Repr

/-- When a put may go on, what a put and a get answer, and what a get may answer at once when the
queue is empty. -/
structure QueueKind (α ρ : Type*) where
  room : ℕ → Prop
  stored : ρ
  got : α → ρ
  nothing : ρ → Prop

variable {α : Type*}

inductive QueueKind.acts (kind : QueueKind α ρ) : List α → QueueOp α → ρ → List α → Prop where
  | put {items : List α} {item : α} (space : kind.room items.length) :
      kind.acts items (.put item) kind.stored (items ++ [item])
  | get {item : α} {items : List α} : kind.acts (item :: items) .get (kind.got item) items
  | nothing {answer : ρ} (empty : kind.nothing answer) : kind.acts [] .get answer []

end QueueBench.Linearization
