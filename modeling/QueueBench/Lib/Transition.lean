import Mathlib.Logic.Function.Basic
import Mathlib.Data.Nat.Notation

/-! Finite runs of a deterministic step function driven by labels. A run keeps
its trace, so a condition on steps is a condition on the trace. -/

namespace QueueBench.Transition

variable {σ α : Type*}

/-- The trace holds, for every step, the state it started in and its label. -/
inductive Run (step : σ → α → Option σ) (start : σ) : List (σ × α) → σ → Prop where
  | nil : Run step start [] start
  | snoc {trace : List (σ × α)} {state next : σ} {act : α}
      (before : Run step start trace state) (moved : step state act = some next) :
      Run step start (trace ++ [(state, act)]) next

def Meets (condition : σ → α → Prop) (trace : List (σ × α)) : Prop :=
  ∀ taken ∈ trace, condition taken.1 taken.2

def Reaches (step : σ → α → Option σ) (condition : σ → α → Prop) (start final : σ) : Prop :=
  ∃ trace, Run step start trace final ∧ Meets condition trace

variable {step : σ → α → Option σ} {start state final next : σ}
variable {trace later : List (σ × α)} {act : α}

theorem meets_nil (condition : σ → α → Prop) : Meets condition [] := by
  intro taken member
  cases member

theorem meets_append (condition : σ → α → Prop) :
    Meets condition (trace ++ later) ↔ Meets condition trace ∧ Meets condition later := by
  constructor
  · intro all
    exact ⟨fun taken member => all taken (List.mem_append_left later member),
      fun taken member => all taken (List.mem_append_right trace member)⟩
  · intro both taken member
    rcases List.mem_append.mp member with early | late
    · exact both.1 taken early
    · exact both.2 taken late

theorem meets_snoc (condition : σ → α → Prop) :
    Meets condition (trace ++ [(state, act)]) ↔
      Meets condition trace ∧ condition state act := by
  rw [meets_append]
  constructor
  · intro both
    exact ⟨both.1, both.2 (state, act) (List.mem_singleton_self _)⟩
  · intro both
    refine ⟨both.1, ?_⟩
    intro taken member
    rw [List.mem_singleton.mp member]
    exact both.2

theorem meets_true (trace : List (σ × α)) : Meets (fun _ _ => True) trace :=
  fun _ _ => trivial

/-- The invariant rule: one initial fact and one step fact give a run fact. -/
theorem Run.invariant {holds : σ → Prop} {condition : σ → α → Prop}
    (run : Run step start trace final) (meets : Meets condition trace)
    (initial : holds start)
    (preserved : ∀ state act next, holds state → condition state act →
      step state act = some next → holds next) : holds final := by
  induction run with
  | nil => exact initial
  | snoc before moved ih =>
      rw [meets_snoc] at meets
      exact preserved _ _ _ (ih meets.1) meets.2 moved

theorem Run.append (first : Run step start trace state)
    (second : Run step state later final) : Run step start (trace ++ later) final := by
  induction second with
  | nil => rw [List.append_nil]; exact first
  | snoc before moved ih =>
      rw [← List.append_assoc]
      exact .snoc ih moved

theorem Run.single (moved : step start act = some final) :
    Run step start [(start, act)] final :=
  Run.snoc .nil moved

theorem Run.cons (moved : step start act = some state)
    (rest : Run step state trace final) : Run step start ((start, act) :: trace) final :=
  (Run.single moved).append rest

theorem Run.cut (run : Run step start (trace ++ (state, act) :: later) final) :
    Run step start trace state ∧
      ∃ next, step state act = some next ∧ Run step next later final := by
  generalize whole : trace ++ (state, act) :: later = all at run
  induction run generalizing later with
  | nil =>
      cases trace with
      | nil => cases whole
      | cons head tail => cases whole
  | @snoc earlier middle last label before moved ih =>
      rcases List.eq_nil_or_concat later with empty | ⟨front, taken, rfl⟩
      · subst later
        obtain ⟨same, tail⟩ := List.append_inj' whole rfl
        cases tail
        subst same
        exact ⟨before, last, moved, .nil⟩
      · have shape : (trace ++ (state, act) :: front) ++ [taken] =
            earlier ++ [(middle, label)] := by
          rw [← whole]
          simp only [List.concat_eq_append, List.append_assoc, List.cons_append]
        obtain ⟨same, tail⟩ := List.append_inj' shape rfl
        cases tail
        obtain ⟨prior, next, entered, rest⟩ := ih same
        refine ⟨prior, next, entered, ?_⟩
        rw [List.concat_eq_append]
        exact .snoc rest moved

theorem Run.meets_length_le {holds : σ → Prop} {condition : σ → α → Prop} (measure : σ → ℕ)
    (run : Run step start trace final) (meets : Meets condition trace) (initial : holds start)
    (preserved : ∀ state act next, holds state → condition state act →
      step state act = some next → holds next)
    (lowered : ∀ state act next, holds state → condition state act →
      step state act = some next → measure next < measure state) :
    trace.length + measure final ≤ measure start := by
  induction run with
  | nil => simp only [List.length_nil, Nat.zero_add, Nat.le_refl]
  | @snoc earlier middle last label before moved ih =>
      rw [meets_snoc] at meets
      have held : holds middle := before.invariant meets.1 initial preserved
      have down := lowered middle label last held meets.2 moved
      have bound := ih meets.1
      rw [List.length_append, List.length_singleton]
      omega

theorem Run.length_le {holds : σ → Prop} (measure : σ → ℕ)
    (run : Run step start trace final) (initial : holds start)
    (preserved : ∀ state act next, holds state → step state act = some next → holds next)
    (lowered : ∀ state act next, holds state → step state act = some next →
      measure next < measure state) :
    trace.length + measure final ≤ measure start :=
  run.meets_length_le measure (meets_true trace) initial
    (fun state act next held _ moved => preserved state act next held moved)
    (fun state act next held _ moved => lowered state act next held moved)

/-- Run a list of labels and keep the trace; a label that is not enabled stops it. -/
def play (step : σ → α → Option σ) (start : σ) : List α → Option (List (σ × α) × σ)
  | [] => some ([], start)
  | act :: rest =>
      match step start act with
      | none => none
      | some next =>
          (play step next rest).map (fun played => ((start, act) :: played.1, played.2))

theorem run_of_play (labels : List α) (played : play step start labels = some (trace, final)) :
    Run step start trace final := by
  induction labels generalizing start trace with
  | nil =>
      cases played
      exact .nil
  | cons act rest ih =>
      simp only [play] at played
      cases moved : step start act with
      | none => rw [moved] at played; cases played
      | some next =>
          rw [moved] at played
          obtain ⟨⟨inner, last⟩, found, same⟩ := Option.map_eq_some_iff.mp played
          cases same
          exact .cons moved (ih found)

instance (condition : σ → α → Prop) [∀ state act, Decidable (condition state act)]
    (trace : List (σ × α)) : Decidable (Meets condition trace) :=
  inferInstanceAs (Decidable (∀ taken ∈ trace, condition taken.1 taken.2))

variable {condition : σ → α → Prop}

theorem Reaches.refl (step : σ → α → Option σ) (condition : σ → α → Prop) (start : σ) :
    Reaches step condition start start :=
  ⟨[], .nil, meets_nil condition⟩

theorem Reaches.trans (first : Reaches step condition start state)
    (second : Reaches step condition state final) : Reaches step condition start final := by
  obtain ⟨early, before, met⟩ := first
  obtain ⟨late, after, kept⟩ := second
  exact ⟨early ++ late, before.append after, (meets_append condition).mpr ⟨met, kept⟩⟩

theorem Reaches.tail (before : Reaches step condition start state) (met : condition state act)
    (moved : step state act = some final) : Reaches step condition start final := by
  obtain ⟨early, run, kept⟩ := before
  exact ⟨early ++ [(state, act)], .snoc run moved, (meets_snoc condition).mpr ⟨kept, met⟩⟩

/-- The simulation rule: what the runs of another system reach stands for what these runs reach, if
it does so for every step. -/
theorem Run.simulated {τ β : Type*} {other : τ → β → Option τ} {condition : τ → β → Prop}
    (stands : σ → τ) {holds : σ → Prop} (run : Run step start trace final) (initial : holds start)
    (preserved : ∀ state act next, holds state → step state act = some next → holds next)
    (matched : ∀ state act next, holds state → step state act = some next →
      Reaches other condition (stands state) (stands next)) :
    Reaches other condition (stands start) (stands final) := by
  induction run with
  | nil => exact Reaches.refl other condition (stands start)
  | snoc before moved ih =>
      have held := before.invariant (meets_true _) initial
        (fun state act next held _ moved => preserved state act next held moved)
      exact ih.trans (matched _ _ _ held moved)

end QueueBench.Transition
