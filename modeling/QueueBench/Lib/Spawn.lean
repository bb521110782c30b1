import Mathlib.Algebra.Order.Ring.Int
import QueueBench.Lib.Work

/-! A thread that makes calls and then creates others, which make theirs. What has not been
created yet stands where it began, and a standstill is one of calls that have no step. Without
waiting loops such threads come to their end unless they come to a standstill. -/

namespace QueueBench.Machine
open Transition (Run Meets Reaches)

open scoped BigOperators

variable {ι σ ℓ ρ κ γ : Type*}

/-- Nobody but the creator does anything before the creator has made all its calls. -/
def Created (creator : ι) (state : Pool ι σ ℓ (List ℓ) γ) (act : Act ι ℓ) : Prop :=
  act.thread = creator ∨ state.thread creator = .idle []

def Staged (creator : ι) (scripts : ι → List ℓ) (state : Pool ι σ ℓ (List ℓ) γ) : Prop :=
  (∀ other, other ≠ creator → state.thread other = .idle (scripts other)) ∨
    state.thread creator = .idle []

def Pool.Done (state : Pool ι σ ℓ (List ℓ) γ) : Prop := ∀ thread, state.thread thread = .idle []

section Scripts

variable [DecidableEq ι] [DecidableEq ℓ]
variable {step : ℓ → σ → Option (σ × Outcome ℓ ρ)} {record : ι → ℓ → σ → γ → γ}
variable {creator : ι} {scripts : ι → List ℓ} {state next : Pool ι σ ℓ (List ℓ) γ} {act : Act ι ℓ}

theorem done_next {thread : ι} (done : state.thread thread = .idle [])
    (moved : (scriptProgram step record).next state act = some next) : act.thread ≠ thread := by
  rintro rfl
  rcases Program.next_cases moved with
    ⟨thread, entry, script, left, rfl, idle, called, rfl⟩ |
    ⟨thread, script, left, rfl, idle, impossible, rfl⟩ |
    ⟨thread, pc, script, mem, outcome, rfl, busy, stepped, rfl⟩
  · cases done.symm.trans idle
    cases called
  · cases impossible
  · cases done.symm.trans busy

theorem Staged.kept (staged : Staged creator scripts state) (created : Created creator state act)
    (moved : (scriptProgram step record).next state act = some next) :
    Staged creator scripts next := by
  by_cases done : state.thread creator = .idle []
  · right
    rw [Program.next_other moved (Ne.symm (done_next done moved))]
    exact done
  · left
    intro other different
    have mine : act.thread = creator := created.resolve_right done
    have waiting := staged.resolve_right done
    rw [← mine] at different
    rw [Program.next_other moved different, waiting other (mine ▸ different)]

/-- If nothing that is allowed can be done, then no call has a step, and with nobody inside a call
everything is done. -/
theorem Staged.standstill (staged : Staged creator scripts state)
    (still : ∀ act, Created creator state act →
      (scriptProgram step record).next state act = none) :
    (∀ thread pc, state.at thread = some pc → step pc state.mem = none) ∧
      (state.Quiet → state.Done) := by
  have blocked : ∀ thread, thread = creator ∨ state.thread creator = .idle [] →
      state.thread thread = .idle [] ∨
        ∃ pc script, state.thread thread = .busy pc script ∧ step pc state.mem = none := by
    intro thread allowed
    cases standing : state.thread thread with
    | idle script =>
        cases script with
        | nil => exact Or.inl rfl
        | cons entry rest =>
            have call := Program.next_call standing (script_call step record entry rest)
            cases (still (.call thread entry) allowed).symm.trans call
    | busy pc script =>
        cases stepped : step pc state.mem with
        | none => exact Or.inr ⟨pc, script, rfl, stepped⟩
        | some result =>
            have move := (scriptProgram step record).next_move standing stepped
            cases (still (.move thread) allowed).symm.trans move
  have inside : ∀ thread pc, state.at thread = some pc →
      thread = creator ∨ state.thread creator = .idle [] := by
    intro thread pc at_
    by_cases mine : thread = creator
    · exact Or.inl mine
    · rcases staged with waiting | done
      · rw [Pool.at_idle (waiting thread mine)] at at_
        cases at_
      · exact Or.inr done
  constructor
  · intro thread pc at_
    rcases blocked thread (inside thread pc at_) with done | ⟨place, script, busy, stuck⟩
    · rw [Pool.at_idle done] at at_
      cases at_
    · rw [Pool.at_busy busy] at at_
      cases at_
      exact stuck
  · intro quiet
    have finished : ∀ thread, thread = creator ∨ state.thread creator = .idle [] →
        state.thread thread = .idle [] := by
      intro thread allowed
      rcases blocked thread allowed with done | ⟨pc, script, busy, _⟩
      · exact done
      · cases (quiet thread).symm.trans (Pool.at_busy busy)
    have first := finished creator (Or.inl rfl)
    exact fun thread => finished thread (Or.inr first)

end Scripts

/-! ### Threads that come to their end -/

/-- Whatever the threads do, something is left to be done until they have made all their calls,
which is after a bounded number of steps. -/
structure Finishes [DecidableEq ι] (program : Program ι σ ℓ ρ (List ℓ) γ)
    (allowed : Pool ι σ ℓ (List ℓ) γ → Act ι ℓ → Prop) (start : Pool ι σ ℓ (List ℓ) γ) : Prop where
  goes_on : ∀ trace state, Run program.next start trace state → Meets allowed trace →
    ¬ state.Done → ∃ act next, allowed state act ∧ program.next state act = some next
  bounded : ∃ bound, ∀ trace state, Run program.next start trace state → trace.length ≤ bound

def Descends (step : ℓ → σ → Option (σ × Outcome ℓ ρ)) (rank : ℓ → ℕ) : Prop :=
  ∀ pc next mem after outcome, step pc mem = some (after, outcome) → outcome.pc? = some next →
    outcome = .goto next ∧ rank next < rank pc

section Descent

variable [DecidableEq ι] [DecidableEq ℓ]
variable {step : ℓ → σ → Option (σ × Outcome ℓ ρ)} {record : ι → ℓ → σ → γ → γ} {rank : ℓ → ℕ}
variable {start : Pool ι σ ℓ (List ℓ) γ} {allowed : Pool ι σ ℓ (List ℓ) γ → Act ι ℓ → Prop}

omit [DecidableEq ℓ] in
theorem Descends.ranked (descends : Descends step rank) : Ranked step rank := by
  constructor
  · intro pc next mem after stepped
    exact (descends pc next mem after _ stepped rfl).2
  · intro pc next mem after stepped
    cases (descends pc next mem after _ stepped rfl).1

omit [DecidableEq ι] in
theorem Descends.not_waits (descends : Descends step rank) (state : Pool ι σ ℓ (List ℓ) γ)
    (act : Act ι ℓ) : ¬ (scriptProgram step record).Waits state act := by
  rintro ⟨thread, pc, mem, again, rfl, at_, stepped⟩
  cases (descends pc again state.mem mem _ stepped rfl).1

variable [Fintype ι]

theorem Descends.finishes (descends : Descends step rank)
    (ends : ∀ trace state, Run (scriptProgram step record).next start trace state →
      Meets allowed trace →
      (∀ act, allowed state act → (scriptProgram step record).next state act = none) →
      state.Done) : Finishes (scriptProgram step record) allowed start := by
  constructor
  · intro trace state run meets unfinished
    by_contra stuck
    apply unfinished
    apply ends trace state run meets
    intro act may
    cases moved : (scriptProgram step record).next state act with
    | none => rfl
    | some next => exact absurd ⟨act, next, may, moved⟩ stuck
  · refine ⟨∑ thread, (start.thread thread).load rank, ?_⟩
    intro trace state run
    have all : (scriptProgram step record).work trace = trace.length := by
      unfold Program.work
      rw [List.countP_eq_length]
      intro taken _
      simp only [descends.not_waits taken.1 taken.2, not_false_eq_true, decide_true]
    rw [← all]
    exact work_le_load descends.ranked run

theorem Finishes.reaches_end (descends : Descends step rank)
    (finishes : Finishes (scriptProgram step record) allowed start) :
    ∃ final, Reaches (scriptProgram step record).next allowed start final ∧ final.Done := by
  obtain ⟨final, reached, waits⟩ := reaches_standstill descends.ranked allowed start
  refine ⟨final, reached, ?_⟩
  obtain ⟨trace, run, meets⟩ := reached
  by_contra unfinished
  obtain ⟨act, next, may, moved⟩ := finishes.goes_on trace final run meets unfinished
  exact descends.not_waits final act (waits act next moved may)

end Descent

/-! ### What the creator brings -/

section Brought

variable [DecidableEq ι] [DecidableEq ℓ] {α : Type*}
variable {step : ℓ → σ → Option (σ × Outcome ℓ ρ)} {record : ι → ℓ → σ → γ → γ}
variable {creator : ι} {state next : Pool ι σ ℓ (List ℓ) γ} {act : Act ι ℓ}

/-- If the others stay in calls that bring nothing, what the creator has brought and what it is
still to bring stays one list in its order. -/
theorem brought_next (there : γ → List α) (brings : σ → ℓ → List α) (idle : ℓ → Prop)
    (moved : (scriptProgram step record).next state act = some next)
    (balance : ∀ thread pc mem outcome, state.at thread = some pc →
      step pc state.mem = some (mem, outcome) →
      there (record thread pc state.mem state.hist) ++ outcome.pc?.elim [] (brings mem) =
        there state.hist ++ brings state.mem pc)
    (nothing : ∀ mem pc, idle pc → brings mem pc = [])
    (stays : ∀ thread pc mem outcome reached, state.at thread = some pc →
      step pc state.mem = some (mem, outcome) → outcome.pc? = some reached → idle pc → idle reached)
    (others : ∀ thread pc, thread ≠ creator → state.at thread = some pc → idle pc)
    (later : ∀ pc ∈ (state.thread creator).script, brings next.mem pc = brings state.mem pc)
    (waiting : act.thread ≠ creator → ∀ pc, state.at creator = some pc →
      brings next.mem pc = brings state.mem pc) :
    there next.hist ++ (next.thread creator).calls.flatMap (brings next.mem) =
      there state.hist ++ (state.thread creator).calls.flatMap (brings state.mem) := by
  rcases Program.next_cases moved with
    ⟨thread, entry, script, left, rfl, standing, called, rfl⟩ |
    ⟨thread, script, left, rfl, standing, impossible, rfl⟩ |
    ⟨thread, pc, script, mem, outcome, rfl, busy, stepped, rfl⟩
  · by_cases mine : thread = creator
    · subst mine
      change there state.hist ++ (Function.update state.thread _ _ _).calls.flatMap _ = _
      rw [Function.update_self, standing, scriptClient_call called]
      rfl
    · rw [Program.next_other moved (Ne.symm mine)]
  · cases impossible
  · have paid := balance thread pc mem outcome (Pool.at_busy busy) stepped
    by_cases mine : thread = creator
    · subst mine
      have left : (Function.update state.thread thread
          ((scriptProgram step record).resume script outcome) thread).calls =
            outcome.pc?.toList ++ script := by
        rw [Function.update_self, resume_calls]
      have rest : script.flatMap (brings mem) = script.flatMap (brings state.mem) := by
        apply List.flatMap_congr
        intro entry member
        apply later
        rw [busy]
        exact member
      have first : outcome.pc?.toList.flatMap (brings mem) = outcome.pc?.elim [] (brings mem) := by
        cases outcome.pc? with
        | none => rfl
        | some reached => exact List.flatMap_singleton ..
      change there (record thread pc state.mem state.hist) ++ List.flatMap (brings mem) _ = _
      rw [left, List.flatMap_append, first, rest, ← List.append_assoc, paid, busy,
        List.append_assoc]
      rfl
    · have mute : idle pc := others thread pc mine (Pool.at_busy busy)
      have after : outcome.pc?.elim [] (brings mem) = [] := by
        cases reached : outcome.pc? with
        | none => rfl
        | some target =>
            exact nothing mem target
              (stays thread pc mem outcome target (Pool.at_busy busy) stepped reached mute)
      rw [nothing state.mem pc mute, after, List.append_nil, List.append_nil] at paid
      have same : (state.thread creator).calls.flatMap (brings mem) =
          (state.thread creator).calls.flatMap (brings state.mem) := by
        apply List.flatMap_congr
        intro owed member
        cases standing : state.thread creator with
        | idle script =>
            rw [standing] at member later
            exact later owed member
        | busy place script =>
            rw [standing] at member later
            rcases List.mem_cons.mp member with rfl | listed
            · exact waiting mine _ (Pool.at_busy standing)
            · exact later owed listed
      rw [Program.next_other moved (Ne.symm mine)]
      change there (record thread pc state.mem state.hist) ++ List.flatMap (brings mem) _ = _
      rw [paid, same]

end Brought

theorem sum_shares {workers share : ℕ} {carry : Option (Fin workers) → ℤ} (creator : carry none = 0)
    (each : ∀ worker, carry (some worker) = share) :
    ∑ thread, carry thread = (workers * share : ℕ) := by
  rw [Fintype.sum_option, creator, Finset.sum_congr rfl (fun worker _ => each worker),
    Finset.sum_const, Finset.card_univ, Fintype.card_fin, zero_add, nsmul_eq_mul]
  push_cast
  rfl

/-! ### Threads that may make any calls -/

def Thread.forget : Thread ℓ κ → Thread ℓ Unit
  | .idle _ => .idle ()
  | .busy pc _ => .busy pc ()

def Pool.forget (state : Pool ι σ ℓ κ γ) : Pool ι σ ℓ Unit γ :=
  { mem := state.mem
    thread := Thread.forget ∘ state.thread
    hist := state.hist }

theorem Pool.forget_at (state : Pool ι σ ℓ κ γ) : state.forget.at = state.at := by
  funext thread
  change ((state.thread thread).forget).pc? = (state.thread thread).pc?
  cases state.thread thread <;> rfl

theorem Program.forget_next [DecidableEq ι] {program : Program ι σ ℓ ρ κ γ}
    {free : Program ι σ ℓ ρ Unit γ} {state next : Pool ι σ ℓ κ γ} {act : Act ι ℓ}
    (sameStep : free.step = program.step) (sameRecord : free.record = program.record)
    (calls : ∀ thread script entry left, state.thread thread = .idle script →
      program.call script entry = some left → free.call () entry = some ())
    (quits : ∀ script, program.quit script = none)
    (moved : program.next state act = some next) :
    free.next state.forget act = some next.forget := by
  rcases Program.next_cases moved with
    ⟨thread, entry, script, left, rfl, idle, called, rfl⟩ |
    ⟨thread, script, left, rfl, idle, impossible, rfl⟩ |
    ⟨thread, pc, script, mem, outcome, rfl, busy, stepped, rfl⟩
  · have waits : state.forget.thread thread = .idle () := by
      change (state.thread thread).forget = _
      rw [idle]
      rfl
    rw [Program.next_call waits (calls thread script entry left idle called), Pool.forget,
      Pool.forget, Function.comp_update]
    rfl
  · cases (quits script).symm.trans impossible
  · have stands : state.forget.thread thread = .busy pc () := by
      change (state.thread thread).forget = _
      rw [busy]
      rfl
    rw [← sameStep] at stepped
    have resumes : (program.resume script outcome).forget = free.resume () outcome := by
      cases outcome <;> rfl
    rw [Program.next_move stands stepped, sameRecord, Pool.forget, Pool.forget,
      Function.comp_update, resumes]

end QueueBench.Machine
