import QueueBench.Lib.Machine
import QueueBench.Lib.RingArith

/-! The tickets that any number of threads draw from one 32-bit counter in a run of any length,
and the slots of a ring that C's `%` selects with them. -/

namespace QueueBench.Tickets
open Machine (Outcome Pool Program Act)
open RingArith (wrap32 wrap32_eq addAndFetch tmod_of_nonneg slot_range)
open Transition (Run)

def ticket (n : ℕ) : ℤ := wrap32 n

theorem addAndFetch_wrap (n : ℕ) : addAndFetch (wrap32 ((n : ℤ) - 1)) = ticket n := by
  unfold addAndFetch ticket wrap32
  rw [Int.bmod_add_bmod, sub_add_cancel]

theorem ticket_eq {n : ℕ} (low : n < 2 ^ 31) : ticket n = n :=
  wrap32_eq (by omega) (by omega)

theorem ticket_wrapped : ticket (2 ^ 31) = -2 ^ 31 ∧ ticket (2 ^ 31 + 1) = -(2 ^ 31 - 1) := by
  constructor <;> decide

/-- The slots of the tickets lie in the ring, and each is the one behind its predecessor's. -/
structure InsideRing (size : ℕ) (tickets : List ℤ) : Prop where
  range : ∀ ticket ∈ tickets, 0 ≤ ticket.tmod size ∧ ticket.tmod size < size
  cyclic : ∀ (index : ℕ) early late, tickets[index]? = some early →
    tickets[index + 1]? = some late → late.tmod size = (early.tmod size + 1) % size

/-- A ring of this size can be used with so many tickets of one counter. -/
def Lasts (size n : ℕ) : Prop :=
  n = 0 ∨ 0 < size ∧ (size = 1 ∨ n ≤ 2 ^ 31 ∨ n = 2 ^ 31 + 1 ∧ size ∣ 2 ^ 31)

variable {size n : ℕ}

theorem getElem_tickets {index : ℕ} {drawn : ℤ}
    (found : ((List.range n).map ticket)[index]? = some drawn) : index < n ∧ drawn = ticket index := by
  obtain ⟨inside, same⟩ := List.getElem?_eq_some_iff.mp found
  rw [List.length_map, List.length_range] at inside
  rw [List.getElem_map, List.getElem_range] at same
  exact ⟨inside, same.symm⟩

theorem slot_eq {index : ℕ} (low : index < 2 ^ 31) :
    (ticket index).tmod size = (index : ℤ) % size := by
  rw [ticket_eq low, tmod_of_nonneg (by omega)]

theorem slot_wrapped (divides : size ∣ 2 ^ 31) : (ticket (2 ^ 31)).tmod size = 0 := by
  rw [ticket_wrapped.1, Int.neg_tmod, Int.tmod_eq_zero_of_dvd, neg_zero]
  exact_mod_cast divides

theorem lasts_inside (positive : 0 < size)
    (lasts : size = 1 ∨ n ≤ 2 ^ 31 ∨ n = 2 ^ 31 + 1 ∧ size ∣ 2 ^ 31) :
    InsideRing size ((List.range n).map ticket) := by
  rcases lasts with rfl | few | ⟨rfl, divides⟩
  · constructor
    · intro drawn _
      rw [Nat.cast_one, Int.tmod_one]
      decide
    · intro index early late _ _
      rw [Nat.cast_one, Int.tmod_one, Int.tmod_one]
      decide
  · constructor
    · intro drawn member
      obtain ⟨index, inside, rfl⟩ := List.mem_map.mp member
      rw [slot_eq (by rw [List.mem_range] at inside; omega)]
      exact slot_range (by omega) _
    · intro index early late earlyAt lateAt
      obtain ⟨inside, earlyIs⟩ := getElem_tickets earlyAt
      obtain ⟨next, lateIs⟩ := getElem_tickets lateAt
      rw [earlyIs, lateIs]
      rw [slot_eq (by omega), slot_eq (by omega), Int.emod_add_emod, Nat.cast_add, Nat.cast_one]
  · have last : ((2 ^ 31 - 1 : ℕ) : ℤ) + 1 = (2 ^ 31 : ℕ) := by omega
    have wrapped : ((2 ^ 31 : ℕ) : ℤ) % size = 0 :=
      Int.emod_eq_zero_of_dvd (by exact_mod_cast divides)
    constructor
    · intro drawn member
      obtain ⟨index, inside, rfl⟩ := List.mem_map.mp member
      rw [List.mem_range] at inside
      by_cases newest : index = 2 ^ 31
      · rw [newest, slot_wrapped divides]
        omega
      · rw [slot_eq (by omega)]
        exact slot_range (by omega) _
    · intro index early late earlyAt lateAt
      obtain ⟨inside, earlyIs⟩ := getElem_tickets earlyAt
      obtain ⟨next, lateIs⟩ := getElem_tickets lateAt
      rw [earlyIs, lateIs]
      by_cases newest : index + 1 = 2 ^ 31
      · have before : index = 2 ^ 31 - 1 := by omega
        rw [newest, slot_wrapped divides, slot_eq (by omega), Int.emod_add_emod, before, last,
          wrapped]
      · rw [slot_eq (by omega), slot_eq (by omega), Int.emod_add_emod, Nat.cast_add,
          Nat.cast_one]

theorem dvd_of_slot_neg {count : ℕ} (low : 0 ≤ (-(count : ℤ)).tmod size) : size ∣ count := by
  rw [Int.neg_tmod, tmod_of_nonneg (Int.natCast_nonneg count)] at low
  apply Int.natCast_dvd_natCast.mp
  apply Int.dvd_of_emod_eq_zero
  rcases Nat.eq_zero_or_pos size with rfl | positive
  · rw [Nat.cast_zero, Int.emod_zero] at low ⊢
    omega
  · have range := slot_range (show (0 : ℤ) < size from by omega) count
    omega

theorem insideRing_iff (size n : ℕ) :
    InsideRing size ((List.range n).map ticket) ↔ Lasts size n := by
  constructor
  · intro inside
    have member : ∀ index < n, ticket index ∈ (List.range n).map ticket :=
      fun index less => List.mem_map_of_mem (List.mem_range.mpr less)
    rcases Nat.eq_zero_or_pos n with none_ | some_
    · exact Or.inl none_
    · right
      have first := inside.range _ (member 0 some_)
      refine ⟨by omega, ?_⟩
      by_cases few : n ≤ 2 ^ 31
      · exact Or.inr (Or.inl few)
      · have wrapped := (inside.range _ (member (2 ^ 31) (by omega))).1
        rw [ticket_wrapped.1] at wrapped
        have divides : size ∣ 2 ^ 31 := dvd_of_slot_neg wrapped
        by_cases last : n = 2 ^ 31 + 1
        · exact Or.inr (Or.inr ⟨last, divides⟩)
        · left
          have beyond := (inside.range _ (member (2 ^ 31 + 1) (by omega))).1
          rw [ticket_wrapped.2] at beyond
          have also : size ∣ 2 ^ 31 - 1 := dvd_of_slot_neg (by push_cast; exact beyond)
          have one := Nat.dvd_sub divides also
          exact Nat.dvd_one.mp one
  · rintro (rfl | ⟨positive, lasts⟩)
    · constructor
      · intro drawn impossible
        cases impossible
      · intro index early late impossible _
        cases impossible
    · exact lasts_inside positive lasts

/-! ### Runs -/

variable {ι σ ℓ ρ κ γ : Type*}

/-- One of the counters of a machine: its value in the memory, the program points that draw from
it, and the ticket a thread at a program point works on. -/
structure Counter (ℓ σ : Type*) where
  value : σ → ℤ
  draws : ℓ → Bool
  held : ℓ → Option ℤ

/-- Only a draw moves the counter, and a thread works on tickets it has drawn. -/
structure Counter.Sound (counter : Counter ℓ σ) (step : ℓ → σ → Option (σ × Outcome ℓ ρ)) :
    Prop where
  moves : ∀ pc mem after outcome, step pc mem = some (after, outcome) →
    counter.value after =
      if counter.draws pc then addAndFetch (counter.value mem) else counter.value mem
  holds : ∀ pc mem after outcome next drawn, step pc mem = some (after, outcome) →
    outcome.pc? = some next → counter.held next = some drawn →
    counter.held pc = some drawn ∨
      counter.draws pc = true ∧ drawn = addAndFetch (counter.value mem)

variable {counter : Counter ℓ σ}

def Counter.drawn (counter : Counter ℓ σ) (taken : Pool ι σ ℓ κ γ × Act ι ℓ) : Option ℤ :=
  match taken.2 with
  | .move thread => (taken.1.at thread).bind (fun pc =>
      if counter.draws pc then some (addAndFetch (counter.value taken.1.mem)) else none)
  | _ => none

def Counter.tickets (counter : Counter ℓ σ) (trace : List (Pool ι σ ℓ κ γ × Act ι ℓ)) : List ℤ :=
  trace.filterMap counter.drawn

def Counter.index (counter : Counter ℓ σ) (size : ℕ) (taken : Pool ι σ ℓ κ γ × Act ι ℓ) :
    Option ℤ :=
  match taken.2 with
  | .move thread =>
      ((taken.1.at thread).bind counter.held).map (fun drawn => drawn.tmod size)
  | _ => none

/-- The tickets of a run select slots of the ring in cyclic order, and no step works with an
index outside. -/
structure Counter.Inside (counter : Counter ℓ σ) (size : ℕ)
    (trace : List (Pool ι σ ℓ κ γ × Act ι ℓ)) : Prop where
  ring : InsideRing size (counter.tickets trace)
  indices : ∀ taken ∈ trace, ∀ index, counter.index size taken = some index →
    0 ≤ index ∧ index < size

theorem Counter.tickets_append (counter : Counter ℓ σ)
    (earlier later : List (Pool ι σ ℓ κ γ × Act ι ℓ)) :
    counter.tickets (earlier ++ later) = counter.tickets earlier ++ counter.tickets later :=
  List.filterMap_append

variable [DecidableEq ι] {program : Program ι σ ℓ ρ κ γ} {start state next : Pool ι σ ℓ κ γ}
variable {act : Act ι ℓ} {trace : List (Pool ι σ ℓ κ γ × Act ι ℓ)}

theorem Counter.Sound.drawn_next (sound : counter.Sound program.step)
    (moved : program.next state act = some next) :
    match counter.drawn (state, act) with
    | some drawn => drawn = addAndFetch (counter.value state.mem) ∧ counter.value next.mem = drawn
    | none => counter.value next.mem = counter.value state.mem := by
  rcases Program.next_cases moved with
    ⟨thread, entry, script, left, rfl, idle, called, rfl⟩ |
    ⟨thread, script, left, rfl, idle, impossible, rfl⟩ |
    ⟨thread, pc, script, mem, outcome, rfl, busy, stepped, rfl⟩
  · rfl
  · rfl
  · have moves := sound.moves pc state.mem mem outcome stepped
    have at_ : state.at thread = some pc := Pool.at_busy busy
    simp only [Counter.drawn, at_, Option.bind_some]
    by_cases draws : counter.draws pc = true
    · rw [if_pos draws] at moves ⊢
      exact ⟨rfl, moves⟩
    · rw [if_neg draws] at moves ⊢
      exact moves

theorem Counter.Sound.tickets_eq (sound : counter.Sound program.step)
    (fresh : counter.value start.mem = -1) (run : Run program.next start trace state) :
    counter.tickets trace = (List.range (counter.tickets trace).length).map ticket ∧
      counter.value state.mem = wrap32 ((counter.tickets trace).length - 1) := by
  induction run with
  | nil => exact ⟨rfl, fresh⟩
  | @snoc earlier middle last label before moved ih =>
      obtain ⟨firsts, value⟩ := ih
      have step := sound.drawn_next moved
      rw [counter.tickets_append]
      unfold Counter.tickets at firsts value ⊢
      rw [List.filterMap_cons, List.filterMap_nil]
      cases drawn : counter.drawn (middle, label) with
      | none =>
          rw [drawn] at step
          rw [List.append_nil]
          exact ⟨firsts, step.trans value⟩
      | some newest =>
          rw [drawn] at step
          rw [value, addAndFetch_wrap] at step
          rw [List.length_append, List.length_singleton, List.range_succ, List.map_append, ← firsts,
            List.map_singleton, step.1]
          refine ⟨rfl, ?_⟩
          rw [step.2, step.1, Nat.cast_add, Nat.cast_one, add_sub_cancel_right]
          rfl

theorem Counter.Sound.held_mem (sound : counter.Sound program.step)
    (idle : ∀ thread, start.at thread = none)
    (enters : ∀ script entry left, program.call script entry = some left →
      counter.held entry = none)
    (run : Run program.next start trace state) :
    ∀ thread drawn, (state.at thread).bind counter.held = some drawn →
      drawn ∈ counter.tickets trace := by
  induction run with
  | nil =>
      intro thread drawn holds
      rw [idle thread] at holds
      cases holds
  | @snoc earlier middle last label before moved ih =>
      intro thread drawn holds
      rw [counter.tickets_append]
      by_cases mine : thread = label.thread
      · subst mine
        cases standing : middle.at label.thread with
        | none =>
            obtain ⟨entry, at_, held⟩ := Option.bind_eq_some_iff.mp holds
            obtain ⟨_, script, left, called⟩ := Program.own_call moved standing at_
            rw [enters script entry left called] at held
            cases held
        | some pc =>
            obtain ⟨moves, outcome, stepped, at_, _⟩ := Program.own_move moved standing
            obtain ⟨reached, lastAt, held⟩ := Option.bind_eq_some_iff.mp holds
            rw [lastAt] at at_
            rcases sound.holds pc middle.mem last.mem outcome reached drawn stepped at_.symm held
              with kept | ⟨draws, same⟩
            · exact List.mem_append_left _
                (ih label.thread drawn (by rw [standing]; exact kept))
            · have newest : counter.drawn (middle, label) = some drawn := by
                rw [moves]
                simp only [Counter.drawn, standing, Option.bind_some, if_pos draws, same]
              apply List.mem_append_right
              rw [Counter.tickets, List.filterMap_cons, newest]
              exact List.mem_singleton_self drawn
      · rw [Pool.at, Program.next_other moved mine] at holds
        exact List.mem_append_left _ (ih thread drawn holds)

theorem Counter.Sound.index_mem (sound : counter.Sound program.step)
    (idle : ∀ thread, start.at thread = none)
    (enters : ∀ script entry left, program.call script entry = some left →
      counter.held entry = none)
    (run : Run program.next start trace state) :
    ∀ taken ∈ trace, ∀ index, counter.index size taken = some index →
      ∃ drawn ∈ counter.tickets trace, drawn.tmod size = index := by
  induction run with
  | nil =>
      intro taken impossible
      cases impossible
  | @snoc earlier middle last label before moved ih =>
      intro taken member index works
      rw [counter.tickets_append]
      rcases List.mem_append.mp member with early | newest
      · obtain ⟨drawn, inside, same⟩ := ih taken early index works
        exact ⟨drawn, List.mem_append_left _ inside, same⟩
      · rw [List.mem_singleton.mp newest] at works
        cases label with
        | call thread entry => cases works
        | quit thread => cases works
        | move thread =>
            obtain ⟨drawn, holds, same⟩ := Option.map_eq_some_iff.mp works
            have inside := sound.held_mem idle enters before thread drawn holds
            exact ⟨drawn, List.mem_append_left _ inside, same⟩

/-- A run stays inside the ring exactly if the ring lasts for the tickets it draws. -/
theorem Counter.Sound.inside_iff (sound : counter.Sound program.step)
    (fresh : counter.value start.mem = -1) (idle : ∀ thread, start.at thread = none)
    (enters : ∀ script entry left, program.call script entry = some left →
      counter.held entry = none)
    (run : Run program.next start trace state) :
    counter.Inside size trace ↔ Lasts size (counter.tickets trace).length := by
  have firsts := (sound.tickets_eq fresh run).1
  rw [← insideRing_iff, ← firsts]
  constructor
  · intro inside
    exact inside.ring
  · intro ring
    refine ⟨ring, ?_⟩
    intro taken member index works
    obtain ⟨drawn, inside, rfl⟩ := sound.index_mem idle enters run taken member index works
    exact ring.range drawn inside

end QueueBench.Tickets
