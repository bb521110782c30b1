import Mathlib.Data.List.Nodup
import QueueBench.Lib.RingArith
import QueueBench.Lib.Work
import QueueBench.SampleMerge

/-! The latency samples of stlqueue.cpp. The index of a sample is read from the shared count,
which is incremented only after the store; the number of samples of a thread is computed from
the constant NUM_THREADS, the number of threads from the thread list. -/

namespace QueueBench.Stl
open Machine (Outcome Pool Program Act Thread scriptProgram scriptClient_call script_total_next
  calls_next script_next)
open RingArith (addAndFetch addAndFetch_eq)
open Samples (Side Worker sum_workers)
open Transition (Run Reaches meets_true)

open scoped BigOperators

/-- `queue.push` and `queue.pop` take effect in one step each. -/
inductive Pc where
  | push (value : ℕ)
  | pop
  | index (side : Side)
  | store (side : Side) (index : ℤ)
  | fetchAndAdd (side : Side)
deriving DecidableEq, Repr

structure Memory where
  queue : List ℕ
  num : Side → ℤ

abbrev Stores : Type := Side → List ℤ

def step (pc : Pc) (mem : Memory) : Option (Memory × Outcome Pc Unit) :=
  match pc with
  | .push value => some ({ mem with queue := mem.queue ++ [value] }, .goto (.index .enqueue))
  | .pop =>
      match mem.queue with
      | [] => some (mem, .retry .pop)
      | _ :: rest => some ({ mem with queue := rest }, .goto (.index .dequeue))
  | .index side => some (mem, .goto (.store side (mem.num side)))
  | .store side _ => some (mem, .goto (.fetchAndAdd side))
  | .fetchAndAdd side =>
      some ({ mem with num := Function.update mem.num side (addAndFetch (mem.num side)) }, .ret ())

def record {ι : Type*} (_thread : ι) (pc : Pc) (_mem : Memory) (stores : Stores) : Stores :=
  match pc with
  | .store side index => Function.update stores side (stores side ++ [index])
  | _ => stores

def loop {c : ℕ} (NUM_SAMPLES NUM_THREADS : ℕ) (worker : Worker c) : List Pc :=
  match worker.1 with
  | .enqueue => (List.range (NUM_SAMPLES / NUM_THREADS)).map .push
  | .dequeue => List.replicate (NUM_SAMPLES / NUM_THREADS) .pop

abbrev StlPool (c : ℕ) : Type := Pool (Worker c) Memory Pc (List Pc) Stores

def program (c : ℕ) : Program (Worker c) Memory Pc Unit (List Pc) Stores :=
  scriptProgram step record

def start (NUM_SAMPLES NUM_THREADS CUR_NUM_THREADS : ℕ) : StlPool CUR_NUM_THREADS :=
  { mem :=
      { queue := []
        num := fun _ => 0 }
    thread := fun worker => .idle (loop NUM_SAMPLES NUM_THREADS worker)
    hist := fun _ => [] }

def Joined {c : ℕ} (state : StlPool c) : Prop := ∀ worker, state.thread worker = .idle []

/-- Every sample has an element of the arrays for itself, and is counted. -/
def OwnSlots (NUM_SAMPLES NUM_THREADS c : ℕ) : Prop :=
  ∀ trace state, Run (program c).next (start NUM_SAMPLES NUM_THREADS c) trace state → ∀ side,
    (∀ index ∈ state.hist side, 0 ≤ index ∧ index < NUM_SAMPLES) ∧ (state.hist side).Nodup ∧
      (Joined state → state.mem.num side = (state.hist side).length)

/-! ### One thread of each kind -/

def Pc.side : Pc → Side
  | .push _ => .enqueue
  | .pop => .dequeue
  | .index side | .store side _ | .fetchAndAdd side => side

def uncounted : Option Pc → ℤ
  | some (.fetchAndAdd _) => 1
  | _ => 0

/-- A side with a single thread: its samples lie behind each other from index 0 on. -/
structure Own (place : Option Pc) (num : ℤ) (stores : List ℤ) : Prop where
  dense : stores = (List.range stores.length).map (fun index : ℕ => (index : ℤ))
  counted : num + uncounted place = stores.length
  fresh : ∀ side index, place = some (.store side index) → index = num

def coming (side : Side) : Pc → ℕ
  | .push _ => if side = .enqueue then 1 else 0
  | .pop => if side = .dequeue then 1 else 0
  | .index kind | .store kind _ => if side = kind then 1 else 0
  | .fetchAndAdd _ => 0

variable {NUM_SAMPLES NUM_THREADS c : ℕ} {side : Side} {pc : Pc} {mem after : Memory}
variable {stores : Stores} {outcome : Outcome Pc Unit}

/-- A pop that finds an element is followed by its sample, another one is made again. -/
theorem pop_cases (stepped : step .pop mem = some (after, outcome)) :
    after.num = mem.num ∧ (outcome = .retry .pop ∨ outcome = .goto (.index .dequeue)) := by
  cases queue : mem.queue with
  | nil =>
      simp only [step, queue] at stepped
      cases stepped
      exact ⟨rfl, Or.inl rfl⟩
  | cons value rest =>
      simp only [step, queue] at stepped
      cases stepped
      exact ⟨rfl, Or.inr rfl⟩

theorem step_side (stepped : step pc mem = some (after, outcome)) :
    ∀ next, outcome.pc? = some next → next.side = pc.side := by
  intro next same
  cases pc with
  | push value => cases stepped; cases same; rfl
  | pop =>
      obtain ⟨_, rfl | rfl⟩ := pop_cases stepped
      · cases same; rfl
      · cases same; rfl
  | index side => cases stepped; cases same; rfl
  | store side index => cases stepped; cases same; rfl
  | fetchAndAdd side => cases stepped; cases same

theorem step_frame {ι : Type*} (worker : ι) (stepped : step pc mem = some (after, outcome))
    (different : side ≠ pc.side) :
    after.num side = mem.num side ∧ record worker pc mem stores side = stores side := by
  cases pc with
  | push value => cases stepped; exact ⟨rfl, rfl⟩
  | pop => exact ⟨congrFun (pop_cases stepped).1 side, rfl⟩
  | index kind => cases stepped; exact ⟨rfl, rfl⟩
  | store kind index => cases stepped; exact ⟨rfl, Function.update_of_ne different _ _⟩
  | fetchAndAdd kind => cases stepped; exact ⟨Function.update_of_ne different _ _, rfl⟩

theorem coming_balance {ι : Type*} (worker : ι) (side : Side)
    (stepped : step pc mem = some (after, outcome)) :
    (record worker pc mem stores side).length + outcome.pc?.elim 0 (coming side) =
      (stores side).length + coming side pc := by
  cases pc with
  | push value => cases stepped; rfl
  | pop =>
      obtain ⟨_, rfl | rfl⟩ := pop_cases stepped
      · rfl
      · rfl
  | index kind => cases stepped; rfl
  | store kind index =>
      cases stepped
      change (Function.update stores kind _ side).length + 0 = _ + if side = kind then 1 else 0
      by_cases same : side = kind
      · rw [same, Function.update_self, if_pos rfl, List.length_append, List.length_singleton]
      · rw [Function.update_of_ne same, if_neg same]
  | fetchAndAdd kind => cases stepped; rfl

theorem Own.step {ι : Type*} (worker : ι) (own : Own (some pc) (mem.num pc.side) (stores pc.side))
    (stepped : step pc mem = some (after, outcome))
    (room : (stores pc.side).length < 2 ^ 31) :
    Own outcome.pc? (after.num pc.side) (record worker pc mem stores pc.side) := by
  have counted := own.counted
  cases pc with
  | push value =>
      cases stepped
      exact
        { dense := own.dense
          counted := counted
          fresh := by intro side index impossible; cases impossible }
  | pop =>
      obtain ⟨num, rfl | rfl⟩ := pop_cases stepped
      · rw [num]
        exact own
      · rw [num]
        exact
          { dense := own.dense
            counted := counted
            fresh := by intro side index impossible; cases impossible }
  | index kind =>
      cases stepped
      exact
        { dense := own.dense
          counted := counted
          fresh := by intro side index same; cases same; rfl }
  | store kind index =>
      cases stepped
      have same := own.fresh kind index rfl
      change mem.num kind + 0 = (stores kind).length at counted
      change Own _ (mem.num kind) (Function.update stores kind (stores kind ++ [index]) kind)
      rw [Function.update_self]
      constructor
      · have dense : stores kind =
            (List.range (stores kind).length).map (fun index : ℕ => (index : ℤ)) := own.dense
        change index = mem.num kind at same
        rw [List.length_append, List.length_singleton, List.range_succ, List.map_append, ← dense,
          List.map_singleton, same, ← counted, add_zero]
      · rw [List.length_append, List.length_singleton]
        change mem.num kind + 1 = _
        push_cast
        omega
      · intro side other impossible
        cases impossible
  | fetchAndAdd kind =>
      cases stepped
      change mem.num kind + 1 = (stores kind).length at counted
      change Own none (Function.update mem.num kind (addAndFetch (mem.num kind)) kind) (stores kind)
      change (stores kind).length < 2 ^ 31 at room
      rw [Function.update_self, addAndFetch_eq (by omega) (by omega)]
      exact
        { dense := own.dense
          counted := by change mem.num kind + 1 + 0 = _; omega
          fresh := by intro side index impossible; cases impossible }

def Pc.Opens (pc : Pc) : Prop := uncounted (some pc) = 0 ∧ ∀ side index, pc ≠ .store side index

structure Inv (NUM_SAMPLES NUM_THREADS : ℕ) (state : StlPool 1) : Prop where
  opens : ∀ worker, ∀ pc ∈ (state.thread worker).script, pc.Opens
  sided : ∀ worker, ∀ pc ∈ (state.thread worker).calls, pc.side = worker.1
  own : ∀ side, Own (state.at (side, 0)) (state.mem.num side) (state.hist side)
  balance : ∀ side, state.total (fun _ stores => (stores side).length) (Thread.due (coming side)) =
    NUM_SAMPLES / NUM_THREADS

theorem coming_start (side : Side) :
    ∑ worker, Thread.due (coming side) ((start NUM_SAMPLES NUM_THREADS c).thread worker) =
      c * (NUM_SAMPLES / NUM_THREADS) := by
  have produces : ∀ i, Thread.due (coming side)
      ((start NUM_SAMPLES NUM_THREADS c).thread (.enqueue, i)) =
        if side = .enqueue then NUM_SAMPLES / NUM_THREADS else 0 := by
    intro i
    change ((loop NUM_SAMPLES NUM_THREADS (.enqueue, i)).map (coming side)).sum = _
    cases side <;> simp [loop, Function.comp_def, coming]
  have consumes : ∀ i, Thread.due (coming side)
      ((start NUM_SAMPLES NUM_THREADS c).thread (.dequeue, i)) =
        if side = .dequeue then NUM_SAMPLES / NUM_THREADS else 0 := by
    intro i
    change ((loop NUM_SAMPLES NUM_THREADS (.dequeue, i)).map (coming side)).sum = _
    cases side <;> simp [loop, coming]
  rw [sum_workers]
  cases side <;> simp [produces, consumes]

theorem inv_start : Inv NUM_SAMPLES NUM_THREADS (start NUM_SAMPLES NUM_THREADS 1) := by
  constructor
  · rintro ⟨side, i⟩ pc member
    change pc ∈ loop NUM_SAMPLES NUM_THREADS (side, i) at member
    cases side with
    | enqueue =>
        obtain ⟨value, _, rfl⟩ := List.mem_map.mp member
        exact ⟨rfl, fun _ _ impossible => by cases impossible⟩
    | dequeue =>
        rw [List.eq_of_mem_replicate member]
        exact ⟨rfl, fun _ _ impossible => by cases impossible⟩
  · rintro ⟨side, i⟩ pc member
    change pc ∈ loop NUM_SAMPLES NUM_THREADS (side, i) at member
    cases side with
    | enqueue =>
        obtain ⟨value, _, rfl⟩ := List.mem_map.mp member
        rfl
    | dequeue =>
        rw [List.eq_of_mem_replicate member]
        rfl
  · intro side
    exact
      { dense := rfl
        counted := rfl
        fresh := by intro kind index impossible; cases impossible }
  · intro side
    change 0 + ∑ worker, Thread.due (coming side)
      ((start NUM_SAMPLES NUM_THREADS 1).thread worker) = _
    rw [coming_start, Nat.zero_add, Nat.one_mul]

theorem Inv.length_le {state : StlPool 1} (inv : Inv NUM_SAMPLES NUM_THREADS state) (side : Side) :
    (state.hist side).length ≤ NUM_SAMPLES := by
  have balance : (state.hist side).length +
      ∑ worker, Thread.due (coming side) (state.thread worker) = NUM_SAMPLES / NUM_THREADS :=
    inv.balance side
  have most := Nat.div_le_self NUM_SAMPLES NUM_THREADS
  generalize NUM_SAMPLES / NUM_THREADS = share at balance most
  omega

theorem Inv.next {state next : StlPool 1} {act : Act (Worker 1) Pc}
    (inv : Inv NUM_SAMPLES NUM_THREADS state) (int : NUM_SAMPLES < 2 ^ 31)
    (moved : (program 1).next state act = some next) : Inv NUM_SAMPLES NUM_THREADS next := by
  have balance : ∀ side,
      next.total (fun _ stores => (stores side).length) (Thread.due (coming side)) =
        NUM_SAMPLES / NUM_THREADS := by
    intro side
    rw [← inv.balance side]
    apply script_total_next moved
    intro worker pc mem outcome _ _ stepped
    exact coming_balance worker side stepped
  have sided : ∀ worker, ∀ pc ∈ (next.thread worker).calls, pc.side = worker.1 := by
    apply calls_next _ moved inv.sided
    intro worker pc mem after outcome reached stepped same own
    rw [step_side stepped reached same, own]
  have own : ∀ side, Own (next.at (side, 0)) (next.mem.num side) (next.hist side) := by
    intro side
    have before := inv.own side
    rcases Program.next_cases moved with
      ⟨worker, entry, script, left, rfl, idle, called, rfl⟩ |
      ⟨worker, script, left, rfl, idle, impossible, rfl⟩ |
      ⟨worker, pc, script, mem, outcome, rfl, busy, stepped, rfl⟩
    · by_cases mine : worker = (side, 0)
      · subst mine
        have opens := inv.opens (side, 0)
        rw [idle, scriptClient_call called] at opens
        have at_ : state.at (side, 0) = none := Pool.at_idle idle
        rw [at_] at before
        have stands : (Function.update state.thread (side, 0) (Thread.busy entry left)
            (side, 0)).pc? = some entry := by
          rw [Function.update_self]
          rfl
        change Own (Function.update state.thread (side, 0) _ (side, 0)).pc? _ _
        rw [stands]
        obtain ⟨zero, loads⟩ := opens entry List.mem_cons_self
        exact
          { dense := before.dense
            counted := by rw [zero]; exact before.counted
            fresh := by
              intro kind index same
              cases same
              exact absurd rfl (loads kind index) }
      · change Own (Function.update state.thread worker _ (side, 0)).pc? _ _
        rw [Function.update_of_ne (Ne.symm mine)]
        exact before
    · cases impossible
    · have working := inv.sided worker pc (Pool.at_mem_calls (Pool.at_busy busy))
      by_cases mine : side = pc.side
      · subst mine
        have self : worker = (pc.side, 0) :=
          Prod.ext working.symm (Subsingleton.elim _ _)
        have at_ : state.at (pc.side, 0) = some pc := by
          rw [← self, Pool.at, busy]
          rfl
        rw [at_] at before
        have short := inv.length_le pc.side
        have stands : (Function.update state.thread worker ((program 1).resume script outcome)
            (pc.side, 0)).pc? = outcome.pc? := by
          rw [self, Function.update_self, Program.resume_pc]
        change Own (Function.update state.thread worker _ (pc.side, 0)).pc? _ _
        rw [stands]
        exact before.step worker stepped (by omega)
      · obtain ⟨num, stores⟩ := step_frame worker stepped mine
        have other : (side, (0 : Fin 1)) ≠ worker := by
          intro same
          apply mine
          rw [working, ← same]
        change Own (Function.update state.thread worker _ (side, 0)).pc? (mem.num side)
          (record worker pc state.mem state.hist side)
        rw [Function.update_of_ne other, num, stores]
        exact before
  exact
    { opens := script_next moved inv.opens
      sided := sided
      own := own
      balance := balance }

theorem ownSlots_one (int : NUM_SAMPLES < 2 ^ 31) : OwnSlots NUM_SAMPLES NUM_THREADS 1 := by
  intro trace state run side
  have inv : Inv NUM_SAMPLES NUM_THREADS state := run.invariant (meets_true trace) inv_start
    (fun _ _ _ now _ moved => now.next int moved)
  have own := inv.own side
  have short := inv.length_le side
  constructor
  · intro index member
    rw [own.dense] at member
    obtain ⟨position, inside, rfl⟩ := List.mem_map.mp member
    rw [List.mem_range] at inside
    omega
  · constructor
    · rw [own.dense]
      exact List.Nodup.map (fun _ _ same => Int.ofNat_inj.mp same) List.nodup_range
    · intro joined
      have at_ : state.at (side, 0) = none := Pool.at_idle (joined (side, 0))
      have counted := own.counted
      rw [at_] at counted
      change state.mem.num side + 0 = _ at counted
      omega

/-! ### Two producers -/

theorem reads_index {state : StlPool c} {worker : Worker c} {value : ℕ} {rest : List Pc}
    (idle : state.thread worker = .idle (.push value :: rest)) :
    ∃ final, Reaches (program c).next (fun _ _ => True) state final ∧
      final.thread worker = .busy (.store .enqueue (state.mem.num .enqueue)) rest ∧
      final.mem.num = state.mem.num ∧ final.hist = state.hist ∧
      ∀ other, other ≠ worker → final.thread other = state.thread other := by
  obtain ⟨entered, call, entry⟩ := (program c).call_exists idle (if_pos rfl)
  have pushes : step (.push value) entered.mem = some
      ({ entered.mem with queue := entered.mem.queue ++ [value] }, .goto (.index .enqueue)) := rfl
  obtain ⟨pushed, early, push⟩ := (program c).move_exists entry.thread_eq pushes
  have reads : step (.index .enqueue) pushed.mem = some
      (pushed.mem, .goto (.store .enqueue (pushed.mem.num .enqueue))) := rfl
  obtain ⟨final, late, read⟩ := (program c).move_exists push.thread_eq reads
  have num : pushed.mem.num = state.mem.num := by
    rw [push.mem_eq, entry.mem_eq]
  refine ⟨final, (((Reaches.refl _ _ state).tail trivial call).tail trivial early).tail trivial
    late, ?_, ?_, ?_, ?_⟩
  · rw [read.thread_eq, num]
    rfl
  · rw [read.mem_eq, num]
  · rw [read.hist_eq, push.hist_eq, entry.hist_eq]
    rfl
  · intro other different
    rw [read.others other different, push.others other different, entry.others other different]

theorem shared_index {NUM_SAMPLES NUM_THREADS c : ℕ} (sampled : 0 < NUM_SAMPLES / NUM_THREADS)
    (several : 1 < c) : ∃ trace state,
      Run (program c).next (start NUM_SAMPLES NUM_THREADS c) trace state ∧
        state.hist .enqueue = [0, 0] := by
  let left : Worker c := (.enqueue, ⟨0, by omega⟩)
  let right : Worker c := (.enqueue, ⟨1, several⟩)
  have apart : right ≠ left := by
    intro same
    cases Fin.mk.inj (Prod.mk.inj same).2
  have begins : ∀ i : Fin c, ∃ rest,
      loop NUM_SAMPLES NUM_THREADS (.enqueue, i) = .push 0 :: rest := by
    intro i
    change ∃ rest, (List.range (NUM_SAMPLES / NUM_THREADS)).map Pc.push = .push 0 :: rest
    rw [← Nat.sub_add_cancel sampled, List.range_succ_eq_map]
    exact ⟨_, rfl⟩
  obtain ⟨leftRest, leftScript⟩ := begins left.2
  obtain ⟨rightRest, rightScript⟩ := begins right.2
  have leftIdle : (start NUM_SAMPLES NUM_THREADS c).thread left = .idle (.push 0 :: leftRest) :=
    congrArg Thread.idle leftScript
  obtain ⟨first, early, leftAt, leftNum, leftHist, leftOthers⟩ := reads_index leftIdle
  have rightIdle : first.thread right = .idle (.push 0 :: rightRest) := by
    rw [leftOthers right apart]
    exact congrArg Thread.idle rightScript
  obtain ⟨second, late, rightAt, _, rightHist, rightOthers⟩ := reads_index rightIdle
  rw [leftNum] at rightAt
  have standing : second.thread left = .busy (.store .enqueue 0) leftRest := by
    rw [rightOthers left apart.symm, leftAt]
    rfl
  obtain ⟨third, stored, put⟩ := (program c).move_exists standing rfl
  have waiting : third.thread right = .busy (.store .enqueue 0) rightRest := by
    rw [put.others right apart, rightAt]
    rfl
  obtain ⟨final, overwritten, again⟩ := (program c).move_exists waiting rfl
  obtain ⟨trace, run, _⟩ := ((early.trans late).tail trivial stored).tail trivial overwritten
  refine ⟨trace, final, run, ?_⟩
  rw [again.hist_eq, put.hist_eq, rightHist, leftHist]
  rfl

/-- Every sample has its own slot if and only if there is one producer and one consumer. -/
theorem stl_own_slots_iff {NUM_SAMPLES NUM_THREADS c : ℕ} (threads : 1 ≤ c)
    (constant : 1 ≤ NUM_THREADS) (enough : NUM_THREADS ≤ NUM_SAMPLES)
    (int : NUM_SAMPLES < 2 ^ 31) : OwnSlots NUM_SAMPLES NUM_THREADS c ↔ c = 1 := by
  constructor
  · intro own
    by_contra other
    obtain ⟨trace, state, run, twice⟩ := shared_index (Nat.div_pos enough constant)
      (show 1 < c by omega)
    have nodup := (own trace state run .enqueue).2.1
    rw [twice] at nodup
    exact absurd nodup (by decide)
  · rintro rfl
    exact ownSlots_one int

/-- The constants of stlqueue.cpp. -/
theorem stl_own_slots_iff_one : OwnSlots 128000 1 1 :=
  (stl_own_slots_iff (by decide) (by decide) (by decide) (by decide)).mpr rfl

/-- With four threads in the list two producers store their first samples at index 0. -/
theorem two_producers_share_slot : ∃ trace state,
    Run (program 2).next (start 128000 1 2) trace state ∧ state.hist .enqueue = [0, 0] :=
  shared_index (by decide) (by decide)

end QueueBench.Stl
