import Mathlib.Algebra.Order.BigOperators.Group.List
import Mathlib.Data.Fintype.Prod
import Mathlib.Data.Nat.Cast.Basic
import QueueBench.Lib.Ledger
import QueueBench.Lib.Mutex

/-! The end of every latency thread of QueueBenchmarks/sqmain.c: under the shared mutex the
local samples are copied behind those merged before, and the count is moved on. -/

namespace QueueBench.Samples
open Machine (Outcome Pool Program Act Thread Returns scriptProgram scriptClient_call)
open Transition (Run meets_true run_of_play)

open scoped BigOperators

abbrev Ticks : Type := ℤ

inductive Side where
  | enqueue
  | dequeue
deriving DecidableEq, Repr

instance : Fintype Side :=
  { elems := {.enqueue, .dequeue}
    complete := by intro side; cases side <;> decide }

/-- `num` is numEnqueue or numDequeue, `timestamps` enqueuetimestamp or dequeuetimestamp. -/
structure Globals where
  lock : Bool
  num : Side → ℕ
  timestamps : Side → ℕ → Ticks

/-- Copies the source to the elements of the array from the offset on. -/
def memcpy (array : ℕ → Ticks) (offset : ℕ) (source : List Ticks) (index : ℕ) : Ticks :=
  if offset ≤ index then source[index - offset]?.getD (array index) else array index

inductive Pc where
  | lock (side : Side) (timestamp : List Ticks)
  | memcpy (side : Side) (timestamp : List Ticks)
  | add (side : Side) (NUM_SAMPLES_PER_THREAD : ℕ)
  | unlock
deriving DecidableEq, Repr

def step (pc : Pc) (globals : Globals) : Option (Globals × Outcome Pc Unit) :=
  match pc with
  | .lock side timestamp =>
      if globals.lock then none
      else some ({ globals with lock := true }, .goto (.memcpy side timestamp))
  | .memcpy side timestamp =>
      some ({ globals with
        timestamps := Function.update globals.timestamps side
          (memcpy (globals.timestamps side) (globals.num side) timestamp) },
        .goto (.add side timestamp.length))
  | .add side NUM_SAMPLES_PER_THREAD =>
      some ({ globals with
        num := Function.update globals.num side (globals.num side + NUM_SAMPLES_PER_THREAD) },
        .goto .unlock)
  | .unlock => some ({ globals with lock := false }, .ret ())

/-- `ResetCounters`, and the loop of main that clears both arrays. -/
def reset : Globals :=
  { lock := false
    num := fun _ => 0
    timestamps := fun _ _ => 0 }

abbrev Merged (ι : Type*) : Type _ := Side → List ι

def record {ι : Type*} (thread : ι) (pc : Pc) (_globals : Globals) (merged : Merged ι) :
    Merged ι :=
  match pc with
  | .memcpy side _ => Function.update merged side (merged side ++ [thread])
  | _ => merged

/-! ### Any threads that merge once each -/

variable {ι : Type*} {side : ι → Side} {timestamp : ι → List Ticks}
variable {globals : Globals} {merged : Merged ι} {place : ι → Option Pc} {thread : ι}

def concatenated (timestamp : ι → List Ticks) (merged : Merged ι) (kind : Side) : List Ticks :=
  (merged kind).flatMap timestamp

def Pc.Inside : Pc → Prop
  | .lock _ _ => False
  | _ => True

def Pc.Own (side : Side) (timestamp : List Ticks) : Pc → Prop
  | .lock kind samples | .memcpy kind samples => kind = side ∧ samples = timestamp
  | .add kind count => kind = side ∧ count = timestamp.length
  | .unlock => True

/-- Before the copy; a thread that has not come to its merge is placed at the lock. -/
def Pending : Option Pc → Prop
  | some (.lock _ _) | some (.memcpy _ _) => True
  | _ => False

structure Inv (side : ι → Side) (timestamp : ι → List Ticks) (globals : Globals)
    (merged : Merged ι) (place : ι → Option Pc) : Prop where
  mutex : Mutex Pc.Inside globals.lock place
  own : ∀ thread pc, place thread = some pc → pc.Own (side thread) (timestamp thread)
  nodup : ∀ kind, (merged kind).Nodup
  sided : ∀ kind thread, thread ∈ merged kind → side thread = kind
  merged_iff : ∀ thread, thread ∈ merged (side thread) ↔ ¬ Pending (place thread)
  layout : ∀ kind index,
    globals.timestamps kind index = (concatenated timestamp merged kind)[index]?.getD 0
  adding : ∀ thread kind count, place thread = some (.add kind count) →
    globals.num kind + count = (concatenated timestamp merged kind).length
  added : ∀ kind, (∀ thread count, place thread ≠ some (.add kind count)) →
    globals.num kind = (concatenated timestamp merged kind).length

theorem memcpy_layout {array : ℕ → Ticks} {before source : List Ticks}
    (layout : ∀ index, array index = before[index]?.getD 0) (index : ℕ) :
    memcpy array before.length source index = (before ++ source)[index]?.getD 0 := by
  unfold memcpy
  by_cases behind : before.length ≤ index
  · rw [if_pos behind, layout index, List.getElem?_eq_none behind, Option.getD_none,
      List.getElem?_append_right behind]
  · rw [if_neg behind, layout index, List.getElem?_append_left (by omega)]

theorem Inv.start (begins : ∀ thread, place thread = some (.lock (side thread) (timestamp thread))) :
    Inv side timestamp reset (fun _ => []) place := by
  constructor
  · constructor
    · intro _ thread pc at_ inside
      cases (begins thread).symm.trans at_
      exact inside
    · intro impossible
      cases impossible
    · intro left right pc other at_ _ inside
      cases (begins left).symm.trans at_
      exact absurd inside id
  · intro thread pc at_
    cases (begins thread).symm.trans at_
    exact ⟨rfl, rfl⟩
  · exact fun _ => List.nodup_nil
  · intro kind thread impossible
    cases impossible
  · intro thread
    rw [begins thread]
    constructor
    · intro impossible
      cases impossible
    · intro early
      exact absurd trivial early
  · exact fun _ _ => rfl
  · intro thread kind count at_
    cases (begins thread).symm.trans at_
  · exact fun _ _ => rfl

section Steps

variable [DecidableEq ι]

omit [DecidableEq ι] in
theorem mem_append_merged {kind target : Side} {other : ι} :
    other ∈ Function.update merged target (merged target ++ [thread]) kind ↔
      other ∈ merged kind ∨ (kind = target ∧ other = thread) := by
  by_cases same : kind = target
  · subst kind
    rw [Function.update_self, List.mem_append, List.mem_singleton]
    simp only [true_and]
  · rw [Function.update_of_ne same]
    simp only [same, false_and, or_false]

theorem Inv.moves (inv : Inv side timestamp globals merged place) {pc : Pc}
    (at_ : place thread = some pc) {target : Option Pc} {locked : Bool}
    (mutex : Mutex Pc.Inside locked (Function.update place thread target))
    (own : ∀ next, target = some next → next.Own (side thread) (timestamp thread))
    (pending : Pending target ↔ Pending (some pc))
    (quiet : ∀ kind count, pc ≠ .add kind count ∧ target ≠ some (.add kind count)) :
    Inv side timestamp { globals with lock := locked } merged
      (Function.update place thread target) := by
  have elsewhere : ∀ {other : ι}, other ≠ thread →
      Function.update place thread target other = place other :=
    fun different => Function.update_of_ne different _ _
  constructor
  · exact mutex
  · intro other next standing
    by_cases same : other = thread
    · subst other
      rw [Function.update_self] at standing
      exact own next standing
    · rw [elsewhere same] at standing
      exact inv.own other next standing
  · exact inv.nodup
  · exact inv.sided
  · intro other
    rw [inv.merged_iff other]
    by_cases same : other = thread
    · subst other
      rw [Function.update_self, pending, at_]
    · rw [elsewhere same]
  · exact inv.layout
  · intro other kind count standing
    by_cases same : other = thread
    · subst other
      rw [Function.update_self] at standing
      exact absurd standing (quiet kind count).2
    · rw [elsewhere same] at standing
      exact inv.adding other kind count standing
  · intro kind none_
    apply inv.added kind
    intro other count standing
    by_cases same : other = thread
    · subst other
      rw [at_] at standing
      cases standing
      exact (quiet kind count).1 rfl
    · apply none_ other count
      rw [elsewhere same]
      exact standing

theorem Inv.copies (inv : Inv side timestamp globals merged place) {kind : Side}
    {samples : List Ticks} (at_ : place thread = some (.memcpy kind samples)) :
    Inv side timestamp
      { globals with
        timestamps := Function.update globals.timestamps kind
          (memcpy (globals.timestamps kind) (globals.num kind) samples) }
      (Function.update merged kind (merged kind ++ [thread]))
      (Function.update place thread (some (.add kind samples.length))) := by
  obtain ⟨mine, own⟩ := inv.own thread _ at_
  subst kind
  subst samples
  have absent : thread ∉ merged (side thread) := by
    rw [inv.merged_iff, at_]
    exact fun late => late trivial
  have alone : ∀ other kind count, place other ≠ some (.add kind count) := by
    intro other kind count standing
    have same := inv.mutex.alone other thread _ _ standing at_ trivial trivial
    rw [same, at_] at standing
    cases standing
  have grown : ∀ kind, concatenated timestamp
      (Function.update merged (side thread) (merged (side thread) ++ [thread])) kind =
        concatenated timestamp merged kind ++ if kind = side thread then timestamp thread else [] := by
    intro kind
    unfold concatenated
    by_cases same : kind = side thread
    · rw [same, Function.update_self, if_pos rfl, List.flatMap_append, List.flatMap_singleton]
    · rw [Function.update_of_ne same, if_neg same, List.append_nil]
  constructor
  · exact inv.mutex.stay at_ trivial trivial
  · intro other next standing
    by_cases same : other = thread
    · subst other
      rw [Function.update_self] at standing
      cases standing
      exact ⟨rfl, rfl⟩
    · rw [Function.update_of_ne same] at standing
      exact inv.own other next standing
  · intro kind
    by_cases same : kind = side thread
    · rw [same, Function.update_self]
      apply List.Nodup.append (inv.nodup _) (List.nodup_singleton thread)
      rw [List.disjoint_singleton]
      exact absent
    · rw [Function.update_of_ne same]
      exact inv.nodup kind
  · intro kind other member
    rcases mem_append_merged.mp member with before | ⟨rfl, rfl⟩
    · exact inv.sided kind other before
    · rfl
  · intro other
    rw [mem_append_merged]
    by_cases same : other = thread
    · subst other
      rw [Function.update_self]
      exact ⟨fun _ late => late, fun _ => Or.inr ⟨rfl, rfl⟩⟩
    · rw [Function.update_of_ne same, ← inv.merged_iff other]
      simp only [same, and_false, or_false]
  · intro kind index
    rw [grown]
    change Function.update globals.timestamps (side thread) _ kind index = _
    by_cases same : kind = side thread
    · rw [same, if_pos rfl, Function.update_self,
        inv.added (side thread) (fun other count => alone other (side thread) count)]
      exact memcpy_layout (inv.layout (side thread)) index
    · rw [if_neg same, List.append_nil, Function.update_of_ne same]
      exact inv.layout kind index
  · intro other kind count standing
    by_cases same : other = thread
    · subst other
      rw [Function.update_self] at standing
      cases standing
      rw [grown, if_pos rfl, List.length_append,
        ← inv.added (side thread) (fun other count => alone other (side thread) count)]
    · rw [Function.update_of_ne same] at standing
      exact absurd standing (alone other kind count)
  · intro kind none_
    rw [grown]
    by_cases same : kind = side thread
    · exfalso
      apply none_ thread (timestamp thread).length
      rw [Function.update_self, same]
    · rw [if_neg same, List.append_nil]
      exact inv.added kind (fun other count => alone other kind count)

theorem Inv.counts (inv : Inv side timestamp globals merged place) {kind : Side} {count : ℕ}
    (at_ : place thread = some (.add kind count)) :
    Inv side timestamp
      { globals with num := Function.update globals.num kind (globals.num kind + count) } merged
      (Function.update place thread (some .unlock)) := by
  have summed := inv.adding thread kind count at_
  have alone : ∀ other kind count, other ≠ thread → place other ≠ some (.add kind count) := by
    intro other kind count different standing
    exact different (inv.mutex.alone other thread _ _ standing at_ trivial trivial)
  constructor
  · exact inv.mutex.stay at_ trivial trivial
  · intro other next standing
    by_cases same : other = thread
    · subst other
      rw [Function.update_self] at standing
      cases standing
      exact trivial
    · rw [Function.update_of_ne same] at standing
      exact inv.own other next standing
  · exact inv.nodup
  · exact inv.sided
  · intro other
    rw [inv.merged_iff other]
    by_cases same : other = thread
    · subst other
      rw [Function.update_self, at_]
      rfl
    · rw [Function.update_of_ne same]
  · exact inv.layout
  · intro other kind' count' standing
    by_cases same : other = thread
    · subst other
      rw [Function.update_self] at standing
      cases standing
    · rw [Function.update_of_ne same] at standing
      exact absurd standing (alone other kind' count' same)
  · intro kind' _
    by_cases same : kind' = kind
    · rw [same]
      change Function.update globals.num kind _ kind = _
      rw [Function.update_self, summed]
    · change Function.update globals.num kind _ kind' = _
      rw [Function.update_of_ne same]
      apply inv.added kind'
      intro other count' standing
      by_cases self : other = thread
      · rw [self, at_] at standing
        cases standing
        exact same rfl
      · exact alone other kind' count' self standing

theorem Inv.next (inv : Inv side timestamp globals merged place) {pc : Pc} {after : Globals}
    {outcome : Outcome Pc Unit} (at_ : place thread = some pc)
    (stepped : step pc globals = some (after, outcome)) :
    Inv side timestamp after (record thread pc globals merged)
      (Function.update place thread outcome.pc?) := by
  cases pc with
  | lock kind samples =>
      have own := inv.own thread _ at_
      unfold step at stepped
      cases taken : globals.lock with
      | true => simp only [taken, if_true] at stepped; cases stepped
      | false =>
          simp only [taken, Bool.false_eq_true, if_false] at stepped
          cases stepped
          have mutex := inv.mutex
          rw [taken] at mutex
          have enters : (Pc.memcpy kind samples).Inside := trivial
          apply inv.moves at_ (mutex.acquire thread enters)
          · intro next same
            cases same
            exact own
          · exact Iff.rfl
          · intro kind count
            constructor <;> (intro impossible; cases impossible)
  | memcpy kind samples => cases stepped; exact inv.copies at_
  | add kind count => cases stepped; exact inv.counts at_
  | unlock =>
      cases stepped
      have outside : ∀ pc, (none : Option Pc) = some pc → ¬ pc.Inside := by
        intro pc impossible
        cases impossible
      apply inv.moves at_ (inv.mutex.release at_ trivial outside)
      · intro next impossible
        cases impossible
      · exact Iff.rfl
      · intro kind count
        constructor <;> (intro impossible; cases impossible)

end Steps

/-! ### How much is merged -/

section Totals

variable [Fintype ι] [DecidableEq ι]

def share (side : ι → Side) (timestamp : ι → List Ticks) (kind : Side) : ℕ :=
  ∑ thread with side thread = kind, (timestamp thread).length

omit [Fintype ι] in
theorem concatenated_length (timestamp : ι → List Ticks) (kind : Side)
    (nodup : (merged kind).Nodup) : (concatenated timestamp merged kind).length =
      ∑ thread ∈ (merged kind).toFinset, (timestamp thread).length := by
  unfold concatenated
  rw [List.length_flatMap, List.sum_toFinset _ nodup]

theorem Inv.subset (inv : Inv side timestamp globals merged place) (kind : Side) :
    (merged kind).toFinset ⊆ Finset.univ.filter (fun thread => side thread = kind) := by
  intro other member
  rw [Finset.mem_filter]
  exact ⟨Finset.mem_univ other, inv.sided kind other (List.mem_toFinset.mp member)⟩

/-- A copy has room behind what is already there. -/
theorem Inv.room (inv : Inv side timestamp globals merged place) {kind : Side}
    {samples : List Ticks} (at_ : place thread = some (.memcpy kind samples)) :
    globals.num kind + samples.length ≤ share side timestamp kind := by
  obtain ⟨rfl, rfl⟩ := inv.own thread _ at_
  have absent : thread ∉ (merged (side thread)).toFinset := by
    rw [List.mem_toFinset, inv.merged_iff, at_]
    exact fun late => late trivial
  have counted : globals.num (side thread) =
      (concatenated timestamp merged (side thread)).length := by
    apply inv.added
    intro other count standing
    have same := inv.mutex.alone other thread _ _ standing at_ trivial trivial
    rw [same, at_] at standing
    cases standing
  have joined : insert thread (merged (side thread)).toFinset ⊆
      Finset.univ.filter (fun other => side other = side thread) := by
    rw [Finset.insert_subset_iff, Finset.mem_filter]
    exact ⟨⟨Finset.mem_univ thread, rfl⟩, inv.subset (side thread)⟩
  have grown := Finset.sum_insert (f := fun other => (timestamp other).length) absent
  rw [counted, concatenated_length timestamp (side thread) (inv.nodup _), Nat.add_comm, ← grown]
  exact Finset.sum_le_sum_of_subset joined

/-- Once all threads have merged, each of them has been merged once. -/
theorem Inv.complete (inv : Inv side timestamp globals merged place)
    (finished : ∀ thread, place thread = none) (kind : Side) :
    (∀ thread, thread ∈ merged kind ↔ side thread = kind) ∧
      globals.num kind = share side timestamp kind := by
  have members : ∀ thread, thread ∈ merged kind ↔ side thread = kind := by
    intro thread
    constructor
    · exact inv.sided kind thread
    · rintro rfl
      rw [inv.merged_iff, finished thread]
      exact id
  have counted : globals.num kind = (concatenated timestamp merged kind).length := by
    apply inv.added
    intro thread count standing
    rw [finished thread] at standing
    cases standing
  have everyone : (merged kind).toFinset =
      Finset.univ.filter (fun thread => side thread = kind) := by
    ext thread
    rw [List.mem_toFinset, members thread, Finset.mem_filter]
    simp only [Finset.mem_univ, true_and]
  constructor
  · exact members
  · rw [counted, concatenated_length timestamp kind (inv.nodup kind), everyone]
    rfl

end Totals

def Pc.adds (kind : Side) : Pc → ℕ
  | .lock side timestamp | .memcpy side timestamp => if side = kind then timestamp.length else 0
  | .add side count => if side = kind then count else 0
  | .unlock => 0

theorem step_adds {pc : Pc} {after : Globals} {outcome : Outcome Pc Unit} (kind : Side)
    (stepped : step pc globals = some (after, outcome)) :
    after.num kind + outcome.pc?.elim 0 (Pc.adds kind) = globals.num kind + pc.adds kind := by
  cases pc with
  | lock side samples =>
      simp only [step] at stepped
      split at stepped <;> cases stepped
      rfl
  | memcpy side samples => cases stepped; rfl
  | add side count =>
      cases stepped
      change Function.update globals.num side _ kind + 0 =
        globals.num kind + if side = kind then _ else _
      by_cases same : kind = side
      · rw [same, Function.update_self, if_pos rfl, Nat.add_zero]
      · rw [Function.update_of_ne same, if_neg (fun other => same other.symm)]
  | unlock => cases stepped; rfl

theorem merge_returns (free : globals.lock = false) (kind : Side) (samples : List Ticks) :
    ∃ after, Returns step (.lock kind samples) globals after () 0 ∧ after.lock = false := by
  have takes : step (.lock kind samples) globals =
      some ({ globals with lock := true }, .goto (.memcpy kind samples)) := by
    simp only [step, free, Bool.false_eq_true, if_false]
  exact ⟨_, Returns.of_goto takes (Returns.of_goto rfl
    (Returns.of_goto rfl (Returns.of_ret rfl))), rfl⟩

/-! ### Producers and consumers of one run -/

abbrev Worker (CUR_NUM_THREADS : ℕ) : Type := Side × Fin CUR_NUM_THREADS

theorem sum_workers {M : Type*} [AddCommMonoid M] {c : ℕ} (f : Worker c → M) :
    ∑ worker, f worker = ∑ i, f (.enqueue, i) + ∑ i, f (.dequeue, i) := by
  rw [Fintype.sum_prod_type]
  exact Finset.sum_pair (f := fun side => ∑ i, f (side, i)) (by decide : Side.enqueue ≠ .dequeue)

abbrev MergePool (c : ℕ) : Type :=
  Pool (Worker c) Globals Pc (List Pc) (Merged (Worker c))

def program (c : ℕ) : Program (Worker c) Globals Pc Unit (List Pc) (Merged (Worker c)) :=
  scriptProgram step record

/-- The local arrays of the threads, with NUM_SAMPLES / CUR_NUM_THREADS samples each. -/
abbrev LocalArrays (NUM_SAMPLES c : ℕ) : Type := Worker c → Fin (NUM_SAMPLES / c) → Ticks

def start {NUM_SAMPLES c : ℕ} (local_ : LocalArrays NUM_SAMPLES c) : MergePool c :=
  { mem := reset
    thread := fun worker => .idle [.lock worker.1 (List.ofFn (local_ worker))]
    hist := fun _ => [] }

def Joined {c : ℕ} (state : MergePool c) : Prop := ∀ worker, state.thread worker = .idle []

def elements (NUM_SAMPLES : ℕ) (globals : Globals) (kind : Side) : List Ticks :=
  (List.range NUM_SAMPLES).map (globals.timestamps kind)

def onward {c : ℕ} (state : MergePool c) (worker : Worker c) : Option Pc :=
  (state.thread worker).calls.head?

variable {NUM_SAMPLES c : ℕ} {local_ : LocalArrays NUM_SAMPLES c}

structure Merging (local_ : LocalArrays NUM_SAMPLES c) (state : MergePool c) : Prop where
  inv : Inv Prod.fst (fun worker => List.ofFn (local_ worker)) state.mem state.hist (onward state)
  once : ∀ worker, (state.thread worker).calls.length ≤ 1

theorem merging_start (local_ : LocalArrays NUM_SAMPLES c) : Merging local_ (start local_) :=
  { inv := Inv.start (fun _ => rfl)
    once := fun _ => Nat.le_refl 1 }

theorem Merging.next {state next : MergePool c} {act : Act (Worker c) Pc}
    (merging : Merging local_ state) (moved : (program c).next state act = some next) :
    Merging local_ next := by
  rcases Program.next_cases moved with
    ⟨worker, entry, script, left, rfl, idle, called, rfl⟩ |
    ⟨worker, script, left, rfl, idle, impossible, rfl⟩ |
    ⟨worker, pc, script, mem, outcome, rfl, busy, stepped, rfl⟩
  · have whole := scriptClient_call called
    have same : ∀ other, (Function.update state.thread worker (Thread.busy entry left) other).calls =
        (state.thread other).calls := by
      intro other
      by_cases self : other = worker
      · rw [self, Function.update_self, idle, whole]
        rfl
      · rw [Function.update_of_ne self]
    constructor
    · have inv := merging.inv
      unfold onward at inv ⊢
      simp only [same]
      exact inv
    · intro other
      change (Function.update state.thread worker _ other).calls.length ≤ 1
      rw [same]
      exact merging.once other
  · cases impossible
  · have alone : script = [] := by
      have once := merging.once worker
      rw [busy] at once
      apply List.eq_nil_of_length_eq_zero
      exact Nat.le_zero.mp (Nat.le_of_succ_le_succ once)
    subst alone
    have at_ : onward state worker = some pc := by
      unfold onward
      rw [busy]
      rfl
    have left : ((program c).resume [] outcome).calls = outcome.pc?.toList := by
      cases outcome <;> rfl
    constructor
    · have inv := merging.inv.next at_ stepped
      have moves : Function.update (onward state) worker outcome.pc? = fun other =>
          (Function.update state.thread worker ((program c).resume [] outcome) other).calls.head? := by
        funext other
        by_cases self : other = worker
        · rw [self, Function.update_self, Function.update_self, left]
          cases outcome <;> rfl
        · rw [Function.update_of_ne self, Function.update_of_ne self]
          rfl
      rw [moves] at inv
      exact inv
    · intro other
      change (Function.update state.thread worker _ other).calls.length ≤ 1
      by_cases self : other = worker
      · rw [self, Function.update_self, left]
        cases outcome <;> simp only [Outcome.pc?, Option.toList, List.length_cons, List.length_nil,
          Nat.zero_add, Nat.le_refl, Nat.zero_le]
      · rw [Function.update_of_ne self]
        exact merging.once other

theorem share_eq (local_ : LocalArrays NUM_SAMPLES c) (kind : Side) :
    share Prod.fst (fun worker => List.ofFn (local_ worker)) kind = c * (NUM_SAMPLES / c) := by
  unfold share
  rw [Finset.sum_filter, Fintype.sum_prod_type]
  simp only [List.length_ofFn, Finset.sum_const, Finset.card_univ, Fintype.card_fin,
    nsmul_eq_mul, Nat.cast_id, mul_ite, Nat.mul_zero, Finset.sum_ite_eq', Finset.mem_univ, if_true]

/-- The array holds what has been merged, and zeros behind it. -/
theorem elements_eq {globals : Globals} {samples : List Ticks} {kind : Side}
    (fits : samples.length ≤ NUM_SAMPLES)
    (layout : ∀ index, globals.timestamps kind index = samples[index]?.getD 0) :
    elements NUM_SAMPLES globals kind =
      samples ++ List.replicate (NUM_SAMPLES - samples.length) 0 := by
  apply List.ext_getElem?
  intro index
  unfold elements
  rw [List.getElem?_map]
  by_cases inside : index < NUM_SAMPLES
  · rw [List.getElem?_range inside, Option.map_some, layout]
    by_cases early : index < samples.length
    · rw [List.getElem?_append_left early, List.getElem?_eq_getElem early, Option.getD_some]
    · rw [List.getElem?_append_right (by omega), List.getElem?_eq_none (by omega : _ ≤ index),
        List.getElem?_replicate_of_lt (by omega), Option.getD_none]
  · rw [List.getElem?_eq_none, List.getElem?_eq_none, Option.map_none]
    · rw [List.length_append, List.length_replicate]
      omega
    · rw [List.length_range]
      omega

section Order
variable {merged : Merged (Worker c)} {kind : Side}

theorem order_perm (members : ∀ worker, worker ∈ merged kind ↔ worker.1 = kind)
    (nodup : (merged kind).Nodup) :
    ((merged kind).map Prod.snd).Perm (List.finRange c) := by
  rw [List.perm_ext_iff_of_nodup _ (List.nodup_finRange c)]
  · intro i
    rw [List.mem_map]
    constructor
    · exact fun _ => List.mem_finRange i
    · intro _
      exact ⟨(kind, i), (members (kind, i)).mpr rfl, rfl⟩
  · apply List.Nodup.map_on _ nodup
    intro left leftIn right rightIn same
    exact Prod.ext (((members left).mp leftIn).trans ((members right).mp rightIn).symm) same

theorem concatenated_eq (local_ : LocalArrays NUM_SAMPLES c)
    (members : ∀ worker, worker ∈ merged kind ↔ worker.1 = kind) :
    ((merged kind).map Prod.snd).flatMap (fun i => List.ofFn (local_ (kind, i))) =
      concatenated (fun worker => List.ofFn (local_ worker)) merged kind := by
  unfold concatenated
  rw [List.flatMap_map]
  apply List.flatMap_congr
  intro worker member
  have mine := (members worker).mp member
  subst mine
  rfl

end Order

/-- No sample is lost or overwritten, in whatever order the threads merge. -/
theorem merge_keeps_samples (local_ : LocalArrays NUM_SAMPLES c)
    {trace : List (MergePool c × Act (Worker c) Pc)} {state : MergePool c}
    (run : Run (program c).next (start local_) trace state) :
    (∀ worker kind timestamp, state.at worker = some (.memcpy kind timestamp) →
      state.mem.num kind + timestamp.length ≤ NUM_SAMPLES) ∧
    (Joined state → ∀ kind, state.mem.num kind = c * (NUM_SAMPLES / c) ∧
      ∃ order : List (Fin c), order.Perm (List.finRange c) ∧
        elements NUM_SAMPLES state.mem kind =
          order.flatMap (fun i => List.ofFn (local_ (kind, i))) ++
            List.replicate (NUM_SAMPLES - state.mem.num kind) 0) := by
  have merging : Merging local_ state := run.invariant (meets_true trace) (merging_start local_)
    (fun _ _ _ now _ moved => now.next moved)
  have most : c * (NUM_SAMPLES / c) ≤ NUM_SAMPLES := Nat.mul_div_le NUM_SAMPLES c
  constructor
  · intro worker kind timestamp at_
    have stands : onward state worker = some (.memcpy kind timestamp) := by
      unfold onward
      rw [Pool.at_eq_some at_]
      rfl
    have room := merging.inv.room stands
    rw [share_eq] at room
    omega
  · intro joined kind
    have finished : ∀ worker, onward state worker = none := by
      intro worker
      unfold onward
      rw [joined worker]
      rfl
    obtain ⟨members, counted⟩ := merging.inv.complete finished kind
    rw [share_eq] at counted
    refine ⟨counted, (state.hist kind).map Prod.snd, ?_, ?_⟩
    · exact order_perm members (merging.inv.nodup kind)
    · have sorted := concatenated_eq local_ members
      have length : (concatenated (fun worker => List.ofFn (local_ worker)) state.hist kind).length =
          state.mem.num kind := by
        symm
        apply merging.inv.added
        intro worker count standing
        rw [finished worker] at standing
        cases standing
      rw [sorted, ← length]
      apply elements_eq (by omega)
      exact merging.inv.layout kind

def numbered : LocalArrays 5 2 := fun worker sample => 10 * worker.2 + sample

def turn (worker : Worker 2) : List (Act (Worker 2) Pc) :=
  [.call worker (.lock worker.1 (List.ofFn (numbered worker))), .move worker, .move worker,
    .move worker, .move worker]

theorem numbered_run : ∃ trace state, Run (program 2).next (start numbered) trace state ∧
    Joined state ∧ elements 5 state.mem .enqueue = [10, 11, 0, 1, 0] := by
  have run : Run (program 2).next (start numbered) _ _ :=
    run_of_play (turn (.enqueue, 1) ++ turn (.dequeue, 0) ++ turn (.enqueue, 0) ++
      turn (.dequeue, 1)) rfl
  refine ⟨_, _, run, ?_, rfl⟩
  rintro ⟨kind, i⟩
  cases kind with
  | enqueue => revert i; exact Fin.forall_fin_two.mpr ⟨rfl, rfl⟩
  | dequeue => revert i; exact Fin.forall_fin_two.mpr ⟨rfl, rfl⟩

theorem merge_keeps_samples_numbered :
    ∃ trace state, Run (program 2).next (start numbered) trace state ∧ Joined state ∧
      elements 5 state.mem .enqueue = [10, 11, 0, 1, 0] ∧ state.mem.num .enqueue = 2 * (5 / 2) ∧
      ∃ order : List (Fin 2), order.Perm (List.finRange 2) ∧
        elements 5 state.mem .enqueue =
          order.flatMap (fun i => List.ofFn (numbered (.enqueue, i))) ++
            List.replicate (5 - state.mem.num .enqueue) 0 := by
  obtain ⟨trace, state, run, joined, merged⟩ := numbered_run
  exact ⟨trace, state, run, joined, merged,
    (merge_keeps_samples numbered run).2 joined .enqueue⟩

end QueueBench.Samples
