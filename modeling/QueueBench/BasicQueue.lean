import QueueBench.Lib.CircularList
import QueueBench.Lib.Machine
import QueueBench.Lib.Mutex
import QueueBench.SampleMerge

/-! The basic queue of basicqueue.c: a CIRCLEQ under one mutex. The head is no entry, but
a cast makes it the neighbour of the first and of the last one, and the first element of
an empty list. -/

namespace QueueBench.BasicQueue
open CircularList (Links Circle circle_init)
open Machine (Outcome Pool Program Act Thread scriptProgram scriptClient_call script_next at_update)
open Samples (Worker)
open Transition (Run Meets meets_snoc run_of_play)

/-- What a `struct basicentry *` points to: the head, or what the n-th malloc returned. -/
inductive Addr where
  | head
  | entry (n : ℕ)
deriving DecidableEq, Repr

/-- `cqh_first` and `cqh_last` of the head lie where `cqe_next` and `cqe_prev` of an entry
do. What lies behind the head, where an entry has its `elem`, is not known. -/
structure Memory where
  links : Links Addr
  elem : Addr → ℤ
  lock : Bool
  allocated : ℕ

/-- BasicEnqueue from `malloc` to `unlockEnqueue`, BasicDequeue from `lockDequeue` to
`returnElem`. -/
inductive Pc where
  | malloc (i : ℤ)
  | lockEnqueue (n : Addr)
  | insertTail (n : Addr)
  | unlockEnqueue
  | lockDequeue
  | first
  | remove (n : Addr)
  | unlockDequeue (n : Addr)
  | returnElem (n : Addr)
deriving DecidableEq, Repr

def step (pc : Pc) (mem : Memory) : Option (Memory × Outcome Pc (Option ℤ)) :=
  match pc with
  | .malloc i =>
      some ({ mem with
        elem := Function.update mem.elem (.entry mem.allocated) i
        allocated := mem.allocated + 1 }, .goto (.lockEnqueue (.entry mem.allocated)))
  | .lockEnqueue n =>
      if mem.lock then none else some ({ mem with lock := true }, .goto (.insertTail n))
  | .insertTail n =>
      some ({ mem with links := CircularList.insertTail .head n mem.links }, .goto .unlockEnqueue)
  | .unlockEnqueue => some ({ mem with lock := false }, .ret none)
  | .lockDequeue => if mem.lock then none else some ({ mem with lock := true }, .goto .first)
  | .first => some (mem, .goto (.remove (mem.links.next .head)))
  | .remove n =>
      some ({ mem with links := CircularList.remove .head (mem.links.next .head) mem.links },
        .goto (.unlockDequeue n))
  | .unlockDequeue n => some ({ mem with lock := false }, .goto (.returnElem n))
  | .returnElem n => some (mem, .ret (some (mem.elem n)))

structure Insertion where
  entry : Addr
  value : ℤ
deriving DecidableEq, Repr

structure Removal (ι : Type*) where
  thread : ι
  removed : Addr
  value : Option ℤ
deriving DecidableEq, Repr

structure Hist (ι : Type*) where
  inserted : List Insertion
  removals : List (Removal ι)

variable {ι : Type*} [DecidableEq ι]

/-- A dequeue of the thread that has not yet returned returns the value. -/
def Removal.answer (thread : ι) (value : ℤ) (removal : Removal ι) : Removal ι :=
  if removal.thread = thread ∧ removal.value = none then { removal with value := some value }
  else removal

def record (thread : ι) (pc : Pc) (mem : Memory) (hist : Hist ι) : Hist ι :=
  match pc with
  | .insertTail n =>
      { hist with inserted := hist.inserted ++ [{ entry := n, value := mem.elem n }] }
  | .remove _ =>
      { hist with removals := hist.removals ++
          [{ thread := thread, removed := mem.links.next .head, value := none }] }
  | .returnElem n =>
      { hist with removals := hist.removals.map (Removal.answer thread (mem.elem n)) }
  | _ => hist

inductive Call where
  | BasicEnqueue (i : ℤ)
  | BasicDequeue
deriving DecidableEq, Repr

def Call.entry : Call → Pc
  | .BasicEnqueue i => .malloc i
  | .BasicDequeue => .lockDequeue

abbrev BasicPool (ι : Type*) : Type _ := Pool ι Memory Pc (List Pc) (Hist ι)

def program (ι : Type*) [DecidableEq ι] : Program ι Memory Pc (Option ℤ) (List Pc) (Hist ι) :=
  scriptProgram step record

/-- `InitBasicQueue`, whatever the memory held before. -/
def InitBasicQueue (links : Links Addr) (elem : Addr → ℤ) : Memory :=
  { links := CircularList.init .head links
    elem := elem
    lock := false
    allocated := 0 }

def start (links : Links Addr) (elem : Addr → ℤ) (calls : ι → List Call) : BasicPool ι :=
  { mem := InitBasicQueue links elem
    thread := fun thread => .idle ((calls thread).map Call.entry)
    hist :=
      { inserted := []
        removals := [] } }

/-- The loops of `basicenqueue_handler` and `basicworker_handler`. -/
def handler (NUM_SAMPLES CUR_NUM_THREADS : ℕ) (worker : Worker CUR_NUM_THREADS) : List Call :=
  match worker.1 with
  | .enqueue => (List.range (NUM_SAMPLES / CUR_NUM_THREADS)).map (fun i => .BasicEnqueue (i + 1))
  | .dequeue => List.replicate (NUM_SAMPLES / CUR_NUM_THREADS) .BasicDequeue

/-- The queue returns only what was inserted: the k-th dequeue what the k-th insertion put
in, and the head is no entry. -/
structure OnlyInserted (state : BasicPool ι) : Prop where
  few : state.hist.removals.length ≤ state.hist.inserted.length
  values : ∀ (k : ℕ) (removal : Removal ι) (value : ℤ), state.hist.removals[k]? = some removal →
    removal.value = some value → (state.hist.inserted[k]?).map Insertion.value = some value
  returned : state.Quiet → state.hist.removals.map Removal.value =
    (state.hist.inserted.take state.hist.removals.length).map (fun insertion =>
      some insertion.value)
  removes : ∀ removal ∈ state.hist.removals, removal.removed ≠ .head
  reads : ∀ thread n, state.at thread = some (.returnElem n) → n ≠ .head

/-- A step that is not a CIRCLEQ_REMOVE, or one with fewer of them before it than insertions. -/
def Finds (state : BasicPool ι) (act : Act ι Pc) : Prop :=
  state.Moving (fun pc => ∀ n, pc = .remove n →
    state.hist.removals.length < state.hist.inserted.length) act

/-! ### The list behind the queue -/

def Pc.Inside : Pc → Prop
  | .insertTail _ | .unlockEnqueue | .first | .remove _ | .unlockDequeue _ => True
  | _ => False

def Pc.made : Pc → Option Addr
  | .lockEnqueue n | .insertTail n => some n
  | _ => none

def Pc.took : Pc → Option Addr
  | .unlockDequeue n | .returnElem n => some n
  | _ => none

def Hist.entries (hist : Hist ι) : List Addr := hist.inserted.map Insertion.entry

/-- Which entry each thread holds, of those the selection shows. -/
def holding (select : Pc → Option Addr) (place : ι → Option Pc) (thread : ι) : Option Addr :=
  (place thread).bind select

theorem holding_update (select : Pc → Option Addr) (place : ι → Option Pc) (thread : ι)
    (target : Option Pc) : holding select (Function.update place thread target) =
      Function.update (holding select place) thread (target.bind select) := by
  funext other
  by_cases same : other = thread
  · subst other
    rw [holding, Function.update_self, Function.update_self]
  · rw [holding, Function.update_of_ne same, Function.update_of_ne same, holding]

theorem holding_kept {select : Pc → Option Addr} {place : ι → Option Pc} {thread : ι}
    {target : Option Pc} (same : target.bind select = (place thread).bind select) :
    holding select (Function.update place thread target) = holding select place := by
  rw [holding_update, same]
  exact Function.update_eq_self thread (holding select place)

structure Made (allocated : ℕ) (entries : List Addr) (made : ι → Option Addr) : Prop where
  old : ∀ n ∈ entries, ∃ k < allocated, n = .entry k
  own : ∀ thread n, made thread = some n → (∃ k < allocated, n = .entry k) ∧ n ∉ entries
  apart : ∀ left right n, made left = some n → made right = some n → left = right

structure Taken (hist : Hist ι) (took : ι → Option Addr) : Prop where
  inserted : ∀ thread n, took thread = some n → n ∈ hist.entries
  pending : ∀ removal ∈ hist.removals, removal.value = none →
    took removal.thread = some removal.removed

/-- The list holds the entries inserted and not yet removed. -/
structure Listed (links : Links Addr) (elem : Addr → ℤ) (hist : Hist ι) : Prop where
  few : hist.removals.length ≤ hist.entries.length
  circle : Circle links .head (hist.entries.drop hist.removals.length)
  stored : ∀ insertion ∈ hist.inserted, elem insertion.entry = insertion.value
  removed : ∀ (k : ℕ) (removal : Removal ι), hist.removals[k]? = some removal →
    ∃ insertion : Insertion, hist.inserted[k]? = some insertion ∧
      removal.removed = insertion.entry ∧
      ∀ value, removal.value = some value → value = insertion.value

structure Inv (mem : Memory) (hist : Hist ι) (place : ι → Option Pc) : Prop where
  mutex : Mutex Pc.Inside mem.lock place
  made : Made mem.allocated hist.entries (holding Pc.made place)
  taken : Taken hist (holding Pc.took place)
  first : ∀ thread n, place thread = some (.remove n) → n = mem.links.next .head
  listed : Listed mem.links mem.elem hist

section Made

variable {allocated : ℕ} {entries : List Addr} {made : ι → Option Addr}

theorem Made.malloc (holds : Made allocated entries made) (thread : ι) :
    Made (allocated + 1) entries (Function.update made thread (some (.entry allocated))) := by
  have older : ∀ n, (∃ k < allocated, n = Addr.entry k) → n ≠ .entry allocated := by
    rintro n ⟨k, small, rfl⟩ same
    cases same
    exact Nat.lt_irrefl allocated small
  have wider : ∀ n, (∃ k < allocated, n = Addr.entry k) → ∃ k < allocated + 1, n = .entry k := by
    rintro n ⟨k, small, rfl⟩
    exact ⟨k, Nat.lt_succ_of_lt small, rfl⟩
  constructor
  · exact fun n member => wider n (holds.old n member)
  · intro other n mine
    rcases Mutex.cases_update mine with ⟨_, new⟩ | ⟨_, before⟩
    · cases new
      exact ⟨⟨allocated, Nat.lt_succ_self allocated, rfl⟩,
        fun member => older _ (holds.old _ member) rfl⟩
    · exact ⟨wider n (holds.own other n before).1, (holds.own other n before).2⟩
  · intro left right n leftHas rightHas
    rcases Mutex.cases_update leftHas with ⟨leftIs, leftNew⟩ | ⟨_, leftHad⟩
    · rcases Mutex.cases_update rightHas with ⟨rightIs, _⟩ | ⟨_, rightHad⟩
      · rw [leftIs, rightIs]
      · cases leftNew
        exact absurd rfl (older _ (holds.own right _ rightHad).1)
    · rcases Mutex.cases_update rightHas with ⟨_, rightNew⟩ | ⟨_, rightHad⟩
      · cases rightNew
        exact absurd rfl (older _ (holds.own left _ leftHad).1)
      · exact holds.apart left right n leftHad rightHad

theorem Made.insert (holds : Made allocated entries made) {thread : ι} {n : Addr}
    (mine : made thread = some n) :
    Made allocated (entries ++ [n]) (Function.update made thread none) := by
  constructor
  · intro other member
    rcases List.mem_append.mp member with before | new
    · exact holds.old other before
    · rw [List.mem_singleton.mp new]
      exact (holds.own thread n mine).1
  · intro other m has
    rcases Mutex.cases_update has with ⟨_, impossible⟩ | ⟨different, had⟩
    · cases impossible
    · refine ⟨(holds.own other m had).1, ?_⟩
      intro member
      rcases List.mem_append.mp member with before | new
      · exact (holds.own other m had).2 before
      · rw [List.mem_singleton.mp new] at had
        exact different (holds.apart other thread n had mine)
  · intro left right m leftHas rightHas
    rcases Mutex.cases_update leftHas with ⟨_, impossible⟩ | ⟨_, leftHad⟩
    · cases impossible
    · rcases Mutex.cases_update rightHas with ⟨_, impossible⟩ | ⟨_, rightHad⟩
      · cases impossible
      · exact holds.apart left right m leftHad rightHad

end Made

section Taken

variable {hist : Hist ι} {took : ι → Option Addr}

omit [DecidableEq ι] in
theorem Taken.insert (holds : Taken hist took) (insertion : Insertion) :
    Taken { hist with inserted := hist.inserted ++ [insertion] } took := by
  constructor
  · intro thread n mine
    simp only [Hist.entries, List.map_append]
    exact List.mem_append_left _ (holds.inserted thread n mine)
  · exact holds.pending

theorem Taken.remove (holds : Taken hist took) {thread : ι} {n : Addr}
    (free : took thread = none) (member : n ∈ hist.entries) :
    Taken { hist with removals := hist.removals ++
        [{ thread := thread, removed := n, value := none }] }
      (Function.update took thread (some n)) := by
  constructor
  · intro other m mine
    rcases Mutex.cases_update mine with ⟨_, same⟩ | ⟨_, before⟩
    · cases same
      exact member
    · exact holds.inserted other m before
  · intro removal listed waits
    rcases List.mem_append.mp listed with before | new
    · have held := holds.pending removal before waits
      have different : removal.thread ≠ thread := by
        intro same
        rw [same, free] at held
        cases held
      rw [Function.update_of_ne different]
      exact held
    · rw [List.mem_singleton.mp new]
      exact Function.update_self ..

theorem answer_removed (thread : ι) (value : ℤ) (removal : Removal ι) :
    (removal.answer thread value).removed = removal.removed := by
  unfold Removal.answer
  split <;> rfl

theorem answer_thread (thread : ι) (value : ℤ) (removal : Removal ι) :
    (removal.answer thread value).thread = removal.thread := by
  unfold Removal.answer
  split <;> rfl

theorem answer_value (thread : ι) (value : ℤ) (removal : Removal ι) :
    (removal.answer thread value).value = removal.value ∧
        (removal.value = none → removal.thread ≠ thread) ∨
      removal.thread = thread ∧ removal.value = none ∧
        (removal.answer thread value).value = some value := by
  unfold Removal.answer
  by_cases mine : removal.thread = thread ∧ removal.value = none
  · rw [if_pos mine]
    exact Or.inr ⟨mine.1, mine.2, rfl⟩
  · rw [if_neg mine]
    exact Or.inl ⟨rfl, fun waits same => mine ⟨same, waits⟩⟩

theorem Taken.answer (holds : Taken hist took) (thread : ι) (value : ℤ) :
    Taken { hist with removals := hist.removals.map (Removal.answer thread value) }
      (Function.update took thread none) := by
  constructor
  · intro other n mine
    rcases Mutex.cases_update mine with ⟨_, impossible⟩ | ⟨_, before⟩
    · cases impossible
    · exact holds.inserted other n before
  · intro answered listed waits
    obtain ⟨removal, member, rfl⟩ := List.mem_map.mp listed
    rcases answer_value thread value removal with ⟨same, others⟩ | ⟨_, _, some_⟩
    · rw [same] at waits
      rw [answer_thread, answer_removed, Function.update_of_ne (others waits)]
      exact holds.pending removal member waits
    · rw [some_] at waits
      cases waits

end Taken

section Listed

variable {links : Links Addr} {elem : Addr → ℤ} {hist : Hist ι}

omit [DecidableEq ι]

theorem entries_length (hist : Hist ι) : hist.entries.length = hist.inserted.length :=
  List.length_map ..

theorem Listed.front (listed : Listed links elem hist)
    (found : hist.removals.length < hist.inserted.length) :
    links.next .head = hist.inserted[hist.removals.length].entry ∧
      Circle (CircularList.remove .head (links.next .head) links) .head
        (hist.entries.drop (hist.removals.length + 1)) := by
  have circle := listed.circle
  have inside : hist.removals.length < hist.entries.length := by
    rw [entries_length]
    exact found
  rw [List.drop_eq_getElem_cons inside] at circle
  have first := circle.first_eq
  constructor
  · rw [first]
    exact List.getElem_map ..
  · rw [first]
    exact circle.removeFirst

theorem Listed.remove (listed : Listed links elem hist) (thread : ι)
    (found : hist.removals.length < hist.inserted.length) :
    Listed (CircularList.remove .head (links.next .head) links) elem
      { hist with removals := hist.removals ++
        [{ thread := thread, removed := links.next .head, value := none }] } := by
  obtain ⟨first, circle⟩ := listed.front found
  constructor
  · rw [List.length_append, List.length_singleton]
    change hist.removals.length + 1 ≤ hist.entries.length
    rw [entries_length]
    exact found
  · rw [List.length_append, List.length_singleton]
    exact circle
  · exact listed.stored
  · intro k removal at_
    by_cases before : k < hist.removals.length
    · rw [List.getElem?_append_left before] at at_
      exact listed.removed k removal at_
    · rw [List.getElem?_append_right (by omega)] at at_
      have last : k = hist.removals.length := by
        have small := (List.getElem?_eq_some_iff.mp at_).1
        rw [List.length_singleton] at small
        omega
      subst last
      rw [Nat.sub_self] at at_
      cases at_
      refine ⟨_, List.getElem?_eq_getElem found, first, ?_⟩
      intro value impossible
      cases impossible

theorem Listed.insert (listed : Listed links elem hist) {n : Addr} (new : n ∉ hist.entries)
    (entry : n ≠ .head) :
    Listed (CircularList.insertTail .head n links) elem
      { hist with inserted := hist.inserted ++ [{ entry := n, value := elem n }] } := by
  have longer : ({ hist with inserted := hist.inserted ++
      [{ entry := n, value := elem n }] } : Hist ι).entries = hist.entries ++ [n] :=
    List.map_append ..
  constructor
  · rw [longer, List.length_append]
    exact Nat.le_add_right_of_le listed.few
  · rw [longer, List.drop_append_of_le_length listed.few]
    apply listed.circle.insertTail
    intro member
    rcases List.mem_cons.mp member with same | later
    · exact entry same
    · exact new (List.mem_of_mem_drop later)
  · intro insertion member
    rcases List.mem_append.mp member with before | last
    · exact listed.stored insertion before
    · rw [List.mem_singleton.mp last]
  · intro k removal at_
    obtain ⟨insertion, found, facts⟩ := listed.removed k removal at_
    have inside := (List.getElem?_eq_some_iff.mp found).1
    exact ⟨insertion, by rw [List.getElem?_append_left inside]; exact found, facts⟩

theorem Listed.malloc (listed : Listed links elem hist) {n : Addr} (new : n ∉ hist.entries)
    (i : ℤ) : Listed links (Function.update elem n i) hist := by
  constructor
  · exact listed.few
  · exact listed.circle
  · intro insertion member
    have different : insertion.entry ≠ n := by
      rintro rfl
      exact new (List.mem_map_of_mem member)
    rw [Function.update_of_ne different]
    exact listed.stored insertion member
  · exact listed.removed

end Listed

theorem Listed.answer {links : Links Addr} {elem : Addr → ℤ} {hist : Hist ι}
    {took : ι → Option Addr} (listed : Listed links elem hist) (taken : Taken hist took)
    {thread : ι} {n : Addr} (mine : took thread = some n) :
    Listed links elem
      { hist with removals := hist.removals.map (Removal.answer thread (elem n)) } := by
  constructor
  · rw [List.length_map]
    exact listed.few
  · rw [List.length_map]
    exact listed.circle
  · exact listed.stored
  · intro k answered at_
    rw [List.getElem?_map] at at_
    obtain ⟨removal, before, rfl⟩ := Option.map_eq_some_iff.mp at_
    obtain ⟨insertion, found, entry, value_eq⟩ := listed.removed k removal before
    refine ⟨insertion, found, by rw [answer_removed]; exact entry, ?_⟩
    intro value returned
    rcases answer_value thread (elem n) removal with ⟨same, _⟩ | ⟨itsThread, waits, new⟩
    · rw [same] at returned
      exact value_eq value returned
    · have held := taken.pending removal (List.mem_of_getElem? before) waits
      rw [itsThread, mine] at held
      rw [new] at returned
      cases returned
      cases held
      rw [entry]
      exact listed.stored insertion (List.mem_of_getElem? found)

/-! ### Runs -/

section Step

variable {mem after : Memory} {hist : Hist ι} {place : ι → Option Pc} {thread : ι} {pc : Pc}
variable {outcome : Outcome Pc (Option ℤ)}

theorem Inv.frame (inv : Inv mem hist place) {lock : Bool} {target standing : Option Pc}
    (at_ : place thread = standing)
    (mutex : Mutex Pc.Inside lock (Function.update place thread target))
    (made : target.bind Pc.made = standing.bind Pc.made)
    (took : target.bind Pc.took = standing.bind Pc.took)
    (first : ∀ n, target = some (.remove n) → n = mem.links.next .head) :
    Inv { mem with lock := lock } hist (Function.update place thread target) := by
  rw [← at_] at made took
  constructor
  · exact mutex
  · rw [holding_kept made]
    exact inv.made
  · rw [holding_kept took]
    exact inv.taken
  · intro other n standing
    rcases Mutex.cases_update standing with ⟨_, mine⟩ | ⟨_, before⟩
    · exact first n mine
    · exact inv.first other n before
  · exact inv.listed

theorem Inv.call (inv : Inv mem hist place) (idle : place thread = none) (call : Call) :
    Inv mem hist (Function.update place thread (some call.entry)) := by
  have outside : ¬ call.entry.Inside := by
    cases call <;> exact id
  apply inv.frame idle
  · exact inv.mutex.enter idle outside
  · cases call <;> rfl
  · cases call <;> rfl
  · intro n impossible
    cases call <;> cases impossible

/-- While a thread is inside, no other one is about to remove. -/
theorem Inv.first_alone (inv : Inv mem hist place) (at_ : place thread = some pc)
    (inside : pc.Inside) {target : Option Pc} (leaves : ∀ n, target ≠ some (.remove n))
    {other : ι} {n : Addr}
    (standing : Function.update place thread target other = some (.remove n)) : False := by
  rcases Mutex.cases_update standing with ⟨_, mine⟩ | ⟨different, before⟩
  · exact leaves n mine
  · exact inv.mutex.other_outside at_ inside different before trivial

theorem Inv.step (inv : Inv mem hist place) (at_ : place thread = some pc)
    (stepped : step pc mem = some (after, outcome))
    (finds : ∀ n, pc = .remove n → hist.removals.length < hist.inserted.length) :
    Inv after (record thread pc mem hist) (Function.update place thread outcome.pc?) := by
  have outside : ∀ {target : Option Pc}, ¬ pc.Inside → (∀ next, target = some next → ¬ next.Inside) →
      Mutex Pc.Inside mem.lock (Function.update place thread target) := by
    intro target was leaves
    apply inv.mutex.outside thread _ leaves
    intro standing same
    rw [at_] at same
    cases same
    exact was
  have acquires : ∀ {next : Pc}, ¬ mem.lock = true → next.Inside →
      Mutex Pc.Inside true (Function.update place thread (some next)) := by
    intro next free inside
    apply Mutex.acquire _ thread inside
    rw [← Bool.not_eq_true _ |>.mp free]
    exact inv.mutex
  cases pc with
  | malloc i =>
      cases stepped
      have new : Addr.entry mem.allocated ∉ hist.entries := by
        intro member
        obtain ⟨k, small, same⟩ := inv.made.old _ member
        cases same
        exact Nat.lt_irrefl _ small
      constructor
      · apply outside id
        intro next same
        cases same
        exact id
      · rw [holding_update]
        exact inv.made.malloc thread
      · rw [holding_kept (by rw [at_]; rfl)]
        exact inv.taken
      · intro other n standing
        rcases Mutex.cases_update standing with ⟨_, impossible⟩ | ⟨_, before⟩
        · cases impossible
        · exact inv.first other n before
      · exact inv.listed.malloc new i
  | lockEnqueue n =>
      simp only [BasicQueue.step] at stepped
      split at stepped
      · cases stepped
      · rename_i free
        cases stepped
        exact inv.frame at_ (acquires free trivial) rfl rfl (fun _ impossible => by cases impossible)
  | insertTail n =>
      cases stepped
      have mine : holding Pc.made place thread = some n := by
        rw [holding, at_]
        rfl
      obtain ⟨⟨k, _, entry⟩, new⟩ := inv.made.own thread n mine
      constructor
      · exact inv.mutex.stay at_ trivial trivial
      · rw [holding_update]
        have longer : (record thread (.insertTail n) mem hist).entries = hist.entries ++ [n] :=
          List.map_append ..
        rw [longer]
        exact inv.made.insert mine
      · rw [holding_kept (by rw [at_]; rfl)]
        exact inv.taken.insert _
      · intro other m standing
        exact (inv.first_alone at_ trivial (fun _ impossible => by cases impossible) standing).elim
      · apply inv.listed.insert new
        rw [entry]
        intro impossible
        cases impossible
  | unlockEnqueue =>
      cases stepped
      have released : Mutex Pc.Inside false (Function.update place thread none) :=
        inv.mutex.release at_ trivial (fun _ impossible => by cases impossible)
      exact inv.frame at_ released rfl rfl (fun _ impossible => by cases impossible)
  | lockDequeue =>
      simp only [BasicQueue.step] at stepped
      split at stepped
      · cases stepped
      · rename_i free
        cases stepped
        exact inv.frame at_ (acquires free trivial) rfl rfl (fun _ impossible => by cases impossible)
  | first =>
      cases stepped
      have stays : Mutex Pc.Inside mem.lock
          (Function.update place thread (some (.remove (mem.links.next .head)))) :=
        inv.mutex.stay at_ trivial trivial
      apply inv.frame at_ stays rfl rfl
      intro n same
      cases same
      rfl
  | remove n =>
      cases stepped
      have found := finds n rfl
      have front := (inv.listed.front found).1
      have first := inv.first thread n at_
      have member : n ∈ hist.entries := by
        rw [first, front]
        exact List.mem_map_of_mem (List.getElem_mem found)
      have free : holding Pc.took place thread = none := by
        rw [holding, at_]
        rfl
      constructor
      · exact inv.mutex.stay at_ trivial trivial
      · rw [holding_kept (by rw [at_]; rfl)]
        exact inv.made
      · rw [holding_update]
        have taken := inv.taken.remove free member
        rw [first] at taken ⊢
        exact taken
      · intro other m standing
        exact (inv.first_alone at_ trivial (fun _ impossible => by cases impossible) standing).elim
      · exact inv.listed.remove thread found
  | unlockDequeue n =>
      cases stepped
      have released : Mutex Pc.Inside false
          (Function.update place thread (some (.returnElem n))) := by
        apply inv.mutex.release at_ trivial
        intro next same
        cases same
        exact id
      exact inv.frame at_ released rfl rfl (fun _ impossible => by cases impossible)
  | returnElem n =>
      cases stepped
      have mine : holding Pc.took place thread = some n := by
        rw [holding, at_]
        rfl
      constructor
      · exact outside id (fun _ impossible => by cases impossible)
      · rw [holding_kept (by rw [at_]; rfl)]
        exact inv.made
      · rw [holding_update]
        exact inv.taken.answer thread _
      · intro other m standing
        rcases Mutex.cases_update standing with ⟨_, impossible⟩ | ⟨_, before⟩
        · cases impossible
        · exact inv.first other m before
      · exact inv.listed.answer inv.taken mine

end Step

variable {state next : BasicPool ι} {act : Act ι Pc} {trace : List (BasicPool ι × Act ι Pc)}
variable {links : Links Addr} {elem : Addr → ℤ} {calls : ι → List Call}

omit [DecidableEq ι] in
theorem inv_start (links : Links Addr) (elem : Addr → ℤ) :
    Inv (InitBasicQueue links elem) ({ inserted := [], removals := [] } : Hist ι)
      (fun _ => none) := by
  constructor
  · exact Mutex.start
  · constructor
    · intro n impossible
      cases impossible
    · intro thread n impossible
      cases impossible
    · intro left right n impossible
      cases impossible
  · constructor
    · intro thread n impossible
      cases impossible
    · intro removal impossible
      cases impossible
  · intro thread n impossible
    cases impossible
  · constructor
    · exact Nat.le_refl 0
    · exact circle_init .head links
    · intro insertion impossible
      cases impossible
    · intro k removal impossible
      cases impossible

def Interface (state : BasicPool ι) : Prop :=
  ∀ thread, ∀ pc ∈ (state.thread thread).script, ∃ call : Call, pc = call.entry

theorem Inv.kept (inv : Inv state.mem state.hist state.at) (interface : Interface state)
    (finds : Finds state act) (moved : (program ι).next state act = some next) :
    Inv next.mem next.hist next.at := by
  rcases Program.next_cases moved with
    ⟨thread, entry, script, left, rfl, idle, called, rfl⟩ |
    ⟨thread, script, left, rfl, idle, impossible, rfl⟩ |
    ⟨thread, pc, script, mem, outcome, rfl, busy, stepped, rfl⟩
  · have waits : state.at thread = none := Pool.at_idle idle
    have whole := scriptClient_call called
    obtain ⟨call, rfl⟩ := interface thread entry (by
      rw [idle, whole]
      exact List.mem_cons_self)
    change Inv state.mem state.hist (fun other => (Function.update state.thread thread _ other).pc?)
    rw [at_update]
    exact inv.call waits call
  · cases impossible
  · have at_ : state.at thread = some pc := Pool.at_busy busy
    change Inv mem _ (fun other => (Function.update state.thread thread _ other).pc?)
    rw [at_update, Program.resume_pc]
    exact inv.step at_ stepped (finds pc at_)

theorem interface_of_run (run : Run (program ι).next (start links elem calls) trace state) :
    Interface state := by
  apply run.invariant (Transition.meets_true trace)
  · intro thread pc member
    obtain ⟨call, _, same⟩ := List.mem_map.mp member
    exact ⟨call, same.symm⟩
  · intro state act next now _ moved
    exact script_next moved now

theorem Inv.of_run (run : Run (program ι).next (start links elem calls) trace state)
    (finds : Meets Finds trace) : Inv state.mem state.hist state.at := by
  induction run with
  | nil => exact inv_start links elem
  | snoc before moved ih =>
      rw [meets_snoc] at finds
      exact (ih finds.1).kept (interface_of_run before) finds.2 moved

omit [DecidableEq ι] in
theorem Inv.only_inserted (inv : Inv state.mem state.hist state.at) : OnlyInserted state := by
  have entryNotHead : ∀ n ∈ state.hist.entries, n ≠ .head := by
    intro n member
    obtain ⟨k, _, rfl⟩ := inv.made.old n member
    intro impossible
    cases impossible
  have few : state.hist.removals.length ≤ state.hist.inserted.length := by
    rw [← entries_length]
    exact inv.listed.few
  constructor
  · exact few
  · intro k removal value at_ returned
    obtain ⟨insertion, found, _, value_eq⟩ := inv.listed.removed k removal at_
    rw [found, value_eq value returned]
    rfl
  · intro quiet
    apply List.ext_getElem
    · rw [List.length_map, List.length_map, List.length_take]
      omega
    · intro k inside _
      rw [List.length_map] at inside
      have at_ := List.getElem?_eq_getElem inside
      obtain ⟨insertion, found, _, value_eq⟩ := inv.listed.removed k _ at_
      obtain ⟨_, found_eq⟩ := List.getElem?_eq_some_iff.mp found
      rw [List.getElem_map, List.getElem_map, List.getElem_take, found_eq]
      cases returned : (state.hist.removals[k]).value with
      | some value => rw [value_eq value returned]
      | none =>
          have held := inv.taken.pending _ (List.getElem_mem inside) returned
          rw [holding, quiet] at held
          cases held
  · intro removal member
    obtain ⟨k, at_⟩ := List.getElem?_of_mem member
    obtain ⟨insertion, found, same, _⟩ := inv.listed.removed k removal at_
    rw [same]
    exact entryNotHead _ (List.mem_map_of_mem (List.mem_of_getElem? found))
  · intro thread n at_
    apply entryNotHead n
    apply inv.taken.inserted thread n
    rw [holding, at_]
    rfl

theorem record_removes {thread : ι} {pc : Pc} {mem : Memory} {hist : Hist ι}
    (removes : ∀ removal ∈ (record thread pc mem hist).removals, removal.removed ≠ .head) :
    ∀ removal ∈ hist.removals, removal.removed ≠ .head := by
  intro removal member
  cases pc with
  | remove n => exact removes removal (List.mem_append_left _ member)
  | returnElem n =>
      have kept := removes _ (List.mem_map_of_mem member)
      rw [answer_removed] at kept
      exact kept
  | _ => exact removes removal member

/-- The first removal of a run that finds no entry takes the head for one. -/
theorem finds_of_removes (run : Run (program ι).next (start links elem calls) trace state)
    (removes : ∀ removal ∈ state.hist.removals, removal.removed ≠ .head) : Meets Finds trace := by
  induction run with
  | nil => exact Transition.meets_nil Finds
  | @snoc earlier middle last act before moved ih =>
      have early : Meets Finds earlier := by
        apply ih
        rcases Program.next_cases moved with
          ⟨thread, entry, script, left, _, _, _, rfl⟩ |
          ⟨thread, script, left, _, _, impossible, _⟩ |
          ⟨thread, pc, script, mem, outcome, _, _, _, rfl⟩
        · exact removes
        · cases impossible
        · exact record_removes removes
      rw [meets_snoc]
      refine ⟨early, ?_⟩
      cases act with
      | call thread entry => exact trivial
      | quit thread => exact trivial
      | move thread =>
          intro pc at_ n same
          subst same
          by_contra none_
          have inv := Inv.of_run before early
          have empty : middle.hist.entries.drop middle.hist.removals.length = [] := by
            apply List.drop_eq_nil_of_le
            rw [entries_length]
            omega
          obtain ⟨_, outcome, _, _, hist_eq⟩ := Program.own_move moved at_
          rw [hist_eq] at removes
          apply removes _ (List.mem_append_right _ (List.mem_singleton_self _))
          exact inv.listed.circle.empty_iff.mpr empty

def labels (thread : ι) (call : Call) (moves : ℕ) : List (Act ι Pc) :=
  .call thread call.entry :: List.replicate moves (.move thread)

end QueueBench.BasicQueue
