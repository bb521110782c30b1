import QueueBench.Lib.Linearization
import QueueBench.LockFreeShape

/-! The steps of the lock-free queue. With one push and one pop at a time, and pops that keep away
from the two places where a push must not be disturbed, every step finds the blocks it needs and
keeps the shape of the list. A push has its effect in its first CAS, a pop when it unlinks its
item, or when it reads `queue->tail` and finds nothing. -/

namespace QueueBench.LockFreeQueue
open Heap (Owns)
open Linearization
open Machine (Outcome Pool Program Act Thread)
open RingArith (addAndFetch)

variable {α τ ι : Type*}

def listKind (τ : Type*) : QueueKind (Option τ) (Option τ) :=
  { room := fun _ => True
    stored := none
    got := id
    nothing := fun answer => answer = none }

def operation : Pc α τ → Option (QueueOp (Option τ))
  | .push l .node => some (.put l.value)
  | .pop _ .head => some .get
  | _ => none

def Pc.status : Pc α τ → Status (QueueOp (Option τ)) (Option τ)
  | .push _ .swing => .done none
  | .push l _ => .pending (.put l.value)
  | .pop l point => if point.taken then .done l.val else .pending .get

def Hist.content (hist : Hist τ) : List (Option τ) := hist.puts.drop hist.takes.length

def listView : View (Queue α τ) (Pc α τ) (Hist τ) (List (Option τ)) (QueueOp (Option τ))
    (Option τ) :=
  { value := fun _ hist => hist.content
    status := fun _ _ => Pc.status }

variable {queue : Queue α τ} {hist : Hist τ} {layout : Layout α τ}
variable {push : Option (Push α τ × PushPoint α)} {pop : Option (Pop α τ × PopPoint α)}
variable {l : Push α τ} {m : Pop α τ} {item : Item α τ}

theorem Shape.content (shape : Shape queue hist push pop layout) :
    hist.content = layout.items.map Item.value := by
  rw [Hist.content, shape.order, List.drop_left]

/-! ### What a call finds -/

theorem Front.split (front : Front layout m item) : ∃ rest, layout.items = item :: rest := by
  cases items : layout.items with
  | nil =>
      have first := front.first
      rw [items] at first
      cases first
  | cons head rest =>
      have first := front.first
      rw [items] at first
      cases first
      exact ⟨rest, rfl⟩

theorem Started.split (started : Started layout m) : ∃ item rest, layout.items = item :: rest := by
  obtain ⟨item, member, _⟩ := started.tail
  cases items : layout.items with
  | nil =>
      rw [items] at member
      cases member
  | cons head rest => exact ⟨head, rest, rfl⟩

theorem Shape.next_first (shape : Shape queue hist push pop layout) (whole : severed pop = false) :
    queue.next (some layout.dummy) = some layout.first := next_some (shape.chain whole).node_eq

theorem Shape.first_item (shape : Shape queue hist push pop layout) (whole : severed pop = false)
    {rest : List (Item α τ)} (split : layout.items = item :: rest) :
    queue.nptr (some item.ptr) = some (some item.node) ∧
      queue.value (some item.node) = some item.value ∧
      queue.next (some item.node) = some (rest.head?.map Item.ptr) := by
  obtain ⟨_, ⟨count, ptr⟩, behind⟩ := split ▸ shape.chain whole
  exact ⟨nptr_some ptr, value_some behind.node_eq, next_some behind.node_eq⟩

theorem Shape.tail_item (shape : Shape queue hist push pop layout) (whole : severed pop = false)
    (member : item ∈ layout.items) : queue.nptr (some item.ptr) = some (some item.node) := by
  obtain ⟨count, ptr⟩ := (shape.chain whole).ptr_eq member
  exact nptr_some ptr

theorem lastPtr_mem {rest : List (Item α τ)} (split : layout.items = item :: rest) :
    ∃ last ∈ layout.items, layout.lastPtr = last.ptr := by
  rw [Layout.lastPtr, split]
  rcases List.eq_nil_or_concat rest with rfl | ⟨front, last, rfl⟩
  · exact ⟨item, List.mem_cons_self, rfl⟩
  · refine ⟨last, ?_, ?_⟩
    · rw [List.concat_eq_append]
      exact List.mem_cons_of_mem _ (List.mem_append_right _ (List.mem_singleton_self last))
    · rw [List.concat_eq_append, List.foldl_cons, List.foldl_append]
      rfl

/-- The pointer cell at the head is none of the items'. -/
theorem Shape.root_apart (shape : Shape queue hist push pop layout) (whole : severed pop = false)
    (member : item ∈ layout.items) : item.ptr ≠ layout.root := by
  obtain ⟨rootFresh, _⟩ := List.nodup_cons.mp (shape.nodup whole)
  intro same
  apply rootFresh
  rw [← same]
  exact List.mem_cons_of_mem _ (List.mem_append_left _ (Item.ptr_mem member))

theorem Shape.dummy_apart (shape : Shape queue hist push pop layout) (whole : severed pop = false)
    (member : item ∈ layout.items) : layout.dummy ≠ item.node := by
  obtain ⟨_, nodup⟩ := List.nodup_cons.mp (shape.nodup whole)
  obtain ⟨dummyFresh, _⟩ := List.nodup_cons.mp nodup
  intro same
  apply dummyFresh
  rw [same]
  exact List.mem_append_left _ (Item.node_mem member)

section Steps
variable [DecidableEq α] {thread : ι}

def PushMay (queue : Queue α τ) (pop : Option (Pop α τ × PopPoint α)) (l : Push α τ) :
    PushPoint α → Prop
  | .node => queue.heap l.node = none
  | .nodeptr => queue.heap l.nodeptr = none
  | .tail => ∀ n place, pop = some (n, place) → ¬ place.Emptying
  | _ => True

def PopMay (queue : Queue α τ) (push : Option (Push α τ × PushPoint α)) : PopPoint α → Prop
  | .tail => ∀ n place, push = some (n, place) → ¬ place.Swinging
  | .nextLinkNext nptr =>
      queue.next nptr = some none → ∀ n place, push = some (n, place) → ¬ place.Adding
  | _ => True

def PushPoint.left : PushPoint α → ℕ
  | .node => 12
  | .nodeptr => 11
  | .fields => 10
  | .head => 9
  | .tail => 8
  | .tailNptr => 7
  | .tailNext _ => 6
  | .compare => 5
  | .count => 4
  | .slot => 3
  | .link _ => 2
  | .swing => 1
  | .helpCount | .helpNptr | .helpSwing _ => 0

def PopPoint.left : PopPoint α → ℕ
  | .head => 30
  | .tail => 29
  | .gate => 28
  | .gateCount _ => 27
  | .tmpHead => 26
  | .tmpNptr _ => 25
  | .tmpNext _ => 24
  | .nextHead => 23
  | .nextNptr _ => 22
  | .nextNext _ => 21
  | .headCount => 20
  | .compare => 19
  | .headNptr => 18
  | .tailNptr _ => 17
  | .valNptr => 16
  | .val _ => 15
  | .nextLink => 14
  | .nextLinkNext _ => 13
  | .lastHead => 12
  | .lastNptr _ => 11
  | .lastFree _ => 10
  | .lastSlot => 9
  | .lastSlotHead _ => 8
  | .lastSlotOld _ _ => 7
  | .lastSlotNew _ _ => 6
  | .lastMove _ _ _ => 5
  | .lastTail => 4
  | .lastTailNew _ => 3
  | .lastSwing _ _ => 2
  | .lastDrop => 1
  | .cutCount => 9
  | .cutHead => 8
  | .cutNptr _ => 7
  | .cutNext _ => 6
  | .cutNextNext _ _ => 5
  | .cutLink _ _ => 4
  | .cutNode => 3
  | .cutFree _ => 2
  | .cutDrop => 1
  | _ => 0

def Pc.left : Pc α τ → ℕ
  | .push _ point => point.left
  | .pop _ point => point.left

/-- A call has a step, which keeps the shape of the memory, is one of the queue, and brings the
call nearer to its end. -/
def Steps (thread : ι) (pc : Pc α τ) (queue : Queue α τ) (hist : Hist τ)
    (shaped : Queue α τ → Hist τ → Option (Pc α τ) → Prop) : Prop :=
  ∃ after outcome, step pc queue = some (after, outcome) ∧
    shaped after (record thread pc queue hist) outcome.pc? ∧
    Shows (listKind τ).acts Pc.status pc hist.content outcome
      (record thread pc queue hist).content ∧
    outcome.pc?.elim 0 Pc.left < pc.left

def Pushed (pop : Option (Pop α τ × PopPoint α)) (after : Queue α τ) (later : Hist τ)
    (target : Option (Pc α τ)) : Prop :=
  target.bind Pc.pop? = none ∧ ∃ changed, Shape after later (target.bind Pc.push?) pop changed

def Popped (push : Option (Push α τ × PushPoint α)) (after : Queue α τ) (later : Hist τ)
    (target : Option (Pc α τ)) : Prop :=
  target.bind Pc.push? = none ∧ ∃ changed, Shape after later push (target.bind Pc.pop?) changed

theorem push_steps {n : Push α τ} {point target : PushPoint α} {after : Queue α τ}
    (stepped : step (.push l point) queue = some (after, .goto (.push n target)))
    (shape : Shape after hist (some (n, target)) pop layout)
    (kept : record thread (.push l point : Pc α τ) queue hist = hist)
    (same : Pc.status (.push n target : Pc α τ) = Pc.status (.push l point))
    (nearer : target.left < point.left) :
    Steps thread (.push l point) queue hist (Pushed pop) := by
  refine ⟨after, _, stepped, ⟨rfl, layout, ?_⟩, ?_, nearer⟩
  · rw [kept]
    exact shape
  · rw [kept]
    exact .goto same

theorem Shape.push_step {point : PushPoint α}
    (shape : Shape queue hist (some (l, point)) pop layout) (may : PushMay queue pop l point) :
    Steps thread (.push l point) queue hist (Pushed pop) := by
  have sound : PushSound queue layout l point := shape.pushing
  cases point with
  | node =>
      have stepped : step (.push l .node) queue =
          some (queue.write l.node .raw, .goto (.push l .nodeptr)) := by
        simp only [step, pushStep, malloc_none may, Option.map_some]
      have moved : Shape (queue.write l.node .raw) hist (some (l, .nodeptr)) pop layout := by
        refine shape.push_apart rfl rfl ?_ ?_ id (fun impossible => False.elim impossible) trivial
        · intro block member
          apply Function.update_of_ne
          rintro rfl
          exact shape.owns.fresh may (List.mem_append_left _ member)
        · apply (shape.owns.alloc may .raw).perm
          change List.Perm (l.node :: (_ ++ [])) _
          rw [List.append_nil]
          exact (List.perm_append_singleton l.node _).symm
      exact push_steps stepped moved rfl rfl (Nat.lt_succ_self _)
  | nodeptr =>
      have stepped : step (.push l .nodeptr) queue =
          some (queue.write l.nodeptr .raw, .goto (.push l .fields)) := by
        simp only [step, pushStep, malloc_none may, Option.map_some]
      have moved : Shape (queue.write l.nodeptr .raw) hist (some (l, .fields)) pop layout := by
        refine shape.push_apart rfl rfl ?_ ?_ id (fun impossible => False.elim impossible) trivial
        · intro block member
          apply Function.update_of_ne
          rintro rfl
          exact shape.owns.fresh may (List.mem_append_left _ member)
        · exact (shape.owns.alloc may .raw).perm List.perm_middle.symm
      exact push_steps stepped moved rfl rfl (Nat.lt_succ_self _)
  | fields =>
      have ptrIn : l.nodeptr ∈ PushPoint.fields.owned l := List.mem_cons_self
      have nodeIn : l.node ∈ PushPoint.fields.owned l := List.mem_cons_of_mem _ List.mem_cons_self
      have apart : l.nodeptr ≠ l.node := by
        have nodup := (List.nodup_append.mp shape.owns.nodup).2.1
        intro same
        exact (List.nodup_cons.mp nodup).1 (same ▸ List.mem_cons_self)
      obtain ⟨nodeCell, nodeLive⟩ := shape.owns.live (List.mem_append_right _ nodeIn)
      obtain ⟨ptrCell, ptrLive⟩ := shape.owns.live (List.mem_append_right _ ptrIn)
      have ptrStill : (queue.write l.node (.node l.value none)).heap l.nodeptr = some ptrCell :=
        (Function.update_of_ne apart _ queue.heap).trans ptrLive
      have stepped : step (.push l .fields) queue =
          some ((queue.write l.node (.node l.value none)).write l.nodeptr
            (.pointer 1 (some l.node)), .goto (.push l .head)) := by
        simp only [step, pushStep, store_some nodeLive, Option.bind_some, store_some ptrStill,
          Option.map_some]
      have moved : Shape ((queue.write l.node (.node l.value none)).write l.nodeptr
          (.pointer 1 (some l.node))) hist (some (l, .head)) pop layout := by
        have prepared : Prepared ((queue.write l.node (.node l.value none)).write l.nodeptr
            (.pointer 1 (some l.node))) l := by
          refine ⟨?_, 1, Function.update_self l.nodeptr _ _⟩
          exact (Function.update_of_ne (Ne.symm apart) _ _).trans
            (Function.update_self l.node _ queue.heap)
        refine shape.push_apart rfl rfl ?_ ?_ id (fun impossible => False.elim impossible) prepared
        · intro block member
          have notPtr : block ≠ l.nodeptr := by
            rintro rfl
            exact shape.push_outside ptrIn member
          have notNode : block ≠ l.node := by
            rintro rfl
            exact shape.push_outside nodeIn member
          exact (Function.update_of_ne notPtr _ _).trans
            (Function.update_of_ne notNode _ queue.heap)
        · exact (shape.owns.write (List.mem_append_right _ nodeIn) _).write
            (List.mem_append_right _ ptrIn) _
      exact push_steps stepped moved rfl rfl (Nat.lt_succ_self _)
  | head =>
      have moved : Shape queue hist (some ({ l with head := queue.head }, .tail)) pop layout :=
        shape.push_walk rfl id (fun impossible => False.elim impossible) sound
      exact push_steps rfl moved rfl rfl (Nat.lt_succ_self _)
  | tail =>
      have tail : queue.tail = some layout.lastPtr := by
        apply shape.tail_eq
        · intro _ _ now
          cases now
          exact id
        · intro n place popping stale
          exact may n place popping stale.emptying
      have moved : Shape queue hist (some ({ l with tail := queue.tail }, .tailNptr)) pop
          layout := shape.push_walk rfl id (fun _ => may) ⟨sound, tail⟩
      exact push_steps rfl moved rfl rfl (Nat.lt_succ_self _)
  | tailNptr =>
      obtain ⟨prepared, tail⟩ := sound
      have whole := shape.whole rfl trivial
      have stepped : step (.push l .tailNptr) queue =
          some (queue, .goto (.push l (.tailNext (some layout.lastNode)))) := by
        simp only [step, pushStep, tail, shape.nptr_last whole, Option.map_some]
      have moved : Shape queue hist (some (l, .tailNext (some layout.lastNode))) pop layout :=
        shape.push_walk rfl id (fun _ => shape.fresh trivial) ⟨prepared, tail, rfl⟩
      exact push_steps stepped moved rfl rfl (Nat.lt_succ_self _)
  | tailNext nptr =>
      obtain ⟨prepared, tail, rfl⟩ := sound
      have whole := shape.whole rfl trivial
      have stepped : step (.push l (.tailNext (some layout.lastNode))) queue =
          some (queue, .goto (.push { l with next := none } .compare)) := by
        simp only [step, pushStep, shape.next_last whole, Option.map_some]
      have moved : Shape queue hist (some ({ l with next := none }, .compare)) pop layout :=
        shape.push_walk rfl id (fun _ => shape.fresh trivial) ⟨prepared, tail, rfl⟩
      exact push_steps stepped moved rfl rfl (Nat.lt_succ_self _)
  | compare =>
      obtain ⟨prepared, tail, next⟩ := sound
      have same : l.tail = queue.tail := by
        rw [tail]
        symm
        apply shape.tail_eq
        · intro _ _ now
          cases now
          exact id
        · intro n place popping stale
          exact shape.fresh trivial n place popping stale.emptying
      have stepped : step (.push l .compare) queue = some (queue, .goto (.push l .count)) := by
        simp only [step, pushStep, if_pos same, if_pos next]
      have moved : Shape queue hist (some (l, .count)) pop layout :=
        shape.push_walk rfl id (fun _ => shape.fresh trivial) ⟨prepared, tail, next⟩
      exact push_steps stepped moved rfl rfl (Nat.lt_succ_self _)
  | count =>
      obtain ⟨⟨node, count, ptr⟩, tail, next⟩ := sound
      have ptrIn : l.nodeptr ∈ PushPoint.count.owned l := List.mem_cons_self
      have apart : l.node ≠ l.nodeptr := by
        intro same
        rw [same, ptr] at node
        cases node
      have stepped : step (.push l .count) queue =
          some (queue.write l.nodeptr (.pointer (addAndFetch count) (some l.node)),
            .goto (.push l .slot)) := by
        simp only [step, pushStep, addCount_some ptr, Option.map_some]
      have moved : Shape (queue.write l.nodeptr (.pointer (addAndFetch count) (some l.node))) hist
          (some (l, .slot)) pop layout := by
        have prepared : Prepared
            (queue.write l.nodeptr (.pointer (addAndFetch count) (some l.node))) l :=
          ⟨(Function.update_of_ne apart _ queue.heap).trans node, _,
            Function.update_self l.nodeptr _ queue.heap⟩
        refine shape.push_apart rfl rfl ?_ ?_ id (fun _ => shape.fresh trivial)
          ⟨prepared, tail, next⟩
        · intro block member
          apply Function.update_of_ne
          rintro rfl
          exact shape.push_outside ptrIn member
        · exact shape.owns.write (List.mem_append_right _ ptrIn) _
      exact push_steps stepped moved rfl rfl (Nat.lt_succ_self _)
  | slot =>
      obtain ⟨prepared, tail, next⟩ := sound
      have whole := shape.whole rfl trivial
      have stepped : step (.push l .slot) queue =
          some (queue, .goto (.push l (.link (some layout.lastNode)))) := by
        simp only [step, pushStep, tail, shape.nptr_last whole, Option.map_some]
      have moved : Shape queue hist (some (l, .link (some layout.lastNode))) pop layout :=
        shape.push_walk rfl id (fun _ => shape.fresh trivial) ⟨prepared, tail, next, rfl⟩
      exact push_steps stepped moved rfl rfl (Nat.lt_succ_self _)
  | link nptr =>
      obtain ⟨reads, after, swapped, moved⟩ := shape.push_link
      have stepped : step (.push l (.link nptr)) queue =
          some (after, .goto (.push l .swing)) := by
        simp only [step, pushStep, swapped, Option.map_some, if_true]
      have recorded : record thread (.push l (.link nptr)) queue hist =
          { hist with puts := hist.puts ++ [l.value] } := if_pos reads
      refine ⟨after, _, stepped, ⟨rfl, layout.append ⟨l.nodeptr, l.node, l.value⟩, ?_⟩,
        .effect rfl rfl ?_, Nat.lt_succ_self _⟩
      · rw [recorded]
        exact moved
      · rw [recorded, moved.content, shape.content]
        change (listKind τ).acts _ _ _ ((layout.items ++ [_]).map Item.value)
        rw [List.map_append]
        exact .put trivial
  | swing =>
      obtain ⟨swapped, moved⟩ := shape.push_swing
      have stepped : step (.push l .swing) queue =
          some ({ queue with tail := some l.nodeptr }, .ret none) := by
        simp only [step, pushStep, swapped, if_true]
      exact ⟨_, _, stepped, ⟨rfl, layout, moved⟩, .answer rfl, Nat.succ_pos _⟩
  | helpCount => exact sound.elim
  | helpNptr => exact sound.elim
  | helpSwing nptr => exact sound.elim

theorem Shape.pop_drop {point : PopPoint α} {block : α}
    (shape : Shape queue hist push (some (m, point)) layout) (whole : point.severs = false)
    (calm : ¬ point.Stale) (limbo : layout.limbo = [block]) :
    ∃ after, queue.free (some block) = some after ∧
      Shape after hist push none { layout with limbo := [] } :=
  shape.pop_free whole calm limbo rfl (fun _ => rfl)
    (by intro _ _ impossible; cases impossible) (fun _ => trivial)

theorem Shape.pop_reads {n : Pop α τ} {point target : PopPoint α}
    (shape : Shape queue hist push (some (m, point)) layout)
    (stepped : step (.pop m point) queue = some (queue, .goto (.pop n target)))
    (kept : record thread (.pop m point : Pc α τ) queue hist = hist)
    (same : Pc.status (.pop n target : Pc α τ) = Pc.status (.pop m point))
    (severs : target.severs = point.severs) (takes : target.taken = point.taken)
    (stale : point.Stale → target.Stale) (empties : target.Emptying → point.Emptying)
    (nearer : target.left < point.left) (sound : PopSound queue layout n target) :
    Steps thread (.pop m point) queue hist (Popped push) := by
  refine ⟨queue, _, stepped, ⟨rfl, layout, ?_⟩, ?_, nearer⟩
  · rw [kept]
    exact shape.pop_walk severs takes stale (fun emptying => shape.nobody_adds (empties emptying))
      sound
  · rw [kept]
    exact .goto same

theorem pop_writes {n : Pop α τ} {point target : PopPoint α} {after : Queue α τ}
    (stepped : step (.pop m point) queue = some (after, .goto (.pop n target)))
    (shape : Shape after hist push (some (n, target)) layout)
    (kept : record thread (.pop m point : Pc α τ) queue hist = hist)
    (same : Pc.status (.pop n target : Pc α τ) = Pc.status (.pop m point))
    (nearer : target.left < point.left) :
    Steps thread (.pop m point) queue hist (Popped push) := by
  refine ⟨after, _, stepped, ⟨rfl, layout, ?_⟩, ?_, nearer⟩
  · rw [kept]
    exact shape
  · rw [kept]
    exact .goto same

/-- The read of `queue->tail`: nothing is in the queue if it leads where `queue->head` does. -/
theorem Shape.pop_tail (shape : Shape queue hist push (some (m, .tail)) layout)
    (may : PopMay queue push (.tail : PopPoint α)) :
    Steps thread (.pop m .tail) queue hist (Popped push) := by
  have head : m.head = some layout.root := shape.popping
  have tail : queue.tail = some layout.lastPtr :=
    shape.tail_eq may (by intro _ _ now; cases now; exact id)
  cases items : layout.items with
  | nil =>
      have same : m.head = queue.tail := by
        rw [head, tail, Layout.lastPtr, items]
        rfl
      have stepped : step (.pop m .tail) queue = some (queue, .ret none) := by
        simp only [step, popStep, if_pos same]
      have nothing : hist.content = [] := by
        rw [shape.content, items]
        rfl
      have acted : (listKind τ).acts hist.content .get none hist.content := by
        rw [nothing]
        exact .nothing rfl
      exact ⟨queue, _, stepped, ⟨rfl, layout, shape.pop_leave rfl rfl id⟩, .both rfl acted,
        Nat.succ_pos _⟩
  | cons item rest =>
      obtain ⟨last, member, lastEq⟩ := lastPtr_mem items
      have different : m.head ≠ queue.tail := by
        rw [head, tail, lastEq]
        intro same
        exact shape.root_apart rfl member (Option.some.inj same).symm
      have stepped : step (.pop m .tail) queue =
          some (queue, .goto (.pop { m with tail := queue.tail } .gate)) := by
        simp only [step, popStep, if_neg different]
      exact shape.pop_reads stepped rfl rfl rfl rfl id id (Nat.lt_succ_self _)
        { head := head
          tail := ⟨last, member, tail.trans (congrArg some lastEq)⟩ }

/-- The pop has read the value of the first item and looks whether it is the last one. -/
theorem Shape.pop_last {nptr : Option α}
    (shape : Shape queue hist push (some (m, .nextLinkNext nptr)) layout)
    (may : PopMay queue push (.nextLinkNext nptr)) :
    Steps thread (.pop m (.nextLinkNext nptr)) queue hist (Popped push) := by
  obtain ⟨item, front, val, rfl⟩ := shape.popping
  obtain ⟨rest, split⟩ := front.split
  obtain ⟨_, _, next⟩ := shape.first_item rfl split
  cases rest with
  | nil =>
      have stepped : step (.pop m (.nextLinkNext (some item.node))) queue =
          some (queue, .goto (.pop m .lastHead)) := by
        simp only [step, popStep, next, Option.map_some]
        rfl
      refine ⟨queue, _, stepped, ⟨rfl, layout, ?_⟩, .goto rfl, Nat.lt_succ_self _⟩
      exact shape.pop_walk rfl rfl id (fun _ => may next) ⟨item, front, val, split⟩
  | cons second others =>
      have stepped : step (.pop m (.nextLinkNext (some item.node))) queue =
          some (queue, .goto (.pop m .cutCount)) := by
        simp only [step, popStep, next, Option.map_some]
        rfl
      exact shape.pop_reads stepped rfl rfl rfl rfl id id (by change 9 < 13; omega)
        ⟨item, second, front, val, others, split⟩

theorem Shape.pop_step {point : PopPoint α}
    (shape : Shape queue hist push (some (m, point)) layout) (may : PopMay queue push point) :
    Steps thread (.pop m point) queue hist (Popped push) := by
  have sound : PopSound queue layout m point := shape.popping
  cases point with
  | head => exact shape.pop_reads rfl rfl rfl rfl rfl id id (Nat.lt_succ_self _) shape.head_eq
  | tail => exact shape.pop_tail may
  | gate =>
      exact shape.pop_reads rfl rfl rfl rfl rfl id id (Nat.lt_succ_self _)
        ⟨sound, shape.head_eq⟩
  | gateCount head =>
      obtain ⟨started, rfl⟩ := sound
      have stepped : step (.pop m (.gateCount (some layout.root))) queue =
          some (queue, .goto (.pop m .tmpHead)) := by
        simp only [step, popStep, count_some shape.rooted, Option.map_some]
        rfl
      exact shape.pop_reads stepped rfl rfl rfl rfl id id (Nat.lt_succ_self _) started
  | tmpHead =>
      exact shape.pop_reads rfl rfl rfl rfl rfl id id (Nat.lt_succ_self _)
        ⟨sound, shape.head_eq⟩
  | tmpNptr head =>
      obtain ⟨started, rfl⟩ := sound
      have stepped : step (.pop m (.tmpNptr (some layout.root))) queue =
          some (queue, .goto (.pop m (.tmpNext (some layout.dummy)))) := by
        simp only [step, popStep, shape.nptr_root, Option.map_some]
      exact shape.pop_reads stepped rfl rfl rfl rfl id id (Nat.lt_succ_self _) ⟨started, rfl⟩
  | tmpNext nptr =>
      obtain ⟨started, rfl⟩ := sound
      have stepped : step (.pop m (.tmpNext (some layout.dummy))) queue =
          some (queue, .goto (.pop { m with tmp := layout.first } .nextHead)) := by
        simp only [step, popStep, shape.next_first rfl, Option.map_some]
      exact shape.pop_reads stepped rfl rfl rfl rfl id id (Nat.lt_succ_self _)
        ⟨{ head := started.head, tail := started.tail }, rfl⟩
  | nextHead =>
      exact shape.pop_reads rfl rfl rfl rfl rfl id id (Nat.lt_succ_self _)
        ⟨sound.1, sound.2, shape.head_eq⟩
  | nextNptr head =>
      obtain ⟨started, tmp, rfl⟩ := sound
      have stepped : step (.pop m (.nextNptr (some layout.root))) queue =
          some (queue, .goto (.pop m (.nextNext (some layout.dummy)))) := by
        simp only [step, popStep, shape.nptr_root, Option.map_some]
      exact shape.pop_reads stepped rfl rfl rfl rfl id id (Nat.lt_succ_self _) ⟨started, tmp, rfl⟩
  | nextNext nptr =>
      obtain ⟨started, tmp, rfl⟩ := sound
      obtain ⟨item, rest, split⟩ := started.split
      have first : layout.first = some item.ptr := by
        rw [Layout.first, split]
        rfl
      have stepped : step (.pop m (.nextNext (some layout.dummy))) queue =
          some (queue, .goto (.pop { m with next := layout.first } .headCount)) := by
        simp only [step, popStep, shape.next_first rfl, Option.map_some]
      refine shape.pop_reads stepped rfl rfl rfl rfl id id (Nat.lt_succ_self _) ⟨item, ?_⟩
      exact
        { head := started.head
          tail := started.tail
          first := by rw [split]; rfl
          tmp := tmp.trans first
          next := first }
  | headCount =>
      obtain ⟨item, front⟩ := sound
      have stepped : step (.pop m .headCount) queue = some (queue, .goto (.pop m .compare)) := by
        simp only [step, popStep, front.head, count_some shape.rooted, Option.map_some, front.next]
        rfl
      exact shape.pop_reads stepped rfl rfl rfl rfl id id (Nat.lt_succ_self _) ⟨item, front⟩
  | compare =>
      obtain ⟨item, front⟩ := sound
      have same : m.head = queue.head := front.head.trans shape.head_eq.symm
      have stepped : step (.pop m .compare) queue = some (queue, .goto (.pop m .headNptr)) := by
        simp only [step, popStep, if_pos same]
      exact shape.pop_reads stepped rfl rfl rfl rfl id id (Nat.lt_succ_self _) ⟨item, front⟩
  | headNptr =>
      obtain ⟨item, front⟩ := sound
      have stepped : step (.pop m .headNptr) queue =
          some (queue, .goto (.pop m (.tailNptr (some layout.dummy)))) := by
        simp only [step, popStep, front.head, shape.nptr_root, Option.map_some]
      exact shape.pop_reads stepped rfl rfl rfl rfl id id (Nat.lt_succ_self _) ⟨⟨item, front⟩, rfl⟩
  | tailNptr nptr =>
      obtain ⟨⟨item, front⟩, rfl⟩ := sound
      obtain ⟨last, member, tail⟩ := front.tail
      have different : some layout.dummy ≠ some last.node := by
        intro same
        exact shape.dummy_apart rfl member (Option.some.inj same)
      have stepped : step (.pop m (.tailNptr (some layout.dummy))) queue =
          some (queue, .goto (.pop m .valNptr)) := by
        simp only [step, popStep, tail, shape.tail_item rfl member, Option.map_some,
          if_neg different]
      exact shape.pop_reads stepped rfl rfl rfl rfl id id (Nat.lt_succ_self _) ⟨item, front⟩
  | valNptr =>
      obtain ⟨item, front⟩ := sound
      obtain ⟨rest, split⟩ := front.split
      have stepped : step (.pop m .valNptr) queue =
          some (queue, .goto (.pop m (.val (some item.node)))) := by
        simp only [step, popStep, front.next, (shape.first_item rfl split).1, Option.map_some]
      exact shape.pop_reads stepped rfl rfl rfl rfl id id (Nat.lt_succ_self _) ⟨item, front, rfl⟩
  | val nptr =>
      obtain ⟨item, front, rfl⟩ := sound
      obtain ⟨rest, split⟩ := front.split
      have stepped : step (.pop m (.val (some item.node))) queue =
          some (queue, .goto (.pop { m with val := item.value } .nextLink)) := by
        simp only [step, popStep, (shape.first_item rfl split).2.1, Option.map_some]
      refine shape.pop_reads stepped rfl rfl rfl rfl id id (Nat.lt_succ_self _) ⟨item, ?_, rfl⟩
      exact
        { head := front.head
          tail := front.tail
          first := front.first
          tmp := front.tmp
          next := front.next }
  | nextLink =>
      obtain ⟨item, front, val⟩ := sound
      obtain ⟨rest, split⟩ := front.split
      have stepped : step (.pop m .nextLink) queue =
          some (queue, .goto (.pop m (.nextLinkNext (some item.node)))) := by
        simp only [step, popStep, front.next, (shape.first_item rfl split).1, Option.map_some]
      exact shape.pop_reads stepped rfl rfl rfl rfl id id (Nat.lt_succ_self _)
        ⟨item, front, val, rfl⟩
  | nextLinkNext nptr => exact shape.pop_last may
  | lastHead =>
      obtain ⟨item, front, val, only⟩ := sound
      exact shape.pop_reads rfl rfl rfl rfl rfl id id (Nat.lt_succ_self _)
        ⟨item, front, val, only, shape.head_eq⟩
  | lastNptr head =>
      obtain ⟨item, front, val, only, rfl⟩ := sound
      have stepped : step (.pop m (.lastNptr (some layout.root))) queue =
          some (queue, .goto (.pop m (.lastFree (some layout.dummy)))) := by
        simp only [step, popStep, shape.nptr_root, Option.map_some]
      exact shape.pop_reads stepped rfl rfl rfl rfl id id (Nat.lt_succ_self _)
        ⟨item, front, val, only, rfl⟩
  | lastFree nptr =>
      obtain ⟨item, front, val, only, rfl⟩ := sound
      obtain ⟨after, freed, moved⟩ := shape.pop_sever front val only
      have stepped : step (.pop m (.lastFree (some layout.dummy))) queue =
          some (after, .goto (.pop m .lastSlot)) := by
        simp only [step, popStep, freed, Option.map_some]
      exact pop_writes stepped moved rfl rfl (Nat.lt_succ_self _)
  | lastSlot =>
      obtain ⟨item, gone⟩ := sound
      exact shape.pop_reads rfl rfl rfl rfl rfl id id (Nat.lt_succ_self _)
        ⟨item, gone, shape.head_eq⟩
  | lastSlotHead slot =>
      obtain ⟨item, gone, rfl⟩ := sound
      exact shape.pop_reads rfl rfl rfl rfl rfl id id (Nat.lt_succ_self _)
        ⟨item, gone, rfl, shape.head_eq⟩
  | lastSlotOld slot head =>
      obtain ⟨item, gone, rfl, rfl⟩ := sound
      have stepped : step (.pop m (.lastSlotOld (some layout.root) (some layout.root))) queue =
          some (queue, .goto (.pop m (.lastSlotNew (some layout.root) (some layout.dummy)))) := by
        simp only [step, popStep, shape.nptr_root, Option.map_some]
      exact shape.pop_reads stepped rfl rfl rfl rfl id id (Nat.lt_succ_self _)
        ⟨item, gone, rfl, rfl⟩
  | lastSlotNew slot old =>
      obtain ⟨item, gone, rfl, rfl⟩ := sound
      obtain ⟨count, ptr⟩ := gone.ptr
      have stepped : step (.pop m (.lastSlotNew (some layout.root) (some layout.dummy))) queue =
          some (queue, .goto (.pop m
            (.lastMove (some layout.root) (some layout.dummy) (some item.node)))) := by
        simp only [step, popStep, gone.next, nptr_some ptr, Option.map_some]
      exact shape.pop_reads stepped rfl rfl rfl rfl id id (Nat.lt_succ_self _)
        ⟨item, gone, rfl, rfl, rfl⟩
  | lastMove slot old new =>
      obtain ⟨item, gone, slotEq, oldEq, newEq⟩ := sound
      obtain ⟨reads, after, swapped, moved⟩ := shape.pop_move gone slotEq oldEq newEq
      have stepped : step (.pop m (.lastMove slot old new)) queue =
          some (after, .goto (.pop m .lastTail)) := by
        simp only [step, popStep, swapped, Option.map_some, if_true]
      have recorded : record thread (.pop m (.lastMove slot old new)) queue hist =
          { hist with takes := hist.takes ++ [m.val] } := if_pos reads
      refine ⟨after, _, stepped, ⟨rfl, _, recorded ▸ moved⟩, .effect rfl rfl ?_,
        Nat.lt_succ_self _⟩
      rw [recorded, moved.content, shape.content, gone.only, gone.val]
      exact .get
  | lastTail => exact shape.pop_reads rfl rfl rfl rfl rfl id id (Nat.lt_succ_self _) ⟨sound, rfl⟩
  | lastTailNew old =>
      exact shape.pop_reads rfl rfl rfl rfl rfl id id (Nat.lt_succ_self _)
        ⟨sound.1, sound.2, shape.head_eq⟩
  | lastSwing old new =>
      obtain ⟨swapped, moved⟩ := shape.pop_restore
      have stepped : step (.pop m (.lastSwing old new)) queue =
          some ({ queue with tail := some layout.root }, .goto (.pop m .lastDrop)) := by
        simp only [step, popStep, swapped]
      exact pop_writes stepped moved rfl rfl (Nat.lt_succ_self _)
  | lastDrop =>
      obtain ⟨ptr, limbo, next⟩ := sound
      obtain ⟨after, freed, moved⟩ := shape.pop_drop rfl id limbo
      have stepped : step (.pop m .lastDrop) queue = some (after, .ret m.val) := by
        simp only [step, popStep, next, freed, Option.map_some]
      exact ⟨after, _, stepped, ⟨rfl, _, moved⟩, .answer rfl, Nat.succ_pos _⟩
  | cutCount =>
      obtain ⟨item, second, several⟩ := sound
      obtain ⟨after, counted, moved⟩ := shape.pop_count several
      have stepped : step (.pop m .cutCount) queue = some (after, .goto (.pop m .cutHead)) := by
        simp only [step, popStep, counted, Option.map_some]
      exact pop_writes stepped moved rfl rfl (Nat.lt_succ_self _)
  | cutHead =>
      obtain ⟨item, second, several⟩ := sound
      exact shape.pop_reads rfl rfl rfl rfl rfl id id (Nat.lt_succ_self _)
        ⟨item, second, several, shape.head_eq⟩
  | cutNptr head =>
      obtain ⟨item, second, several, rfl⟩ := sound
      have stepped : step (.pop m (.cutNptr (some layout.root))) queue =
          some (queue, .goto (.pop m (.cutNext (some layout.dummy)))) := by
        simp only [step, popStep, shape.nptr_root, Option.map_some]
      exact shape.pop_reads stepped rfl rfl rfl rfl id id (Nat.lt_succ_self _)
        ⟨item, second, several, rfl⟩
  | cutNext nptr =>
      obtain ⟨item, second, several, rfl⟩ := sound
      obtain ⟨rest, split⟩ := several.1.split
      have stepped : step (.pop m (.cutNext (some layout.dummy))) queue =
          some (queue, .goto (.pop m (.cutNextNext (some layout.dummy) (some item.node)))) := by
        simp only [step, popStep, several.1.next, (shape.first_item rfl split).1, Option.map_some]
      exact shape.pop_reads stepped rfl rfl rfl rfl id id (Nat.lt_succ_self _)
        ⟨item, second, several, rfl, rfl⟩
  | cutNextNext nptr next =>
      obtain ⟨item, second, several, rfl, rfl⟩ := sound
      obtain ⟨rest, split⟩ := several.2.2
      have stepped : step (.pop m (.cutNextNext (some layout.dummy) (some item.node))) queue =
          some (queue, .goto (.pop m (.cutLink (some layout.dummy) (some second.ptr)))) := by
        simp only [step, popStep, (shape.first_item rfl split).2.2, Option.map_some]
        rfl
      exact shape.pop_reads stepped rfl rfl rfl rfl id id (Nat.lt_succ_self _)
        ⟨item, second, several, rfl, rfl⟩
  | cutLink nptr new =>
      obtain ⟨item, second, several, rfl, rfl⟩ := sound
      obtain ⟨reads, after, swapped, moved⟩ := shape.pop_cut several
      have stepped : step (.pop m (.cutLink (some layout.dummy) (some second.ptr))) queue =
          some (after, .goto (.pop m .cutNode)) := by
        simp only [step, popStep, swapped, Option.map_some, if_true]
      have recorded : record thread
          (.pop m (.cutLink (some layout.dummy) (some second.ptr))) queue hist =
          { hist with takes := hist.takes ++ [m.val] } := if_pos reads
      refine ⟨after, _, stepped, ⟨rfl, _, recorded ▸ moved⟩, .effect rfl rfl ?_,
        Nat.lt_succ_self _⟩
      obtain ⟨_, val, rest, split⟩ := several
      rw [recorded, moved.content, shape.content, split, val]
      exact .get
  | cutNode =>
      obtain ⟨ptr, node, count, limbo, next, cell⟩ := sound
      have stepped : step (.pop m .cutNode) queue =
          some (queue, .goto (.pop m (.cutFree (some node)))) := by
        simp only [step, popStep, next, nptr_some cell, Option.map_some]
      exact shape.pop_reads stepped rfl rfl rfl rfl id id (Nat.lt_succ_self _)
        ⟨ptr, node, limbo, next, rfl⟩
  | cutFree nptr =>
      obtain ⟨ptr, node, limbo, next, rfl⟩ := sound
      have freeing : ∃ after, queue.free (some node) = some after ∧
          Shape after hist push (some (m, .cutDrop)) { layout with limbo := [ptr] } :=
        shape.pop_free rfl id limbo rfl (by intro impossible; cases impossible)
          (by intro _ _ now; cases now; exact id) (fun _ => ⟨ptr, rfl, next⟩)
      obtain ⟨after, freed, moved⟩ := freeing
      have stepped : step (.pop m (.cutFree (some node))) queue =
          some (after, .goto (.pop m .cutDrop)) := by
        simp only [step, popStep, freed, Option.map_some]
      exact pop_writes stepped moved rfl rfl (Nat.lt_succ_self _)
  | cutDrop =>
      obtain ⟨ptr, limbo, next⟩ := sound
      obtain ⟨after, freed, moved⟩ := shape.pop_drop rfl id limbo
      have stepped : step (.pop m .cutDrop) queue = some (after, .ret m.val) := by
        simp only [step, popStep, next, freed, Option.map_some]
      exact ⟨after, _, stepped, ⟨rfl, _, moved⟩, .answer rfl, Nat.succ_pos _⟩
  | _ => exact sound.elim

/-! ### Whole runs -/

omit [DecidableEq α] in
theorem Shape.push_enter (shape : Shape queue hist none pop layout) :
    Shape queue hist (some (l, .node)) pop layout :=
  { head_eq := shape.head_eq
    rooted := shape.rooted
    chain := shape.chain
    owns := shape.owns
    settled := shape.settled
    tail_eq := fun _ => shape.tail_eq (by intro _ _ impossible; cases impossible)
    order := shape.order
    apart := by intro _ _ _ _ now _ impossible; cases now; exact impossible.elim
    pushing := trivial
    popping := shape.popping }

omit [DecidableEq α] in
theorem Shape.pop_enter (shape : Shape queue hist push none layout) :
    Shape queue hist push (some (m, .head)) layout :=
  { head_eq := shape.head_eq
    rooted := shape.rooted
    chain := shape.chain
    owns := shape.owns
    settled := shape.settled
    tail_eq := fun calm _ => shape.tail_eq calm (by intro _ _ impossible; cases impossible)
    order := shape.order
    apart := by intro _ _ _ _ _ now _; cases now; exact id
    pushing := shape.pushing
    popping := trivial }

variable {state next : Pool ι (Queue α τ) (Pc α τ) Unit (Hist τ)} {act : Act ι (Pc α τ)}

def Held (state : Pool ι (Queue α τ) (Pc α τ) Unit (Hist τ)) : Prop :=
  ∃ push pop layout, Sole Pc.push? state.at push ∧ Sole Pc.pop? state.at pop ∧
    Shape state.mem state.hist push pop layout

theorem shape_start {queue : Queue α τ} {node nodeptr : α} (different : node ≠ nodeptr)
    (fresh : queue = q_initialize node nodeptr) :
    Shape queue Hist.start none none
      { root := nodeptr, dummy := node, stale := none, items := [], limbo := [] } := by
  subst fresh
  have empty : Owns (fun _ : α => (none : Option (Cell α τ))) [] := Owns.empty
  refine
    { head_eq := rfl
      rooted := Function.update_self nodeptr _ _
      chain := ?_
      owns := ?_
      settled := fun _ => rfl
      tail_eq := fun _ _ => rfl
      order := rfl
      apart := by intro _ _ _ _ impossible; cases impossible
      pushing := trivial
      popping := trivial }
  · intro _
    exact (Function.update_of_ne different _ _).trans (Function.update_self node _ _)
  · apply (empty.alloc rfl (.node none none)).alloc
    exact Function.update_of_ne (Ne.symm different) _ _

theorem held_start {node nodeptr : α} (different : node ≠ nodeptr) :
    Held (LockFreeQueue.start (ι := ι) (τ := τ) <| q_initialize node nodeptr) :=
  ⟨none, none, _, Sole.start, Sole.start, shape_start different rfl⟩

omit [DecidableEq α] in
theorem push_absent {at_ : Pc α τ → Prop} (sole : Sole Pc.push? state.at push)
    (nobody : Nobody state at_) {point : PushPoint α} (now : push = some (l, point)) :
    ¬ at_ (.push l point) := by
  obtain ⟨thread, pc, standing, same⟩ := sole.played (by rw [now]; exact Option.some_ne_none _)
  have found : pc = .push l point := by
    rw [now] at same
    cases pc with
    | push n place => cases same; rfl
    | pop n place => cases same
  rw [← found]
  exact nobody thread pc standing

omit [DecidableEq α] in
theorem pop_absent {at_ : Pc α τ → Prop} (sole : Sole Pc.pop? state.at pop)
    (nobody : Nobody state at_) {point : PopPoint α} (now : pop = some (m, point)) :
    ¬ at_ (.pop m point) := by
  obtain ⟨thread, pc, standing, same⟩ := sole.played (by rw [now]; exact Option.some_ne_none _)
  have found : pc = .pop m point := by
    rw [now] at same
    cases pc with
    | push n place => cases same
    | pop n place => cases same; rfl
  rw [← found]
  exact nobody thread pc standing

omit [DecidableEq α] in
theorem client_call {script left : Unit} {entry : Pc α τ}
    (called : client.call script entry = some left) :
    (∃ l, entry = .push l .node) ∨ ∃ m, entry = .pop m .head := by
  simp only [client] at called
  split at called
  · exact Or.inl ⟨_, rfl⟩
  · exact Or.inr ⟨_, rfl⟩
  · cases called

omit [DecidableEq α] in
/-- The guards on a step, in terms of the only push and the only pop. -/
theorem push_may (sole : Sole Pc.pop? state.at pop) {point : PushPoint α}
    (allowed : Allowed state (.push l point)) : PushMay state.mem pop l point := by
  cases point with
  | node => exact allowed
  | nodeptr => exact allowed
  | tail => exact fun n place now => pop_absent sole allowed now
  | _ => trivial

omit [DecidableEq α] in
theorem pop_may (sole : Sole Pc.push? state.at push) {point : PopPoint α}
    (allowed : Allowed state (.pop m point)) : PopMay state.mem push point := by
  cases point with
  | tail => exact fun n place now => push_absent sole allowed now
  | nextLinkNext nptr => exact fun last n place now => push_absent sole (allowed last) now
  | _ => trivial

theorem Held.steps (held : Held state) {thread : ι} {pc : Pc α τ}
    (at_ : state.at thread = some pc) (allowed : Allowed state pc) :
    ∃ after outcome, step pc state.mem = some (after, outcome) ∧
      Shows (listKind τ).acts Pc.status pc state.hist.content outcome
        (record thread pc state.mem state.hist).content ∧
      outcome.pc?.elim 0 Pc.left < pc.left := by
  obtain ⟨push, pop, layout, pushing, popping, shape⟩ := held
  cases pc with
  | push l point =>
      cases pushing.shown thread _ _ at_ rfl
      obtain ⟨after, outcome, stepped, _, shows, nearer⟩ :=
        (shape.push_step (push_may popping allowed) : Steps thread _ _ _ _)
      exact ⟨after, outcome, stepped, shows, nearer⟩
  | pop m point =>
      cases popping.shown thread _ _ at_ rfl
      obtain ⟨after, outcome, stepped, _, shows, nearer⟩ :=
        (shape.pop_step (pop_may pushing allowed) : Steps thread _ _ _ _)
      exact ⟨after, outcome, stepped, shows, nearer⟩

theorem held_next [DecidableEq ι] (held : Held state) (guarded : Guarded state act)
    (moved : program.next state act = some next) : Held next := by
  obtain ⟨push, pop, layout, pushing, popping, shape⟩ := held
  unfold Held Pool.at at *
  rcases Program.next_cases moved with
    ⟨thread, entry, script, left, rfl, idle, called, rfl⟩ |
    ⟨thread, script, left, rfl, idle, impossible, rfl⟩ |
    ⟨thread, pc, script, mem, outcome, rfl, busy, stepped, rfl⟩
  · rw [Machine.at_update]
    have absent : ∀ pc, (state.thread thread).pc? = some pc → ∀ claim : Prop, claim := by
      intro pc standing
      rw [idle] at standing
      cases standing
    rcases client_call called with ⟨l, rfl⟩ | ⟨m, rfl⟩
    · have nobody : ∀ other pc, (state.thread other).pc? = some pc → Pc.push? pc = none := by
        intro other pc standing
        exact Option.not_isSome_iff_eq_none.mp (guarded other pc standing)
      rw [pushing.none_of_nobody nobody] at shape
      exact ⟨_, pop, layout, Sole.enter nobody thread _,
        popping.outside (fun pc standing => absent pc standing _)
          (by intro pc same; cases same; rfl), shape.push_enter⟩
    · have nobody : ∀ other pc, (state.thread other).pc? = some pc → Pc.pop? pc = none := by
        intro other pc standing
        exact Option.not_isSome_iff_eq_none.mp (guarded other pc standing)
      rw [popping.none_of_nobody nobody] at shape
      exact ⟨push, _, layout, pushing.outside (fun pc standing => absent pc standing _)
        (by intro pc same; cases same; rfl), Sole.enter nobody thread _, shape.pop_enter⟩
  · cases impossible
  · have at_ : state.at thread = some pc := Pool.at_busy busy
    have allowed : Allowed state pc := guarded pc at_
    rw [Machine.at_update, Program.resume_pc]
    cases pc with
    | push l point =>
        cases pushing.shown thread _ _ at_ rfl
        obtain ⟨after, result, enabled, ⟨other, changed, kept⟩, _⟩ :=
          (shape.push_step (push_may popping allowed) : Steps thread _ _ _ _)
        cases enabled.symm.trans stepped
        refine ⟨_, pop, changed, pushing.move at_ (Option.some_ne_none _) _,
          popping.outside ?_ ?_, kept⟩
        · intro pc standing
          cases at_.symm.trans standing
          rfl
        · intro pc same
          rw [same] at other
          exact other
    | pop m point =>
        cases popping.shown thread _ _ at_ rfl
        obtain ⟨after, result, enabled, ⟨other, changed, kept⟩, _⟩ :=
          (shape.pop_step (pop_may pushing allowed) : Steps thread _ _ _ _)
        cases enabled.symm.trans stepped
        refine ⟨push, _, changed, pushing.outside ?_ ?_,
          popping.move at_ (Option.some_ne_none _) _, kept⟩
        · intro pc standing
          cases at_.symm.trans standing
          rfl
        · intro pc same
          rw [same] at other
          exact other

end Steps

end QueueBench.LockFreeQueue
