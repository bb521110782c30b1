import QueueBench.Lib.Heap
import QueueBench.Lib.Sole
import QueueBench.LockFreeQueue

/-! The list behind the lock-free queue. The pointer cell `queue->head` points to never changes;
it leads to a node without a value of its own, and from there a pointer cell and a node for each
value in the queue. -/

namespace QueueBench.LockFreeQueue
open Heap (Owns)
open Machine (Outcome Pool Program Act)

variable {α τ ι : Type*}

structure Item (α τ : Type*) where
  ptr : α
  node : α
  value : Option τ

def Item.blocks (item : Item α τ) : List α := [item.ptr, item.node]

def newest (node : α) (items : List (Item α τ)) : α := items.foldl (fun _ item => item.node) node

/-- The nodes behind a node, and the pointer cells between them. -/
def Chain (heap : α → Option (Cell α τ)) : α → Option τ → List (Item α τ) → Prop
  | node, value, [] => heap node = some (.node value none)
  | node, value, item :: rest =>
      heap node = some (.node value (some item.ptr)) ∧
        (∃ count, heap item.ptr = some (.pointer count (some item.node))) ∧
        Chain heap item.node item.value rest

/-- The first node, at `dummy`, holds the value of an earlier pop; `limbo` has the blocks that a
pop has taken out and not freed yet. -/
structure Layout (α τ : Type*) where
  root : α
  dummy : α
  stale : Option τ
  items : List (Item α τ)
  limbo : List α

namespace Layout

def blocks (layout : Layout α τ) (severed : Bool) : List α :=
  layout.root :: ((if severed then [] else [layout.dummy]) ++
    (layout.items.flatMap Item.blocks ++ layout.limbo))

def lastNode (layout : Layout α τ) : α := newest layout.dummy layout.items

def lastPtr (layout : Layout α τ) : α := layout.items.foldl (fun _ item => item.ptr) layout.root

def first (layout : Layout α τ) : Option α := layout.items.head?.map Item.ptr

end Layout

variable {heap other : α → Option (Cell α τ)} {node : α} {value : Option τ}
variable {items : List (Item α τ)} {layout : Layout α τ}

theorem Chain.node_eq (chain : Chain heap node value items) :
    heap node = some (.node value (items.head?.map Item.ptr)) := by
  cases items with
  | nil => exact chain
  | cons item rest => exact chain.1

theorem Chain.frame (chain : Chain heap node value items)
    (same : ∀ block ∈ node :: items.flatMap Item.blocks, other block = heap block) :
    Chain other node value items := by
  induction items generalizing node value with
  | nil => exact (same node List.mem_cons_self).trans chain
  | cons item rest ih =>
      obtain ⟨first, ⟨count, second⟩, behind⟩ := chain
      have inside : ∀ block ∈ item.ptr :: item.node :: rest.flatMap Item.blocks,
          other block = heap block := by
        intro block member
        exact same block (List.mem_cons_of_mem node member)
      refine ⟨(same node List.mem_cons_self).trans first,
        ⟨count, (inside item.ptr List.mem_cons_self).trans second⟩, ih behind ?_⟩
      intro block member
      exact inside block (List.mem_cons_of_mem item.ptr member)

theorem Chain.last (chain : Chain heap node value items) :
    ∃ kept, heap (newest node items) = some (.node kept none) := by
  induction items generalizing node value with
  | nil => exact ⟨value, chain⟩
  | cons item rest ih => exact ih chain.2.2

theorem newest_mem (node : α) (items : List (Item α τ)) :
    newest node items ∈ node :: items.flatMap Item.blocks := by
  induction items generalizing node with
  | nil => exact List.mem_cons_self
  | cons item rest ih => exact List.mem_cons_of_mem _ (List.mem_cons_of_mem _ (ih item.node))

theorem Chain.ptr_eq (chain : Chain heap node value items) {item : Item α τ}
    (member : item ∈ items) : ∃ count, heap item.ptr = some (.pointer count (some item.node)) := by
  induction items generalizing node value with
  | nil => cases member
  | cons head rest ih =>
      rcases List.mem_cons.mp member with rfl | behind
      · exact chain.2.1
      · exact ih chain.2.2 behind

section Update
variable [DecidableEq α]

theorem Chain.append (chain : Chain heap node value items) {new : Item α τ} {kept : Option τ}
    (nodup : (node :: items.flatMap Item.blocks).Nodup)
    (last : heap (newest node items) = some (.node kept none))
    (outside : ∀ block ∈ new.blocks, block ∉ node :: items.flatMap Item.blocks)
    (points : ∃ count, heap new.ptr = some (.pointer count (some new.node)))
    (ends : heap new.node = some (.node new.value none)) :
    Chain (Function.update heap (newest node items) (some (.node kept (some new.ptr)))) node value
      (items ++ [new]) := by
  induction items generalizing node value with
  | nil =>
      have same : value = kept := by
        change heap node = _ at last
        cases last.symm.trans chain
        rfl
      have apart : new.ptr ≠ node := by
        intro clash
        exact outside new.ptr List.mem_cons_self (clash ▸ List.mem_cons_self)
      have away : new.node ≠ node := by
        intro clash
        exact outside new.node (List.mem_cons_of_mem _ List.mem_cons_self)
          (clash ▸ List.mem_cons_self)
      obtain ⟨count, found⟩ := points
      subst same
      exact ⟨Function.update_self node _ heap,
        ⟨count, (Function.update_of_ne apart _ heap).trans found⟩,
        (Function.update_of_ne away _ heap).trans ends⟩
  | cons item rest ih =>
      obtain ⟨nodeFresh, nodupRest⟩ := List.nodup_cons.mp nodup
      obtain ⟨ptrFresh, nodupBehind⟩ := List.nodup_cons.mp nodupRest
      have behindIn := newest_mem item.node rest
      have nodeApart : node ≠ newest item.node rest := by
        intro clash
        exact nodeFresh (clash ▸ List.mem_cons_of_mem _ behindIn)
      have ptrApart : item.ptr ≠ newest item.node rest := by
        intro clash
        exact ptrFresh (clash ▸ behindIn)
      obtain ⟨link, ⟨count, ptr⟩, behind⟩ := chain
      refine ⟨(Function.update_of_ne nodeApart _ heap).trans link,
        ⟨count, (Function.update_of_ne ptrApart _ heap).trans ptr⟩, ?_⟩
      apply ih behind nodupBehind last
      intro block member inside
      exact outside block member (List.mem_cons_of_mem _ (List.mem_cons_of_mem _ inside))

end Update

/-! ### What the two sides know -/

def PushPoint.owned (l : Push α τ) : PushPoint α → List α
  | .node | .swing => []
  | .nodeptr => [l.node]
  | _ => [l.nodeptr, l.node]

def pushBlocks : Option (Push α τ × PushPoint α) → List α
  | none => []
  | some (l, point) => point.owned l

def Prepared (queue : Queue α τ) (l : Push α τ) : Prop :=
  queue.heap l.node = some (.node l.value none) ∧
    ∃ count, queue.heap l.nodeptr = some (.pointer count (some l.node))

/-- Nobody else links, so what the push has read of the end of the list stays true. -/
def PushSound (queue : Queue α τ) (layout : Layout α τ) (l : Push α τ) : PushPoint α → Prop
  | .node | .nodeptr | .fields => True
  | .head | .tail => Prepared queue l
  | .tailNptr => Prepared queue l ∧ l.tail = some layout.lastPtr
  | .tailNext nptr =>
      Prepared queue l ∧ l.tail = some layout.lastPtr ∧ nptr = some layout.lastNode
  | .compare | .count | .slot => Prepared queue l ∧ l.tail = some layout.lastPtr ∧ l.next = none
  | .link nptr =>
      Prepared queue l ∧ l.tail = some layout.lastPtr ∧ l.next = none ∧
        nptr = some layout.lastNode
  | .swing => queue.tail = l.tail ∧ layout.items ≠ [] ∧ layout.lastPtr = l.nodeptr
  | .helpCount | .helpNptr | .helpSwing _ => False

structure Started (layout : Layout α τ) (l : Pop α τ) : Prop where
  head : l.head = some layout.root
  tail : ∃ item ∈ layout.items, l.tail = some item.ptr

structure Front (layout : Layout α τ) (l : Pop α τ) (item : Item α τ) : Prop
    extends Started layout l where
  first : layout.items.head? = some item
  tmp : l.tmp = some item.ptr
  next : l.next = some item.ptr

/-- A pop that has freed the first node. -/
structure Severed (queue : Queue α τ) (layout : Layout α τ) (l : Pop α τ) (item : Item α τ) :
    Prop where
  only : layout.items = [item]
  next : l.next = some item.ptr
  val : l.val = item.value
  ptr : ∃ count, queue.heap item.ptr = some (.pointer count (some item.node))
  node : queue.heap item.node = some (.node item.value none)

/-- A pop that has taken the last item out and has still to free its pointer cell. -/
structure Emptied (layout : Layout α τ) (l : Pop α τ) : Prop where
  empty : layout.items = []
  limbo : ∃ ptr, layout.limbo = [ptr] ∧ l.next = some ptr

def Several (layout : Layout α τ) (l : Pop α τ) (item second : Item α τ) : Prop :=
  Front layout l item ∧ l.val = item.value ∧ ∃ rest, layout.items = item :: second :: rest

def PopSound (queue : Queue α τ) (layout : Layout α τ) (l : Pop α τ) : PopPoint α → Prop
  | .head => True
  | .tail => l.head = some layout.root
  | .gate | .tmpHead => Started layout l
  | .gateCount head | .tmpNptr head => Started layout l ∧ head = some layout.root
  | .tmpNext nptr => Started layout l ∧ nptr = some layout.dummy
  | .nextHead => Started layout l ∧ l.tmp = layout.first
  | .nextNptr head => Started layout l ∧ l.tmp = layout.first ∧ head = some layout.root
  | .nextNext nptr => Started layout l ∧ l.tmp = layout.first ∧ nptr = some layout.dummy
  | .headCount | .compare | .headNptr | .valNptr => ∃ item, Front layout l item
  | .tailNptr nptr => (∃ item, Front layout l item) ∧ nptr = some layout.dummy
  | .val nptr => ∃ item, Front layout l item ∧ nptr = some item.node
  | .nextLink => ∃ item, Front layout l item ∧ l.val = item.value
  | .nextLinkNext nptr => ∃ item, Front layout l item ∧ l.val = item.value ∧ nptr = some item.node
  | .lastHead => ∃ item, Front layout l item ∧ l.val = item.value ∧ layout.items = [item]
  | .lastNptr head =>
      ∃ item, Front layout l item ∧ l.val = item.value ∧ layout.items = [item] ∧
        head = some layout.root
  | .lastFree nptr =>
      ∃ item, Front layout l item ∧ l.val = item.value ∧ layout.items = [item] ∧
        nptr = some layout.dummy
  | .lastSlot => ∃ item, Severed queue layout l item
  | .lastSlotHead slot => ∃ item, Severed queue layout l item ∧ slot = some layout.root
  | .lastSlotOld slot head =>
      ∃ item, Severed queue layout l item ∧ slot = some layout.root ∧ head = some layout.root
  | .lastSlotNew slot old =>
      ∃ item, Severed queue layout l item ∧ slot = some layout.root ∧ old = some layout.dummy
  | .lastMove slot old new =>
      ∃ item, Severed queue layout l item ∧ slot = some layout.root ∧ old = some layout.dummy ∧
        new = some item.node
  | .lastTail => Emptied layout l
  | .lastTailNew old => Emptied layout l ∧ queue.tail = old
  | .lastSwing old new => Emptied layout l ∧ queue.tail = old ∧ new = some layout.root
  | .lastDrop | .cutDrop => ∃ ptr, layout.limbo = [ptr] ∧ l.next = some ptr
  | .cutCount | .cutHead => ∃ item second, Several layout l item second
  | .cutNptr head => ∃ item second, Several layout l item second ∧ head = some layout.root
  | .cutNext nptr => ∃ item second, Several layout l item second ∧ nptr = some layout.dummy
  | .cutNextNext nptr next =>
      ∃ item second, Several layout l item second ∧ nptr = some layout.dummy ∧
        next = some item.node
  | .cutLink nptr new =>
      ∃ item second, Several layout l item second ∧ nptr = some layout.dummy ∧
        new = some second.ptr
  | .cutNode =>
      ∃ ptr node count, layout.limbo = [node, ptr] ∧ l.next = some ptr ∧
        queue.heap ptr = some (.pointer count (some node))
  | .cutFree nptr =>
      ∃ ptr node, layout.limbo = [node, ptr] ∧ l.next = some ptr ∧ nptr = some node
  -- `queue->head->count` is never 0, and nobody has to help anybody
  | .resetHead | .resetCas _ | .resetNode | .resetTail | .resetTailAgain _ | .resetOld _ _
  | .resetCount _ _ | .resetSlot | .resetSlotAgain _ | .resetSlotOld _ _ | .resetNptr _ _
  | .resetQueue | .resetQueueTail _ | .resetQueueCas _ _ | .helpCount | .helpSwing => False

def PushKnows (queue : Queue α τ) (layout : Layout α τ) : Option (Push α τ × PushPoint α) → Prop
  | none => True
  | some (l, point) => PushSound queue layout l point

def PopKnows (queue : Queue α τ) (layout : Layout α τ) : Option (Pop α τ × PopPoint α) → Prop
  | none => True
  | some (l, point) => PopSound queue layout l point

/-- The first node is freed and not replaced yet. -/
def PopPoint.severs : PopPoint α → Bool
  | .lastSlot | .lastSlotHead _ | .lastSlotOld _ _ | .lastSlotNew _ _ | .lastMove _ _ _ => true
  | _ => false

def severed (pop : Option (Pop α τ × PopPoint α)) : Bool := pop.any (fun now => now.2.severs)

def PopPoint.taken : PopPoint α → Bool
  | .lastTail | .lastTailNew _ | .lastSwing _ _ | .lastDrop | .cutNode | .cutFree _
  | .cutDrop => true
  | _ => false

def taken (pop : Option (Pop α τ × PopPoint α)) : Bool := pop.any (fun now => now.2.taken)

/-- `queue->tail` still points to the pointer cell that has been taken out. -/
def PopPoint.Stale : PopPoint α → Prop
  | .lastTail | .lastTailNew _ | .lastSwing _ _ => True
  | _ => False

/-- The memory between the steps of at most one push and at most one pop. -/
structure Shape (queue : Queue α τ) (hist : Hist τ) (push : Option (Push α τ × PushPoint α))
    (pop : Option (Pop α τ × PopPoint α)) (layout : Layout α τ) : Prop where
  head_eq : queue.head = some layout.root
  rooted : queue.heap layout.root = some (.pointer 1 (some layout.dummy))
  chain : severed pop = false → Chain queue.heap layout.dummy layout.stale layout.items
  owns : Owns queue.heap (layout.blocks (severed pop) ++ pushBlocks push)
  settled : taken pop = false → layout.limbo = []
  tail_eq : (∀ l point, push = some (l, point) → ¬ point.Swinging) →
    (∀ l point, pop = some (l, point) → ¬ point.Stale) → queue.tail = some layout.lastPtr
  order : hist.puts = hist.takes ++ layout.items.map Item.value
  apart : ∀ l point m place, push = some (l, point) → pop = some (m, place) → point.Adding →
    ¬ place.Emptying
  pushing : PushKnows queue layout push
  popping : PopKnows queue layout pop

variable {queue after : Queue α τ} {hist later : Hist τ} {changed : Layout α τ}
variable {push : Option (Push α τ × PushPoint α)} {pop : Option (Pop α τ × PopPoint α)}

/-! ### What a call reads -/

theorem nptr_some {pointer : α} {count : ℤ} {nptr : Option α}
    (cell : queue.heap pointer = some (.pointer count nptr)) :
    queue.nptr (some pointer) = some nptr := by
  simp only [Queue.nptr, Option.bind_some, cell]

theorem count_some {pointer : α} {count : ℤ} {nptr : Option α}
    (cell : queue.heap pointer = some (.pointer count nptr)) :
    queue.count (some pointer) = some count := by
  simp only [Queue.count, Option.bind_some, cell]

theorem next_some {node : α} {value : Option τ} {next : Option α}
    (cell : queue.heap node = some (.node value next)) : queue.next (some node) = some next := by
  simp only [Queue.next, Option.bind_some, cell]

theorem value_some {node : α} {value : Option τ} {next : Option α}
    (cell : queue.heap node = some (.node value next)) :
    queue.value (some node) = some value := by
  simp only [Queue.value, Option.bind_some, cell]

theorem Shape.nptr_root (shape : Shape queue hist push pop layout) :
    queue.nptr (some layout.root) = some (some layout.dummy) := nptr_some shape.rooted

theorem Chain.last_ptr {root : α} {count : ℤ}
    (rooted : heap root = some (.pointer count (some node)))
    (chain : Chain heap node value items) :
    ∃ count, heap (items.foldl (fun _ item => item.ptr) root) =
      some (.pointer count (some (newest node items))) := by
  induction items generalizing root count node value with
  | nil => exact ⟨count, rooted⟩
  | cons item rest ih =>
      obtain ⟨_, ⟨next, found⟩, behind⟩ := chain
      exact ih found behind

theorem Shape.nptr_last (shape : Shape queue hist push pop layout) (whole : severed pop = false) :
    queue.nptr (some layout.lastPtr) = some (some layout.lastNode) := by
  obtain ⟨count, found⟩ := (shape.chain whole).last_ptr shape.rooted
  exact nptr_some found

theorem Shape.next_last (shape : Shape queue hist push pop layout) (whole : severed pop = false) :
    queue.next (some layout.lastNode) = some none := by
  obtain ⟨kept, found⟩ := (shape.chain whole).last
  exact next_some found

/-- While a push is adding its item the list is whole. -/
theorem Shape.whole (shape : Shape queue hist push pop layout) {l : Push α τ}
    {point : PushPoint α} (pushing : push = some (l, point)) (adding : point.Adding) :
    severed pop = false := by
  cases pop with
  | none => rfl
  | some now =>
      obtain ⟨m, place⟩ := now
      have calm := shape.apart l point m place pushing rfl adding
      cases place with
      | lastSlot => exact absurd trivial calm
      | lastSlotHead slot => exact absurd trivial calm
      | lastSlotOld slot head => exact absurd trivial calm
      | lastSlotNew slot old => exact absurd trivial calm
      | lastMove slot old new => exact absurd trivial calm
      | _ => rfl

/-! ### Who notices a write -/

theorem root_mem (gone : Bool) : layout.root ∈ layout.blocks gone := List.mem_cons_self

theorem mem_blocks {block : α} (gone : Bool)
    (member : block ∈ layout.items.flatMap Item.blocks ++ layout.limbo) :
    block ∈ layout.blocks gone :=
  List.mem_cons_of_mem _ (List.mem_append_right _ member)

theorem chain_mem {block : α}
    (member : block ∈ layout.dummy :: layout.items.flatMap Item.blocks) :
    block ∈ layout.blocks false := by
  apply List.mem_cons_of_mem
  rcases List.mem_cons.mp member with rfl | behind
  · exact List.mem_append_left _ List.mem_cons_self
  · exact List.mem_append_right _ (List.mem_append_left _ behind)

theorem Item.ptr_mem {item : Item α τ} (member : item ∈ items) :
    item.ptr ∈ items.flatMap Item.blocks :=
  List.mem_flatMap.mpr ⟨item, member, List.mem_cons_self⟩

theorem Item.node_mem {item : Item α τ} (member : item ∈ items) :
    item.node ∈ items.flatMap Item.blocks :=
  List.mem_flatMap.mpr ⟨item, member, List.mem_cons_of_mem _ List.mem_cons_self⟩

theorem Severed.frame {l : Pop α τ} {item : Item α τ} (sound : Severed queue layout l item)
    (same : ∀ block ∈ layout.items.flatMap Item.blocks ++ layout.limbo,
      after.heap block = queue.heap block) : Severed after layout l item := by
  have member : item ∈ layout.items := sound.only ▸ List.mem_singleton_self item
  obtain ⟨count, ptr⟩ := sound.ptr
  exact
    { sound with
      ptr := ⟨count, (same _ (List.mem_append_left _ (Item.ptr_mem member))).trans ptr⟩
      node := (same _ (List.mem_append_left _ (Item.node_mem member))).trans sound.node }

theorem PopSound.frame {l : Pop α τ} {point : PopPoint α} (sound : PopSound queue layout l point)
    (tail : point.Stale → after.tail = queue.tail)
    (same : ∀ block ∈ layout.items.flatMap Item.blocks ++ layout.limbo,
      after.heap block = queue.heap block) : PopSound after layout l point := by
  cases point with
  | lastSlot =>
      obtain ⟨item, gone⟩ := sound
      exact ⟨item, gone.frame same⟩
  | lastSlotHead slot =>
      obtain ⟨item, gone, reads⟩ := sound
      exact ⟨item, gone.frame same, reads⟩
  | lastSlotOld slot head =>
      obtain ⟨item, gone, reads⟩ := sound
      exact ⟨item, gone.frame same, reads⟩
  | lastSlotNew slot old =>
      obtain ⟨item, gone, reads⟩ := sound
      exact ⟨item, gone.frame same, reads⟩
  | lastMove slot old new =>
      obtain ⟨item, gone, reads⟩ := sound
      exact ⟨item, gone.frame same, reads⟩
  | lastTailNew old => exact ⟨sound.1, (tail trivial).trans sound.2⟩
  | lastSwing old new => exact ⟨sound.1, (tail trivial).trans sound.2.1, sound.2.2⟩
  | cutNode =>
      obtain ⟨ptr, node, count, limbo, next, cell⟩ := sound
      have member : ptr ∈ layout.limbo := by
        rw [limbo]
        exact List.mem_cons_of_mem _ List.mem_cons_self
      exact ⟨ptr, node, count, limbo, next, (same ptr (List.mem_append_right _ member)).trans cell⟩
  | _ => exact sound

theorem PushSound.frame {l : Push α τ} {point : PushPoint α}
    (sound : PushSound queue layout l point)
    (same : ∀ block ∈ point.owned l, after.heap block = queue.heap block)
    (ends : point.Adding → changed.lastPtr = layout.lastPtr ∧ changed.lastNode = layout.lastNode ∧
      after.tail = queue.tail ∧ (layout.items ≠ [] → changed.items ≠ [])) :
    PushSound after changed l point := by
  have prepared : point.owned l = [l.nodeptr, l.node] → Prepared queue l → Prepared after l := by
    rintro owned ⟨node, count, ptr⟩
    rw [owned] at same
    exact ⟨(same l.node (List.mem_cons_of_mem _ List.mem_cons_self)).trans node,
      count, (same l.nodeptr List.mem_cons_self).trans ptr⟩
  cases point with
  | node => trivial
  | nodeptr => trivial
  | fields => trivial
  | head => exact prepared rfl sound
  | tail => exact prepared rfl sound
  | tailNptr =>
      rw [PushSound, (ends trivial).1]
      exact ⟨prepared rfl sound.1, sound.2⟩
  | tailNext nptr =>
      rw [PushSound, (ends trivial).1, (ends trivial).2.1]
      exact ⟨prepared rfl sound.1, sound.2⟩
  | compare =>
      rw [PushSound, (ends trivial).1]
      exact ⟨prepared rfl sound.1, sound.2⟩
  | count =>
      rw [PushSound, (ends trivial).1]
      exact ⟨prepared rfl sound.1, sound.2⟩
  | slot =>
      rw [PushSound, (ends trivial).1]
      exact ⟨prepared rfl sound.1, sound.2⟩
  | link nptr =>
      rw [PushSound, (ends trivial).1, (ends trivial).2.1]
      exact ⟨prepared rfl sound.1, sound.2⟩
  | swing =>
      obtain ⟨lastPtr, _, tail, kept⟩ := ends trivial
      exact ⟨tail.trans sound.1, kept sound.2.1, lastPtr.trans sound.2.2⟩
  | helpCount => exact sound.elim
  | helpNptr => exact sound.elim
  | helpSwing nptr => exact sound.elim

/-! ### The steps of a push -/

theorem Shape.push_apart {l m : Push α τ} {point target : PushPoint α}
    (shape : Shape queue hist (some (l, point)) pop layout) (head : after.head = queue.head)
    (tail : after.tail = queue.tail)
    (same : ∀ block ∈ layout.blocks (severed pop), after.heap block = queue.heap block)
    (owns : Owns after.heap (layout.blocks (severed pop) ++ target.owned m))
    (calm : ¬ point.Swinging)
    (adds : target.Adding → ∀ n place, pop = some (n, place) → ¬ place.Emptying)
    (sound : PushSound after layout m target) :
    Shape after hist (some (m, target)) pop layout := by
  refine
    { head_eq := head.trans shape.head_eq
      rooted := (same layout.root (root_mem _)).trans shape.rooted
      chain := ?_
      owns := owns
      settled := shape.settled
      tail_eq := ?_
      order := shape.order
      apart := ?_
      pushing := sound
      popping := ?_ }
  · intro whole
    apply (shape.chain whole).frame
    intro block member
    rw [whole] at same
    exact same block (chain_mem member)
  · intro _ fresh
    rw [tail]
    apply shape.tail_eq _ fresh
    intro _ _ now
    cases now
    exact calm
  · intro _ _ n place now popping adding
    cases now
    exact adds adding n place popping
  · cases pop with
    | none => trivial
    | some now =>
        have sound : PopSound queue layout now.1 now.2 := shape.popping
        exact sound.frame (fun _ => tail) (fun block member => same block (mem_blocks _ member))

theorem Shape.push_walk {l m : Push α τ} {point target : PushPoint α}
    (shape : Shape queue hist (some (l, point)) pop layout)
    (owned : target.owned m = point.owned l) (calm : ¬ point.Swinging)
    (adds : target.Adding → ∀ n place, pop = some (n, place) → ¬ place.Emptying)
    (sound : PushSound queue layout m target) :
    Shape queue hist (some (m, target)) pop layout := by
  apply shape.push_apart rfl rfl (fun _ _ => rfl) _ calm adds sound
  rw [owned]
  exact shape.owns

theorem Shape.push_outside {l : Push α τ} {point : PushPoint α}
    (shape : Shape queue hist (some (l, point)) pop layout) {block : α}
    (mine : block ∈ point.owned l) : block ∉ layout.blocks (severed pop) := by
  intro member
  exact (List.disjoint_of_nodup_append shape.owns.nodup) member mine

/-! ### The link and the swing of a push -/

def Layout.append (layout : Layout α τ) (item : Item α τ) : Layout α τ :=
  { layout with items := layout.items ++ [item] }

theorem Started.append {l : Pop α τ} (started : Started layout l) (new : Item α τ) :
    Started (layout.append new) l := by
  obtain ⟨item, member, tail⟩ := started.tail
  exact
    { head := started.head
      tail := ⟨item, List.mem_append_left _ member, tail⟩ }

theorem Front.append {l : Pop α τ} {item : Item α τ} (front : Front layout l item)
    (new : Item α τ) : Front (layout.append new) l item := by
  refine
    { front.toStarted.append new with
      first := ?_
      tmp := front.tmp
      next := front.next }
  change (layout.items ++ [new]).head? = some item
  rw [List.head?_append, front.first]
  rfl

theorem Several.append {l : Pop α τ} {item second : Item α τ}
    (several : Several layout l item second) (new : Item α τ) :
    Several (layout.append new) l item second := by
  obtain ⟨front, val, rest, split⟩ := several
  refine ⟨front.append new, val, rest ++ [new], ?_⟩
  change layout.items ++ [new] = _
  rw [split]
  rfl

theorem Started.first_append {l : Pop α τ} (started : Started layout l) (new : Item α τ) :
    (layout.append new).first = layout.first := by
  obtain ⟨item, member, _⟩ := started.tail
  change (layout.items ++ [new]).head?.map Item.ptr = layout.items.head?.map Item.ptr
  cases split : layout.items with
  | nil =>
      rw [split] at member
      cases member
  | cons head rest => rfl

/-- A pop that is not at the last item does not notice a new one. -/
theorem PopSound.append {l : Pop α τ} {point : PopPoint α}
    (sound : PopSound queue layout l point) (calm : ¬ point.Emptying) (new : Item α τ)
    (same : ∀ block ∈ layout.limbo, after.heap block = queue.heap block) :
    PopSound after (layout.append new) l point := by
  cases point with
  | head => trivial
  | tail => exact sound
  | gate => exact Started.append sound new
  | tmpHead => exact Started.append sound new
  | gateCount head => exact ⟨sound.1.append new, sound.2⟩
  | tmpNptr head => exact ⟨sound.1.append new, sound.2⟩
  | tmpNext nptr => exact ⟨sound.1.append new, sound.2⟩
  | nextHead => exact ⟨sound.1.append new, sound.2.trans (sound.1.first_append new).symm⟩
  | nextNptr head =>
      exact ⟨sound.1.append new, sound.2.1.trans (sound.1.first_append new).symm, sound.2.2⟩
  | nextNext nptr =>
      exact ⟨sound.1.append new, sound.2.1.trans (sound.1.first_append new).symm, sound.2.2⟩
  | headCount =>
      obtain ⟨item, front⟩ := sound
      exact ⟨item, front.append new⟩
  | compare =>
      obtain ⟨item, front⟩ := sound
      exact ⟨item, front.append new⟩
  | headNptr =>
      obtain ⟨item, front⟩ := sound
      exact ⟨item, front.append new⟩
  | valNptr =>
      obtain ⟨item, front⟩ := sound
      exact ⟨item, front.append new⟩
  | tailNptr nptr =>
      obtain ⟨⟨item, front⟩, reads⟩ := sound
      exact ⟨⟨item, front.append new⟩, reads⟩
  | val nptr =>
      obtain ⟨item, front, reads⟩ := sound
      exact ⟨item, front.append new, reads⟩
  | nextLink =>
      obtain ⟨item, front, reads⟩ := sound
      exact ⟨item, front.append new, reads⟩
  | nextLinkNext nptr =>
      obtain ⟨item, front, reads⟩ := sound
      exact ⟨item, front.append new, reads⟩
  | cutCount =>
      obtain ⟨item, second, several⟩ := sound
      exact ⟨item, second, several.append new⟩
  | cutHead =>
      obtain ⟨item, second, several⟩ := sound
      exact ⟨item, second, several.append new⟩
  | cutNptr head =>
      obtain ⟨item, second, several, reads⟩ := sound
      exact ⟨item, second, several.append new, reads⟩
  | cutNext nptr =>
      obtain ⟨item, second, several, reads⟩ := sound
      exact ⟨item, second, several.append new, reads⟩
  | cutNextNext nptr next =>
      obtain ⟨item, second, several, reads⟩ := sound
      exact ⟨item, second, several.append new, reads⟩
  | cutLink nptr next =>
      obtain ⟨item, second, several, reads⟩ := sound
      exact ⟨item, second, several.append new, reads⟩
  | cutNode =>
      obtain ⟨ptr, node, count, limbo, next, cell⟩ := sound
      have member : ptr ∈ layout.limbo := by
        rw [limbo]
        exact List.mem_cons_of_mem _ List.mem_cons_self
      exact ⟨ptr, node, count, limbo, next, (same ptr member).trans cell⟩
  | cutFree nptr => exact sound
  | cutDrop => exact sound
  | lastDrop => exact sound
  | lastHead => exact absurd trivial calm
  | lastNptr head => exact absurd trivial calm
  | lastFree nptr => exact absurd trivial calm
  | lastSlot => exact absurd trivial calm
  | lastSlotHead slot => exact absurd trivial calm
  | lastSlotOld slot head => exact absurd trivial calm
  | lastSlotNew slot old => exact absurd trivial calm
  | lastMove slot old new => exact absurd trivial calm
  | lastTail => exact absurd trivial calm
  | lastTailNew old => exact absurd trivial calm
  | lastSwing old new => exact absurd trivial calm
  | _ => exact sound.elim

theorem Shape.nodup (shape : Shape queue hist push pop layout) (whole : severed pop = false) :
    (layout.root :: layout.dummy :: (layout.items.flatMap Item.blocks ++ layout.limbo)).Nodup := by
  have nodup := (List.nodup_append.mp shape.owns.nodup).1
  rw [whole] at nodup
  exact nodup

/-- No pop has left `queue->tail` behind while a push is adding its item. -/
theorem Shape.fresh {l : Push α τ} {point : PushPoint α}
    (shape : Shape queue hist (some (l, point)) pop layout) (adding : point.Adding) :
    ∀ m place, pop = some (m, place) → ¬ place.Emptying := by
  intro m place popping
  exact shape.apart l point m place rfl popping adding

theorem PopPoint.Stale.emptying {point : PopPoint α} (stale : point.Stale) : point.Emptying := by
  cases point with
  | lastTail => trivial
  | lastTailNew old => trivial
  | lastSwing old new => trivial
  | _ => exact stale.elim

theorem Layout.append_blocks (layout : Layout α τ) (item : Item α τ) (gone : Bool) :
    ((layout.append item).blocks gone).Perm (layout.blocks gone ++ item.blocks) := by
  have grown : (layout.append item).items.flatMap Item.blocks =
      layout.items.flatMap Item.blocks ++ item.blocks := by
    rw [Layout.append, List.flatMap_append, List.flatMap_singleton]
  have moved : ((layout.items.flatMap Item.blocks ++ item.blocks) ++ layout.limbo).Perm
      ((layout.items.flatMap Item.blocks ++ layout.limbo) ++ item.blocks) := by
    rw [List.append_assoc, List.append_assoc]
    exact List.perm_append_comm.append_left _
  have whole := (moved.append_left (if gone then [] else [layout.dummy])).cons layout.root
  rw [← List.append_assoc _ _ item.blocks] at whole
  rw [Layout.blocks, grown]
  exact whole

section Link
variable [DecidableEq α]

/-! ### What a call writes -/

theorem malloc_none {block : α} (free : queue.heap block = none) :
    queue.malloc block = some (queue.write block .raw) := by
  simp only [Queue.malloc, free]

theorem store_some {block : α} {cell : Cell α τ} (live : queue.heap block = some cell)
    (new : Cell α τ) : queue.store block new = some (queue.write block new) := by
  simp only [Queue.store, live]

theorem free_some {block : α} {cell : Cell α τ} (live : queue.heap block = some cell) :
    queue.free (some block) =
      some { queue with heap := Function.update queue.heap block none } := by
  simp only [Queue.free, live]

theorem addCount_some {pointer : α} {count : ℤ} {nptr : Option α}
    (cell : queue.heap pointer = some (.pointer count nptr)) :
    queue.addCount (some pointer) =
      some (queue.write pointer (.pointer (RingArith.addAndFetch count) nptr)) := by
  simp only [Queue.addCount, cell]

theorem casNptr_some {pointer : α} {count : ℤ} {nptr : Option α}
    (cell : queue.heap pointer = some (.pointer count nptr)) (new : Option α) :
    queue.casNptr (some pointer) nptr new = some (queue.write pointer (.pointer count new), true) := by
  simp only [Queue.casNptr, cell, if_true]

theorem casNext_some {node : α} {value : Option τ} {next : Option α}
    (cell : queue.heap node = some (.node value next)) (new : Option α) :
    queue.casNext (some node) next new = some (queue.write node (.node value new), true) := by
  simp only [Queue.casNext, cell, if_true]

/-- The first CAS of a push succeeds and puts its item behind the others. -/
theorem Shape.push_link {l : Push α τ} {nptr : Option α}
    (shape : Shape queue hist (some (l, .link nptr)) pop layout) :
    queue.next nptr = some l.next ∧ ∃ after,
      queue.casNext nptr l.next (some l.nodeptr) = some (after, true) ∧
      Shape after { hist with puts := hist.puts ++ [l.value] } (some (l, .swing)) pop
        (layout.append ⟨l.nodeptr, l.node, l.value⟩) := by
  obtain ⟨⟨node, ptr⟩, tail, empty, last⟩ := shape.pushing
  have whole := shape.whole rfl trivial
  have chain := shape.chain whole
  obtain ⟨kept, found⟩ := chain.last
  have lastIn : layout.lastNode ∈ layout.dummy :: layout.items.flatMap Item.blocks :=
    newest_mem layout.dummy layout.items
  have nodup := shape.nodup whole
  obtain ⟨rootFresh, nodupRest⟩ := List.nodup_cons.mp nodup
  rw [← List.cons_append] at nodupRest rootFresh
  have outside : ∀ block ∈ Item.blocks ⟨l.nodeptr, l.node, l.value⟩,
      block ∉ layout.dummy :: layout.items.flatMap Item.blocks := by
    intro block mine member
    apply shape.push_outside mine
    rw [whole]
    exact chain_mem member
  have apart : ∀ block ∈ layout.limbo, block ≠ layout.lastNode := by
    intro block member same
    exact List.disjoint_of_nodup_append nodupRest (same ▸ lastIn) member
  rw [last, empty]
  refine ⟨next_some found, queue.write layout.lastNode (.node kept (some l.nodeptr)), ?_, ?_⟩
  · exact casNext_some found (some l.nodeptr)
  refine
    { head_eq := shape.head_eq
      rooted := ?_
      chain := ?_
      owns := ?_
      settled := shape.settled
      tail_eq := ?_
      order := ?_
      apart := ?_
      pushing := ?_
      popping := ?_ }
  · have different : layout.root ≠ layout.lastNode := by
      intro same
      exact rootFresh (List.mem_append_left _ (same ▸ lastIn))
    exact (Function.update_of_ne different _ queue.heap).trans shape.rooted
  · intro _
    exact chain.append (List.nodup_append.mp nodupRest).1 found outside ptr node
  · have wrote := shape.owns.write (List.mem_append_left _ (by rw [whole]; exact chain_mem lastIn))
      (.node kept (some l.nodeptr))
    apply wrote.perm
    change List.Perm _ (_ ++ [])
    rw [List.append_nil]
    exact (layout.append_blocks ⟨l.nodeptr, l.node, l.value⟩ _).symm
  · intro settled _
    exact absurd trivial (settled l .swing rfl)
  · change hist.puts ++ [l.value] = hist.takes ++ (layout.items ++ [_]).map Item.value
    rw [shape.order, List.map_append, List.append_assoc]
    rfl
  · intro _ _ m place now popping _
    cases now
    exact shape.fresh trivial m place popping
  · refine ⟨?_, ?_, ?_⟩
    · change queue.tail = l.tail
      rw [tail]
      apply shape.tail_eq
      · intro _ _ now
        cases now
        exact id
      · intro m place popping stale
        exact shape.fresh trivial m place popping stale.emptying
    · exact List.append_ne_nil_of_right_ne_nil _ (List.cons_ne_nil _ _)
    · exact List.foldl_append
  · cases pop with
    | none => trivial
    | some now =>
        have sound : PopSound queue layout now.1 now.2 := shape.popping
        apply sound.append (shape.fresh trivial now.1 now.2 rfl)
        intro block member
        exact Function.update_of_ne (apart block member) _ queue.heap

theorem Shape.push_swing {l : Push α τ} (shape : Shape queue hist (some (l, .swing)) pop layout) :
    queue.casTail l.tail (some l.nodeptr) = ({ queue with tail := some l.nodeptr }, true) ∧
      Shape { queue with tail := some l.nodeptr } hist none pop layout := by
  obtain ⟨tail, _, last⟩ := shape.pushing
  refine ⟨if_pos tail, ?_⟩
  refine
    { head_eq := shape.head_eq
      rooted := shape.rooted
      chain := shape.chain
      owns := shape.owns
      settled := shape.settled
      tail_eq := fun _ _ => congrArg some last.symm
      order := shape.order
      apart := by intro _ _ _ _ impossible; cases impossible
      pushing := trivial
      popping := ?_ }
  cases pop with
  | none => trivial
  | some now =>
      have sound : PopSound queue layout now.1 now.2 := shape.popping
      refine PopSound.frame sound ?_ (fun _ _ => rfl)
      intro stale
      exact absurd stale.emptying (shape.fresh trivial now.1 now.2 rfl)

/-! ### The steps of a pop -/

omit [DecidableEq α] in
theorem Shape.pushing_frame (shape : Shape queue hist push pop layout)
    (same : ∀ block ∈ pushBlocks push, after.heap block = queue.heap block)
    (ends : ∀ l point, push = some (l, point) → point.Adding →
      changed.lastPtr = layout.lastPtr ∧ changed.lastNode = layout.lastNode ∧
        after.tail = queue.tail ∧ (layout.items ≠ [] → changed.items ≠ [])) :
    PushKnows after changed push := by
  cases push with
  | none => trivial
  | some now =>
      have sound : PushSound queue layout now.1 now.2 := shape.pushing
      exact PushSound.frame sound same (ends now.1 now.2 rfl)

theorem Shape.push_same (shape : Shape queue hist push pop layout) {block : α}
    (member : block ∈ layout.blocks (severed pop)) (cell : Option (Cell α τ)) :
    ∀ other ∈ pushBlocks push, Function.update queue.heap block cell other = queue.heap other := by
  intro other mine
  apply Function.update_of_ne
  rintro rfl
  exact List.disjoint_of_nodup_append shape.owns.nodup member mine

omit [DecidableEq α] in
theorem Shape.pop_walk {l m : Pop α τ} {point target : PopPoint α}
    (shape : Shape queue hist push (some (l, point)) layout)
    (severs : target.severs = point.severs) (takes : target.taken = point.taken)
    (stale : point.Stale → target.Stale)
    (empties : target.Emptying → ∀ n place, push = some (n, place) → ¬ place.Adding)
    (sound : PopSound queue layout m target) :
    Shape queue hist push (some (m, target)) layout := by
  have gone : severed (some (m, target)) = severed (some (l, point)) := severs
  have stays : taken (some (m, target)) = taken (some (l, point)) := takes
  refine
    { head_eq := shape.head_eq
      rooted := shape.rooted
      chain := by rw [gone]; exact shape.chain
      owns := by rw [gone]; exact shape.owns
      settled := by rw [stays]; exact shape.settled
      tail_eq := ?_
      order := shape.order
      apart := ?_
      pushing := shape.pushing
      popping := sound }
  · intro settled fresh
    apply shape.tail_eq settled
    intro _ _ now before
    cases now
    exact fresh m target rfl (stale before)
  · intro n place _ _ pushing now adding emptying
    cases now
    exact empties emptying n place pushing adding

omit [DecidableEq α] in
/-- While a pop is at the last item no push is adding one. -/
theorem Shape.nobody_adds {l : Pop α τ} {point : PopPoint α}
    (shape : Shape queue hist push (some (l, point)) layout) (emptying : point.Emptying) :
    ∀ n place, push = some (n, place) → ¬ place.Adding := by
  intro n place pushing adding
  exact shape.apart n place l point pushing rfl adding emptying

omit [DecidableEq α] in
theorem Shape.pop_leave {l : Pop α τ} {point : PopPoint α}
    (shape : Shape queue hist push (some (l, point)) layout) (whole : point.severs = false)
    (nothing : point.taken = false) (fresh : ¬ point.Stale) :
    Shape queue hist push none layout := by
  have gone : severed (some (l, point)) = false := whole
  have same : severed (some (l, point)) = severed (none : Option (Pop α τ × PopPoint α)) := gone
  have untaken : taken (some (l, point)) = false := nothing
  refine
    { head_eq := shape.head_eq
      rooted := shape.rooted
      chain := fun _ => shape.chain gone
      owns := by rw [← same]; exact shape.owns
      settled := fun _ => shape.settled untaken
      tail_eq := ?_
      order := shape.order
      apart := by intro _ _ _ _ _ impossible; cases impossible
      pushing := shape.pushing
      popping := trivial }
  intro settled _
  apply shape.tail_eq settled
  intro _ _ now
  cases now
  exact fresh

/-- The first of several items is marked: `__sync_fetch_and_add(&(_next->count), 1)`. -/
theorem Shape.pop_count {l : Pop α τ} {item second : Item α τ}
    (shape : Shape queue hist push (some (l, .cutCount)) layout)
    (several : Several layout l item second) :
    ∃ after, queue.addCount l.next = some after ∧
      Shape after hist push (some (l, .cutHead)) layout := by
  obtain ⟨front, val, rest, split⟩ := several
  obtain ⟨link, ⟨count, ptr⟩, behind⟩ := split ▸ shape.chain rfl
  have nodup := shape.nodup rfl
  rw [split] at nodup
  obtain ⟨rootFresh, nodupRest⟩ := List.nodup_cons.mp nodup
  obtain ⟨dummyFresh, nodupItems⟩ := List.nodup_cons.mp nodupRest
  obtain ⟨ptrFresh, _⟩ := List.nodup_cons.mp nodupItems
  have member : item.ptr ∈ layout.items.flatMap Item.blocks := by
    rw [split]
    exact List.mem_cons_self
  have inside : item.ptr ∈ layout.blocks false := chain_mem (List.mem_cons_of_mem _ member)
  refine ⟨queue.write item.ptr (.pointer (RingArith.addAndFetch count) (some item.node)), ?_, ?_⟩
  · rw [front.next]
    exact addCount_some ptr
  refine
    { head_eq := shape.head_eq
      rooted := ?_
      chain := ?_
      owns := shape.owns.write (List.mem_append_left _ inside) _
      settled := shape.settled
      tail_eq := ?_
      order := shape.order
      apart := ?_
      pushing := ?_
      popping := ⟨item, second, front, val, rest, split⟩ }
  · have different : layout.root ≠ item.ptr := by
      intro same
      exact rootFresh (List.mem_cons_of_mem _ (same ▸ List.mem_cons_self))
    exact (Function.update_of_ne different _ queue.heap).trans shape.rooted
  · intro _
    rw [split]
    have different : layout.dummy ≠ item.ptr := by
      intro same
      exact dummyFresh (same ▸ List.mem_cons_self)
    refine ⟨(Function.update_of_ne different _ queue.heap).trans link,
      ⟨_, Function.update_self item.ptr _ queue.heap⟩, behind.frame ?_⟩
    intro block blockIn
    apply Function.update_of_ne
    rintro rfl
    exact ptrFresh (List.mem_append_left _ blockIn)
  · intro settled fresh
    exact shape.tail_eq settled (by intro _ _ now; cases now; exact id)
  · intro _ _ _ _ _ now
    cases now
    exact fun _ => id
  · exact shape.pushing_frame (shape.push_same inside _)
      (fun _ _ _ _ => ⟨rfl, rfl, rfl, id⟩)

theorem Shape.pop_cut {l : Pop α τ} {item second : Item α τ}
    (shape : Shape queue hist push (some (l, .cutLink (some layout.dummy) (some second.ptr))) layout)
    (several : Several layout l item second) :
    queue.next (some layout.dummy) = some l.tmp ∧ ∃ after,
      queue.casNext (some layout.dummy) l.tmp (some second.ptr) = some (after, true) ∧
      Shape after { hist with takes := hist.takes ++ [l.val] } push (some (l, .cutNode))
        { layout with items := layout.items.tail, limbo := [item.node, item.ptr] } := by
  obtain ⟨front, val, rest, split⟩ := several
  obtain ⟨link, ⟨count, ptr⟩, behind⟩ := split ▸ shape.chain rfl
  have nodup := shape.nodup rfl
  have settled : layout.limbo = [] := shape.settled rfl
  rw [split] at nodup
  obtain ⟨rootFresh, nodupRest⟩ := List.nodup_cons.mp nodup
  obtain ⟨dummyFresh, nodupItems⟩ := List.nodup_cons.mp nodupRest
  obtain ⟨ptrFresh, nodupNode⟩ := List.nodup_cons.mp nodupItems
  have inside : layout.dummy ∈ layout.blocks false := chain_mem List.mem_cons_self
  have next : queue.next (some layout.dummy) = some l.tmp := by
    rw [front.tmp]
    exact next_some link
  refine ⟨next, queue.write layout.dummy (.node layout.stale (some second.ptr)), ?_, ?_⟩
  · rw [front.tmp]
    exact casNext_some link (some second.ptr)
  refine
    { head_eq := shape.head_eq
      rooted := ?_
      chain := ?_
      owns := ?_
      settled := by intro impossible; cases impossible
      tail_eq := ?_
      order := ?_
      apart := ?_
      pushing := ?_
      popping := ?_ }
  · have different : layout.root ≠ layout.dummy := by
      intro same
      exact rootFresh (same ▸ List.mem_cons_self)
    exact (Function.update_of_ne different _ queue.heap).trans shape.rooted
  · intro _
    rw [split]
    obtain ⟨_, secondPtr, last⟩ := behind
    have away : ∀ block ∈ second.ptr :: second.node :: rest.flatMap Item.blocks,
        block ≠ layout.dummy := by
      rintro block member rfl
      exact dummyFresh (List.mem_append_left _
        (List.mem_cons_of_mem _ (List.mem_cons_of_mem _ member)))
    obtain ⟨secondCount, secondCell⟩ := secondPtr
    refine ⟨Function.update_self layout.dummy _ queue.heap, ⟨secondCount, ?_⟩, last.frame ?_⟩
    · exact (Function.update_of_ne (away _ List.mem_cons_self) _ queue.heap).trans secondCell
    · intro block member
      exact Function.update_of_ne (away block (List.mem_cons_of_mem _ member)) _ queue.heap
  · apply (shape.owns.write (List.mem_append_left _ inside) _).perm
    apply List.Perm.append_right
    rw [Layout.blocks, Layout.blocks, split, settled, List.append_nil]
    apply List.Perm.cons
    apply List.Perm.append_left
    have swapped : ([item.ptr, item.node] : List α).Perm [item.node, item.ptr] :=
      List.Perm.swap item.node item.ptr []
    exact List.perm_append_comm.trans (swapped.append_left _)
  · intro calm fresh
    have before := shape.tail_eq calm (by intro _ _ now; cases now; exact id)
    rw [Layout.lastPtr, split] at before
    change queue.tail = some (layout.items.tail.foldl _ _)
    rw [split]
    exact before
  · change hist.puts = hist.takes ++ [l.val] ++ layout.items.tail.map Item.value
    rw [shape.order, split, val, List.append_assoc]
    rfl
  · intro _ _ _ _ _ now
    cases now
    exact fun _ => id
  · apply shape.pushing_frame (shape.push_same inside _)
    intro _ _ _ _
    refine ⟨?_, ?_, rfl, ?_⟩
    · change layout.items.tail.foldl _ _ = layout.items.foldl _ _
      rw [split]
      rfl
    · change layout.items.tail.foldl _ _ = layout.items.foldl _ _
      rw [split]
      rfl
    · intro _
      change layout.items.tail ≠ []
      rw [split]
      exact List.cons_ne_nil second rest
  · have different : item.ptr ≠ layout.dummy := by
      intro same
      exact dummyFresh (same ▸ List.mem_cons_self)
    exact ⟨item.ptr, item.node, count, rfl, front.next,
      (Function.update_of_ne different _ queue.heap).trans ptr⟩

theorem Shape.pop_free {l : Pop α τ} {point : PopPoint α} {block : α} {others : List α}
    {target : Option (Pop α τ × PopPoint α)}
    (shape : Shape queue hist push (some (l, point)) layout) (whole : point.severs = false)
    (calm : ¬ point.Stale) (limbo : layout.limbo = block :: others)
    (untouched : severed target = false) (settled : taken target = false → others = [])
    (fresh : ∀ m place, target = some (m, place) → ¬ place.Emptying)
    (sound : ∀ after : Queue α τ, PopKnows after { layout with limbo := others } target) :
    ∃ after, queue.free (some block) = some after ∧
      Shape after hist push target { layout with limbo := others } := by
  have gone : severed (some (l, point)) = false := whole
  have member : block ∈ layout.limbo := by
    rw [limbo]
    exact List.mem_cons_self
  have inside : block ∈ layout.blocks (severed (some (l, point))) :=
    mem_blocks _ (List.mem_append_right _ member)
  obtain ⟨cell, live⟩ := shape.owns.live (List.mem_append_left _ inside)
  have nodup := shape.nodup gone
  rw [← List.cons_append] at nodup
  obtain ⟨rootFresh, nodupRest⟩ := List.nodup_cons.mp nodup
  refine ⟨_, free_some live, ?_⟩
  refine
    { head_eq := shape.head_eq
      rooted := ?_
      chain := ?_
      owns := ?_
      settled := settled
      tail_eq := ?_
      order := shape.order
      apart := ?_
      pushing := shape.pushing_frame (shape.push_same inside none)
        (fun _ _ _ _ => ⟨rfl, rfl, rfl, id⟩)
      popping := sound _ }
  · have different : layout.root ≠ block := by
      intro same
      exact rootFresh (List.mem_append_right _ (same ▸ member))
    exact (Function.update_of_ne different _ queue.heap).trans shape.rooted
  · intro _
    apply (shape.chain gone).frame
    intro other otherIn
    apply Function.update_of_ne
    rintro rfl
    exact List.disjoint_of_nodup_append nodupRest otherIn member
  · have front : (layout.blocks (severed (some (l, point))) ++ pushBlocks push).Perm
        (block :: (Layout.blocks { layout with limbo := others } (severed target) ++
          pushBlocks push)) := by
      rw [gone, untouched, ← List.cons_append]
      apply List.Perm.append_right
      have middle : ((layout.root :: layout.dummy :: layout.items.flatMap Item.blocks) ++
          block :: others).Perm (block :: ((layout.root :: layout.dummy ::
            layout.items.flatMap Item.blocks) ++ others)) := List.perm_middle
      rw [Layout.blocks, Layout.blocks, limbo]
      simpa using middle
    exact (shape.owns.perm front).free
  · intro push_calm _
    apply shape.tail_eq push_calm
    intro _ _ now
    cases now
    exact calm
  · intro n place m other _ now _
    exact fresh m other now

/-- The node in front of the only item is freed. -/
theorem Shape.pop_sever {l : Pop α τ} {item : Item α τ}
    (shape : Shape queue hist push (some (l, .lastFree (some layout.dummy))) layout)
    (front : Front layout l item) (val : l.val = item.value) (only : layout.items = [item]) :
    ∃ after, queue.free (some layout.dummy) = some after ∧
      Shape after hist push (some (l, .lastSlot)) layout := by
  obtain ⟨link, ⟨count, ptr⟩, node⟩ := only ▸ shape.chain rfl
  have nodup := shape.nodup rfl
  have settled : layout.limbo = [] := shape.settled rfl
  obtain ⟨rootFresh, nodupRest⟩ := List.nodup_cons.mp nodup
  obtain ⟨dummyFresh, _⟩ := List.nodup_cons.mp nodupRest
  have inside : layout.dummy ∈ layout.blocks false := chain_mem List.mem_cons_self
  have member : item ∈ layout.items := only ▸ List.mem_singleton_self item
  have away : ∀ block ∈ layout.items.flatMap Item.blocks, block ≠ layout.dummy := by
    rintro block blockIn rfl
    exact dummyFresh (List.mem_append_left _ blockIn)
  refine ⟨_, free_some link, ?_⟩
  refine
    { head_eq := shape.head_eq
      rooted := ?_
      chain := by intro impossible; cases impossible
      owns := ?_
      settled := fun _ => settled
      tail_eq := ?_
      order := shape.order
      apart := ?_
      pushing := shape.pushing_frame (shape.push_same inside none)
        (fun _ _ _ _ => ⟨rfl, rfl, rfl, id⟩)
      popping := ?_ }
  · have different : layout.root ≠ layout.dummy := by
      intro same
      exact rootFresh (same ▸ List.mem_cons_self)
    exact (Function.update_of_ne different _ queue.heap).trans shape.rooted
  · have front : (layout.blocks false ++ pushBlocks push).Perm
        (layout.dummy :: (layout.blocks true ++ pushBlocks push)) := by
      rw [← List.cons_append]
      apply List.Perm.append_right
      exact List.Perm.swap layout.dummy layout.root _
    exact (shape.owns.perm front).free
  · intro calm _
    exact shape.tail_eq calm (by intro _ _ now; cases now; exact id)
  · intro n place _ _ pushing now adding _
    cases now
    exact shape.nobody_adds trivial n place pushing adding
  · exact ⟨item,
      { only := only
        next := front.next
        val := val
        ptr := ⟨count, (Function.update_of_ne (away _ (Item.ptr_mem member)) _ queue.heap).trans ptr⟩
        node := (Function.update_of_ne (away _ (Item.node_mem member)) _ queue.heap).trans node }⟩

/-- The only item is taken out: its node becomes the first node. -/
theorem Shape.pop_move {l : Pop α τ} {item : Item α τ} {slot old new : Option α}
    (shape : Shape queue hist push (some (l, .lastMove slot old new)) layout)
    (gone : Severed queue layout l item) (slotEq : slot = some layout.root)
    (oldEq : old = some layout.dummy) (newEq : new = some item.node) :
    queue.nptr slot = some old ∧ ∃ after, queue.casNptr slot old new = some (after, true) ∧
      Shape after { hist with takes := hist.takes ++ [l.val] } push (some (l, .lastTail))
        { layout with
          dummy := item.node
          stale := item.value
          items := []
          limbo := [item.ptr] } := by
  subst slotEq oldEq newEq
  have settled : layout.limbo = [] := shape.settled rfl
  have inside : layout.root ∈ layout.blocks true := root_mem true
  have blocks : layout.blocks true = [layout.root, item.ptr, item.node] := by
    rw [Layout.blocks, gone.only, settled]
    rfl
  have nodup := (List.nodup_append.mp shape.owns.nodup).1
  change (layout.blocks true).Nodup at nodup
  rw [blocks] at nodup
  obtain ⟨rootFresh, _⟩ := List.nodup_cons.mp nodup
  refine ⟨shape.nptr_root, queue.write layout.root (.pointer 1 (some item.node)),
    casNptr_some shape.rooted _, ?_⟩
  refine
    { head_eq := shape.head_eq
      rooted := Function.update_self layout.root _ queue.heap
      chain := ?_
      owns := ?_
      settled := by intro impossible; cases impossible
      tail_eq := ?_
      order := ?_
      apart := ?_
      pushing := ?_
      popping := ?_ }
  · intro _
    have different : item.node ≠ layout.root := by
      intro same
      exact rootFresh (same ▸ List.mem_cons_of_mem _ List.mem_cons_self)
    exact (Function.update_of_ne different _ queue.heap).trans gone.node
  · have wrote := shape.owns.write (List.mem_append_left _ inside) (.pointer 1 (some item.node))
    apply wrote.perm
    apply List.Perm.append_right
    change (layout.blocks true).Perm _
    rw [blocks]
    exact (List.Perm.swap item.node item.ptr []).cons layout.root
  · intro _ fresh
    exact absurd trivial (fresh l .lastTail rfl)
  · change hist.puts = hist.takes ++ [l.val] ++ []
    rw [shape.order, gone.only, gone.val, List.append_nil]
    rfl
  · intro n place _ _ pushing now adding _
    cases now
    exact shape.nobody_adds trivial n place pushing adding
  · apply shape.pushing_frame (shape.push_same inside _)
    intro n place pushing adding
    exact absurd adding (shape.nobody_adds trivial n place pushing)
  · exact
      { empty := rfl
        limbo := ⟨item.ptr, rfl, gone.next⟩ }

theorem Shape.pop_restore {l : Pop α τ} {old new : Option α}
    (shape : Shape queue hist push (some (l, .lastSwing old new)) layout) :
    queue.casTail old new = ({ queue with tail := some layout.root }, true) ∧
      Shape { queue with tail := some layout.root } hist push (some (l, .lastDrop)) layout := by
  obtain ⟨emptied, tail, rfl⟩ := shape.popping
  refine ⟨if_pos tail, ?_⟩
  refine
    { head_eq := shape.head_eq
      rooted := shape.rooted
      chain := shape.chain
      owns := shape.owns
      settled := shape.settled
      tail_eq := ?_
      order := shape.order
      apart := ?_
      pushing := ?_
      popping := emptied.limbo }
  · intro _ _
    rw [Layout.lastPtr, emptied.empty]
    rfl
  · intro _ _ _ _ _ now
    cases now
    exact fun _ => id
  · refine shape.pushing_frame (fun _ _ => rfl) ?_
    intro n place pushing adding
    exact absurd adding (shape.nobody_adds trivial n place pushing)

end Link

end QueueBench.LockFreeQueue
