import QueueBench.Lib.LinkedList
import QueueBench.Lib.Mutex
import QueueBench.SemiBlockingQueue

/-! The heap shape behind the semi-blocking queue. The queue is one list spread
over `out_queue` (oldest first), the list under reversal and `in_queue` (newest
first); every step keeps the spread-out list and hence the order. -/

namespace QueueBench.SemiBlockingQueue
open LinkedList (Links links_nil links_cons)
open Machine (Outcome Pool Program Client Act Thread)
open Transition (Run Meets meets_append run_of_play)

variable {α ι : Type*}

/-- Where the nodes are: pushed on `in_queue`, linked from `out_queue`, still to be
reversed, or popped by a get that has not returned. -/
structure Layout (α : Type*) where
  fresh : List α
  old : List α
  loc : List α
  pending : List α

def Layout.empty : Layout α :=
  { fresh := []
    old := []
    loc := []
    pending := [] }

def Layout.content (layout : Layout α) : List α :=
  layout.loc.reverse ++ layout.old ++ layout.fresh.reverse

def Sound (root : QueueRoot α) (layout : Layout α) : Pc α → Prop
  | .putRead new => new ∉ layout.content
  | .putWrite new _ => new ∉ layout.content
  | .putCas new in_queue => new ∉ layout.content ∧ root.next new = in_queue
  | .getLock => True
  | .getOut => layout.loc = [] ∧ layout.pending = []
  | .getIn => layout.loc = [] ∧ layout.pending = [] ∧ layout.old = []
  | .getCas _ => layout.loc = [] ∧ layout.pending = [] ∧ layout.old = []
  | .revNext head => layout.pending = [] ∧ Links root.next (some head) layout.loc
  | .revLink head next =>
      layout.pending = [] ∧ ∃ rest, layout.loc = head :: rest ∧ Links root.next next rest
  | .revOut head next =>
      layout.pending = [] ∧ root.next head = root.out_queue ∧
        ∃ rest, layout.loc = head :: rest ∧ Links root.next next rest
  | .getHead => layout.loc = [] ∧ layout.pending = []
  | .getPop head => layout.loc = [] ∧ layout.pending = [] ∧ root.out_queue = some head
  | .getUnlock head => layout.loc = [] ∧ layout.pending = head.toList

def offers (place : ι → Option (Pc α)) (thread : ι) : Option α :=
  (place thread).bind Pc.offered

structure Inv (root : QueueRoot α) (hist : Hist ι α) (place : ι → Option (Pc α))
    (layout : Layout α) : Prop where
  in_links : Links root.next root.in_queue layout.fresh
  out_links : Links root.next root.out_queue layout.old
  order : hist.puts = hist.takes ++ layout.content
  nodup : layout.content.Nodup
  handed : hist.takes = hist.returned ++ layout.pending
  mutex : Mutex Pc.Locked root.lock place
  rest : root.lock = false → layout.loc = [] ∧ layout.pending = []
  standing : ∀ thread pc, place thread = some pc → Sound root layout pc
  offered : ∀ left right node, offers place left = some node → offers place right = some node →
    left = right

variable {root after : QueueRoot α} {hist : Hist ι α} {place : ι → Option (Pc α)}
variable {layout : Layout α}

theorem Inv.start (next : α → Option α) :
    Inv (ALLOC_QUEUE_ROOT next) (Hist.start : Hist ι α) (fun _ => none) Layout.empty :=
  { in_links := links_nil next
    out_links := links_nil next
    order := rfl
    nodup := List.nodup_nil
    handed := rfl
    mutex := Mutex.start
    rest := fun _ => ⟨rfl, rfl⟩
    standing := by intro thread pc impossible; cases impossible
    offered := by intro left right node impossible; cases impossible }

theorem mem_content {node : α} :
    node ∈ layout.content ↔ node ∈ layout.loc ∨ node ∈ layout.old ∨ node ∈ layout.fresh := by
  simp only [Layout.content, List.mem_append, List.mem_reverse, or_assoc]

/-- A thread outside the lock keeps its knowledge when the queue gains no nodes and
no node outside it is written. -/
theorem Sound.keep {pc : Pc α} {changed : Layout α} (sound : Sound root layout pc)
    (outside : ¬ pc.Locked) (fewer : ∀ node ∈ changed.content, node ∈ layout.content)
    (same : ∀ node, node ∉ layout.content → after.next node = root.next node) :
    Sound after changed pc := by
  cases pc with
  | putRead new => exact fun member => sound (fewer new member)
  | putWrite new in_queue => exact fun member => sound (fewer new member)
  | putCas new in_queue =>
      exact ⟨fun member => sound.1 (fewer new member), (same new sound.1).trans sound.2⟩
  | getLock => trivial
  | _ => exact absurd trivial outside

theorem Sound.push {pc : Pc α} {new : α} (sound : Sound root layout pc)
    (different : pc.offered ≠ some new) :
    Sound { root with in_queue := some new } { layout with fresh := new :: layout.fresh } pc := by
  have grows : ∀ node, node ≠ new → node ∉ layout.content →
      node ∉ Layout.content { layout with fresh := new :: layout.fresh } := by
    intro node apart outside member
    rw [mem_content] at outside member
    rcases member with inLoc | inOld | inFresh
    · exact outside (Or.inl inLoc)
    · exact outside (Or.inr (Or.inl inOld))
    · rcases List.mem_cons.mp inFresh with same | earlier
      · exact apart same
      · exact outside (Or.inr (Or.inr earlier))
  have apart : ∀ node, pc.offered = some node → node ≠ new := by
    intro node offering same
    exact different (same ▸ offering)
  cases pc with
  | putRead node => exact grows node (apart node rfl) sound
  | putWrite node in_queue => exact grows node (apart node rfl) sound
  | putCas node in_queue => exact ⟨grows node (apart node rfl) sound.1, sound.2⟩
  | _ => exact sound

theorem offers_eq {thread : ι} {pc : Pc α}
    (at_ : place thread = some pc) : offers place thread = pc.offered := by
  rw [offers, at_]
  rfl

theorem standing_outside {thread : ι} {pc : Pc α} (at_ : place thread = some pc)
    (outside : ¬ pc.Locked) : ∀ other, place thread = some other → ¬ other.Locked := by
  intro other same
  rw [at_] at same
  cases same
  exact outside

theorem Inv.apart (inv : Inv root hist place layout) {thread other : ι} {pc standing : Pc α}
    {new : α} (at_ : place thread = some pc) (mine : pc.offered = some new)
    (different : other ≠ thread) (otherAt : place other = some standing) :
    standing.offered ≠ some new := by
  intro offering
  apply different
  apply inv.offered other thread new
  · rw [offers_eq otherAt]
    exact offering
  · rw [offers_eq at_]
    exact mine

private theorem Inv.not_free (inv : Inv root hist place layout) {thread : ι} {pc : Pc α}
    (at_ : place thread = some pc) (locked : pc.Locked) {claim : Prop} :
    root.lock = false → claim := by
  intro unlocked
  rw [inv.mutex.held at_ locked] at unlocked
  cases unlocked

section Steps

variable [DecidableEq ι]

private theorem offers_update (thread : ι) (target : Option (Pc α)) :
    offers (Function.update place thread target) =
      Function.update (offers place) thread (target.bind Pc.offered) := by
  funext other
  unfold offers
  by_cases same : other = thread
  · subst other
    rw [Function.update_self, Function.update_self]
  · rw [Function.update_of_ne same, Function.update_of_ne same]

private theorem offered_update {thread : ι} {target : Option (Pc α)}
    (unique : ∀ left right node, offers place left = some node →
      offers place right = some node → left = right)
    (kept : ∀ node, target.bind Pc.offered = some node → offers place thread = some node) :
    ∀ left right node, offers (Function.update place thread target) left = some node →
      offers (Function.update place thread target) right = some node → left = right := by
  have back : ∀ other node, offers (Function.update place thread target) other = some node →
      offers place other = some node := by
    intro other node offering
    rw [offers_update] at offering
    by_cases same : other = thread
    · rw [same, Function.update_self] at offering
      rw [same]
      exact kept node offering
    · rwa [Function.update_of_ne same] at offering
  intro left right node leftOffer rightOffer
  exact unique left right node (back left node leftOffer) (back right node rightOffer)

private theorem sound_update {thread : ι} {target : Option (Pc α)} {changed : Layout α}
    (others : ∀ other pc, other ≠ thread → place other = some pc → Sound after changed pc)
    (mine : ∀ pc, target = some pc → Sound after changed pc) :
    ∀ other pc, Function.update place thread target other = some pc →
      Sound after changed pc := by
  intro other pc at_
  by_cases same : other = thread
  · subst other
    rw [Function.update_self] at at_
    exact mine pc at_
  · rw [Function.update_of_ne same] at at_
    exact others other pc same at_

theorem Inv.local_step (inv : Inv root hist place layout) {thread : ι} {pc target : Pc α}
    (at_ : place thread = some pc) (lock : target.Locked ↔ pc.Locked)
    (offer : target.offered = pc.offered) (sound : Sound root layout target) :
    Inv root hist (Function.update place thread (some target)) layout := by
  refine
    { inv with
      mutex := ?_
      standing := ?_
      offered := ?_ }
  · by_cases locked : pc.Locked
    · exact inv.mutex.stay at_ locked (lock.mpr locked)
    · apply inv.mutex.outside thread (standing_outside at_ locked)
      intro other same
      cases same
      rw [lock]
      exact locked
  · apply sound_update
    · intro other standing _ otherAt
      exact inv.standing other standing otherAt
    · intro other same
      cases same
      exact sound
  · apply offered_update inv.offered
    intro node offering
    rw [offers_eq at_, ← offer]
    exact offering

/-- The successful CAS of a put. The node's `next` still points to the head it was
compared with, whatever happened to that head in between. -/
theorem Inv.put_cas (inv : Inv root hist place layout) {thread : ι} {new : α}
    {in_queue : Option α} (at_ : place thread = some (.putCas new in_queue))
    (same : root.in_queue = in_queue) :
    Inv { root with in_queue := some new } { hist with puts := hist.puts ++ [new] }
      (Function.update place thread none) { layout with fresh := new :: layout.fresh } := by
  obtain ⟨outside, linked⟩ := inv.standing thread _ at_
  have grown : Layout.content { layout with fresh := new :: layout.fresh } =
      layout.content ++ [new] := by
    simp only [Layout.content, List.reverse_cons, List.append_assoc]
  refine
    { inv with
      in_links := ?_
      order := ?_
      nodup := ?_
      mutex := ?_
      standing := ?_
      offered := ?_ }
  · rw [links_cons]
    refine ⟨rfl, ?_⟩
    change Links root.next (root.next new) layout.fresh
    rw [linked, ← same]
    exact inv.in_links
  · change hist.puts ++ [new] = hist.takes ++ _
    rw [grown, inv.order, List.append_assoc]
  · rw [grown]
    exact List.Nodup.append inv.nodup (List.nodup_singleton new)
      (List.disjoint_singleton.mpr outside)
  · apply inv.mutex.outside thread (standing_outside at_ id)
    intro pc impossible
    cases impossible
  · apply sound_update
    · intro other pc different otherAt
      exact (inv.standing other pc otherAt).push (inv.apart at_ rfl different otherAt)
    · intro pc impossible
      cases impossible
  · apply offered_update inv.offered
    intro node impossible
    cases impossible

theorem Inv.lock (inv : Inv root hist place layout) {thread : ι} (unlocked : root.lock = false) :
    Inv { root with lock := true } hist (Function.update place thread (some .getOut)) layout := by
  have free := inv.mutex
  rw [unlocked] at free
  refine
    { inv with
      mutex := free.acquire thread trivial
      rest := ?_
      standing := ?_
      offered := ?_ }
  · intro impossible
    cases impossible
  · apply sound_update
    · intro other pc _ otherAt
      exact (inv.standing other pc otherAt).keep (free.free rfl other pc otherAt)
        (fun _ member => member) (fun _ _ => rfl)
    · intro pc same
      cases same
      exact inv.rest unlocked
  · apply offered_update inv.offered
    intro node impossible
    cases impossible

/-- A step of the thread that holds the lock: the other threads only see that the
queue gains no nodes and that no node outside it is written. -/
theorem Inv.locked_step (inv : Inv root hist place layout) {thread : ι} {pc : Pc α}
    (at_ : place thread = some pc) (locked : pc.Locked) {target : Option (Pc α)}
    {changed : Layout α} {later : Hist ι α}
    (in_links : Links after.next after.in_queue changed.fresh)
    (out_links : Links after.next after.out_queue changed.old)
    (order : later.puts = later.takes ++ changed.content)
    (nodup : changed.content.Nodup)
    (handed : later.takes = later.returned ++ changed.pending)
    (mutex : Mutex Pc.Locked after.lock (Function.update place thread target))
    (rest : after.lock = false → changed.loc = [] ∧ changed.pending = [])
    (fewer : ∀ node ∈ changed.content, node ∈ layout.content)
    (same : ∀ node, node ∉ layout.content → after.next node = root.next node)
    (sound : ∀ next, target = some next → Sound after changed next ∧ next.offered = none) :
    Inv after later (Function.update place thread target) changed := by
  refine
    { in_links := in_links
      out_links := out_links
      order := order
      nodup := nodup
      handed := handed
      mutex := mutex
      rest := rest
      standing := ?_
      offered := ?_ }
  · apply sound_update
    · intro other standing different otherAt
      exact (inv.standing other standing otherAt).keep
        (inv.mutex.other_outside at_ locked different otherAt) fewer same
    · intro next reached
      exact (sound next reached).1
  · apply offered_update inv.offered
    intro node offering
    cases target with
    | none => cases offering
    | some next =>
        have nothing := (sound next rfl).2
        change next.offered = some node at offering
        rw [nothing] at offering
        cases offering

theorem Inv.get_cas (inv : Inv root hist place layout) {thread : ι} {head : α}
    (at_ : place thread = some (.getCas head)) (same : root.in_queue = some head) :
    Inv { root with in_queue := none } hist
      (Function.update place thread (some (.revNext head)))
      { layout with fresh := [], loc := layout.fresh } := by
  obtain ⟨noLoc, noPending, noOld⟩ := inv.standing thread _ at_
  have moved : Layout.content { layout with fresh := [], loc := layout.fresh } =
      layout.content := by
    simp only [Layout.content, noLoc, noOld, List.append_nil, List.reverse_nil, List.nil_append]
  have whole := inv.in_links
  rw [same] at whole
  apply inv.locked_step at_ trivial
  · exact links_nil root.next
  · exact inv.out_links
  · rw [moved]
    exact inv.order
  · rw [moved]
    exact inv.nodup
  · exact inv.handed
  · exact inv.mutex.stay at_ trivial trivial
  · exact inv.not_free at_ trivial
  · intro node member
    rw [moved] at member
    exact member
  · intro node _
    rfl
  · intro next reached
    cases reached
    exact ⟨⟨noPending, whole⟩, rfl⟩

theorem Inv.rev_out (inv : Inv root hist place layout) {thread : ι} {head : α}
    {next : Option α} {target : Pc α} (at_ : place thread = some (.revOut head next))
    (onward : target = match next with
      | none => .getHead
      | some following => .revNext following) :
    Inv { root with out_queue := some head } hist (Function.update place thread (some target))
      { layout with old := head :: layout.old, loc := layout.loc.tail } := by
  obtain ⟨noPending, linked, rest, split, links⟩ := inv.standing thread _ at_
  have moved : Layout.content { layout with old := head :: layout.old, loc := layout.loc.tail } =
      layout.content := by
    simp only [Layout.content, split, List.tail_cons, List.reverse_cons, List.append_assoc,
      List.cons_append, List.nil_append]
  apply inv.locked_step at_ trivial
  · exact inv.in_links
  · rw [links_cons]
    refine ⟨rfl, ?_⟩
    change Links root.next (root.next head) layout.old
    rw [linked]
    exact inv.out_links
  · rw [moved]
    exact inv.order
  · rw [moved]
    exact inv.nodup
  · exact inv.handed
  · have locked : target.Locked := by
      rw [onward]
      cases next with
      | none => trivial
      | some following => trivial
    exact inv.mutex.stay at_ trivial locked
  · exact inv.not_free at_ trivial
  · intro node member
    rw [moved] at member
    exact member
  · intro node _
    rfl
  · intro reached same
    cases same
    cases next with
    | none =>
        rw [onward]
        refine ⟨⟨?_, noPending⟩, rfl⟩
        change layout.loc.tail = []
        rw [split, List.tail_cons]
        exact links.null
    | some following =>
        rw [onward]
        refine ⟨⟨noPending, ?_⟩, rfl⟩
        change Links root.next (some following) layout.loc.tail
        rw [split, List.tail_cons]
        exact links

theorem Inv.get_pop (inv : Inv root hist place layout) {thread : ι} {head : α}
    (at_ : place thread = some (.getPop head)) :
    Inv { root with out_queue := root.next head } { hist with takes := hist.takes ++ [head] }
      (Function.update place thread (some (.getUnlock (some head))))
      { layout with old := layout.old.tail, pending := [head] } := by
  obtain ⟨noLoc, noPending, first⟩ := inv.standing thread _ at_
  have listed := inv.out_links
  rw [first] at listed
  obtain ⟨rest, split, links⟩ := listed.uncons
  have popped : layout.content =
      head :: Layout.content { layout with old := layout.old.tail, pending := [head] } := by
    simp only [Layout.content, noLoc, split, List.tail_cons, List.reverse_nil, List.nil_append,
      List.cons_append]
  have nodup := inv.nodup
  rw [popped] at nodup
  apply inv.locked_step at_ trivial
  · exact inv.in_links
  · change Links root.next (root.next head) layout.old.tail
    rw [split, List.tail_cons]
    exact links
  · change hist.puts = hist.takes ++ [head] ++ _
    rw [inv.order, popped, List.append_assoc, List.singleton_append]
  · exact (List.nodup_cons.mp nodup).2
  · change hist.takes ++ [head] = hist.returned ++ [head]
    rw [inv.handed, noPending, List.append_nil]
  · exact inv.mutex.stay at_ trivial trivial
  · exact inv.not_free at_ trivial
  · intro node member
    rw [popped]
    exact List.mem_cons_of_mem head member
  · intro node _
    rfl
  · intro next reached
    cases reached
    exact ⟨⟨noLoc, rfl⟩, rfl⟩

theorem Inv.unlock (inv : Inv root hist place layout) {thread : ι} {head : Option α}
    (at_ : place thread = some (.getUnlock head)) :
    Inv { root with lock := false } { hist with rets := hist.rets ++ [(thread, head)] }
      (Function.update place thread none) { layout with pending := [] } := by
  obtain ⟨noLoc, popped⟩ := inv.standing thread _ at_
  apply inv.locked_step at_ trivial
  · exact inv.in_links
  · exact inv.out_links
  · exact inv.order
  · exact inv.nodup
  · change hist.takes = (hist.rets ++ [(thread, head)]).filterMap Prod.snd ++ []
    rw [List.filterMap_append, List.append_nil, inv.handed, popped]
    cases head <;> rfl
  · apply inv.mutex.release at_ trivial
    intro pc impossible
    cases impossible
  · intro _
    exact ⟨noLoc, rfl⟩
  · exact fun _ member => member
  · intro node _
    rfl
  · intro next impossible
    cases impossible

variable [DecidableEq α]

theorem Sound.write {pc : Pc α} {new : α} (sound : Sound root layout pc)
    (outside : new ∉ layout.content) (different : pc.offered ≠ some new) (target : Option α) :
    Sound { root with next := Function.update root.next new target } layout pc := by
  have noLoc : new ∉ layout.loc := fun member => outside (mem_content.mpr (Or.inl member))
  cases pc with
  | putCas node in_queue =>
      have apart : node ≠ new := fun same => different (by rw [same]; rfl)
      refine ⟨sound.1, ?_⟩
      change Function.update root.next new target node = in_queue
      rw [Function.update_of_ne apart]
      exact sound.2
  | revNext head => exact ⟨sound.1, sound.2.frame target noLoc⟩
  | revLink head next =>
      obtain ⟨none_pending, rest, split, links⟩ := sound
      rw [split] at noLoc
      exact ⟨none_pending, rest, split,
        links.frame target (fun member => noLoc (List.mem_cons_of_mem head member))⟩
  | revOut head next =>
      obtain ⟨none_pending, linked, rest, split, links⟩ := sound
      rw [split] at noLoc
      have apart : head ≠ new := fun same => noLoc (same ▸ List.mem_cons_self)
      refine ⟨none_pending, ?_, rest, split,
        links.frame target (fun member => noLoc (List.mem_cons_of_mem head member))⟩
      change Function.update root.next new target head = root.out_queue
      rw [Function.update_of_ne apart]
      exact linked
  | _ => exact sound

theorem Inv.put_write (inv : Inv root hist place layout) {thread : ι} {new : α}
    {in_queue : Option α} (at_ : place thread = some (.putWrite new in_queue)) :
    Inv { root with next := Function.update root.next new in_queue } hist
      (Function.update place thread (some (.putCas new in_queue))) layout := by
  have outside : new ∉ layout.content := inv.standing thread _ at_
  have noOld : new ∉ layout.old := fun member =>
    outside (mem_content.mpr (Or.inr (Or.inl member)))
  have noFresh : new ∉ layout.fresh := fun member =>
    outside (mem_content.mpr (Or.inr (Or.inr member)))
  refine
    { inv with
      in_links := inv.in_links.frame in_queue noFresh
      out_links := inv.out_links.frame in_queue noOld
      mutex := ?_
      standing := ?_
      offered := ?_ }
  · apply inv.mutex.outside thread (standing_outside at_ id)
    intro pc same
    cases same
    exact id
  · apply sound_update
    · intro other pc different otherAt
      exact (inv.standing other pc otherAt).write outside
        (inv.apart at_ rfl different otherAt) in_queue
    · intro pc same
      cases same
      exact ⟨outside, Function.update_self new in_queue root.next⟩
  · apply offered_update inv.offered
    intro node offering
    rw [offers_eq at_]
    exact offering

theorem Inv.rev_link (inv : Inv root hist place layout) {thread : ι} {head : α}
    {next : Option α} (at_ : place thread = some (.revLink head next)) :
    Inv { root with next := Function.update root.next head root.out_queue } hist
      (Function.update place thread (some (.revOut head next))) layout := by
  obtain ⟨noPending, rest, split, links⟩ := inv.standing thread _ at_
  have member : head ∈ layout.content := by
    apply mem_content.mpr
    rw [split]
    exact Or.inl List.mem_cons_self
  -- The lists are disjoint, so the write stays outside all of them.
  have distinct := inv.nodup
  simp only [Layout.content, split, List.reverse_cons, List.append_assoc, List.nodup_append,
    List.mem_append, List.mem_reverse] at distinct
  have apart : head ∉ rest ∧ head ∉ layout.old ∧ head ∉ layout.fresh := by
    refine ⟨?_, ?_, ?_⟩
    · intro inside
      exact distinct.2.2 head inside head (Or.inl (List.mem_singleton_self _)) rfl
    · intro inside
      exact distinct.2.1.2.2 head (List.mem_singleton_self _) head (Or.inl inside) rfl
    · intro inside
      exact distinct.2.1.2.2 head (List.mem_singleton_self _) head (Or.inr inside) rfl
  apply inv.locked_step at_ trivial
  · exact inv.in_links.frame _ apart.2.2
  · exact inv.out_links.frame _ apart.2.1
  · exact inv.order
  · exact inv.nodup
  · exact inv.handed
  · exact inv.mutex.stay at_ trivial trivial
  · exact inv.not_free at_ trivial
  · exact fun _ inside => inside
  · intro node outside
    apply Function.update_of_ne
    intro same
    exact outside (same ▸ member)
  · intro following reached
    cases reached
    exact ⟨⟨noPending, Function.update_self head _ root.next, rest, split,
      links.frame _ apart.1⟩, rfl⟩

def Layout.moved (layout : Layout α) (root : QueueRoot α) : Pc α → Layout α
  | .putCas new in_queue =>
      if root.in_queue = in_queue then { layout with fresh := new :: layout.fresh } else layout
  | .getCas head =>
      if root.in_queue = some head then { layout with fresh := [], loc := layout.fresh }
      else layout
  | .revOut head _ => { layout with old := head :: layout.old, loc := layout.loc.tail }
  | .getPop head => { layout with old := layout.old.tail, pending := [head] }
  | .getUnlock _ => { layout with pending := [] }
  | _ => layout

theorem Inv.step (inv : Inv root hist place layout) {thread : ι} {pc : Pc α}
    {outcome : Outcome (Pc α) (Option α)} (at_ : place thread = some pc)
    (stepped : step pc root = some (after, outcome)) :
    Inv after (record thread pc root hist) (Function.update place thread outcome.pc?)
      (layout.moved root pc) := by
  have sound := inv.standing thread pc at_
  cases pc with
  | putRead new =>
      cases stepped
      exact inv.local_step at_ Iff.rfl rfl sound
  | putWrite new in_queue =>
      cases stepped
      exact inv.put_write at_
  | putCas new in_queue =>
      simp only [SemiBlockingQueue.step] at stepped
      by_cases same : root.in_queue = in_queue
      · rw [if_pos same] at stepped
        cases stepped
        simp only [record, Layout.moved, if_pos same]
        exact inv.put_cas at_ same
      · rw [if_neg same] at stepped
        cases stepped
        simp only [record, Layout.moved, if_neg same]
        exact inv.local_step at_ Iff.rfl rfl sound.1
  | getLock =>
      simp only [SemiBlockingQueue.step] at stepped
      cases unlocked : root.lock with
      | true =>
          rw [unlocked] at stepped
          cases stepped
      | false =>
          rw [unlocked] at stepped
          cases stepped
          exact inv.lock unlocked
  | getOut =>
      cases stepped
      cases first : root.out_queue with
      | none =>
          have noOld := inv.out_links
          rw [first] at noOld
          exact inv.local_step at_ Iff.rfl rfl ⟨sound.1, sound.2, noOld.null⟩
      | some head => exact inv.local_step at_ Iff.rfl rfl sound
  | getIn =>
      simp only [SemiBlockingQueue.step] at stepped
      cases first : root.in_queue with
      | none =>
          rw [first] at stepped
          cases stepped
          exact inv.local_step at_ Iff.rfl rfl ⟨sound.1, sound.2.1⟩
      | some head =>
          rw [first] at stepped
          cases stepped
          exact inv.local_step at_ Iff.rfl rfl sound
  | getCas head =>
      simp only [SemiBlockingQueue.step] at stepped
      by_cases same : root.in_queue = some head
      · rw [if_pos same] at stepped
        cases stepped
        simp only [Layout.moved, if_pos same]
        exact inv.get_cas at_ same
      · rw [if_neg same] at stepped
        cases stepped
        simp only [Layout.moved, if_neg same]
        exact inv.local_step at_ Iff.rfl rfl sound
  | revNext head =>
      cases stepped
      obtain ⟨rest, split, links⟩ := sound.2.uncons
      exact inv.local_step at_ Iff.rfl rfl ⟨sound.1, rest, split, links⟩
  | revLink head next =>
      cases stepped
      exact inv.rev_link at_
  | revOut head next =>
      cases stepped
      cases next with
      | none => exact inv.rev_out at_ rfl
      | some following => exact inv.rev_out at_ rfl
  | getHead =>
      simp only [SemiBlockingQueue.step] at stepped
      cases first : root.out_queue with
      | none =>
          rw [first] at stepped
          cases stepped
          exact inv.local_step at_ Iff.rfl rfl sound
      | some head =>
          rw [first] at stepped
          cases stepped
          exact inv.local_step at_ Iff.rfl rfl ⟨sound.1, sound.2, first⟩
  | getPop head =>
      cases stepped
      exact inv.get_pop at_
  | getUnlock head =>
      cases stepped
      exact inv.unlock at_

/-! ### Whole runs -/

variable {state next final : Pool ι (QueueRoot α) (Pc α) Unit (Hist ι α)} {act : Act ι (Pc α)}
variable {trace later : List (Pool ι (QueueRoot α) (Pc α) Unit (Hist ι α) × Act ι (Pc α))}

def Held (state : Pool ι (QueueRoot α) (Pc α) Unit (Hist ι α)) (layout : Layout α) : Prop :=
  Inv state.mem state.hist state.at layout

def Layout.acted (layout : Layout α) (state : Pool ι (QueueRoot α) (Pc α) Unit (Hist ι α)) :
    Act ι (Pc α) → Layout α
  | .move thread =>
      match state.at thread with
      | some pc => layout.moved state.mem pc
      | none => layout
  | _ => layout

theorem Inv.enter (inv : Inv root hist place layout) {thread : ι} {entry : Pc α}
    (idle : place thread = none) (called : client.call () entry = some ())
    (free : ∀ new, entry = .putRead new → hist.puts.count new ≤ hist.takes.count new ∧
      ∀ other, offers place other ≠ some new) :
    Inv root hist (Function.update place thread (some entry)) layout := by
  have outside : ¬ entry.Locked := by
    cases entry with
    | putRead new => exact id
    | getLock => exact id
    | _ => cases called
  refine
    { inv with
      mutex := ?_
      standing := ?_
      offered := ?_ }
  · exact inv.mutex.enter idle outside
  · apply sound_update
    · intro other pc _ otherAt
      exact inv.standing other pc otherAt
    · intro pc same
      cases same
      cases entry with
      | putRead new =>
          intro member
          have fewer := (free new rfl).1
          have present := List.count_pos_iff.mpr member
          rw [inv.order, List.count_append] at fewer
          omega
      | getLock => trivial
      | _ => cases called
  · cases entry with
    | putRead new =>
        have unused := (free new rfl).2
        intro left right node leftOffer rightOffer
        rw [offers_update] at leftOffer rightOffer
        by_cases leftSame : left = thread
        · by_cases rightSame : right = thread
          · rw [leftSame, rightSame]
          · rw [leftSame, Function.update_self] at leftOffer
            rw [Function.update_of_ne rightSame] at rightOffer
            cases leftOffer
            exact absurd rightOffer (unused right)
        · rw [Function.update_of_ne leftSame] at leftOffer
          by_cases rightSame : right = thread
          · rw [rightSame, Function.update_self] at rightOffer
            cases rightOffer
            exact absurd leftOffer (unused left)
          · rw [Function.update_of_ne rightSame] at rightOffer
            exact inv.offered left right node leftOffer rightOffer
    | getLock =>
        apply offered_update inv.offered
        intro node impossible
        cases impossible
    | _ => cases called

theorem held_next (held : Held state layout) (guarded : Guarded state act)
    (moved : program.next state act = some next) : Held next (layout.acted state act) := by
  unfold Held Pool.at at held ⊢
  rcases Program.next_cases moved with
    ⟨thread, entry, script, left, rfl, standing, called, rfl⟩ |
    ⟨thread, script, left, rfl, standing, left?, rfl⟩ |
    ⟨thread, pc, script, mem, outcome, rfl, standing, stepped, rfl⟩
  · rw [Machine.at_update]
    apply held.enter (by rw [standing]; rfl) called
    intro new same
    subst same
    exact guarded
  · cases left?
  · have at_ : state.at thread = some pc := Pool.at_busy standing
    rw [Machine.at_update, Program.resume_pc]
    simp only [Layout.acted, at_]
    exact held.step at_ stepped

def Shaped (state : Pool ι (QueueRoot α) (Pc α) Unit (Hist ι α)) : Prop :=
  ∃ layout, Held state layout

theorem shaped_next (shaped : Shaped state) (guarded : Guarded state act)
    (moved : program.next state act = some next) : Shaped next := by
  obtain ⟨layout, held⟩ := shaped
  exact ⟨layout.acted state act, held_next held guarded moved⟩

def Layout.remaining (layout : Layout α) : Pc α → ℕ
  | .revNext _ => 3 * layout.loc.length
  | .revLink _ _ => 3 * layout.loc.length - 1
  | .revOut _ _ => 3 * layout.loc.length - 2
  | _ => 0

omit [DecidableEq ι] in
theorem out_queue_kept {pc : Pc α} {outcome : Outcome (Pc α) (Option α)}
    (stepped : SemiBlockingQueue.step pc root = some (after, outcome))
    (outside : ¬ pc.Locked) : after.out_queue = root.out_queue := by
  cases pc with
  | putRead new => cases stepped; rfl
  | putWrite new in_queue => cases stepped; rfl
  | putCas new in_queue =>
      simp only [SemiBlockingQueue.step] at stepped
      split at stepped
      · cases stepped; rfl
      · cases stepped; rfl
  | getLock =>
      simp only [SemiBlockingQueue.step] at stepped
      split at stepped
      · cases stepped
      · cases stepped; rfl
  | _ => exact absurd trivial outside

end Steps

/-- Node 7 is put, taken, put again during the get that refills `out_queue`, and taken
again; the last get finds nothing. -/
def putAgain : List (Act Bool (Pc ℕ)) :=
  [.call true (queue_put 7), .move true, .move true, .move true,
    .call false queue_get, .move false, .move false, .move false, .move false,
    .move false, .move false, .move false, .move false, .move false,
    .call true (queue_put 7), .move true, .move false, .move true, .move true,
    .call false queue_get, .move false, .move false, .move false, .move false,
    .move false, .move false, .move false, .move false, .move false, .move false,
    .call false queue_get, .move false, .move false, .move false, .move false]

end QueueBench.SemiBlockingQueue
