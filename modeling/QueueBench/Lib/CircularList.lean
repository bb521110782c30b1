import Mathlib.Data.List.Nodup
import Mathlib.Logic.Function.Basic

/-! Circular doubly linked lists through a head. The head is a node like the entries: its
`next` is the first entry and its `prev` the last one, and in an empty list both are the
head itself. -/

namespace QueueBench.CircularList

structure Links (α : Type*) where
  next : α → α
  prev : α → α

variable {α : Type*}

/-- The nodes between two nodes, along `next` and back along `prev`. -/
def Chain (links : Links α) : α → List α → α → Prop
  | left, [], right => links.next left = right ∧ links.prev right = left
  | left, node :: rest, right =>
      links.next left = node ∧ links.prev node = left ∧ Chain links node rest right

/-- The entries of the list with the given head, each once. -/
structure Circle (links : Links α) (head : α) (entries : List α) : Prop where
  chain : Chain links head entries head
  nodup : (head :: entries).Nodup

section Chain

variable {links changed : Links α} {left node right : α} {nodes : List α}

theorem Chain.frame (chain : Chain links left nodes right)
    (next : ∀ node ∈ left :: nodes, changed.next node = links.next node)
    (prev : ∀ node ∈ nodes ++ [right], changed.prev node = links.prev node) :
    Chain changed left nodes right := by
  induction nodes generalizing left with
  | nil =>
      rw [Chain, next left List.mem_cons_self, prev right (List.mem_singleton.mpr rfl)]
      exact chain
  | cons node rest ih =>
      obtain ⟨forth, back, further⟩ := chain
      rw [Chain, next left List.mem_cons_self, prev node List.mem_cons_self]
      refine ⟨forth, back, ?_⟩
      apply ih further
      · exact fun other member => next other (List.mem_cons_of_mem left member)
      · exact fun other member => prev other (List.mem_cons_of_mem node member)

theorem chain_concat : Chain links left (nodes ++ [node]) right ↔
    Chain links left nodes node ∧ links.next node = right ∧ links.prev right = node := by
  induction nodes generalizing left with
  | nil => simp only [List.nil_append, Chain, and_assoc]
  | cons first rest ih => simp only [List.cons_append, Chain, ih, and_assoc]

end Chain

namespace Circle

variable {links : Links α} {head first : α} {entries rest : List α}

theorem first_eq (circle : Circle links head (first :: rest)) : links.next head = first :=
  circle.chain.1

theorem empty_iff (circle : Circle links head entries) :
    links.next head = head ↔ entries = [] := by
  constructor
  · intro itself
    cases entries with
    | nil => rfl
    | cons first rest =>
        have member : head ∈ first :: rest := by
          rw [← itself, circle.first_eq]
          exact List.mem_cons_self
        exact absurd member (List.nodup_cons.mp circle.nodup).1
  · rintro rfl
    exact circle.chain.1

end Circle

section Operations

variable [DecidableEq α]

def init (head : α) (links : Links α) : Links α :=
  { next := Function.update links.next head head
    prev := Function.update links.prev head head }

/-- CIRCLEQ_INSERT_TAIL, its assignments in order. -/
def insertTail (head elm : α) (links : Links α) : Links α :=
  let links := { links with next := Function.update links.next elm head }
  let links := { links with prev := Function.update links.prev elm (links.prev head) }
  let links :=
    if links.next head = head then
      { links with next := Function.update links.next head elm }
    else
      { links with next := Function.update links.next (links.prev head) elm }
  { links with prev := Function.update links.prev head elm }

def remove (head elm : α) (links : Links α) : Links α :=
  let links :=
    if links.next elm = head then
      { links with prev := Function.update links.prev head (links.prev elm) }
    else
      { links with prev := Function.update links.prev (links.next elm) (links.prev elm) }
  if links.prev elm = head then
    { links with next := Function.update links.next head (links.next elm) }
  else
    { links with next := Function.update links.next (links.prev elm) (links.next elm) }

variable {links : Links α} {head elm first last : α} {entries rest : List α}

theorem circle_init (head : α) (links : Links α) : Circle (init head links) head [] :=
  { chain := ⟨Function.update_self .., Function.update_self ..⟩
    nodup := List.nodup_singleton head }

/-- The two cases of the macro write the same link: the last node of an empty list is its
head. -/
theorem insertTail_eq (notHead : elm ≠ head) (atEnd : links.prev head = last)
    (ends : links.next head = head → last = head) :
    insertTail head elm links =
      { next := Function.update (Function.update links.next elm head) last elm
        prev := Function.update (Function.update links.prev elm last) head elm } := by
  have first_ : Function.update links.next elm head head = links.next head :=
    Function.update_of_ne notHead.symm ..
  have last_ : Function.update links.prev elm last head = last := by
    rw [Function.update_of_ne notHead.symm, atEnd]
  simp only [insertTail, atEnd, first_]
  by_cases empty : links.next head = head
  · rw [if_pos empty, ends empty]
  · rw [if_neg empty]
    simp only [last_]

theorem remove_eq (head elm : α) (links : Links α) :
    remove head elm links =
      { next := Function.update links.next (links.prev elm) (links.next elm)
        prev := Function.update links.prev (links.next elm) (links.prev elm) } := by
  have still : Function.update links.prev (links.next elm) (links.prev elm) elm =
      links.prev elm := by
    by_cases itself : elm = links.next elm
    · rw [← itself, Function.update_self]
    · rw [Function.update_of_ne itself]
  have forward : (if links.next elm = head then
      { links with prev := Function.update links.prev head (links.prev elm) }
    else
      { links with prev := Function.update links.prev (links.next elm) (links.prev elm) }) =
      { links with prev := Function.update links.prev (links.next elm) (links.prev elm) } := by
    split
    · rename_i last
      rw [last]
    · rfl
  simp only [remove, forward, still]
  split
  · rename_i first
    rw [first]
  · rfl

namespace Circle

/-- The new entry follows the last one, which is the head if there is none. -/
theorem insertTail (circle : Circle links head entries) (fresh : elm ∉ head :: entries) :
    Circle (insertTail head elm links) head (entries ++ [elm]) := by
  have notHead : elm ≠ head := fun same => fresh (same ▸ List.mem_cons_self)
  have notEntry : ∀ node ∈ entries, node ≠ elm :=
    fun node member same => fresh (List.mem_cons_of_mem head (same ▸ member))
  constructor
  · rw [chain_concat]
    rcases List.eq_nil_or_concat entries with rfl | ⟨front, last, rfl⟩
    · obtain ⟨forth, back⟩ := circle.chain
      rw [insertTail_eq notHead back (fun _ => rfl)]
      simp [Chain, notHead]
    · rw [List.concat_eq_append] at circle notEntry ⊢
      have ends : links.next head = head → last = head := by
        intro itself
        exact absurd (circle.empty_iff.mp itself) (by simp)
      obtain ⟨before, forth, back⟩ := chain_concat.mp circle.chain
      have newLast : elm ≠ last := (notEntry last (by simp)).symm
      have single : (head :: front ++ [last]).Nodup := circle.nodup
      have notLast : ∀ node ∈ head :: front, node ≠ last := by
        intro node member same
        exact List.disjoint_of_nodup_append single member (List.mem_singleton.mpr same)
      have inner : ∀ node ∈ head :: front, node ≠ elm := by
        intro node member
        rcases List.mem_cons.mp member with rfl | later
        · exact notHead.symm
        · exact notEntry node (List.mem_append_left [last] later)
      rw [insertTail_eq notHead back ends, chain_concat]
      have still : Chain
          { next := Function.update (Function.update links.next elm head) last elm
            prev := Function.update (Function.update links.prev elm last) head elm }
          head front last := by
        apply before.frame
        · intro node member
          simp only [Function.update_of_ne (notLast node member),
            Function.update_of_ne (inner node member)]
        · intro node member
          have notHead' : node ≠ head := by
            rintro rfl
            exact (List.nodup_cons.mp circle.nodup).1 member
          simp only [Function.update_of_ne notHead', Function.update_of_ne (notEntry node member)]
      exact ⟨⟨still, Function.update_self .., by
        simp only [Function.update_of_ne notHead, Function.update_self]⟩, by
        simp only [Function.update_of_ne newLast, Function.update_self], Function.update_self ..⟩
  · rw [← List.cons_append]
    apply List.Nodup.append circle.nodup (List.nodup_singleton elm)
    intro node member new
    exact fresh (List.mem_singleton.mp new ▸ member)

theorem removeFirst (circle : Circle links head (first :: rest)) :
    Circle (remove head first links) head rest := by
  have outside := (List.nodup_cons.mp circle.nodup).1
  obtain ⟨forth, back, further⟩ := circle.chain
  rw [remove_eq, back]
  constructor
  · cases rest with
    | nil =>
        obtain ⟨toHead, _⟩ := further
        rw [toHead]
        exact ⟨Function.update_self .., Function.update_self ..⟩
    | cons second rest =>
        obtain ⟨toSecond, _, behind⟩ := further
        rw [toSecond]
        refine ⟨Function.update_self .., Function.update_self .., ?_⟩
        have apart := (List.nodup_cons.mp (List.nodup_cons.mp circle.nodup).2).2
        apply behind.frame
        · intro node member
          have notHead : node ≠ head := by
            rintro rfl
            exact outside (List.mem_cons_of_mem first member)
          exact Function.update_of_ne notHead ..
        · intro node member
          have notSecond : node ≠ second := by
            rintro rfl
            rcases List.mem_append.mp member with later | atHead
            · exact (List.nodup_cons.mp apart).1 later
            · rw [List.mem_singleton.mp atHead] at outside
              exact outside (List.mem_cons_of_mem first List.mem_cons_self)
          exact Function.update_of_ne notSecond ..
  · exact List.nodup_cons.mpr ⟨fun member => outside (List.mem_cons_of_mem first member),
      (List.nodup_cons.mp (List.nodup_cons.mp circle.nodup).2).2⟩

end Circle

end Operations

end QueueBench.CircularList
