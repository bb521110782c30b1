import Mathlib.Data.List.Nodup
import Mathlib.Logic.Function.Basic

/-! Singly linked lists in a heap given by its `next` pointers. A null pointer is
`none`, and a heap update is a `Function.update` at one node. -/

namespace QueueBench.LinkedList

variable {α : Type*}

/-- The nodes met from a pointer along `next` until the null pointer. -/
def Links (next : α → Option α) : Option α → List α → Prop
  | pointer, [] => pointer = none
  | pointer, node :: rest => pointer = some node ∧ Links next (next node) rest

variable {next : α → Option α} {pointer : Option α} {node : α} {nodes rest : List α}

theorem links_nil (next : α → Option α) : Links next none [] := rfl

theorem links_cons : Links next pointer (node :: rest) ↔
    pointer = some node ∧ Links next (next node) rest := Iff.rfl

theorem Links.null (links : Links next none nodes) : nodes = [] := by
  cases nodes with
  | nil => rfl
  | cons node rest => cases links.1

theorem Links.uncons (links : Links next (some node) nodes) :
    ∃ rest, nodes = node :: rest ∧ Links next (next node) rest := by
  cases nodes with
  | nil => cases links
  | cons first rest =>
      cases links.1
      exact ⟨rest, rfl, links.2⟩

section Update

variable [DecidableEq α]

theorem Links.frame (links : Links next pointer nodes) (target : Option α)
    (outside : node ∉ nodes) : Links (Function.update next node target) pointer nodes := by
  induction nodes generalizing pointer with
  | nil => exact links
  | cons first rest ih =>
      have different : first ≠ node := by
        intro same
        exact outside (same ▸ List.mem_cons_self)
      refine ⟨links.1, ?_⟩
      rw [Function.update_of_ne different]
      exact ih links.2 (fun member => outside (List.mem_cons_of_mem first member))

theorem Links.push (links : Links next pointer nodes) (outside : node ∉ nodes) :
    Links (Function.update next node pointer) (some node) (node :: nodes) := by
  refine links_cons.mpr ⟨rfl, ?_⟩
  rw [Function.update_self]
  exact links.frame pointer outside

end Update

end QueueBench.LinkedList
