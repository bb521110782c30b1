import Mathlib.Data.List.Nodup
import Mathlib.Logic.Function.Basic

/-! Blocks of memory. A heap owns a list of blocks if these are the allocated ones, each named
once; every block is then accounted for, and none leaks. -/

namespace QueueBench.Heap

variable {α β : Type*}

structure Owns (heap : α → Option β) (blocks : List α) : Prop where
  nodup : blocks.Nodup
  allocated : ∀ block, heap block ≠ none ↔ block ∈ blocks

variable {heap : α → Option β} {blocks others : List α} {block : α} {cell : β}

theorem Owns.empty : Owns (fun _ : α => (none : Option β)) [] :=
  { nodup := List.nodup_nil
    allocated := by
      intro block
      exact ⟨fun live => absurd rfl live, fun member => by cases member⟩ }

theorem Owns.perm (owns : Owns heap blocks) (same : blocks.Perm others) : Owns heap others :=
  { nodup := same.nodup_iff.mp owns.nodup
    allocated := fun block => (owns.allocated block).trans same.mem_iff }

theorem Owns.live (owns : Owns heap blocks) (member : block ∈ blocks) :
    ∃ cell, heap block = some cell :=
  Option.ne_none_iff_exists'.mp ((owns.allocated block).mpr member)

theorem Owns.fresh (owns : Owns heap blocks) (free : heap block = none) : block ∉ blocks := by
  intro member
  exact (owns.allocated block).mpr member free

variable [DecidableEq α]

theorem Owns.alloc (owns : Owns heap blocks) (free : heap block = none) (cell : β) :
    Owns (Function.update heap block (some cell)) (block :: blocks) := by
  refine
    { nodup := List.nodup_cons.mpr ⟨owns.fresh free, owns.nodup⟩
      allocated := ?_ }
  intro other
  rw [List.mem_cons]
  by_cases same : other = block
  · subst other
    rw [Function.update_self]
    exact ⟨fun _ => Or.inl rfl, fun _ => Option.some_ne_none cell⟩
  · rw [Function.update_of_ne same, owns.allocated]
    exact ⟨Or.inr, fun either => either.resolve_left same⟩

theorem Owns.write (owns : Owns heap blocks) (member : block ∈ blocks) (cell : β) :
    Owns (Function.update heap block (some cell)) blocks := by
  refine
    { nodup := owns.nodup
      allocated := ?_ }
  intro other
  by_cases same : other = block
  · subst other
    rw [Function.update_self]
    exact ⟨fun _ => member, fun _ => Option.some_ne_none cell⟩
  · rw [Function.update_of_ne same]
    exact owns.allocated other

theorem Owns.free (owns : Owns heap (block :: blocks)) :
    Owns (Function.update heap block none) blocks := by
  obtain ⟨outside, nodup⟩ := List.nodup_cons.mp owns.nodup
  refine
    { nodup := nodup
      allocated := ?_ }
  intro other
  by_cases same : other = block
  · subst other
    rw [Function.update_self]
    exact ⟨fun live => absurd rfl live, fun member => absurd member outside⟩
  · rw [Function.update_of_ne same, owns.allocated, List.mem_cons]
    exact ⟨fun either => either.resolve_left same, Or.inr⟩

end QueueBench.Heap
