import Mathlib.Algebra.BigOperators.Group.List.Basic
import Mathlib.Algebra.Order.Ring.Int
import Mathlib.Data.ZMod.Defs
import Mathlib.Order.Fin.Basic

/-! Unsigned 64-bit words, and counters that add them up modulo 2^64. -/

namespace QueueBench.Word

abbrev Word64 : Type := Fin (2 ^ 64)

instance nonempty64 : NeZero (2 ^ 64) := ⟨by decide⟩

/-- A signed operand of an unsigned 64-bit operation. -/
def ofInt (value : ℤ) : Word64 := Fin.ofNat (2 ^ 64) (value % 2 ^ 64).toNat

theorem ofInt_val {value : ℕ} (low : value < 2 ^ 64) : (ofInt value).val = value := by
  unfold ofInt
  rw [Fin.val_ofNat, Int.emod_eq_of_lt (by omega) (by omega), Int.toNat_natCast,
    Nat.mod_eq_of_lt low]

theorem foldl_add_val (counter : Word64) (words : List Word64) :
    (words.foldl (· + ·) counter).val = (counter.val + (words.map Fin.val).sum) % 2 ^ 64 := by
  induction words generalizing counter with
  | nil => exact (Nat.mod_eq_of_lt counter.isLt).symm
  | cons word rest ih =>
      rw [List.foldl_cons, ih, Fin.val_add, List.map_cons, List.sum_cons, Nat.mod_add_mod,
        Nat.add_assoc]

end QueueBench.Word
