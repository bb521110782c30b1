import Mathlib.Algebra.Order.Ring.Int
import QueueBench.Lib.Tokens

/-! The thread list on the command line. main of QueueBenchmarks/sqmain.c and of stlqueue.cpp takes
it apart at its commas and stores the numbers in a block that does not grow. -/

namespace QueueBench.ThreadList
open Tokens (strtok pieces strtok_none strtok_some strtok_shorter pieces_intercalate)

/-- What has no defined outcome: a number that is no int, and a store behind the block. -/
inductive Fault where
  | unrepresentable
  | outside (index : ℕ)
deriving DecidableEq, Repr

def isspace (c : Char) : Bool := c == ' ' || (9 ≤ c.toNat && c.toNat ≤ 13)

def IsInt (value : ℤ) : Prop := -2 ^ 31 ≤ value ∧ value < 2 ^ 31

instance (value : ℤ) : Decidable (IsInt value) :=
  inferInstanceAs (Decidable (-2 ^ 31 ≤ value ∧ value < 2 ^ 31))

def represent (value : ℤ) : Except Fault ℤ :=
  if IsInt value then .ok value else .error .unrepresentable

def leading (text : List Char) : ℕ := Nat.ofDigitChars 10 (text.takeWhile Char.isDigit) 0

def atoi (text : List Char) : Except Fault ℤ :=
  match text.dropWhile isspace with
  | '-' :: rest => represent (-leading rest)
  | '+' :: rest => represent (leading rest)
  | rest => represent (leading rest)

/-- `threads[threadCount] = value; threadCount++;` in a block with room for so many. -/
def store (room : ℕ) (threads : List ℤ) (value : ℤ) : Except Fault (List ℤ) :=
  if threads.length < room then .ok (threads ++ [value]) else .error (.outside threads.length)

/-- The loop from a call of strtok on; `threads` has been stored before. -/
def readThreads (room : ℕ) (str : List Char) (threads : List ℤ) : Except Fault (List ℤ) :=
  match _ : strtok (· == ',') str with
  | none => .ok threads
  | some (thread, rest) =>
      (atoi thread).bind (fun value =>
        (store room threads value).bind (fun stored => readThreads room rest stored))
termination_by str.length
decreasing_by exact strtok_shorter ‹_›

/-- `malloc(sizeof (int*))` in sqmain.c, with pointers of eight bytes and ints of four. -/
def sqmainRoom : ℕ := 8 / 4

/-- `malloc(sizeof(int))` in stlqueue.cpp. -/
def stlqueueRoom : ℕ := 4 / 4

/-! ### What a text says -/

/-- The pieces between the commas that are not empty are numbers for atoi. -/
def Reads (text : List Char) (counts : List ℤ) : Prop :=
  (pieces (· == ',') text).map atoi = counts.map .ok

def decimal (value : ℤ) : List Char :=
  if value < 0 then '-' :: Nat.toDigits 10 value.natAbs else Nat.toDigits 10 value.natAbs

def listed (counts : List ℤ) : List Char := [','].intercalate (counts.map decimal)

theorem isDigit_range {c : Char} (digit : c.isDigit) : 48 ≤ c.toNat ∧ c.toNat ≤ 57 := by
  simp only [Char.isDigit, Bool.and_eq_true, decide_eq_true_eq] at digit
  exact digit

theorem isspace_digit {c : Char} (digit : c.isDigit) : isspace c = false := by
  have range := isDigit_range digit
  have apart : c ≠ ' ' := by
    rintro rfl
    exact absurd range.1 (by decide)
  simp only [isspace, Bool.or_eq_false_iff, beq_eq_false_iff_ne, Bool.and_eq_false_iff,
    decide_eq_false_iff_not]
  exact ⟨apart, Or.inr (by omega)⟩

theorem leading_toDigits (n : ℕ) : leading (Nat.toDigits 10 n) = n := by
  have all : (Nat.toDigits 10 n).takeWhile Char.isDigit = Nat.toDigits 10 n := by
    rw [List.takeWhile_eq_self_iff]
    intro c member
    exact Nat.isDigit_of_mem_toDigits (by decide) (by decide) member
  rw [leading, all, Nat.ofDigitChars_ten_toDigits]

theorem atoi_decimal {value : ℤ} (int : IsInt value) : atoi (decimal value) = .ok value := by
  rw [decimal]
  split
  · next negative =>
      change represent (-(leading (Nat.toDigits 10 value.natAbs) : ℤ)) = _
      have same : -(value.natAbs : ℤ) = value := by omega
      rw [leading_toDigits, same, represent, if_pos int]
  · next positive =>
      have same : (value.natAbs : ℤ) = value := by omega
      cases text : Nat.toDigits 10 value.natAbs with
      | nil => exact absurd text Nat.toDigits_ne_nil
      | cons first rest =>
          have digit : first.isDigit := by
            apply Nat.isDigit_of_mem_toDigits (b := 10) (n := value.natAbs) (by decide) (by decide)
            rw [text]
            exact List.mem_cons_self
          have range := isDigit_range digit
          have found : atoi (first :: rest) = represent (leading (first :: rest)) := by
            have solid : ¬ isspace first = true := by
              rw [isspace_digit digit]
              exact Bool.false_ne_true
            rw [atoi, List.dropWhile_cons_of_neg solid]
            split
            · next same => cases same; exact absurd range.1 (by decide)
            · next same => cases same; exact absurd range.1 (by decide)
            · rfl
          rw [found, ← text, leading_toDigits, same, represent, if_pos int]

theorem decimal_whole (value : ℤ) :
    decimal value ≠ [] ∧ ∀ c ∈ decimal value, (c == ',') = false := by
  have digits : ∀ c ∈ Nat.toDigits 10 value.natAbs, (c == ',') = false := by
    intro c member
    have digit := Nat.isDigit_of_mem_toDigits (by decide) (by decide) member
    rw [beq_eq_false_iff_ne]
    rintro rfl
    exact absurd digit (by decide)
  rw [decimal]
  split
  · refine ⟨List.cons_ne_nil _ _, ?_⟩
    intro c member
    rcases List.mem_cons.mp member with rfl | later
    · rfl
    · exact digits c later
  · exact ⟨Nat.toDigits_ne_nil, digits⟩

theorem reads_listed {counts : List ℤ} (ints : ∀ count ∈ counts, IsInt count) :
    Reads (listed counts) counts := by
  have apart : pieces (· == ',') (listed counts) = counts.map decimal := by
    apply pieces_intercalate rfl
    intro token member
    obtain ⟨count, _, rfl⟩ := List.mem_map.mp member
    exact decimal_whole count
  rw [Reads, apart, List.map_map]
  exact List.map_congr_left (fun count member => atoi_decimal (ints count member))

/-! ### What the loop stores -/

theorem readThreads_none {room : ℕ} {str : List Char} {threads : List ℤ}
    (nothing : strtok (· == ',') str = none) : readThreads room str threads = .ok threads := by
  rw [readThreads]
  split
  · rfl
  · next found => cases nothing.symm.trans found

theorem readThreads_some {room : ℕ} {str thread rest : List Char} {threads : List ℤ}
    (found : strtok (· == ',') str = some (thread, rest)) : readThreads room str threads =
      (atoi thread).bind (fun value =>
        (store room threads value).bind (fun stored => readThreads room rest stored)) := by
  rw [readThreads]
  split
  · next nothing => cases nothing.symm.trans found
  · next other => cases other.symm.trans found; rfl

theorem readThreads_reads {room : ℕ} {text : List Char} {counts threads : List ℤ}
    (reads : Reads text counts) (fits : threads.length ≤ room) :
    readThreads room text threads = if threads.length + counts.length ≤ room
      then .ok (threads ++ counts) else .error (.outside room) := by
  induction counts generalizing text threads with
  | nil =>
      have nothing : strtok (· == ',') text = none := by
        cases found : strtok (· == ',') text with
        | none => rfl
        | some taken =>
            rw [Reads, strtok_some found] at reads
            cases reads
      rw [readThreads_none nothing, List.length_nil, Nat.add_zero, if_pos fits, List.append_nil]
  | cons count counts ih =>
      cases found : strtok (· == ',') text with
      | none =>
          rw [Reads, strtok_none found] at reads
          cases reads
      | some taken =>
          obtain ⟨thread, rest⟩ := taken
          rw [Reads, strtok_some found, List.map_cons, List.map_cons, List.cons.injEq] at reads
          obtain ⟨first, others⟩ := reads
          rw [readThreads_some found, first, Except.bind, store, List.length_cons]
          by_cases free : threads.length < room
          · have longer : (threads ++ [count]).length = threads.length + 1 := List.length_append
            rw [if_pos free, Except.bind, ih others (by omega), longer, List.append_assoc,
              List.singleton_append, Nat.add_assoc, Nat.add_comm 1]
          · have full : threads.length = room := by omega
            rw [if_neg free, Except.bind, if_neg (by omega), full]

/-- A list of numbers is read as it was printed, and so is every other text for it, but no more of
them than the block has room for. -/
theorem thread_list_read (room : ℕ) {counts : List ℤ} (ints : ∀ count ∈ counts, IsInt count) :
    Reads (listed counts) counts ∧ ∀ text, Reads text counts → readThreads room text [] =
      if counts.length ≤ room then .ok counts else .error (.outside room) := by
  refine ⟨reads_listed ints, ?_⟩
  intro text reads
  have fits : ([] : List ℤ).length ≤ room := Nat.zero_le room
  rw [readThreads_reads reads fits, List.length_nil, Nat.zero_add, List.nil_append]

def usage : List ℤ :=
  [1, 2, 4, 6, 8, 12, 16, 24, 32, 48, 57, 96, 114, 192, 228, 384, 456, 768, 912, 1024]

/-- The list that the usage text names does not fit into the blocks. -/
theorem thread_list_read_usage :
    readThreads sqmainRoom (listed usage) [] = .error (.outside 2) ∧
      readThreads stlqueueRoom (listed usage) [] = .error (.outside 1) := by
  have ints : ∀ count ∈ usage, IsInt count := by decide
  have sqmain := thread_list_read sqmainRoom ints
  have stlqueue := thread_list_read stlqueueRoom ints
  exact ⟨sqmain.2 _ sqmain.1, stlqueue.2 _ stlqueue.1⟩

end QueueBench.ThreadList
