import QueueBench.Lib.Ledger

/-! Increments of a shared number that are a load and a store with nothing around them. A store
undoes all that happened since its load, and the numbers that can be left at the end are exactly
those between two increments and all of them. -/

namespace QueueBench.LostUpdate
open Transition (Run Reaches)

open scoped BigOperators

/-- Every thread has `left` increments to begin, and `read` is what it has loaded. -/
@[ext] structure Race (ι : Type*) where
  left : ι → ℕ
  read : ι → Option ℤ
  value : ℤ

inductive Act (ι : Type*) where
  | load (thread : ι)
  | store (thread : ι)
deriving DecidableEq, Repr

variable {ι : Type*}

def Race.start (ι : Type*) (samples : ℕ) (value : ℤ) : Race ι :=
  { left := fun _ => samples
    read := fun _ => none
    value := value }

def Race.Over (race : Race ι) : Prop := ∀ thread, race.left thread = 0 ∧ race.read thread = none

def Race.owed (race : Race ι) (thread : ι) : ℕ :=
  race.left thread + (race.read thread).elim 0 (fun _ => 1)

theorem Race.Over.owed {race : Race ι} (ended : race.Over) (thread : ι) : race.owed thread = 0 := by
  rw [Race.owed, (ended thread).1, (ended thread).2]
  rfl

theorem Race.owed_pos {race : Race ι} {thread : ι} {value : ℤ}
    (holds : race.read thread = some value) : 0 < race.owed thread := by
  rw [Race.owed, holds]
  exact Nat.succ_pos _

variable [DecidableEq ι]

def Race.load (race : Race ι) (thread : ι) : Race ι :=
  { left := Function.update race.left thread (race.left thread - 1)
    read := Function.update race.read thread (some race.value)
    value := race.value }

def Race.store (race : Race ι) (thread : ι) (value : ℤ) : Race ι :=
  { race with
    read := Function.update race.read thread none
    value := value + 1 }

def next (race : Race ι) : Act ι → Option (Race ι)
  | .load thread =>
      if race.read thread = none ∧ 0 < race.left thread then some (race.load thread) else none
  | .store thread => (race.read thread).map (fun value => race.store thread value)

abbrev Leads (race after : Race ι) : Prop := Reaches next (fun _ _ => True) race after

variable {race after : Race ι} {thread : ι} {value : ℤ}

theorem next_load (idle : race.read thread = none) (more : 0 < race.left thread) :
    next race (.load thread) = some (race.load thread) := if_pos ⟨idle, more⟩

theorem next_store (holds : race.read thread = some value) :
    next race (.store thread) = some (race.store thread value) := by
  rw [next, holds, Option.map_some]

theorem next_cases {act : Act ι} (moved : next race act = some after) :
    (∃ thread, race.read thread = none ∧ 0 < race.left thread ∧ after = race.load thread) ∨
    (∃ thread value, race.read thread = some value ∧ after = race.store thread value) := by
  cases act with
  | load thread =>
      by_cases ready : race.read thread = none ∧ 0 < race.left thread
      · cases (next_load ready.1 ready.2).symm.trans moved
        exact Or.inl ⟨thread, ready.1, ready.2, rfl⟩
      · cases (if_neg ready).symm.trans moved
  | store thread =>
      obtain ⟨value, holds, same⟩ := Option.map_eq_some_iff.mp moved
      exact Or.inr ⟨thread, value, holds, same.symm⟩

/-! ### What can be left -/

theorem owed_load (idle : race.read thread = none) (more : 0 < race.left thread) :
    (race.load thread).owed = race.owed := by
  funext other
  change Function.update race.left thread _ other + (Function.update race.read thread _ other).elim
    0 _ = race.left other + _
  by_cases same : other = thread
  · subst other
    rw [Function.update_self, Function.update_self, idle]
    exact Nat.sub_add_cancel more
  · rw [Function.update_of_ne same, Function.update_of_ne same]

theorem owed_store (race : Race ι) (thread : ι) (value : ℤ) :
    (race.store thread value).owed = Function.update race.owed thread (race.left thread) := by
  funext other
  change race.left other + (Function.update race.read thread _ other).elim 0 _ = _
  by_cases same : other = thread
  · subst other
    rw [Function.update_self, Function.update_self]
    rfl
  · rw [Function.update_of_ne same, Function.update_of_ne same]
    rfl

variable [Fintype ι]

/-- What every reachable race keeps: a store of a thread that has stored before is of a number the
first store has reached, and so the last one of all is. -/
structure Sound (samples : ℕ) (low high : ℤ) (race : Race ι) : Prop where
  above : low ≤ race.value
  begun : ∀ thread, race.owed thread < samples → low + 1 ≤ race.value
  below : race.value + (∑ thread, race.owed thread : ℕ) ≤ high
  last : low + 2 ≤ race.value ∨ ∃ thread, 0 < race.owed thread
  read_above : ∀ thread value, race.read thread = some value → low ≤ value
  read_begun : ∀ thread value, race.read thread = some value → race.owed thread < samples →
    low + 1 ≤ value
  read_below : ∀ thread value, race.read thread = some value →
    value + (∑ thread, race.owed thread : ℕ) ≤ high

variable {samples : ℕ} {low high : ℤ}

omit [DecidableEq ι] in
theorem sound_start [Nonempty ι] (positive : 0 < samples) (low : ℤ) :
    Sound samples low (low + (Fintype.card ι * samples : ℕ)) (Race.start ι samples low) :=
  { above := le_refl low
    begun := fun thread impossible => absurd impossible (Nat.lt_irrefl samples)
    below := by
      have each : ∀ thread ∈ Finset.univ, (Race.start ι samples low).owed thread = samples :=
        fun _ _ => rfl
      rw [Finset.sum_const_nat each, Finset.card_univ]
      exact le_refl _
    last := Or.inr ⟨Classical.arbitrary ι, positive⟩
    read_above := by intro thread value impossible; cases impossible
    read_begun := by intro thread value impossible; cases impossible
    read_below := by intro thread value impossible; cases impossible }

theorem Sound.load (sound : Sound samples low high race) (idle : race.read thread = none)
    (more : 0 < race.left thread) : Sound samples low high (race.load thread) := by
  have owed := owed_load idle more
  have reading : ∀ other value, (race.load thread).read other = some value →
      value = race.value ∨ race.read other = some value := by
    intro other value holds
    change Function.update race.read thread _ other = some value at holds
    by_cases same : other = thread
    · subst other
      rw [Function.update_self] at holds
      cases holds
      exact Or.inl rfl
    · rw [Function.update_of_ne same] at holds
      exact Or.inr holds
  constructor
  · exact sound.above
  · rw [owed]
    exact sound.begun
  · rw [owed]
    exact sound.below
  · rw [owed]
    exact sound.last
  · intro other value holds
    rcases reading other value holds with fresh | old
    · rw [fresh]
      exact sound.above
    · exact sound.read_above other value old
  · intro other value holds
    rw [owed]
    intro begun
    rcases reading other value holds with fresh | old
    · rw [fresh]
      exact sound.begun other begun
    · exact sound.read_begun other value old begun
  · intro other value holds
    rw [owed]
    rcases reading other value holds with fresh | old
    · rw [fresh]
      exact sound.below
    · exact sound.read_below other value old

theorem Sound.store (sound : Sound samples low high race) (several : 2 ≤ samples)
    (holds : race.read thread = some value) :
    Sound samples low high (race.store thread value) := by
  have owed := owed_store race thread value
  have mine : race.owed thread = race.left thread + 1 := by
    rw [Race.owed, holds]
    rfl
  have apart : ∀ other, other ≠ thread →
      (race.store thread value).owed other = race.owed other := by
    intro other different
    rw [owed, Function.update_of_ne different]
  have fewer : 1 + ∑ other, (race.store thread value).owed other = 0 + ∑ other, race.owed other := by
    apply Machine.sum_change thread apart
    rw [owed, Function.update_self, mine, Nat.add_comm, Nat.zero_add]
  have least := sound.read_above thread value holds
  have most := sound.read_below thread value holds
  constructor
  · change low ≤ value + 1
    omega
  · intro other _
    change low + 1 ≤ value + 1
    omega
  · change value + 1 + _ ≤ high
    omega
  · rcases Nat.eq_zero_or_pos (race.left thread) with done | more
    · have begun := sound.read_begun thread value holds (by omega)
      left
      change low + 2 ≤ value + 1
      omega
    · refine Or.inr ⟨thread, ?_⟩
      rw [owed, Function.update_self]
      exact more
  · intro other old also
    change Function.update race.read thread none other = some old at also
    by_cases same : other = thread
    · subst other
      rw [Function.update_self] at also
      cases also
    · rw [Function.update_of_ne same] at also
      exact sound.read_above other old also
  · intro other old also
    change Function.update race.read thread none other = some old at also
    by_cases same : other = thread
    · subst other
      rw [Function.update_self] at also
      cases also
    · rw [Function.update_of_ne same] at also
      rw [apart other same]
      exact sound.read_begun other old also
  · intro other old also
    change Function.update race.read thread none other = some old at also
    by_cases same : other = thread
    · subst other
      rw [Function.update_self] at also
      cases also
    · rw [Function.update_of_ne same] at also
      have bound := sound.read_below other old also
      omega

theorem Sound.next (sound : Sound samples low high race) (several : 2 ≤ samples) {act : Act ι}
    (moved : next race act = some after) : Sound samples low high after := by
  rcases next_cases moved with ⟨thread, idle, more, rfl⟩ | ⟨thread, value, holds, rfl⟩
  · exact sound.load idle more
  · exact sound.store several holds

omit [DecidableEq ι] in
theorem Sound.final (sound : Sound samples low high race) (ended : race.Over) :
    low + 2 ≤ race.value ∧ race.value ≤ high := by
  have below := sound.below
  constructor
  · rcases sound.last with reached | ⟨thread, more⟩
    · exact reached
    · rw [ended.owed thread] at more
      cases more
  · rw [Finset.sum_eq_zero (fun thread _ => ended.owed thread)] at below
    omega

/-! ### What is left in some order -/

def Race.once (race : Race ι) (thread : ι) : Race ι :=
  { left := Function.update race.left thread (race.left thread - 1)
    read := race.read
    value := race.value + 1 }

omit [Fintype ι] in
theorem leads_once (idle : race.read thread = none) (more : 0 < race.left thread) :
    Leads race (race.once thread) := by
  have loaded := (Reaches.refl next (fun _ _ => True) race).tail trivial (next_load idle more)
  have holds : (race.load thread).read thread = some race.value := Function.update_self _ _ _
  have stored := loaded.tail trivial (next_store holds)
  have same : (race.load thread).store thread race.value = race.once thread := by
    apply Race.ext
    · rfl
    · change Function.update (Function.update race.read thread _) thread none = race.read
      rw [Function.update_idem, ← idle, Function.update_eq_self]
    · rfl
  rw [same] at stored
  exact stored

omit [Fintype ι] in
theorem leads_several (race : Race ι) (threads : Finset ι) (count : ℕ)
    (idle : ∀ thread ∈ threads, race.read thread = none)
    (enough : count ≤ ∑ thread ∈ threads, race.left thread) :
    ∃ after, Leads race after ∧ after.read = race.read ∧ after.value = race.value + count ∧
      (∑ thread ∈ threads, after.left thread) + count = ∑ thread ∈ threads, race.left thread ∧
      ∀ thread, thread ∉ threads → after.left thread = race.left thread := by
  induction count generalizing race with
  | zero => exact ⟨race, Reaches.refl _ _ race, rfl, (add_zero _).symm, rfl, fun _ _ => rfl⟩
  | succ count ih =>
      obtain ⟨thread, member, some⟩ : ∃ thread ∈ threads, race.left thread ≠ 0 :=
        Finset.exists_ne_zero_of_sum_ne_zero (by omega)
      have more := Nat.pos_of_ne_zero some
      have fewer : 1 + ∑ other ∈ threads, (race.once thread).left other =
          ∑ other ∈ threads, race.left other := by
        change 1 + ∑ other ∈ threads, Function.update race.left thread _ other = _
        rw [Finset.sum_update_of_mem member, Finset.sdiff_singleton_eq_erase,
          ← Finset.add_sum_erase threads race.left member]
        omega
      obtain ⟨after, leads, read, value, sum, outside⟩ := ih (race.once thread) idle
        (by omega)
      refine ⟨after, (leads_once (idle thread member) more).trans leads, read, ?_, by omega, ?_⟩
      · rw [value]
        change race.value + 1 + _ = _
        push_cast
        omega
      · intro other absent
        rw [outside other absent]
        have different : other ≠ thread := by
          intro same
          exact absent (same ▸ member)
        exact Function.update_of_ne different _ _

omit [DecidableEq ι] in
theorem over_of_sum (idle : ∀ thread, race.read thread = none)
    (done : ∑ thread, race.left thread = 0) : race.Over :=
  fun thread => ⟨Finset.sum_eq_zero_iff.mp done thread (Finset.mem_univ thread), idle thread⟩

/-- A thread loads at the start and stores when `lost` increments of the others are made: these
are lost, and everything else counts. -/
theorem leads_losing (thread : ι) (positive : 0 < samples) (low : ℤ) (lost : ℕ)
    (enough : lost ≤ ∑ _other ∈ Finset.univ.erase thread, samples) :
    ∃ after, Leads (Race.start ι samples low) after ∧ (∀ other, after.read other = none) ∧
      after.left thread = samples - 1 ∧ after.value = low + 1 ∧
      (∑ other ∈ Finset.univ.erase thread, after.left other) + lost =
        ∑ _other ∈ Finset.univ.erase thread, samples := by
  have loads : next (Race.start ι samples low) (.load thread) =
      some ((Race.start ι samples low).load thread) := next_load rfl positive
  have loaded := (Reaches.refl next (fun _ _ => True) _).tail trivial loads
  have others : ∑ other ∈ Finset.univ.erase thread,
      ((Race.start ι samples low).load thread).left other =
        ∑ _other ∈ Finset.univ.erase thread, samples := by
    apply Finset.sum_congr rfl
    intro other member
    exact Function.update_of_ne (Finset.ne_of_mem_erase member) _ _
  obtain ⟨middle, leads, read, _, sum, outside⟩ := leads_several
    ((Race.start ι samples low).load thread) (Finset.univ.erase thread) lost
    (fun other member => Function.update_of_ne (Finset.ne_of_mem_erase member) _ _)
    (by rw [others]; exact enough)
  have holds : middle.read thread = some low := by
    rw [read]
    exact Function.update_self _ _ _
  refine ⟨_, (loaded.trans leads).tail trivial (next_store holds), ?_, ?_, rfl, ?_⟩
  · intro other
    change Function.update middle.read thread none other = none
    by_cases same : other = thread
    · rw [same, Function.update_self]
    · rw [Function.update_of_ne same, read]
      exact Function.update_of_ne same _ _
  · change middle.left thread = _
    rw [outside thread (Finset.notMem_erase thread _)]
    exact Function.update_self _ _ _
  · change (∑ other ∈ Finset.univ.erase thread, middle.left other) + lost = _
    rw [sum, others]

theorem leads_many (thread : ι) (positive : 0 < samples) (low : ℤ) (lost : ℕ)
    (enough : lost ≤ ∑ _other ∈ Finset.univ.erase thread, samples) :
    ∃ after, Leads (Race.start ι samples low) after ∧ after.Over ∧
      after.value = low + samples + (∑ _other ∈ Finset.univ.erase thread, samples : ℕ) - lost := by
  obtain ⟨middle, early, idle, mine, value, others⟩ := leads_losing thread positive low lost enough
  have whole := Finset.add_sum_erase Finset.univ middle.left (Finset.mem_univ thread)
  obtain ⟨after, late, read, counted, done, _⟩ := leads_several middle Finset.univ
    (∑ other, middle.left other) (fun other _ => idle other) (le_refl _)
  refine ⟨after, early.trans late, over_of_sum ?_ ?_, ?_⟩
  · intro other
    rw [read, idle]
  · omega
  · rw [counted, value, ← whole, mine]
    omega

/-- Where the others have one increment left, that one can span what is lost of the first
thread's. -/
theorem leads_spanned {early : Race ι} (first : ι) (idle : ∀ other, early.read other = none)
    (one : ∑ other ∈ Finset.univ.erase first, early.left other = 1) (kept : ℕ)
    (few : kept ≤ early.left first) :
    ∃ after, Leads early after ∧ after.Over ∧ after.value = early.value + 1 + kept := by
  have absent : ∀ other ∈ Finset.univ.erase first, other ∉ ({first} : Finset ι) :=
    fun other within => Finset.notMem_singleton.mpr (Finset.ne_of_mem_erase within)
  obtain ⟨last, member, left⟩ : ∃ last ∈ Finset.univ.erase first, early.left last ≠ 0 :=
    Finset.exists_ne_zero_of_sum_ne_zero (by omega)
  have apart : first ≠ last := (Finset.ne_of_mem_erase member).symm
  obtain ⟨before, onward, read, reached, _, outside⟩ := leads_several early {first} kept
    (fun other _ => idle other) (by rw [Finset.sum_singleton]; exact few)
  have more : 0 < before.left last := by
    rw [outside last (absent last member)]
    exact Nat.pos_of_ne_zero left
  have loads : next before (.load last) = some (before.load last) := by
    apply next_load _ more
    rw [read, idle]
  have taken : ∑ other ∈ Finset.univ.erase first, (before.load last).left other = 0 := by
    have updated := Finset.sum_update_of_mem member before.left (before.left last - 1)
    have same : ∑ other ∈ Finset.univ.erase first, before.left other = 1 := by
      rw [← one]
      exact Finset.sum_congr rfl (fun other within => outside other (absent other within))
    rw [Finset.sdiff_singleton_eq_erase] at updated
    rw [← Finset.add_sum_erase _ before.left member] at same
    change ∑ other ∈ Finset.univ.erase first, Function.update before.left last _ other = 0
    omega
  have loaded : ∀ other, other ≠ last → (before.load last).read other = none := by
    intro other different
    change Function.update before.read last _ other = none
    rw [Function.update_of_ne different, read, idle]
  obtain ⟨after, later, kept_, _, done, rest⟩ := leads_several (before.load last) {first}
    ((before.load last).left first)
    (fun other within => loaded other (by rw [Finset.mem_singleton.mp within]; exact apart))
    (by rw [Finset.sum_singleton])
  rw [Finset.sum_singleton, Finset.sum_singleton] at done
  have holds : after.read last = some before.value := by
    rw [kept_]
    exact Function.update_self _ _ _
  refine ⟨_, ((onward.tail trivial loads).trans later).tail trivial (next_store holds),
    over_of_sum ?_ ?_, ?_⟩
  · intro other
    change Function.update after.read last _ other = _
    by_cases same : other = last
    · rw [same, Function.update_self]
    · rw [Function.update_of_ne same, kept_, loaded other same]
  · change ∑ other, after.left other = 0
    rw [← Finset.add_sum_erase Finset.univ after.left (Finset.mem_univ first),
      Finset.sum_congr rfl (fun other within => rest other (absent other within)), taken]
    omega
  · change before.value + 1 = _
    omega

theorem leads_few [Nontrivial ι] (several : 2 ≤ samples) (low : ℤ) (kept : ℕ)
    (few : kept < samples) :
    ∃ after, Leads (Race.start ι samples low) after ∧ after.Over ∧ after.value = low + 2 + kept := by
  obtain ⟨first, second, different⟩ := exists_pair_ne ι
  have there : samples ≤ ∑ _other ∈ Finset.univ.erase first, samples := by
    apply Finset.single_le_sum_of_canonicallyOrdered (f := fun _ => samples)
    exact Finset.mem_erase.mpr ⟨different.symm, Finset.mem_univ second⟩
  obtain ⟨early, leads, idle, mine, value, others⟩ := leads_losing first
    (show 0 < samples by omega) low ((∑ _other ∈ Finset.univ.erase first, samples) - 1) (by omega)
  obtain ⟨after, onward, ended, reached⟩ := leads_spanned first idle (by omega) kept (by omega)
  exact ⟨after, leads.trans onward, ended, by omega⟩

/-- The numbers that can be left are those from two increments up to all of them. -/
theorem left_iff [Nontrivial ι] (several : 2 ≤ samples) (low value : ℤ) :
    (∃ race, Leads (Race.start ι samples low) race ∧ race.Over ∧ race.value = value) ↔
      low + 2 ≤ value ∧ value ≤ low + (Fintype.card ι * samples : ℕ) := by
  constructor
  · rintro ⟨race, ⟨trace, run, meets⟩, ended, rfl⟩
    have sound := run.invariant meets (sound_start (show 0 < samples by omega) low)
      (fun _ _ _ held _ moved => held.next several moved)
    exact sound.final ended
  · rintro ⟨least, most⟩
    by_cases few : value < low + samples
    · obtain ⟨race, leads, ended, same⟩ := leads_few (ι := ι) several low (value - low - 2).toNat
        (by omega)
      exact ⟨race, leads, ended, by omega⟩
    · have all : samples + ∑ _other ∈ Finset.univ.erase (Classical.arbitrary ι), samples =
          Fintype.card ι * samples := by
        rw [Finset.add_sum_erase Finset.univ (fun _ => samples) (Finset.mem_univ _),
          Finset.sum_const_nat (fun _ _ => rfl), Finset.card_univ]
      obtain ⟨race, leads, ended, same⟩ := leads_many (Classical.arbitrary ι)
        (show 0 < samples by omega) low (low + (Fintype.card ι * samples : ℕ) - value).toNat
        (by omega)
      exact ⟨race, leads, ended, by omega⟩

end QueueBench.LostUpdate
