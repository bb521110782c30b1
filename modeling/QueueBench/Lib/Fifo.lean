import Mathlib.Data.List.Basic

/-! The first-in-first-out queue as an abstract data type, and what it takes for an
implementation to serve sequences of calls like it. -/

namespace QueueBench.Fifo

variable {α β σ : Type*}

inductive Op (α : Type*) where
  | put (item : α)
  | get
deriving DecidableEq, Repr

def puts : List (Op α) → List α
  | [] => []
  | .put item :: rest => item :: puts rest
  | .get :: rest => puts rest

def gets : List (Op α) → ℕ
  | [] => 0
  | .put _ :: rest => gets rest
  | .get :: rest => gets rest + 1

/-- Every get finds an item and every put finds room and an item that may join those
outstanding. -/
def Admits (capacity : ℕ) (joins : List α → α → Prop) : List α → List (Op α) → Prop
  | _, [] => True
  | items, .put item :: rest =>
      items.length < capacity ∧ joins items item ∧ Admits capacity joins (items ++ [item]) rest
  | [], .get :: _ => False
  | _ :: items, .get :: rest => Admits capacity joins items rest

def answers : List α → List (Op α) → List α
  | _, [] => []
  | items, .put item :: rest => answers (items ++ [item]) rest
  | [], .get :: rest => answers [] rest
  | item :: items, .get :: rest => item :: answers items rest

variable {capacity : ℕ} {joins : List α → α → Prop}

/-- A first-in-first-out queue answers with the items in the order they were put. -/
theorem answers_eq {items : List α} {ops : List (Op α)}
    (admits : Admits capacity joins items ops) :
    answers items ops = (items ++ puts ops).take (gets ops) := by
  induction ops generalizing items with
  | nil => rw [gets, List.take_zero, answers]
  | cons op rest ih =>
      cases op with
      | put item =>
          rw [answers, puts, gets, ih admits.2.2, List.append_assoc, List.singleton_append]
      | get =>
          cases items with
          | nil => exact admits.elim
          | cons item items =>
              rw [answers, puts, gets, List.cons_append, List.take_succ_cons, ih admits]

inductive Serves (put : α → σ → σ → Prop) (get : β → σ → σ → Prop) :
    σ → List (Op α) → List β → σ → Prop where
  | nil (state : σ) : Serves put get state [] [] state
  | put {state next final : σ} {item : α} {rest : List (Op α)} {outs : List β}
      (done : put item state next) (later : Serves put get next rest outs final) :
      Serves put get state (.put item :: rest) outs final
  | get {state next final : σ} {out : β} {rest : List (Op α)} {outs : List β}
      (done : get out state next) (later : Serves put get next rest outs final) :
      Serves put get state (.get :: rest) (out :: outs) final

/-- The implementation states represent lists of items, and as long as fewer than
`limit` calls have been made each call keeps the representation. -/
structure Refines (capacity limit : ℕ) (joins : List α → α → Prop)
    (put : α → σ → σ → Prop) (get : β → σ → σ → Prop) (encode : α → β)
    (rep : ℕ → σ → List α → Prop) : Prop where
  put_step : ∀ calls state items item, rep calls state items → calls < limit →
    items.length < capacity → joins items item →
    ∃ next, put item state next ∧ rep (calls + 1) next (items ++ [item])
  get_step : ∀ calls state items item, rep calls state (item :: items) → calls < limit →
    ∃ next, get (encode item) state next ∧ rep (calls + 1) next items

variable {put : α → σ → σ → Prop} {get : β → σ → σ → Prop} {encode : α → β}
variable {rep : ℕ → σ → List α → Prop} {limit : ℕ}

/-- The refinement rule: such an implementation answers like the abstract queue. -/
theorem Refines.serves (refines : Refines capacity limit joins put get encode rep)
    {calls : ℕ} {state : σ} {items : List α} {ops : List (Op α)}
    (holds : rep calls state items) (admits : Admits capacity joins items ops)
    (few : calls + ops.length ≤ limit) :
    ∃ final, Serves put get state ops ((answers items ops).map encode) final := by
  induction ops generalizing calls state items with
  | nil => exact ⟨state, .nil state⟩
  | cons op rest ih =>
      rw [List.length_cons] at few
      cases op with
      | put item =>
          obtain ⟨next, done, after⟩ := refines.put_step calls state items item holds
            (by omega) admits.1 admits.2.1
          obtain ⟨final, later⟩ := ih after admits.2.2 (by omega)
          exact ⟨final, .put done later⟩
      | get =>
          cases items with
          | nil => exact admits.elim
          | cons item items =>
              obtain ⟨next, done, after⟩ := refines.get_step calls state items item holds
                (by omega)
              obtain ⟨final, later⟩ := ih after admits (by omega)
              exact ⟨final, .get done later⟩

structure Deterministic (put : α → σ → σ → Prop) (get : β → σ → σ → Prop) : Prop where
  put_eq : ∀ item state next other, put item state next → put item state other → next = other
  get_eq : ∀ out result state next other, get out state next → get result state other →
    out = result ∧ next = other

theorem Serves.unique {state final other : σ} {ops : List (Op α)} {outs results : List β}
    (det : Deterministic put get) (left : Serves put get state ops outs final)
    (right : Serves put get state ops results other) : results = outs ∧ other = final := by
  induction left generalizing results with
  | nil state => cases right; exact ⟨rfl, rfl⟩
  | put done later ih =>
      cases right with
      | put also rest =>
          cases det.put_eq _ _ _ _ done also
          exact ih rest
  | get done later ih =>
      cases right with
      | get also rest =>
          obtain ⟨rfl, rfl⟩ := det.get_eq _ _ _ _ _ done also
          obtain ⟨same, last⟩ := ih rest
          exact ⟨by rw [same], last⟩

def Answers (put : α → σ → σ → Prop) (get : β → σ → σ → Prop) (state : σ) (ops : List (Op α))
    (outs : List β) : Prop :=
  (∃ final, Serves put get state ops outs final) ∧
    ∀ results final, Serves put get state ops results final → results = outs

theorem Refines.answers_fifo (refines : Refines capacity limit joins put get encode rep)
    (det : Deterministic put get) {state : σ} {ops : List (Op α)} (empty : rep 0 state [])
    (admits : Admits capacity joins [] ops) (few : ops.length ≤ limit) :
    Answers put get state ops (((puts ops).take (gets ops)).map encode) := by
  obtain ⟨final, serves⟩ := refines.serves empty admits (by omega)
  rw [answers_eq admits, List.nil_append] at serves
  exact ⟨⟨final, serves⟩, fun results other also => (serves.unique det also).1⟩

/-! ### Sequences that begin with puts -/

theorem Serves.append {state middle final : σ} {early late : List (Op α)} {outs results : List β}
    (before : Serves put get state early outs middle)
    (after : Serves put get middle late results final) :
    Serves put get state (early ++ late) (outs ++ results) final := by
  induction before with
  | nil state => exact after
  | put done _ ih => exact .put done (ih after)
  | get done _ ih => exact .get done (ih after)

theorem Serves.split {state final : σ} {early late : List (Op α)} {results : List β}
    (served : Serves put get state (early ++ late) results final) :
    ∃ middle first second, results = first ++ second ∧ Serves put get state early first middle ∧
      Serves put get middle late second final := by
  induction early generalizing state results with
  | nil => exact ⟨state, [], results, rfl, .nil state, served⟩
  | cons op early ih =>
      cases served with
      | put done later =>
          obtain ⟨middle, first, second, same, before, after⟩ := ih later
          exact ⟨middle, first, second, same, .put done before, after⟩
      | @get _ _ _ out _ _ done later =>
          obtain ⟨middle, first, second, same, before, after⟩ := ih later
          exact ⟨middle, out :: first, second, by rw [same]; rfl, .get done before, after⟩

theorem Serves.fill_invariant {inv : List α → σ → Prop}
    (keeps : ∀ items state item next, inv items state → put item state next →
      inv (items ++ [item]) next)
    {state final : σ} {items news : List α} {outs : List β} (holds : inv items state)
    (served : Serves put get state (news.map .put) outs final) : inv (items ++ news) final := by
  induction news generalizing state items with
  | nil =>
      cases served
      rw [List.append_nil]
      exact holds
  | cons item news ih =>
      cases served with
      | put done later =>
          have kept := ih (keeps items state item _ holds done) later
          rwa [List.append_assoc] at kept

theorem puts_append (items : List α) (rest : List (Op α)) :
    puts (items.map .put ++ rest) = items ++ puts rest := by
  induction items with
  | nil => rfl
  | cons item items ih => rw [List.map_cons, List.cons_append, puts, ih, List.cons_append]

theorem gets_append (items : List α) (rest : List (Op α)) :
    gets (items.map .put ++ rest) = gets rest := by
  induction items with
  | nil => rfl
  | cons item items ih => rw [List.map_cons, List.cons_append, gets, ih]

theorem admits_append {items news : List α} {rest : List (Op α)}
    (free : ∀ items item, joins items item) (room : items.length + news.length ≤ capacity)
    (admits : Admits capacity joins (items ++ news) rest) :
    Admits capacity joins items (news.map .put ++ rest) := by
  induction news generalizing items with
  | nil =>
      rw [List.append_nil] at admits
      exact admits
  | cons item news ih =>
      rw [List.length_cons] at room
      refine ⟨by omega, free items item, ih ?_ ?_⟩
      · rw [List.length_append, List.length_singleton]
        omega
      · rw [List.append_assoc]
        exact admits

theorem Refines.fills (refines : Refines capacity limit joins put get encode rep)
    (free : ∀ items item, joins items item) {calls : ℕ} {state : σ} {items news : List α}
    (holds : rep calls state items) (room : items.length + news.length ≤ capacity)
    (few : calls + news.length ≤ limit) :
    ∃ final, Serves put get state (news.map .put) [] final ∧
      rep (calls + news.length) final (items ++ news) := by
  induction news generalizing calls state items with
  | nil =>
      rw [List.append_nil]
      exact ⟨state, .nil state, holds⟩
  | cons item news ih =>
      rw [List.length_cons] at room few
      obtain ⟨next, done, after⟩ := refines.put_step calls state items item holds (by omega)
        (by omega) (free items item)
      have longer : (items ++ [item]).length = items.length + 1 := by
        rw [List.length_append, List.length_singleton]
      obtain ⟨final, later, ends⟩ := ih after (by omega) (by omega)
      rw [List.append_assoc] at ends
      rw [List.length_cons, Nat.add_comm news.length 1, ← Nat.add_assoc]
      exact ⟨final, .put done later, ends⟩

/-! ### Queues that may be asked in vain -/

def replies : List α → List (Op α) → List (Option α)
  | _, [] => []
  | items, .put item :: rest => replies (items ++ [item]) rest
  | items, .get :: rest => items.head? :: replies items.tail rest

def outstanding : List α → List (Op α) → List α
  | items, [] => items
  | items, .put item :: rest => outstanding (items ++ [item]) rest
  | items, .get :: rest => outstanding items.tail rest

def Spacious (capacity : ℕ) : List α → List (Op α) → Prop
  | _, [] => True
  | items, .put item :: rest =>
      items.length < capacity ∧ Spacious capacity (items ++ [item]) rest
  | items, .get :: rest => Spacious capacity items.tail rest

/-- As `Refines`, for an implementation whose get has an answer for an empty queue too. -/
structure Polls (capacity limit : ℕ) (offers : α → Prop) (put : α → σ → σ → Prop)
    (get : β → σ → σ → Prop) (reply : Option α → β) (rep : ℕ → σ → List α → Prop) : Prop where
  put_step : ∀ calls state items item, rep calls state items → calls < limit →
    items.length < capacity → offers item →
    ∃ next, put item state next ∧ rep (calls + 1) next (items ++ [item])
  get_step : ∀ calls state items, rep calls state items → calls < limit →
    ∃ next, get (reply items.head?) state next ∧ rep (calls + 1) next items.tail

variable {offers : α → Prop} {reply : Option α → β}

theorem Polls.serves (polls : Polls capacity limit offers put get reply rep)
    {calls : ℕ} {state : σ} {items : List α} {ops : List (Op α)}
    (holds : rep calls state items) (spacious : Spacious capacity items ops)
    (offered : ∀ item ∈ puts ops, offers item) (few : calls + ops.length ≤ limit) :
    ∃ final, Serves put get state ops ((replies items ops).map reply) final ∧
      rep (calls + ops.length) final (outstanding items ops) := by
  induction ops generalizing calls state items with
  | nil => exact ⟨state, .nil state, holds⟩
  | cons op rest ih =>
      rw [List.length_cons] at few ⊢
      rw [Nat.add_comm rest.length 1, ← Nat.add_assoc]
      cases op with
      | put item =>
          obtain ⟨next, done, after⟩ := polls.put_step calls state items item holds (by omega)
            spacious.1 (offered item List.mem_cons_self)
          obtain ⟨final, later, ends⟩ := ih after spacious.2
            (fun other member => offered other (List.mem_cons_of_mem item member)) (by omega)
          exact ⟨final, .put done later, ends⟩
      | get =>
          obtain ⟨next, done, after⟩ := polls.get_step calls state items holds (by omega)
          obtain ⟨final, later, ends⟩ := ih after spacious offered (by omega)
          exact ⟨final, .get done later, ends⟩

/-! ### Bounded queues -/

def Attended (capacity : ℕ) : ℕ → List (Op α) → Prop
  | _, [] => True
  | count, .put _ :: rest =>
      Attended capacity (if count < capacity then count + 1 else count) rest
  | 0, .get :: _ => False
  | count + 1, .get :: rest => Attended capacity count rest

/-- The law of a bounded queue along a sequence of calls. `put item accepted` is a call of
put with its answer: a full queue knows that it is full, turns the item down and stays as it
is, and otherwise the item joins those outstanding. -/
def Lawful (capacity : ℕ) (put : α → Bool → σ → σ → Prop) (get : α → σ → σ → Prop)
    (full : σ → Prop) (holds : σ → List α → Prop) : σ → List α → List (Op α) → Prop
  | state, items, [] => items.length = capacity → full state
  | state, items, .put item :: rest =>
      (items.length = capacity → full state ∧ put item false state state ∧
        Lawful capacity put get full holds state items rest) ∧
      (items.length < capacity → ∃ next, put item true state next ∧
        holds next (items ++ [item]) ∧
        Lawful capacity put get full holds next (items ++ [item]) rest)
  | _, [], .get :: _ => False
  | state, item :: items, .get :: rest =>
      ∃ next, get item state next ∧ holds next items ∧
        Lawful capacity put get full holds next items rest

end QueueBench.Fifo
