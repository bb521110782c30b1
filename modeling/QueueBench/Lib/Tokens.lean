import Mathlib.Data.List.TakeWhile

/-! A text taken apart at its separators, token by token, as strtok does it. -/

namespace QueueBench.Tokens

variable {α : Type*}

/-- `strtok`: the next token, and what lies behind the separator that ends it. -/
def strtok (separates : α → Bool) (text : List α) : Option (List α × List α) :=
  match text.dropWhile separates with
  | [] => none
  | first :: rest =>
      some (first :: rest.takeWhile (fun c => !separates c),
        (rest.dropWhile (fun c => !separates c)).tail)

/-- The pieces between the separators, without the empty ones. -/
def pieces (separates : α → Bool) (text : List α) : List (List α) :=
  (text.splitOnP separates).filter (fun piece => !piece.isEmpty)

variable {separates : α → Bool} {text rest token : List α}

theorem pieces_nil : pieces separates [] = [] := by
  rw [pieces, List.splitOnP_nil]
  rfl

theorem pieces_append {sep : α} (separator : separates sep = true) (early late : List α) :
    pieces separates (early ++ sep :: late) = pieces separates early ++ pieces separates late := by
  rw [pieces, List.splitOnP_append_cons early late separator, List.filter_append]
  rfl

theorem pieces_whole (whole : ∀ c ∈ token, separates c = false) (filled : token ≠ []) :
    pieces separates token = [token] := by
  rw [pieces, List.splitOnP_eq_singleton whole]
  cases token with
  | nil => exact absurd rfl filled
  | cons first rest => rfl

theorem pieces_dropWhile (text : List α) :
    pieces separates (text.dropWhile separates) = pieces separates text := by
  induction text with
  | nil => rfl
  | cons c text ih =>
      cases separator : separates c with
      | false => rw [List.dropWhile_cons_of_neg (by rw [separator]; exact Bool.false_ne_true)]
      | true =>
          rw [List.dropWhile_cons_of_pos separator, ih]
          have apart := pieces_append separator [] text
          rw [pieces_nil] at apart
          exact apart.symm

theorem dropWhile_begins {p : α → Bool} {first : α} (dropped : text.dropWhile p = first :: rest) :
    p first = false := by
  have head := List.head?_dropWhile_not p text
  rw [dropped] at head
  exact head

theorem strtok_none (nothing : strtok separates text = none) : pieces separates text = [] := by
  cases dropped : text.dropWhile separates with
  | nil => rw [← pieces_dropWhile, dropped, pieces_nil]
  | cons first behind =>
      rw [strtok, dropped] at nothing
      cases nothing

/-- A token is the first piece, and the others are those of what is left. -/
theorem strtok_some (found : strtok separates text = some (token, rest)) :
    pieces separates text = token :: pieces separates rest := by
  cases dropped : text.dropWhile separates with
  | nil =>
      rw [strtok, dropped] at found
      cases found
  | cons first behind =>
      rw [strtok, dropped] at found
      cases found
      rw [← pieces_dropWhile, dropped]
      have inside : ∀ c ∈ first :: behind.takeWhile (fun c => !separates c),
          separates c = false := by
        intro c member
        rcases List.mem_cons.mp member with rfl | later
        · exact dropWhile_begins dropped
        · have kept := List.mem_takeWhile_imp later
          rw [Bool.not_eq_true'] at kept
          exact kept
      have token := pieces_whole inside (List.cons_ne_nil _ _)
      have whole := List.takeWhile_append_dropWhile (p := fun c => !separates c) (l := behind)
      cases ending : behind.dropWhile (fun c => !separates c) with
      | nil =>
          rw [ending, List.append_nil] at whole
          rw [whole] at token ⊢
          rw [token, List.tail_nil, pieces_nil]
      | cons sep later =>
          have separator : separates sep = true := by
            have ends := dropWhile_begins ending
            rw [Bool.not_eq_false'] at ends
            exact ends
          rw [ending] at whole
          have apart := pieces_append separator
            (first :: behind.takeWhile (fun c => !separates c)) later
          rw [List.cons_append, whole, token] at apart
          exact apart

theorem strtok_shorter (found : strtok separates text = some (token, rest)) :
    rest.length < text.length := by
  cases dropped : text.dropWhile separates with
  | nil =>
      rw [strtok, dropped] at found
      cases found
  | cons first behind =>
      rw [strtok, dropped] at found
      cases found
      have shorter := (List.dropWhile_suffix separates (l := text)).length_le
      rw [dropped, List.length_cons] at shorter
      have behindEnd := (List.dropWhile_suffix (fun c => !separates c) (l := behind)).length_le
      rw [List.length_tail]
      omega

theorem pieces_intercalate {sep : α} (separator : separates sep = true) {tokens : List (List α)}
    (whole : ∀ token ∈ tokens, token ≠ [] ∧ ∀ c ∈ token, separates c = false) :
    pieces separates ([sep].intercalate tokens) = tokens := by
  induction tokens with
  | nil => exact pieces_nil
  | cons token tokens ih =>
      obtain ⟨filled, inside⟩ := whole token List.mem_cons_self
      have later := ih (fun other member => whole other (List.mem_cons_of_mem token member))
      cases tokens with
      | nil =>
          rw [List.intercalate, List.intersperse_singleton, List.flatten_singleton]
          exact pieces_whole inside filled
      | cons next tokens =>
          rw [List.intercalate, List.intersperse_cons_cons, List.flatten_cons, List.flatten_cons,
            List.singleton_append, pieces_append separator, pieces_whole inside filled]
          exact congrArg (token :: ·) later

end QueueBench.Tokens
