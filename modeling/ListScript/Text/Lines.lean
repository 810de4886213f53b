/-!
# Lines of a text

* `splitAfter p xs` : `xs` cut after every element that satisfies `p`; nothing is lost
  (`flatten_splitAfter`) and no part is empty (`ne_nil_of_mem_splitAfter`);
* `lines s` : the lines of `s` as an editor numbers them, without their line ends. A line feed ends
  a line, together with one carriage return before it; any other carriage return is text.
-/

namespace ListScript.Text

/-- Cuts a list after every element that satisfies `p`. -/
def splitAfter {α : Type} (p : α → Bool) (xs : List α) : List (List α) :=
  xs.foldr (fun x parts =>
    if p x then [x] :: parts
    else match parts with
      | [] => [[x]]
      | part :: rest => (x :: part) :: rest) []

@[simp] theorem splitAfter_nil {α : Type} (p : α → Bool) : splitAfter p [] = [] := rfl

theorem splitAfter_cons {α : Type} (p : α → Bool) (x : α) (xs : List α) :
    splitAfter p (x :: xs) =
      if p x then [x] :: splitAfter p xs
      else match splitAfter p xs with
        | [] => [[x]]
        | part :: rest => (x :: part) :: rest := rfl

/-- The parts, put together, are the list that was cut. -/
theorem flatten_splitAfter {α : Type} (p : α → Bool) (xs : List α) :
    (splitAfter p xs).flatten = xs := by
  induction xs with
  | nil => rfl
  | cons x xs ih =>
    rw [splitAfter_cons]
    split
    · simp [ih]
    · split <;> simp_all

/-- No part is empty. -/
theorem ne_nil_of_mem_splitAfter {α : Type} (p : α → Bool) (xs : List α) :
    ∀ part ∈ splitAfter p xs, part ≠ [] := by
  induction xs with
  | nil => simp
  | cons x xs ih =>
    rw [splitAfter_cons]
    split
    · simpa using ih
    · split <;> simp_all

/-- A part without its line feed and the carriage return before that; a part without a line feed is
left as it is. -/
def dropLineEnd (part : List Char) : List Char :=
  match part.reverse with
  | '\n' :: '\r' :: text => text.reverse
  | '\n' :: text => text.reverse
  | _ => part

/-- The lines of a text, without their ends. Nothing follows the last line feed. -/
def lines (s : List Char) : List (List Char) :=
  (splitAfter (· == '\n') s).map dropLineEnd

/-- The line with the given number, counted from one. -/
def line? (s : List Char) (number : Nat) : Option (List Char) :=
  match number with
  | 0 => none
  | n + 1 => (lines s)[n]?

end ListScript.Text
