import ListScript.Source
import Mathlib.Data.List.Basic

/-!
# The lines of a text and of its bytes

* `Text.Parts p parts` : each part ends with its only element that satisfies `p`, except that the last
  part may lack it (`Text.parts_splitAfter`);
* `Text.splitAfter_append_of_whole` : lists are cut one after the other if the first ends with a cut;
* `Text.splitAfter_flatMap` : cutting an encoded list is encoding the parts of the list;
* `Source.decode_encode`, `Source.encode_of_decode` : bytes are the text that they encode;
* `Source.ofBytes_toUTF8` : the bytes of a text are a source of that text.
-/

namespace ListScript

namespace Text

variable {α β : Type} {p : α → Bool} {q : β → Bool}

/-- Each part ends with its only element that satisfies `p`; the last part may lack it. -/
inductive Parts (p : α → Bool) : List (List α) → Prop
  | nil : Parts p []
  | last {part : List α} (ne : part ≠ []) (h : ∀ x ∈ part, p x = false) : Parts p [part]
  | cons {body : List α} {x : α} {parts : List (List α)} (hbody : ∀ y ∈ body, p y = false)
    (hx : p x = true) (rest : Parts p parts) : Parts p ((body ++ [x]) :: parts)

theorem parts_splitAfter (p : α → Bool) (xs : List α) : Parts p (splitAfter p xs) := by
  induction xs with
  | nil => exact .nil
  | cons x xs ih =>
    rw [splitAfter_cons]
    split
    · next hx =>
      have hnone : ∀ y ∈ ([] : List α), p y = false := nofun
      exact .cons hnone hx ih
    · next hx =>
      have hx : p x = false := by simpa using hx
      generalize splitAfter p xs = parts at ih
      cases ih with
      | nil => exact .last (by simp) (by simpa using hx)
      | @last part ne h => exact .last (by simp) (by simpa using ⟨hx, h⟩)
      | @cons body y parts hbody hy rest =>
        have hall : ∀ z ∈ x :: body, p z = false := by simpa using ⟨hx, hbody⟩
        exact .cons hall hy rest

/-- Nothing is cut before the first element that satisfies `p`. -/
theorem splitAfter_append {ws : List α} (hne : ws ≠ []) (h : ∀ x ∈ ws, p x = false)
    (xs : List α) : splitAfter p (ws ++ xs) =
      match splitAfter p xs with
      | [] => [ws]
      | part :: rest => (ws ++ part) :: rest := by
  induction ws with
  | nil => exact absurd rfl hne
  | cons w ws ih =>
    have hw : p w = false := h w (List.mem_cons_self)
    rw [List.cons_append, splitAfter_cons, if_neg (by simp [hw])]
    cases ws with
    | nil => rfl
    | cons w' ws' =>
      rw [ih (by simp) fun x hx => h x (List.mem_cons_of_mem _ hx)]
      cases splitAfter p xs <;> rfl

/-- A part is cut off after its only element that satisfies `p`. -/
theorem splitAfter_append_cons {body : List α} (hbody : ∀ y ∈ body, p y = false) {x : α}
    (hx : p x = true) (xs : List α) :
    splitAfter p (body ++ x :: xs) = (body ++ [x]) :: splitAfter p xs := by
  have hcons : splitAfter p (x :: xs) = [x] :: splitAfter p xs := by
    rw [splitAfter_cons, if_pos hx]
  cases body with
  | nil => exact hcons
  | cons y body => rw [splitAfter_append (by simp) hbody, hcons]

/-- The parts of a list are found again in it. -/
theorem Parts.splitAfter_flatten {parts : List (List α)} (h : Parts p parts) :
    splitAfter p parts.flatten = parts := by
  induction h with
  | nil => rfl
  | @last part ne hpart =>
    rw [List.flatten_singleton]
    simpa using splitAfter_append ne hpart []
  | @cons body x parts hbody hx _ ih =>
    rw [List.flatten_cons, List.append_assoc, List.singleton_append,
      splitAfter_append_cons hbody hx, ih]

theorem eq_nil_of_splitAfter {xs : List α} (h : splitAfter p xs = []) : xs = [] := by
  rw [← flatten_splitAfter p xs, h, List.flatten_nil]

/-- The list is empty or ends with a cut. -/
def Whole (p : α → Bool) (xs : List α) : Prop := ∀ x, xs.getLast? = some x → p x = true

theorem Whole.of_cons {x : α} {xs : List α} (h : Whole p (x :: xs)) : Whole p xs := by
  intro y hy
  refine h y ?_
  rw [List.getLast?_cons, hy]
  rfl

theorem whole_concat (xs : List α) {x : α} (hx : p x = true) : Whole p (xs ++ [x]) := by
  intro y hy
  rw [List.getLast?_concat] at hy
  cases hy
  exact hx

/-- Two lists are cut one after the other if the first one ends with a cut. -/
theorem splitAfter_append_of_whole {xs : List α} (h : Whole p xs) (ys : List α) :
    splitAfter p (xs ++ ys) = splitAfter p xs ++ splitAfter p ys := by
  induction xs with
  | nil => rfl
  | cons x xs ih =>
    rw [List.cons_append, splitAfter_cons, splitAfter_cons, ih h.of_cons]
    split
    · rfl
    · next hx =>
      cases hparts : splitAfter p xs with
      | cons part parts => rfl
      | nil =>
        -- then nothing follows `x`, which is no end
        obtain rfl := eq_nil_of_splitAfter hparts
        exact absurd (h x rfl) hx

/-- Every part of a list that ends with a cut does so. -/
theorem Whole.any_of_mem {xs part : List α} (h : Whole p xs) (hmem : part ∈ splitAfter p xs) :
    part.any p = true := by
  have hparts := parts_splitAfter p xs
  rw [← flatten_splitAfter p xs] at h
  generalize splitAfter p xs = parts at hparts h hmem
  induction hparts with
  | nil => cases hmem
  | @last last ne hlast =>
    have hend := h (last.getLast ne) (by simp [List.getLast?_eq_some_getLast ne])
    rw [hlast _ (List.getLast_mem ne)] at hend
    cases hend
  | @cons body x parts hbody hx _ ih =>
    obtain rfl | hmem := List.mem_cons.mp hmem
    · simp [hx]
    · refine ih (fun y hy => h y ?_) hmem
      rw [List.flatten_cons, List.getLast?_append, hy]
      rfl

/-- There are as many parts as cuts if the list ends with one. -/
theorem Whole.length_splitAfter {xs : List α} (h : Whole p xs) :
    (splitAfter p xs).length = xs.countP p := by
  induction xs with
  | nil => rfl
  | cons x xs ih =>
    have ih := ih h.of_cons
    rw [splitAfter_cons, List.countP_cons, ← ih]
    split
    · rfl
    · next hx =>
      cases hparts : splitAfter p xs with
      | cons part parts => rfl
      | nil =>
        obtain rfl := eq_nil_of_splitAfter hparts
        exact absurd (h x rfl) hx

/-- Cutting what a list encodes is encoding what the list is cut into, if the code of an element ends
a part just where the element does. -/
theorem splitAfter_flatMap {f : α → List β}
    (hend : ∀ x, p x = true → ∃ y, f x = [y] ∧ q y = true)
    (hgo : ∀ x, p x = false → f x ≠ [] ∧ ∀ y ∈ f x, q y = false) (xs : List α) :
    splitAfter q (xs.flatMap f) = (splitAfter p xs).map (List.flatMap f) := by
  induction xs with
  | nil => rfl
  | cons x xs ih =>
    rw [List.flatMap_cons, splitAfter_cons]
    cases hx : p x with
    | true =>
      obtain ⟨y, hy, hq⟩ := hend x hx
      rw [hy, List.singleton_append, splitAfter_cons, if_pos hq, ih]
      simp [hy]
    | false =>
      obtain ⟨hne, hnot⟩ := hgo x hx
      rw [splitAfter_append hne hnot, ih]
      cases splitAfter p xs <;> simp

end Text

namespace Source

/-- The bytes of a text. -/
def encode (text : List Char) : List UInt8 := text.flatMap String.utf8EncodeChar

/-- Bytes are a text if they are the bytes of one. -/
theorem decode_encode (text : List Char) : decode (encode text) = some text := by
  have h : ByteArray.mk (encode text).toArray = text.utf8Encode :=
    ByteArray.ext List.data_toByteArray.symm
  rw [decode, h, List.utf8Decode?_utf8Encode]
  simp

/-- Bytes that are a text are the bytes of that text. -/
theorem encode_of_decode {bytes : List UInt8} {text : List Char} (h : decode bytes = some text) :
    encode text = bytes := by
  have hsome : (ByteArray.mk bytes.toArray).utf8Decode?.isSome := by
    rw [decode, Option.map_eq_some_iff] at h
    obtain ⟨chars, hchars, -⟩ := h
    rw [hchars]
    rfl
  obtain ⟨text', htext'⟩ := ByteArray.isSome_utf8Decode?_iff.mp hsome
  have hbytes : encode text' = bytes := by
    have hlist := congrArg (fun array => array.data.toList) htext'
    rw [encode, ← List.toList_data_toByteArray (l := text'.flatMap _), ← List.utf8Encode]
    exact hlist.symm
  rw [← hbytes, decode_encode] at h
  cases h
  exact hbytes

/-- Only the line feed has the byte of a line feed in its code. -/
theorem lineFeed_mem_utf8EncodeChar {c : Char} (h : 10 ∈ String.utf8EncodeChar c) : c = '\n' := by
  have hbyte : ∀ n, (10 : UInt8) = UInt8.ofNat n → n % 256 = 10 := fun n hn => by
    have := congrArg UInt8.toNat hn
    simpa using this.symm
  have hval : c.val.toNat = 10 := by
    revert h
    fun_cases String.utf8EncodeChar <;> intro h <;>
      simp only [List.mem_cons, List.not_mem_nil, or_false] at h
    · have := hbyte _ h
      omega
    · obtain h | h := h <;> have := hbyte _ h <;> omega
    · obtain h | h | h := h <;> have := hbyte _ h <;> omega
    · obtain h | h | h | h := h <;> have := hbyte _ h <;> omega
  exact Char.ext (UInt32.toNat_inj.mp hval)

/-- The lines of the bytes of a text are the bytes of its lines. -/
theorem splitAfter_encode (text : List Char) : Text.splitAfter isLineFeed (encode text) =
    (Text.splitAfter (· == '\n') text).map encode := by
  refine Text.splitAfter_flatMap (fun c hc => ?_) (fun c hc => ⟨?_, ?_⟩) text
  · obtain rfl : c = '\n' := by simpa using hc
    exact ⟨10, rfl, rfl⟩
  · exact String.utf8EncodeChar_ne_nil
  · intro byte hbyte
    by_contra hfeed
    obtain rfl : byte = 10 := by simpa [isLineFeed] using hfeed
    obtain rfl := lineFeed_mem_utf8EncodeChar hbyte
    cases hc

/-- The bytes of a text are read as the lines of the text. -/
theorem ofBytes_encode (text : List Char) : ofBytes (encode text) none = ofChars text := by
  rw [ofBytes, ofChars, splitAfter_encode, List.map_map]
  congr 2
  funext line
  simp [readingOf, readingOfLine, decode_encode]

theorem encode_toList (text : String) : encode text.toList = text.toUTF8.data.toList := by
  rw [encode, ← List.toList_data_toByteArray (l := text.toList.flatMap _), ← List.utf8Encode,
    String.utf8Encode_toList]
  rfl

/-- The bytes of a text are read as the text. -/
theorem ofBytes_toUTF8 (text : String) : ofBytes text.toUTF8.data.toList none = ofText text := by
  rw [← encode_toList, ofBytes_encode, ofText]

end Source

end ListScript
