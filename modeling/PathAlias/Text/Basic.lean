/-!
Contract: text as a list of characters, measured and cut in UTF-8 bytes.

Owns:
- the type `Text` and its width in bytes;
- cutting a text at a byte offset, which succeeds only between two characters;
- replacing one character by another.

Does not own: the bytes themselves (`PathAlias.Utf8`), spans and their
replacement (`PathAlias.Span`), or splitting at a separator
(`PathAlias.Separated`).
-/

set_option autoImplicit false

namespace PathAlias

/-- Unicode text.  A list of characters, so that every function on text is a
recursion on its characters. -/
abbrev Text := List Char

namespace Text

def byteLength : Text → Nat
  | [] => 0
  | symbol :: rest => symbol.utf8Size + byteLength rest

@[simp]
theorem byteLength_nil : byteLength [] = 0 := rfl

@[simp]
theorem byteLength_cons (symbol : Char) (rest : Text) :
    byteLength (symbol :: rest) = symbol.utf8Size + byteLength rest := rfl

@[simp]
theorem byteLength_append (left right : Text) :
    byteLength (left ++ right) = byteLength left + byteLength right := by
  induction left with
  | nil => simp
  | cons symbol rest inductionHypothesis =>
      simp [inductionHypothesis, Nat.add_assoc]

/-- The two parts of a text around a byte offset.  There are none when the
offset lies beyond the end or inside a character. -/
def cutAt? : Nat → Text → Option (Text × Text)
  | 0, text => some ([], text)
  | _ + 1, [] => none
  | offset + 1, symbol :: rest =>
      if symbol.utf8Size ≤ offset + 1 then
        (cutAt? (offset + 1 - symbol.utf8Size) rest).map
          fun (before, after) => (symbol :: before, after)
      else none

/-- A cut exists exactly where the first part has the offset as its width. -/
theorem cutAt?_eq_some_iff {offset : Nat} {text before after : Text} :
    cutAt? offset text = some (before, after)
      ↔ text = before ++ after ∧ byteLength before = offset := by
  induction text generalizing offset before with
  | nil =>
      cases offset with
      | zero => cases before <;> simp [cutAt?, eq_comm]
      | succ offset =>
          cases before with
          | nil => simp [cutAt?]
          | cons => simp [cutAt?]
  | cons symbol rest inductionHypothesis =>
      cases offset with
      | zero =>
          cases before with
          | nil => simp [cutAt?, eq_comm]
          | cons first others =>
              have positive := first.utf8Size_pos
              simp only [cutAt?, Option.some.injEq, Prod.mk.injEq, reduceCtorEq, false_and,
                byteLength_cons, false_iff, not_and]
              omega
      | succ offset =>
          cases before with
          | nil => simp [cutAt?]
          | cons first others =>
              simp only [cutAt?, byteLength_cons, List.cons_append, List.cons.injEq]
              split
              · rename_i fits
                simp only [Option.map_eq_some_iff, Prod.mk.injEq, List.cons.injEq, Prod.exists]
                constructor
                · rintro ⟨head, tail, found, ⟨rfl, rfl⟩, rfl⟩
                  obtain ⟨rfl, width⟩ := inductionHypothesis.1 found
                  exact ⟨⟨rfl, rfl⟩, by omega⟩
                · rintro ⟨⟨rfl, rfl⟩, width⟩
                  exact ⟨others, after, inductionHypothesis.2 ⟨rfl, by omega⟩, ⟨rfl, rfl⟩, rfl⟩
              · rename_i tooWide
                simp only [reduceCtorEq, false_iff, not_and]
                rintro ⟨rfl, rfl⟩ width
                omega

def replaceChar (old new : Char) (text : Text) : Text :=
  text.map fun symbol => if symbol = old then new else symbol

theorem replaceChar_of_not_mem {old new : Char} {text : Text} (absent : old ∉ text) :
    text.replaceChar old new = text := by
  unfold replaceChar
  refine (List.map_congr_left fun symbol member => ?_).trans (List.map_id text)
  rw [if_neg]
  · rfl
  · rintro rfl
    exact absent member

@[simp]
theorem length_replaceChar (old new : Char) (text : Text) :
    (text.replaceChar old new).length = text.length := List.length_map _

theorem replaceChar_replaceChar {old new : Char} (different : new ≠ old) (text : Text) :
    (text.replaceChar old new).replaceChar old new = text.replaceChar old new := by
  apply replaceChar_of_not_mem
  intro present
  obtain ⟨symbol, -, same⟩ := List.mem_map.1 present
  split at same
  · exact different same
  · contradiction

/-- A text that shows nothing new has had nothing replaced. -/
theorem eq_of_replaceChar {old new : Char} {text shown : Text}
    (replaced : text.replaceChar old new = shown) (absent : new ∉ shown) : text = shown := by
  rw [← replaced, replaceChar_of_not_mem]
  intro present
  apply absent
  rw [← replaced]
  exact List.mem_map.2 ⟨old, present, if_pos rfl⟩

end Text

end PathAlias
