import Mathlib.Data.List.TakeWhile
import PathAlias.Proofs.Reference.Occurrence

/-!
Contract: when a specifier is one literal, and what it is otherwise.

Owns:
- occurrences whose specifier is one literal;
- the end of a specifier against the first quote behind the opening one;
- the main statement: a specifier is one literal exactly when the closing text
  follows the first literal, and in a clause it always is.

Does not own: what becomes of a specifier that is more than a literal.

A specifier ends at a quote that the closing text follows, and passes over every
other one.  A call whose argument goes on behind its first literal is therefore
read up to the end of the last literal, with the code in between.
-/

set_option autoImplicit false

namespace PathAlias.Reference

namespace Occurrence

def remaining (occurrence : Occurrence) : Text := occurrence.specifier ++ occurrence.after

/-- The specifier is one literal: the quote directly in front of it does not
stand in it. -/
def IsLiteral (occurrence : Occurrence) : Prop :=
  ∀ quote ∈ occurrence.before.getLast?, quote ∉ occurrence.specifier

instance (occurrence : Occurrence) : Decidable occurrence.IsLiteral :=
  match last : occurrence.before.getLast? with
  | none => isTrue (by simp [IsLiteral, last])
  | some quote => decidable_of_iff (quote ∉ occurrence.specifier) (by simp [IsLiteral, last])

theorem isLiteral_iff_of_before {occurrence : Occurrence} {front : Text} {quote : Char}
    (before : occurrence.before = front ++ [quote]) :
    occurrence.IsLiteral ↔ quote ∉ occurrence.specifier := by
  unfold IsLiteral
  rw [before, List.getLast?_concat]
  simp

end Occurrence

namespace Pattern

/-! ## The first quote -/

section

variable {quote : Char} {closing text before after : Text}

theorem Divides.takeWhile_eq (divided : Divides (quote :: closing) text before after)
    (quoteFree : quote ∉ before) : text.takeWhile (· ≠ quote) = before := by
  have passed : ∀ symbol ∈ before, decide (symbol ≠ quote) = true := by
    intro symbol member
    exact decide_eq_true fun same => quoteFree (same ▸ member)
  obtain ⟨rest, isAfter⟩ := divided.ended
  rw [divided.whole, List.takeWhile_append_of_pos passed, ← isAfter]
  simp

theorem Divides.dropWhile_eq (divided : Divides (quote :: closing) text before after)
    (quoteFree : quote ∉ before) : text.dropWhile (· ≠ quote) = after := by
  have whole : text.takeWhile (· ≠ quote) ++ text.dropWhile (· ≠ quote) = before ++ after :=
    (List.takeWhile_append_dropWhile ..).trans divided.whole
  rw [divided.takeWhile_eq quoteFree] at whole
  exact List.append_cancel_left whole

theorem not_mem_takeWhile_ne (quote : Char) (text : Text) :
    quote ∉ text.takeWhile (· ≠ quote) := by
  intro member
  have different := List.mem_takeWhile_imp member
  simp at different

/-- A specifier passes over every quote that the closing does not follow. -/
theorem Divides.not_closed (divided : Divides (quote :: closing) text before after)
    {inner others : Text} (isBefore : before = inner ++ quote :: others) :
    ¬ closing <+: others ++ after := by
  intro closed
  have ended : quote :: closing <+: quote :: (others ++ after) :=
    List.cons_prefix_cons.2 ⟨rfl, closed⟩
  have whole : text = inner ++ quote :: (others ++ after) := by
    rw [divided.whole, isBefore, List.append_assoc, List.cons_append]
  have bound := divided.shortest inner _ whole ended
  rw [isBefore, List.length_append, List.length_cons] at bound
  omega

/-- A specifier holds no quote exactly when the closing follows the first
one. -/
theorem Divides.not_mem_iff (divided : Divides (quote :: closing) text before after) :
    quote ∉ before ↔ quote :: closing <+: text.dropWhile (· ≠ quote) := by
  constructor
  · intro quoteFree
    rw [divided.dropWhile_eq quoteFree]
    exact divided.ended
  · intro closed
    have bound := divided.shortest (text.takeWhile (· ≠ quote)) (text.dropWhile (· ≠ quote))
      (List.takeWhile_append_dropWhile ..).symm closed
    have isFront : before <+: text.takeWhile (· ≠ quote) :=
      List.prefix_of_prefix_length_le ⟨after, divided.whole.symm⟩
        (List.takeWhile_prefix _) bound
    exact fun member => not_mem_takeWhile_ne quote text (isFront.subset member)

end

end Pattern

/-! ## The reference of a line -/

/-- **A specifier is one literal exactly when the closing text follows the first
literal.**  Then it is the text up to the first quote like the one in front of
it.  A clause has no closing text, so that its specifier always is.  In a call,
the specifier passes over the quotes that the closing text does not follow. -/
theorem isLiteral_iff_of_find? {line : Text} {occurrence : Occurrence}
    (found : find? line = some occurrence) :
    ∃ pattern ∈ Pattern.all, ∃ quote, isQuote quote = true
      ∧ pattern.opening ++ [quote] <:+ occurrence.before
      ∧ (occurrence.IsLiteral
        ↔ quote :: pattern.closing <+: occurrence.remaining.dropWhile (· ≠ quote))
      ∧ (occurrence.IsLiteral
        ↔ occurrence.specifier = occurrence.remaining.takeWhile (· ≠ quote))
      ∧ (pattern = Pattern.fromClause → occurrence.IsLiteral)
      ∧ ∀ inner others, occurrence.specifier = inner ++ quote :: others →
        ¬ pattern.closing <+: others ++ occurrence.after := by
  obtain ⟨stronger, pattern, weaker, listed, first, -⟩ := find?_eq_some_iff.1 found
  obtain ⟨earlier, quote, isFirst⟩ := Pattern.first?_eq_some_iff.1 first
  have isLiteral : occurrence.IsLiteral ↔ quote ∉ occurrence.specifier := by
    apply Occurrence.isLiteral_iff_of_before
    rw [isFirst.before, ← List.append_assoc]
  have divided : Pattern.Divides (quote :: pattern.closing) occurrence.remaining
      occurrence.specifier occurrence.after := isFirst.divided
  refine ⟨pattern, by rw [listed]; simp, quote, isFirst.quoted, ?_, ?_, ?_, ?_, ?_⟩
  · exact ⟨earlier, isFirst.before.symm⟩
  · rw [isLiteral]
    exact divided.not_mem_iff
  · rw [isLiteral]
    constructor
    · intro quoteFree
      exact (divided.takeWhile_eq quoteFree).symm
    · intro taken
      rw [taken]
      exact Pattern.not_mem_takeWhile_ne quote _
  · rintro rfl
    rw [isLiteral]
    intro member
    obtain ⟨inner, others, isSpecifier⟩ := List.append_of_mem member
    exact divided.not_closed isSpecifier List.nil_prefix
  · intro inner others isSpecifier
    exact divided.not_closed isSpecifier

/-- A call with two literals for arguments has both of them, and the comma
between them, for a specifier. -/
theorem isLiteral_iff_of_find?_twoArguments :
    find? "x = require('a', 'b')".toList
        = some ⟨"x = require('".toList, "a', 'b".toList, "')".toList⟩
      ∧ ∃ pattern ∈ Pattern.all, ∃ quote,
        pattern.opening ++ [quote] <:+ "x = require('".toList
          ∧ ¬ quote :: pattern.closing <+: "a', 'b')".toList.dropWhile (· ≠ quote) := by
  have found : find? "x = require('a', 'b')".toList
      = some ⟨"x = require('".toList, "a', 'b".toList, "')".toList⟩ := by decide +kernel
  have several : ¬ Occurrence.IsLiteral
      ⟨"x = require('".toList, "a', 'b".toList, "')".toList⟩ := by decide +kernel
  obtain ⟨pattern, listed, quote, -, opened, exactly, -⟩ := isLiteral_iff_of_find? found
  exact ⟨found, pattern, listed, quote, opened, fun closed => several (exactly.2 closed)⟩

/-- Two literals that a call joins are one specifier, and no literal. -/
theorem not_isLiteral_joinedLiterals :
    find? "import(\"a\" + \"b\")".toList
        = some ⟨"import(\"".toList, "a\" + \"b".toList, "\")".toList⟩
      ∧ '"' ∈ "a\" + \"b".toList
      ∧ ¬ Occurrence.IsLiteral ⟨"import(\"".toList, "a\" + \"b".toList, "\")".toList⟩ := by
  decide +kernel

end PathAlias.Reference
