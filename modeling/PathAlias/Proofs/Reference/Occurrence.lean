import Mathlib.Algebra.GroupWithZero.Nat
import Mathlib.Data.List.Basic
import PathAlias.Reference.Pattern

/-!
Contract: what the search for references finds.

Owns:
- the division of a text at the first place of an ending, as a predicate;
- when an occurrence begins with a text, and which one it is;
- the first occurrence in a text, and the recursion of the count through it;
- the agreement of the search and the count on whether a line has a reference.

Does not own: what a replacement does to a line
(`PathAlias.Proofs.Reference.Replacement`).
-/

set_option autoImplicit false

namespace PathAlias.Reference

namespace Pattern

/-! ## The end of a specifier -/

/-- A text is divided at the first place of an ending, which stands on its
first line. -/
structure Divides (ending text before after : Text) : Prop where
  whole : text = before ++ after
  ended : ending <+: after
  oneLine : '\n' ∉ before
  shortest : ∀ shorter rest, text = shorter ++ rest → ending <+: rest →
    before.length ≤ shorter.length

theorem divides_here {ending text before after : Text} (here : ending <+: text) :
    Divides ending text before after ↔ before = [] ∧ after = text := by
  constructor
  · intro divided
    have bound := divided.shortest [] text rfl here
    have isEmpty : before = [] := List.length_eq_zero_iff.1 (Nat.le_zero.1 bound)
    have whole := divided.whole
    rw [isEmpty, List.nil_append] at whole
    exact ⟨isEmpty, whole.symm⟩
  · rintro ⟨rfl, rfl⟩
    exact ⟨rfl, here, by simp, fun _ _ _ _ => Nat.zero_le _⟩

theorem divides_cons {ending rest before after : Text} {symbol : Char}
    (notHere : ¬ ending <+: symbol :: rest) :
    Divides ending (symbol :: rest) before after
      ↔ ∃ others, before = symbol :: others ∧ symbol ≠ '\n' ∧ Divides ending rest others after := by
  -- every division takes the first character, as the ending does not stand here
  have taken : ∀ front back, symbol :: rest = front ++ back → ending <+: back →
      ∃ others, front = symbol :: others ∧ rest = others ++ back := by
    intro front back whole ended
    rcases List.cons_eq_append_iff.1 whole with ⟨isEmpty, isBack⟩ | taken
    · rw [isBack] at ended
      exact absurd ended notHere
    · exact taken
  constructor
  · intro divided
    obtain ⟨others, rfl, isRest⟩ := taken before after divided.whole divided.ended
    have oneLine := divided.oneLine
    rw [List.mem_cons, not_or] at oneLine
    refine ⟨others, rfl, fun same => oneLine.1 same.symm, isRest, divided.ended, oneLine.2, ?_⟩
    intro shorter remaining whole ended
    have bound := divided.shortest (symbol :: shorter) remaining
      (by rw [whole, List.cons_append]) ended
    exact Nat.le_of_succ_le_succ bound
  · rintro ⟨others, rfl, notNewline, divided⟩
    refine ⟨by rw [divided.whole, List.cons_append], divided.ended, ?_, ?_⟩
    · rw [List.mem_cons, not_or]
      exact ⟨fun same => notNewline same.symm, divided.oneLine⟩
    · intro shorter remaining whole ended
      obtain ⟨others', rfl, isRest⟩ := taken shorter remaining whole ended
      exact Nat.succ_le_succ (divided.shortest others' remaining isRest ended)

theorem divideBefore?_eq_some_iff {ending : Text} (nonempty : ending ≠ [])
    {text before after : Text} :
    divideBefore? ending text = some (before, after) ↔ Divides ending text before after := by
  induction text generalizing before with
  | nil =>
      constructor
      · intro found
        cases found
      · intro divided
        have isEmpty := List.append_eq_nil_iff.1 divided.whole.symm
        have ended := divided.ended
        rw [isEmpty.2, List.prefix_nil] at ended
        exact absurd ended nonempty
  | cons symbol rest inductionHypothesis =>
      simp only [divideBefore?, List.isPrefixOf_iff_prefix]
      split
      · rename_i here
        rw [divides_here here]
        simp [eq_comm]
      · rename_i notHere
        rw [divides_cons notHere]
        split
        · rename_i newline
          simp [newline]
        · rename_i notNewline
          simp only [Option.map_eq_some_iff, Prod.mk.injEq, Prod.exists]
          constructor
          · rintro ⟨others, tail, found, rfl, rfl⟩
            exact ⟨others, rfl, notNewline, inductionHypothesis.1 found⟩
          · rintro ⟨others, rfl, -, divided⟩
            exact ⟨others, after, inductionHypothesis.2 divided, rfl, rfl⟩

/-- An ending on the first line is found, if not at this place. -/
theorem divideBefore?_ne_none {ending : Text} (nonempty : ending ≠ []) {before after : Text}
    (ended : ending <+: after) (oneLine : '\n' ∉ before) :
    divideBefore? ending (before ++ after) ≠ none := by
  induction before with
  | nil =>
      cases after with
      | nil => exact absurd (List.prefix_nil.1 ended) nonempty
      | cons symbol rest =>
          rw [List.nil_append, divideBefore?, if_pos (List.isPrefixOf_iff_prefix.2 ended)]
          simp
  | cons symbol rest inductionHypothesis =>
      rw [List.mem_cons, not_or] at oneLine
      rw [List.cons_append, divideBefore?]
      split
      · simp
      · rw [if_neg (fun same => oneLine.1 same.symm)]
        simpa using inductionHypothesis oneLine.2

/-! ## An occurrence at the start of a text -/

def Begins (pattern : Pattern) (text : Text) : Prop :=
  ∃ quote specifier rest, isQuote quote = true ∧ '\n' ∉ specifier
    ∧ text = pattern.opening ++ quote :: (specifier ++ quote :: (pattern.closing ++ rest))

theorem occurrenceAt?_eq_some_iff {pattern : Pattern} {text : Text} {occurrence : Occurrence} :
    pattern.occurrenceAt? text = some occurrence
      ↔ ∃ quote rest, isQuote quote = true ∧ text = pattern.opening ++ quote :: rest
        ∧ occurrence.before = pattern.opening ++ [quote]
        ∧ Divides (quote :: pattern.closing) rest occurrence.specifier occurrence.after := by
  unfold occurrenceAt?
  constructor
  · intro found
    split at found
    · rename_i quote rest opened
      split at found
      · rename_i quoted
        obtain ⟨⟨specifier, after⟩, divided, rfl⟩ := Option.map_eq_some_iff.1 found
        exact ⟨quote, rest, quoted, (List.isPrefixOf?_eq_some_iff_append_eq.1 opened).symm, rfl,
          (divideBefore?_eq_some_iff (by simp)).1 divided⟩
      · cases found
    · cases found
  · rintro ⟨quote, rest, quoted, rfl, before, divided⟩
    have opened : pattern.opening.isPrefixOf? (pattern.opening ++ quote :: rest)
        = some (quote :: rest) :=
      List.isPrefixOf?_eq_some_iff_append_eq.2 rfl
    rw [opened]
    simp only
    rw [if_pos quoted, (divideBefore?_eq_some_iff (by simp)).2 divided]
    cases occurrence
    simp_all

theorem begins_of_occurrenceAt?_eq_some {pattern : Pattern} {text : Text}
    {occurrence : Occurrence} (found : pattern.occurrenceAt? text = some occurrence) :
    pattern.Begins text := by
  obtain ⟨quote, rest, quoted, rfl, -, divided⟩ := occurrenceAt?_eq_some_iff.1 found
  obtain ⟨tail, isAfter⟩ := divided.ended
  refine ⟨quote, occurrence.specifier, tail, quoted, divided.oneLine, ?_⟩
  rw [divided.whole, ← isAfter, List.cons_append]

theorem occurrenceAt?_ne_none_of_begins {pattern : Pattern} {text : Text}
    (begun : pattern.Begins text) : pattern.occurrenceAt? text ≠ none := by
  obtain ⟨quote, specifier, rest, quoted, oneLine, rfl⟩ := begun
  have opened : pattern.opening.isPrefixOf?
      (pattern.opening ++ quote :: (specifier ++ quote :: (pattern.closing ++ rest)))
      = some (quote :: (specifier ++ quote :: (pattern.closing ++ rest))) :=
    List.isPrefixOf?_eq_some_iff_append_eq.2 rfl
  have ended : quote :: pattern.closing <+: quote :: (pattern.closing ++ rest) := ⟨rest, rfl⟩
  have found := divideBefore?_ne_none (List.cons_ne_nil quote pattern.closing) ended oneLine
  unfold occurrenceAt?
  rw [opened]
  simp only
  rw [if_pos quoted]
  simpa using found

theorem occurrenceAt?_eq_none_iff {pattern : Pattern} {text : Text} :
    pattern.occurrenceAt? text = none ↔ ¬ pattern.Begins text := by
  constructor
  · intro absent begun
    exact occurrenceAt?_ne_none_of_begins begun absent
  · intro notBegun
    rw [Option.eq_none_iff_forall_ne_some]
    intro occurrence found
    exact notBegun (begins_of_occurrenceAt?_eq_some found)

/-! ## The first occurrence -/

theorem not_begins_nil (pattern : Pattern) : ¬ pattern.Begins [] := by
  rintro ⟨quote, specifier, rest, -, -, whole⟩
  simp at whole

theorem first?_eq_none_iff {pattern : Pattern} {text : Text} :
    pattern.first? text = none
      ↔ ∀ earlier later, text = earlier ++ later → ¬ pattern.Begins later := by
  induction text with
  | nil =>
      refine ⟨fun _ earlier later whole => ?_, fun _ => rfl⟩
      rw [(List.append_eq_nil_iff.1 whole.symm).2]
      exact not_begins_nil pattern
  | cons symbol rest inductionHypothesis =>
      unfold first?
      cases found : pattern.occurrenceAt? (symbol :: rest) with
      | some occurrence =>
          simp only [reduceCtorEq, false_iff]
          intro absent
          exact absent [] (symbol :: rest) rfl (begins_of_occurrenceAt?_eq_some found)
      | none =>
          simp only [Option.map_eq_none_iff]
          rw [inductionHypothesis]
          constructor
          · intro absent earlier later whole
            rcases List.cons_eq_append_iff.1 whole with ⟨-, rfl⟩ | ⟨others, -, isRest⟩
            · exact occurrenceAt?_eq_none_iff.1 found
            · exact absent others later isRest
          · intro absent earlier later isRest
            exact absent (symbol :: earlier) later (by rw [isRest, List.cons_append])

/-- The first occurrence of a pattern in a text, with the text before its
opening and its quote. -/
structure IsFirst (pattern : Pattern) (text : Text) (occurrence : Occurrence)
    (earlier : Text) (quote : Char) : Prop where
  quoted : isQuote quote = true
  before : occurrence.before = earlier ++ (pattern.opening ++ [quote])
  whole : text = occurrence.before ++ (occurrence.specifier ++ occurrence.after)
  divided : Divides (quote :: pattern.closing) (occurrence.specifier ++ occurrence.after)
    occurrence.specifier occurrence.after
  leftmost : ∀ shorter longer, text = shorter ++ longer → shorter.length < earlier.length →
    ¬ pattern.Begins longer

theorem isFirst_of_occurrenceAt? {pattern : Pattern} {text : Text} {occurrence : Occurrence}
    (found : pattern.occurrenceAt? text = some occurrence) :
    ∃ quote, pattern.IsFirst text occurrence [] quote := by
  obtain ⟨quote, rest, quoted, rfl, before, divided⟩ := occurrenceAt?_eq_some_iff.1 found
  refine ⟨quote, quoted, by rw [before, List.nil_append], ?_, ?_, ?_⟩
  · rw [before, ← divided.whole, List.append_assoc, List.singleton_append]
  · rw [← divided.whole]
    exact divided
  · intro shorter longer _ impossible
    exact absurd impossible (Nat.not_lt_zero _)

theorem occurrenceAt?_of_isFirst {pattern : Pattern} {text : Text} {occurrence : Occurrence}
    {quote : Char} (first : pattern.IsFirst text occurrence [] quote) :
    pattern.occurrenceAt? text = some occurrence := by
  refine occurrenceAt?_eq_some_iff.2
    ⟨quote, occurrence.specifier ++ occurrence.after, first.quoted, ?_, ?_, first.divided⟩
  · rw [first.whole, first.before, List.nil_append, List.append_assoc, List.singleton_append]
  · rw [first.before, List.nil_append]

theorem isFirst_shift {pattern : Pattern} {symbol : Char} {rest earlier : Text}
    {occurrence : Occurrence} {quote : Char}
    (notHere : pattern.occurrenceAt? (symbol :: rest) = none) :
    pattern.IsFirst (symbol :: rest) (occurrence.shift symbol) (symbol :: earlier) quote
      ↔ pattern.IsFirst rest occurrence earlier quote := by
  constructor
  · intro first
    have before : symbol :: occurrence.before = symbol :: (earlier ++ (pattern.opening ++ [quote])) :=
      first.before
    have whole : symbol :: rest
        = symbol :: (occurrence.before ++ (occurrence.specifier ++ occurrence.after)) :=
      first.whole
    refine ⟨first.quoted, (List.cons.inj before).2, (List.cons.inj whole).2, first.divided, ?_⟩
    intro shorter longer isRest bound
    exact first.leftmost (symbol :: shorter) longer (by rw [isRest, List.cons_append])
      (Nat.succ_lt_succ bound)
  · intro first
    refine ⟨first.quoted, congrArg (symbol :: ·) first.before, congrArg (symbol :: ·) first.whole,
      first.divided, ?_⟩
    intro shorter longer whole bound
    rcases List.cons_eq_append_iff.1 whole with ⟨-, rfl⟩ | ⟨others, rfl, isRest⟩
    · exact occurrenceAt?_eq_none_iff.1 notHere
    · exact first.leftmost others longer isRest (Nat.lt_of_succ_lt_succ bound)

theorem first?_eq_some_iff {pattern : Pattern} {text : Text} {occurrence : Occurrence} :
    pattern.first? text = some occurrence
      ↔ ∃ earlier quote, pattern.IsFirst text occurrence earlier quote := by
  induction text generalizing occurrence with
  | nil =>
      constructor
      · intro found
        cases found
      · rintro ⟨earlier, quote, first⟩
        have whole := first.whole
        rw [first.before] at whole
        simp at whole
  | cons symbol rest inductionHypothesis =>
      unfold first?
      cases found : pattern.occurrenceAt? (symbol :: rest) with
      | some here =>
          simp only [Option.some.injEq]
          constructor
          · rintro rfl
            obtain ⟨quote, first⟩ := isFirst_of_occurrenceAt? found
            exact ⟨[], quote, first⟩
          · rintro ⟨earlier, quote, first⟩
            cases earlier with
            | nil => exact Option.some.inj (found.symm.trans (occurrenceAt?_of_isFirst first))
            | cons =>
                exact absurd (begins_of_occurrenceAt?_eq_some found)
                  (first.leftmost [] (symbol :: rest) rfl (Nat.succ_pos _))
      | none =>
          simp only [Option.map_eq_some_iff]
          constructor
          · rintro ⟨later, foundLater, rfl⟩
            obtain ⟨earlier, quote, first⟩ := inductionHypothesis.1 foundLater
            exact ⟨symbol :: earlier, quote, (isFirst_shift found).2 first⟩
          · rintro ⟨earlier, quote, first⟩
            cases earlier with
            | nil =>
                have here := occurrenceAt?_of_isFirst first
                rw [found] at here
                cases here
            | cons head others =>
                have whole := first.whole
                rw [first.before, List.cons_append, List.cons_append] at whole
                obtain ⟨rfl, -⟩ := List.cons.inj whole
                let later : Occurrence :=
                  ⟨others ++ (pattern.opening ++ [quote]), occurrence.specifier, occurrence.after⟩
                have same : later.shift symbol = occurrence := by
                  have before := first.before
                  cases occurrence
                  subst before
                  rfl
                refine ⟨later, inductionHypothesis.2 ⟨others, quote, ?_⟩, same⟩
                rw [← isFirst_shift found, same]
                exact first

/-! ## The count -/

theorem countAfter_eq_count_drop (pattern : Pattern) (passed : Nat) (text : Text) :
    pattern.countAfter passed text = pattern.count (text.drop passed) := by
  induction text generalizing passed with
  | nil => cases passed <;> rfl
  | cons symbol rest inductionHypothesis =>
      cases passed with
      | zero => rfl
      | succ passed => exact inductionHypothesis passed

theorem count_cons_of_occurrence {pattern : Pattern} {symbol : Char} {rest : Text}
    {occurrence : Occurrence} (here : pattern.occurrenceAt? (symbol :: rest) = some occurrence) :
    pattern.count (symbol :: rest)
      = pattern.count (rest.drop (pattern.extent occurrence - 1)) + 1 := by
  rw [← countAfter_eq_count_drop, count, countAfter, here]

theorem count_cons_of_none {pattern : Pattern} {symbol : Char} {rest : Text}
    (notHere : pattern.occurrenceAt? (symbol :: rest) = none) :
    pattern.count (symbol :: rest) = pattern.count rest := by
  rw [count, countAfter, notHere]
  rfl

/-- The count goes on after the closing of the first occurrence. -/
theorem count_of_first? {pattern : Pattern} {text : Text} {occurrence : Occurrence}
    (found : pattern.first? text = some occurrence) :
    pattern.count text
      = pattern.count (occurrence.after.drop (1 + pattern.closing.length)) + 1 := by
  induction text generalizing occurrence with
  | nil => cases found
  | cons symbol rest inductionHypothesis =>
      unfold first? at found
      cases here : pattern.occurrenceAt? (symbol :: rest) with
      | some occurrence' =>
          rw [here] at found
          cases found
          obtain ⟨quote, first⟩ := isFirst_of_occurrenceAt? here
          have passed : rest.drop (pattern.extent occurrence - 1)
              = occurrence.after.drop (1 + pattern.closing.length) := by
            have whole : (symbol :: rest).drop (pattern.extent occurrence)
                = occurrence.after.drop (1 + pattern.closing.length) := by
              rw [first.whole, ← List.append_assoc, extent, Nat.add_assoc, ← List.length_append,
                List.drop_append]
              simp
            have positive : pattern.extent occurrence
                = pattern.extent occurrence - 1 + 1 := by
              unfold extent
              omega
            rwa [positive, List.drop_succ_cons] at whole
          rw [count_cons_of_occurrence here, passed]
      | none =>
          rw [here] at found
          obtain ⟨later, foundLater, rfl⟩ := Option.map_eq_some_iff.1 found
          rw [count_cons_of_none here]
          have counted := inductionHypothesis foundLater
          exact counted

theorem count_eq_zero_iff {pattern : Pattern} {text : Text} :
    pattern.count text = 0 ↔ pattern.first? text = none := by
  constructor
  · intro nothing
    cases found : pattern.first? text with
    | none => rfl
    | some occurrence =>
        rw [count_of_first? found] at nothing
        cases nothing
  · intro absent
    induction text with
    | nil => rfl
    | cons symbol rest inductionHypothesis =>
        unfold first? at absent
        cases here : pattern.occurrenceAt? (symbol :: rest) with
        | some occurrence =>
            rw [here] at absent
            cases absent
        | none =>
            rw [here] at absent
            rw [count_cons_of_none here]
            exact inductionHypothesis (Option.map_eq_none_iff.1 absent)

end Pattern

/-! ## The reference of a line -/

theorem find?_eq_some_iff {line : Text} {occurrence : Occurrence} :
    find? line = some occurrence
      ↔ ∃ stronger pattern weaker, Pattern.all = stronger ++ pattern :: weaker
        ∧ pattern.first? line = some occurrence
        ∧ ∀ other ∈ stronger, other.first? line = none :=
  List.findSome?_eq_some_iff

theorem count_eq_sum (line : Text) :
    count line = (Pattern.all.map fun pattern => pattern.count line).sum := by
  unfold count
  rw [List.sum, List.foldr_map]

theorem count_eq_zero_iff {line : Text} : count line = 0 ↔ find? line = none := by
  rw [count_eq_sum, List.sum_eq_zero_iff_forall_eq_nat]
  unfold find?
  simp [Pattern.count_eq_zero_iff]

/-- The reference of a line divides it. -/
theorem whole_of_find? {line : Text} {occurrence : Occurrence}
    (found : find? line = some occurrence) :
    line = occurrence.before ++ occurrence.specifier ++ occurrence.after := by
  obtain ⟨stronger, pattern, weaker, -, first, -⟩ := find?_eq_some_iff.1 found
  obtain ⟨earlier, quote, isFirst⟩ := Pattern.first?_eq_some_iff.1 first
  rw [List.append_assoc]
  exact isFirst.whole

theorem textAt?_span_of_find? {line : Text} {occurrence : Occurrence}
    (found : find? line = some occurrence) :
    occurrence.span.textAt? line = some occurrence.specifier := by
  rw [whole_of_find? found]
  exact Span.textAt?_following _ _ _

theorem replace?_span_of_find? {line : Text} {occurrence : Occurrence}
    (found : find? line = some occurrence) (replacement : Text) :
    occurrence.span.replace? replacement line
      = some (occurrence.before ++ replacement ++ occurrence.after) := by
  rw [whole_of_find? found]
  exact Span.replace?_following _ _ _ _

end PathAlias.Reference
