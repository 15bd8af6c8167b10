import PathAlias.Proofs.Reference.Occurrence

/-!
Contract: a line with its specifier replaced still has that one reference.

Owns:
- replacements that are inert: they end no quotation and open none;
- where an occurrence in the new line begins, against the old line;
- the main statements: the search finds the replacement in place of the
  specifier, and the count stays as it was.

Does not own: which replacements a project makes.

Every occurrence in the new line that could be new would have to begin before
the replacement, inside it, or after it.  Before it, the quotation must close
behind the replacement, and closed there in the old line too.  Inside it, only
an opening at the very end meets a quote.  After it, both lines are the same.
-/

set_option autoImplicit false

namespace PathAlias.Reference

/-- A text that can stand between quotes without ending them and without
opening others at its end. -/
structure Inert (text : Text) : Prop where
  quoteFree : ∀ symbol ∈ text, isQuote symbol = false
  oneLine : '\n' ∉ text
  unopened : ∀ pattern ∈ Pattern.all, ¬ pattern.opening <:+ text

theorem quoteFree_of_any {text : Text} (free : text.any isQuote = false) :
    ∀ symbol ∈ text, isQuote symbol = false := by
  simpa using free

namespace Pattern

/-- What all patterns have in common as far as replacements go. -/
structure Regular (pattern : Pattern) : Prop where
  quoteFree : ∀ symbol ∈ pattern.opening, isQuote symbol = false
  dotFree : '.' ∉ pattern.closing

theorem regular_of_mem_all {pattern : Pattern} (member : pattern ∈ all) : pattern.Regular := by
  have regular : ∀ pattern ∈ all,
      pattern.opening.any isQuote = false ∧ '.' ∉ pattern.closing := by
    decide
  exact ⟨quoteFree_of_any (regular pattern member).1, (regular pattern member).2⟩

variable {pattern : Pattern} {specifier replacement after : Text}

/-! ## Where an occurrence begins -/

/-- What stands before a quote takes in any start of the text without
quotes. -/
theorem exists_append_of_quoteFree {free tail front rest : Text} {quote : Char}
    (quoteFree : ∀ symbol ∈ free, isQuote symbol = false) (quoted : isQuote quote = true)
    (whole : free ++ tail = front ++ quote :: rest) :
    ∃ more, front = free ++ more ∧ tail = more ++ quote :: rest := by
  rcases List.append_eq_append_iff.1 whole with found | ⟨more, isFree, isTail⟩
  · exact found
  · cases more with
    | nil =>
        rw [List.append_nil] at isFree
        exact ⟨[], by rw [isFree, List.append_nil], isTail.symm⟩
    | cons symbol others =>
        have notQuote := quoteFree symbol (by rw [isFree]; simp)
        rw [← (List.cons.inj isTail).1, quoted] at notQuote
        cases notQuote

/-- An occurrence that begins before a replacement begins there with the old
specifier in place, too. -/
theorem begins_before {front : Text} {quote : Char} (regular : pattern.Regular)
    (quoted : isQuote quote = true) (oneLine : '\n' ∉ specifier)
    (marked : replacement.head? = some '.')
    (quoteFree : ∀ symbol ∈ replacement, isQuote symbol = false)
    (begun : pattern.Begins (front ++ quote :: (replacement ++ after))) :
    pattern.Begins (front ++ quote :: (specifier ++ after)) := by
  obtain ⟨opening, content, rest, isOpening, contentLine, whole⟩ := begun
  obtain ⟨marks, isMarked⟩ := List.head?_eq_some_iff.1 marked
  obtain ⟨more, isFront, isTail⟩ :=
    exists_append_of_quoteFree regular.quoteFree quoted whole.symm
  -- what lies between the quote that opens and the replacement
  obtain ⟨inner, isInner⟩ : ∃ inner, ∀ remaining : Text,
      more ++ quote :: remaining = opening :: (inner ++ remaining) := by
    cases more with
    | nil => exact ⟨[], fun remaining => by rw [(List.cons.inj isTail).1]; rfl⟩
    | cons symbol others =>
        exact ⟨others ++ [quote], fun remaining => by rw [(List.cons.inj isTail).1]; simp⟩
  rw [isInner] at isTail
  have isBody := (List.cons.inj isTail).2
  have begunIn : ∀ content' rest', '\n' ∉ content' →
      inner ++ (specifier ++ after) = content' ++ opening :: (pattern.closing ++ rest') →
      pattern.Begins (front ++ quote :: (specifier ++ after)) := by
    intro content' rest' contentLine' isContent
    refine ⟨opening, content', rest', isOpening, contentLine', ?_⟩
    rw [isFront, List.append_assoc, isInner, isContent]
  rcases List.append_eq_append_iff.1 isBody with
    ⟨more, isInner', isTail⟩ | ⟨more, isContent, isTail⟩
  · -- it closes in front of the replacement
    cases more with
    | nil =>
        rw [isMarked] at isTail
        rw [(List.cons.inj isTail).1] at isOpening
        cases isOpening
    | cons symbol others =>
        obtain ⟨rfl, isClosing⟩ := List.cons.inj isTail
        rcases List.append_eq_append_iff.1 isClosing with
          ⟨further, isOthers, -⟩ | ⟨further, isPart, isMore⟩
        · apply begunIn content (further ++ (specifier ++ after)) contentLine
          rw [isInner', isOthers]
          simp
        · cases further with
          | nil =>
              rw [List.append_nil] at isPart
              apply begunIn content (specifier ++ after) contentLine
              rw [isInner', isPart]
              simp
          | cons symbol' further =>
              rw [isMarked] at isMore
              have isDot : '.' = symbol' := (List.cons.inj isMore).1
              exact absurd (by rw [isPart, isDot]; simp) regular.dotFree
  · -- it closes behind the replacement, as the replacement holds no quote
    obtain ⟨further, isMore, isAfter⟩ := exists_append_of_quoteFree quoteFree isOpening isTail
    apply begunIn (inner ++ specifier ++ further) rest
    · rw [isContent, isMore] at contentLine
      simp only [List.mem_append, not_or] at contentLine ⊢
      exact ⟨⟨contentLine.1, oneLine⟩, contentLine.2.2⟩
    · rw [isAfter]
      simp

/-- No occurrence begins inside a replacement that does not end with the
opening. -/
theorem not_begins_inside {inside : Text} {quote : Char} (regular : pattern.Regular)
    (quoted : isQuote quote = true)
    (quoteFree : ∀ symbol ∈ replacement, isQuote symbol = false)
    (unopened : ¬ pattern.opening <:+ replacement) (isEnd : inside <:+ replacement) :
    ¬ pattern.Begins (inside ++ quote :: after) := by
  intro begun
  obtain ⟨opening, content, rest, isOpening, -, whole⟩ := begun
  have insideFree : ∀ symbol ∈ inside, isQuote symbol = false :=
    fun symbol member => quoteFree symbol (isEnd.subset member)
  -- both are what stands before the first quote
  obtain ⟨more, isOpened, -⟩ := exists_append_of_quoteFree insideFree isOpening whole
  obtain ⟨more', isInside, -⟩ := exists_append_of_quoteFree regular.quoteFree quoted whole.symm
  have same : inside = pattern.opening :=
    List.IsPrefix.eq_of_length_le ⟨more, isOpened.symm⟩ (by rw [isInside]; simp)
  exact unopened (same ▸ isEnd)

/-! ## One pattern -/

/-- The first occurrence of a pattern is still its first one with another
specifier in place. -/
theorem first?_replaced {line : Text} {occurrence : Occurrence} (regular : pattern.Regular)
    (found : pattern.first? line = some occurrence) (marked : replacement.head? = some '.')
    (quoteFree : ∀ symbol ∈ replacement, isQuote symbol = false) (oneLine : '\n' ∉ replacement) :
    pattern.first? (occurrence.before ++ (replacement ++ occurrence.after))
      = some { occurrence with specifier := replacement } := by
  obtain ⟨earlier, quote, first⟩ := first?_eq_some_iff.1 found
  refine first?_eq_some_iff.2 ⟨earlier, quote, first.quoted, first.before, rfl, ?_, ?_⟩
  · refine ⟨rfl, first.divided.ended, oneLine, ?_⟩
    intro shorter rest whole ended
    obtain ⟨tail, rfl⟩ := ended
    obtain ⟨more, isShorter, -⟩ := exists_append_of_quoteFree quoteFree first.quoted whole
    rw [isShorter, List.length_append]
    exact Nat.le_add_right _ _
  · intro shorter longer whole bound begun
    rw [first.before, List.append_assoc] at whole
    have isPrefix : shorter <+: earlier :=
      List.prefix_of_prefix_length_le (List.prefix_append shorter longer)
        (whole ▸ List.prefix_append earlier _) (Nat.le_of_lt bound)
    obtain ⟨gap, rfl⟩ := isPrefix
    rw [List.append_assoc] at whole
    have isLonger : longer
        = (gap ++ pattern.opening) ++ quote :: (replacement ++ occurrence.after) := by
      rw [← List.append_cancel_left whole]
      simp
    rw [isLonger] at begun
    apply first.leftmost shorter
      ((gap ++ pattern.opening) ++ quote :: (occurrence.specifier ++ occurrence.after)) _ bound
    · exact begins_before regular first.quoted first.divided.oneLine marked quoteFree begun
    · rw [first.whole, first.before]
      simp

/-- A pattern that does not occur in a line does not occur with another
specifier in place. -/
theorem first?_replaced_eq_none {other : Pattern} {line earlier : Text} {quote : Char}
    {occurrence : Occurrence} (regular : other.Regular)
    (first : pattern.IsFirst line occurrence earlier quote) (absent : other.first? line = none)
    (marked : replacement.head? = some '.')
    (quoteFree : ∀ symbol ∈ replacement, isQuote symbol = false)
    (unopened : ¬ other.opening <:+ replacement) :
    other.first? (occurrence.before ++ (replacement ++ occurrence.after)) = none := by
  obtain ⟨tail, isAfter⟩ := first.divided.ended
  have notInside : ∀ inside, inside <:+ replacement →
      ¬ other.Begins (inside ++ occurrence.after) := by
    intro inside isEnd
    rw [← isAfter]
    exact not_begins_inside regular first.quoted quoteFree unopened isEnd
  rw [first?_eq_none_iff] at absent ⊢
  intro front later whole begun
  rcases List.append_eq_append_iff.1 whole with ⟨more, isFront, isTail⟩ | ⟨more, isBefore, isLater⟩
  · rcases List.append_eq_append_iff.1 isTail with
      ⟨further, -, isAfter'⟩ | ⟨further, isReplacement, isLater⟩
    · -- behind the replacement both lines are the same
      apply absent (occurrence.before ++ (occurrence.specifier ++ further)) later _ begun
      rw [first.whole, isAfter']
      simp
    · rw [isLater] at begun
      exact notInside further ⟨more, isReplacement.symm⟩ begun
  · rcases List.eq_nil_or_concat' more with rfl | ⟨gap, last, rfl⟩
    · rw [isLater, List.nil_append] at begun
      exact notInside replacement (List.suffix_refl _) begun
    · have isQuote' : last = quote := by
        rw [first.before, ← List.append_assoc, ← List.append_assoc] at isBefore
        exact (List.append_singleton_inj.1 isBefore).2.symm
      subst isQuote'
      rw [isLater, List.append_assoc, List.singleton_append] at begun
      apply absent front (gap ++ last :: (occurrence.specifier ++ occurrence.after))
      · rw [first.whole, isBefore]
        simp
      · exact begins_before regular first.quoted first.divided.oneLine marked quoteFree begun

end Pattern

/-! ## The whole line -/

section

variable {line replacement : Text} {occurrence : Occurrence}

theorem absent_of_count_le_one {stronger weaker : List Pattern} {pattern : Pattern}
    (listed : Pattern.all = stronger ++ pattern :: weaker)
    (found : pattern.first? line = some occurrence) (single : count line ≤ 1) :
    ∀ other ∈ stronger ++ weaker, other.first? line = none := by
  intro other member
  have counted := Pattern.count_of_first? found
  have total : count line = pattern.count line
      + ((stronger ++ weaker).map fun pattern => pattern.count line).sum := by
    rw [count_eq_sum, listed]
    simp only [List.map_append, List.map_cons, List.sum_append, List.sum_cons]
    omega
  have others : ((stronger ++ weaker).map fun pattern => pattern.count line).sum = 0 := by
    omega
  rw [← Pattern.count_eq_zero_iff]
  exact List.sum_eq_zero_iff_forall_eq_nat.1 others _ (List.mem_map_of_mem member)

/-- A line with one reference has that one reference with an inert replacement
in place of the specifier. -/
theorem find?_replaced (found : find? line = some occurrence) (single : count line ≤ 1)
    (marked : replacement.head? = some '.') (inert : Inert replacement) :
    find? (occurrence.before ++ replacement ++ occurrence.after)
        = some { occurrence with specifier := replacement }
      ∧ count (occurrence.before ++ replacement ++ occurrence.after) = count line := by
  obtain ⟨stronger, pattern, weaker, listed, first, -⟩ := find?_eq_some_iff.1 found
  obtain ⟨earlier, quote, isFirst⟩ := Pattern.first?_eq_some_iff.1 first
  have absent := absent_of_count_le_one listed first single
  have regular : pattern.Regular := Pattern.regular_of_mem_all (by rw [listed]; simp)
  have replaced := Pattern.first?_replaced regular first marked inert.quoteFree inert.oneLine
  have othersAbsent : ∀ other ∈ stronger ++ weaker,
      other.first? (occurrence.before ++ (replacement ++ occurrence.after)) = none := by
    intro other member
    have present : other ∈ Pattern.all := by
      rw [listed]
      rcases List.mem_append.1 member with before | after
      · exact List.mem_append_left _ before
      · exact List.mem_append_right _ (List.mem_cons_of_mem _ after)
    exact Pattern.first?_replaced_eq_none (Pattern.regular_of_mem_all present) isFirst
      (absent other member) marked inert.quoteFree (inert.unopened other present)
  rw [List.append_assoc]
  constructor
  · exact find?_eq_some_iff.2 ⟨stronger, pattern, weaker, listed, replaced,
      fun other member => othersAbsent other (List.mem_append_left _ member)⟩
  · rw [count_eq_sum, count_eq_sum]
    congr 1
    apply List.map_congr_left
    intro other member
    rw [listed, List.mem_append, List.mem_cons] at member
    have unchanged : ∀ other ∈ stronger ++ weaker,
        other.count (occurrence.before ++ (replacement ++ occurrence.after))
          = other.count line := by
      intro other member
      rw [Pattern.count_eq_zero_iff.2 (othersAbsent other member),
        Pattern.count_eq_zero_iff.2 (absent other member)]
    rcases member with before | rfl | after
    · exact unchanged other (List.mem_append_left _ before)
    · rw [Pattern.count_of_first? replaced, Pattern.count_of_first? first]
    · exact unchanged other (List.mem_append_right _ after)

end

end PathAlias.Reference
