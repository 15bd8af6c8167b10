import PathAlias.Proofs.Reference.Occurrence

/-!
Contract: what the search for references finds, told by byte offsets alone.

Owns:
- texts that stand in another text at a byte offset;
- the occurrences of a pattern on a line, each of them two offsets and a quote;
- the first of these: the smallest start, and the smallest end from there;
- the main statement: the search finds nothing exactly when no pattern occurs,
  and else the first occurrence of the first pattern that does.

Does not own: the number of occurrences.

An occurrence that never ends is none, so that the search passes over it to a
later start.  A closing quote that the closing text does not follow ends none,
so that the specifier goes on behind it.  Both are part of what it is to occur,
and what is left for the search is to take the smallest.
-/

set_option autoImplicit false

namespace PathAlias

/-! ## Byte offsets -/

namespace Text

theorem byteLength_eq_zero_iff {text : Text} : byteLength text = 0 ↔ text = [] := by
  cases text with
  | nil => simp
  | cons symbol rest =>
      have positive := symbol.utf8Size_pos
      simp only [byteLength_cons, reduceCtorEq, iff_false]
      omega

/-- Of two divisions of one text, the one at the larger offset goes on from the
other one. -/
theorem exists_gap {front rest longer remaining : Text}
    (whole : front ++ rest = longer ++ remaining) (bound : byteLength front ≤ byteLength longer) :
    ∃ gap, longer = front ++ gap ∧ rest = gap ++ remaining := by
  rcases List.append_eq_append_iff.1 whole with found | ⟨gap, isFront, isRemaining⟩
  · exact found
  · have noGap : gap = [] := by
      rw [← byteLength_eq_zero_iff]
      rw [isFront, byteLength_append] at bound
      omega
    subst noGap
    exact ⟨[], by rw [isFront, List.append_nil, List.append_nil], isRemaining.symm⟩

theorem eq_of_byteLength_eq {front rest other remaining : Text}
    (whole : front ++ rest = other ++ remaining) (same : byteLength front = byteLength other) :
    front = other ∧ rest = remaining := by
  obtain ⟨gap, isOther, isRest⟩ := exists_gap whole (Nat.le_of_eq same)
  have noGap : gap = [] := by
    rw [← byteLength_eq_zero_iff]
    rw [isOther, byteLength_append] at same
    omega
  subst noGap
  exact ⟨by rw [isOther, List.append_nil], isRest⟩

/-- A text stands in another one, with a number of bytes before it. -/
def StandsAt (part : Text) (offset : Nat) (text : Text) : Prop :=
  ∃ before after, text = before ++ (part ++ after) ∧ byteLength before = offset

/-- The symbols of a part stand in the text from the part's offset on, before
its end. -/
theorem mem_iff_standsAt {symbol : Char} {front part rest : Text} :
    symbol ∈ part ↔ ∃ place, byteLength front ≤ place
      ∧ place < byteLength front + byteLength part
      ∧ StandsAt [symbol] place (front ++ (part ++ rest)) := by
  constructor
  · intro member
    obtain ⟨earlier, later, rfl⟩ := List.append_of_mem member
    refine ⟨byteLength front + byteLength earlier, Nat.le_add_right _ _, ?_,
      front ++ earlier, later ++ rest, ?_, byteLength_append _ _⟩
    · have positive := symbol.utf8Size_pos
      rw [byteLength_append, byteLength_cons]
      omega
    · simp
  · rintro ⟨place, behind, inside, before, after, whole, isPlace⟩
    obtain ⟨earlier, isBefore, isPart⟩ :=
      exists_gap whole (by rw [isPlace]; exact behind)
    have shorter : byteLength earlier < byteLength part := by
      rw [← isPlace, isBefore, byteLength_append] at inside
      omega
    obtain ⟨later, isWhole, isLater⟩ := exists_gap isPart.symm (Nat.le_of_lt shorter)
    -- the symbol begins what the part has behind this place
    cases later with
    | nil =>
        rw [isWhole, List.append_nil] at shorter
        exact absurd shorter (Nat.lt_irrefl _)
    | cons first others =>
        rw [isWhole, (List.cons.inj isLater).1]
        exact List.mem_append_right _ List.mem_cons_self

end Text

namespace Reference

theorem utf8Size_of_isQuote {quote : Char} (quoted : isQuote quote = true) :
    quote.utf8Size = 1 := by
  have either : quote = '"' ∨ quote = '\'' := by simpa [isQuote] using quoted
  rcases either with rfl | rfl <;> decide

namespace Pattern

/-! ## Occurrences -/

/-- A pattern occurs on a line: its opening and a quote stand at the start, the
same quote and its closing stand at the finish, which is not before the end of
the first quote, and no newline stands in between. -/
structure OccursAt (pattern : Pattern) (line : Text) (start : Nat) (quote : Char)
    (finish : Nat) : Prop where
  quoted : isQuote quote = true
  opened : Text.StandsAt (pattern.opening ++ [quote]) start line
  closed : Text.StandsAt (quote :: pattern.closing) finish line
  ordered : start + Text.byteLength pattern.opening + 1 ≤ finish
  oneLine : ∀ place, start + Text.byteLength pattern.opening + 1 ≤ place → place < finish →
    ¬ Text.StandsAt ['\n'] place line

def Absent (pattern : Pattern) (line : Text) : Prop :=
  ∀ start quote finish, ¬ pattern.OccursAt line start quote finish

/-- The first occurrence of a pattern on a line has the smallest start, and the
smallest finish of all that start there. -/
structure FirstOccursAt (pattern : Pattern) (line : Text) (start finish : Nat) : Prop where
  occurs : ∃ quote, pattern.OccursAt line start quote finish
  leftmost : ∀ place quote ending, pattern.OccursAt line place quote ending → start ≤ place
  shortest : ∀ quote ending, pattern.OccursAt line start quote ending → finish ≤ ending

variable {pattern : Pattern} {line : Text}

theorem byteLength_opened (pattern : Pattern) {quote : Char} (quoted : isQuote quote = true)
    (earlier : Text) : Text.byteLength (earlier ++ (pattern.opening ++ [quote]))
      = Text.byteLength earlier + Text.byteLength pattern.opening + 1 := by
  rw [Text.byteLength_append, Text.byteLength_append, Text.byteLength_cons,
    utf8Size_of_isQuote quoted, Text.byteLength_nil]
  omega

/-- An occurrence is a division of its line, with the specifier between the
quotes. -/
theorem occursAt_iff {start finish : Nat} {quote : Char} :
    pattern.OccursAt line start quote finish
      ↔ isQuote quote = true ∧ ∃ earlier content rest,
        line = earlier ++ ((pattern.opening ++ [quote])
            ++ (content ++ (quote :: pattern.closing ++ rest)))
          ∧ '\n' ∉ content ∧ start = Text.byteLength earlier
          ∧ finish = start + Text.byteLength pattern.opening + 1 + Text.byteLength content := by
  constructor
  · intro occurs
    obtain ⟨earlier, afterQuote, isLine, rfl⟩ := occurs.opened
    obtain ⟨before, rest, isLine', rfl⟩ := occurs.closed
    have opened := byteLength_opened pattern occurs.quoted earlier
    have divided : line = earlier ++ (pattern.opening ++ [quote]) ++ afterQuote :=
      isLine.trans (List.append_assoc _ _ _).symm
    obtain ⟨content, isBefore, rfl⟩ := Text.exists_gap (divided.symm.trans isLine')
      (by rw [opened]; exact occurs.ordered)
    have isFinish : Text.byteLength before = Text.byteLength earlier
        + Text.byteLength pattern.opening + 1 + Text.byteLength content := by
      rw [isBefore, Text.byteLength_append, opened]
    refine ⟨occurs.quoted, earlier, content, rest, isLine, ?_, rfl, isFinish⟩
    intro newline
    obtain ⟨place, behindQuote, beforeFinish, standing⟩ := Text.mem_iff_standsAt.1 newline
    rw [opened] at behindQuote beforeFinish
    rw [← isFinish] at beforeFinish
    exact occurs.oneLine place behindQuote beforeFinish (divided ▸ standing)
  · rintro ⟨quoted, earlier, content, rest, isLine, oneLine, rfl, rfl⟩
    have opened := byteLength_opened pattern quoted earlier
    have divided : line = earlier ++ (pattern.opening ++ [quote])
        ++ (content ++ (quote :: pattern.closing ++ rest)) :=
      isLine.trans (List.append_assoc _ _ _).symm
    refine ⟨quoted, ⟨earlier, _, isLine, rfl⟩, ?_, Nat.le_add_right _ _, ?_⟩
    · refine ⟨earlier ++ (pattern.opening ++ [quote]) ++ content, rest, ?_, ?_⟩
      · rw [divided, List.append_assoc _ content]
      · rw [Text.byteLength_append, opened]
    · intro place behindQuote beforeFinish standing
      apply oneLine
      rw [← opened] at behindQuote beforeFinish
      exact Text.mem_iff_standsAt.2 ⟨place, behindQuote, beforeFinish, divided ▸ standing⟩

/-- An occurrence starts where its pattern begins. -/
theorem begins_iff_occursAt {earlier later : Text} (divided : line = earlier ++ later) :
    pattern.Begins later
      ↔ ∃ quote finish, pattern.OccursAt line (Text.byteLength earlier) quote finish := by
  constructor
  · rintro ⟨quote, content, rest, quoted, oneLine, isLater⟩
    refine ⟨quote, _, occursAt_iff.2
      ⟨quoted, earlier, content, rest, ?_, oneLine, rfl, rfl⟩⟩
    rw [divided, isLater]
    simp
  · rintro ⟨quote, finish, occurs⟩
    obtain ⟨quoted, front, content, rest, isLine, oneLine, isStart, -⟩ := occursAt_iff.1 occurs
    obtain ⟨-, isLater⟩ := Text.eq_of_byteLength_eq (divided.symm.trans isLine) isStart
    refine ⟨quote, content, rest, quoted, oneLine, ?_⟩
    rw [isLater]
    simp

theorem first?_eq_none_iff_absent : pattern.first? line = none ↔ pattern.Absent line := by
  rw [first?_eq_none_iff]
  constructor
  · intro nowhere start quote finish occurs
    obtain ⟨-, earlier, content, rest, isLine, -, rfl, -⟩ := occursAt_iff.1 occurs
    exact nowhere earlier _ isLine ((begins_iff_occursAt isLine).2 ⟨quote, finish, occurs⟩)
  · intro absent earlier later divided begun
    obtain ⟨quote, finish, occurs⟩ := (begins_iff_occursAt divided).1 begun
    exact absent _ quote finish occurs

/-! ## The first occurrence -/

theorem FirstOccursAt.unique {start finish otherStart otherFinish : Nat}
    (first : pattern.FirstOccursAt line start finish)
    (other : pattern.FirstOccursAt line otherStart otherFinish) :
    start = otherStart ∧ finish = otherFinish := by
  obtain ⟨quote, occurs⟩ := first.occurs
  obtain ⟨otherQuote, otherOccurs⟩ := other.occurs
  have sameStart : start = otherStart :=
    Nat.le_antisymm (first.leftmost _ _ _ otherOccurs) (other.leftmost _ _ _ occurs)
  subst sameStart
  exact ⟨rfl, Nat.le_antisymm (first.shortest _ _ otherOccurs) (other.shortest _ _ occurs)⟩

namespace IsFirst

variable {occurrence : Occurrence} {earlier : Text} {quote : Char}

/-- A found occurrence divides its line as every occurrence does. -/
theorem exists_line (first : pattern.IsFirst line occurrence earlier quote) :
    ∃ rest, quote :: pattern.closing ++ rest = occurrence.after
      ∧ line = earlier ++ ((pattern.opening ++ [quote])
        ++ (occurrence.specifier ++ (quote :: pattern.closing ++ rest))) := by
  obtain ⟨rest, isAfter⟩ := first.divided.ended
  refine ⟨rest, isAfter, ?_⟩
  rw [first.whole, first.before, isAfter, List.append_assoc]

theorem occursAt (first : pattern.IsFirst line occurrence earlier quote) :
    pattern.OccursAt line (Text.byteLength earlier) quote
      (Text.byteLength earlier + Text.byteLength pattern.opening + 1
        + Text.byteLength occurrence.specifier) := by
  obtain ⟨rest, -, isLine⟩ := first.exists_line
  exact occursAt_iff.2
    ⟨first.quoted, earlier, occurrence.specifier, rest, isLine, first.divided.oneLine, rfl, rfl⟩

theorem le_start (first : pattern.IsFirst line occurrence earlier quote) {start finish : Nat}
    {other : Char} (occurs : pattern.OccursAt line start other finish) :
    Text.byteLength earlier ≤ start := by
  obtain ⟨rest, -, isLine⟩ := first.exists_line
  obtain ⟨-, front, _, _, isLine', -, rfl, -⟩ := occursAt_iff.1 occurs
  by_contra before
  rw [Nat.not_le] at before
  -- a start before the first one is the start of a shorter division
  obtain ⟨gap, isEarlier, -⟩ := Text.exists_gap (isLine'.symm.trans isLine) (Nat.le_of_lt before)
  have shorter : front.length < earlier.length := by
    rw [isEarlier, List.length_append]
    apply Nat.lt_add_of_pos_right
    apply List.length_pos_of_ne_nil
    rintro rfl
    rw [isEarlier, List.append_nil] at before
    exact Nat.lt_irrefl _ before
  exact first.leftmost front _ isLine' shorter
    ((begins_iff_occursAt isLine').2 ⟨other, finish, occurs⟩)

theorem le_finish (first : pattern.IsFirst line occurrence earlier quote) {finish : Nat}
    {other : Char} (occurs : pattern.OccursAt line (Text.byteLength earlier) other finish) :
    Text.byteLength earlier + Text.byteLength pattern.opening + 1
      + Text.byteLength occurrence.specifier ≤ finish := by
  obtain ⟨rest, isAfter, isLine⟩ := first.exists_line
  obtain ⟨-, front, content, behind, isLine', -, sameStart, rfl⟩ := occursAt_iff.1 occurs
  obtain ⟨-, isLater⟩ := Text.eq_of_byteLength_eq (isLine.symm.trans isLine') sameStart
  rw [List.append_assoc, List.append_assoc, List.append_cancel_left_eq, List.singleton_append,
    List.singleton_append] at isLater
  obtain ⟨rfl, isContent⟩ := List.cons.inj isLater
  have isShortest : occurrence.specifier.length ≤ content.length := by
    apply first.divided.shortest content (quote :: pattern.closing ++ behind)
    · rw [← isContent, isAfter]
    · exact List.prefix_append _ behind
  have atContent : content <+: occurrence.specifier ++ (quote :: pattern.closing ++ rest) := by
    rw [isContent]
    exact List.prefix_append content _
  obtain ⟨gap, isGap⟩ : occurrence.specifier <+: content :=
    List.prefix_of_prefix_length_le (List.prefix_append _ _) atContent isShortest
  rw [← isGap, Text.byteLength_append]
  omega

theorem firstOccursAt (first : pattern.IsFirst line occurrence earlier quote) :
    pattern.FirstOccursAt line (Text.byteLength earlier)
      (Text.byteLength earlier + Text.byteLength pattern.opening + 1
        + Text.byteLength occurrence.specifier) where
  occurs := ⟨quote, first.occursAt⟩
  leftmost _ _ _ occurs := first.le_start occurs
  shortest _ _ occurs := first.le_finish occurs

end IsFirst

/-- The search for one pattern finds its first occurrence. -/
theorem span_first?_eq_some_iff {span : Span} :
    (pattern.first? line).map Occurrence.span = some span
      ↔ ∃ start finish, pattern.FirstOccursAt line start finish
        ∧ span = ⟨start + Text.byteLength pattern.opening + 1, finish⟩ := by
  have found : ∀ occurrence, pattern.first? line = some occurrence →
      ∃ start finish, pattern.FirstOccursAt line start finish
        ∧ occurrence.span = ⟨start + Text.byteLength pattern.opening + 1, finish⟩ := by
    intro occurrence isFound
    obtain ⟨earlier, quote, first⟩ := first?_eq_some_iff.1 isFound
    refine ⟨_, _, first.firstOccursAt, ?_⟩
    have opened : Text.byteLength occurrence.before
        = Text.byteLength earlier + Text.byteLength pattern.opening + 1 := by
      rw [first.before]
      exact byteLength_opened pattern first.quoted earlier
    unfold Occurrence.span Span.following
    rw [opened]
  constructor
  · intro isSpan
    obtain ⟨occurrence, isFound, rfl⟩ := Option.map_eq_some_iff.1 isSpan
    exact found occurrence isFound
  · rintro ⟨start, finish, first, rfl⟩
    cases searched : pattern.first? line with
    | none =>
        obtain ⟨quote, occurs⟩ := first.occurs
        exact absurd occurs (first?_eq_none_iff_absent.1 searched start quote finish)
    | some occurrence =>
        obtain ⟨otherStart, otherFinish, other, isSpan⟩ := found occurrence searched
        obtain ⟨rfl, rfl⟩ := first.unique other
        exact congrArg some isSpan

/-- The patterns that can occur, in their order: a `from` clause that nothing has
to close, and the two calls that a parenthesis closes. -/
theorem all_eq :
    all = [⟨"from ".toList, []⟩, ⟨"import(".toList, [')']⟩, ⟨"require(".toList, [')']⟩] := rfl

end Pattern

/-! ## The reference of a line -/

/-- **The search finds the first occurrence of the first pattern that occurs.**
It finds none exactly when no pattern occurs.  Else it takes, of the patterns in
their order (`Pattern.all_eq`), the first one that occurs, of its occurrences the
smallest start, and from there the smallest end. -/
theorem span_find?_eq_some_iff (line : Text) :
    (find? line = none ↔ ∀ pattern ∈ Pattern.all, pattern.Absent line)
      ∧ ∀ span, (find? line).map Occurrence.span = some span
        ↔ ∃ stronger pattern weaker start finish,
          Pattern.all = stronger ++ pattern :: weaker
            ∧ (∀ other ∈ stronger, other.Absent line)
            ∧ pattern.FirstOccursAt line start finish
            ∧ span = ⟨start + Text.byteLength pattern.opening + 1, finish⟩ := by
  constructor
  · unfold find?
    rw [List.findSome?_eq_none_iff]
    simp only [Pattern.first?_eq_none_iff_absent]
  · intro span
    constructor
    · intro isSpan
      obtain ⟨occurrence, isFound, rfl⟩ := Option.map_eq_some_iff.1 isSpan
      obtain ⟨stronger, pattern, weaker, listed, first, absent⟩ := find?_eq_some_iff.1 isFound
      obtain ⟨start, finish, isFirst, spanned⟩ :=
        Pattern.span_first?_eq_some_iff.1 (congrArg (Option.map Occurrence.span) first)
      refine ⟨stronger, pattern, weaker, start, finish, listed, ?_, isFirst, spanned⟩
      exact fun other member => Pattern.first?_eq_none_iff_absent.1 (absent other member)
    · rintro ⟨stronger, pattern, weaker, start, finish, listed, absent, isFirst, rfl⟩
      obtain ⟨occurrence, first, isSpan⟩ := Option.map_eq_some_iff.1
        (Pattern.span_first?_eq_some_iff.2 ⟨start, finish, isFirst, rfl⟩)
      have isFound : find? line = some occurrence :=
        find?_eq_some_iff.2 ⟨stronger, pattern, weaker, listed, first, fun other member =>
          Pattern.first?_eq_none_iff_absent.2 (absent other member)⟩
      rw [isFound]
      exact congrArg some isSpan

-- An opening that its own line does not close begins no occurrence, and the
-- offsets count bytes.
example :
    (find? "é from 'a\nfrom 'b'".toList).map Occurrence.span = some ⟨17, 18⟩ := by
  decide

end Reference

end PathAlias
