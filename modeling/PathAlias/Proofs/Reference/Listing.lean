import Mathlib.Data.List.Basic
import PathAlias.Proofs.Reference.Occurrence
import PathAlias.Reference.Lines

/-!
Contract: the references of a file are those of its lines.

Owns:
- lines with several references, which fail a file;
- the references of a file as a list over its lines;
- what it takes for a list to hold the references of some lines;
- the main statement: a file has its references listed exactly when no line has
  several, and fails at the first line that has.

Does not own: what a reference resolves to.

Whether a line has a reference is asked of a search and of a count, and a line
that the search passes over is never counted.  The two agree on every line, so
that no line with several references slips through.
-/

set_option autoImplicit false

namespace PathAlias.Reference

/-! ## Lines that fail a file, and lines that do not -/

/-- Whether a line has more references than one replacement serves. -/
def isAmbiguous (line : Text) : Bool := 1 < count line

theorem isAmbiguous_eq_true_iff {line : Text} : isAmbiguous line = true ↔ 1 < count line := by
  simp [isAmbiguous]

theorem isAmbiguous_eq_false_iff {line : Text} : isAmbiguous line = false ↔ count line ≤ 1 := by
  simp [isAmbiguous]

/-- The references of lines after a number of others, one for each line that
has any. -/
def listAfter (owner : Path) : Nat → List Text → List Reference
  | _, [] => []
  | index, line :: rest =>
      ((find? line).map fun occurrence =>
          Reference.mk owner index occurrence.specifier occurrence.span).toList
        ++ listAfter owner (index + 1) rest

theorem listAfter_cons (owner : Path) (index : Nat) (line : Text) (rest : List Text) :
    listAfter owner index (line :: rest)
      = ((find? line).map fun occurrence =>
          Reference.mk owner index occurrence.specifier occurrence.span).toList
        ++ listAfter owner (index + 1) rest := rfl

theorem ofLine_of_isAmbiguous {line : Text} (ambiguous : isAmbiguous line = true)
    (owner : Path) (index : Nat) : ofLine owner index line = .error ⟨owner, index + 1⟩ := by
  have several := isAmbiguous_eq_true_iff.1 ambiguous
  unfold ofLine
  cases found : find? line with
  | none =>
      rw [count_eq_zero_iff.2 found] at several
      omega
  | some occurrence => exact if_pos several

theorem ofLine_of_not_isAmbiguous {line : Text} (single : isAmbiguous line = false)
    (owner : Path) (index : Nat) :
    ofLine owner index line
      = .ok ((find? line).map fun occurrence =>
          ⟨owner, index, occurrence.specifier, occurrence.span⟩) := by
  have notSeveral := isAmbiguous_eq_false_iff.1 single
  unfold ofLine
  cases find? line with
  | none => rfl
  | some occurrence => exact if_neg (Nat.not_lt.2 notSeveral)

theorem ofLinesAfter_of_single {lines : List Text}
    (single : lines.findIdx? isAmbiguous = none) (owner : Path) (index : Nat) :
    ofLinesAfter owner index lines = .ok (listAfter owner index lines) := by
  induction lines generalizing index with
  | nil => rfl
  | cons line rest inductionHypothesis =>
      rw [List.findIdx?_eq_none_iff] at single
      have restSingle : rest.findIdx? isAmbiguous = none :=
        List.findIdx?_eq_none_iff.2 fun other member =>
          single other (List.mem_cons_of_mem line member)
      unfold ofLinesAfter
      rw [ofLine_of_not_isAmbiguous (single line List.mem_cons_self) owner index,
        inductionHypothesis restSingle]
      rfl

/-- The first line with several references fails the lines. -/
theorem ofLinesAfter_of_findIdx? {lines : List Text} {passed : Nat}
    (found : lines.findIdx? isAmbiguous = some passed) (owner : Path) (index : Nat) :
    ofLinesAfter owner index lines = .error ⟨owner, index + passed + 1⟩ := by
  induction lines generalizing index passed with
  | nil => cases found
  | cons line rest inductionHypothesis =>
      rw [List.findIdx?_cons] at found
      unfold ofLinesAfter
      split at found
      · rename_i ambiguous
        cases found
        rw [ofLine_of_isAmbiguous ambiguous owner index]
        rfl
      · rename_i single
        obtain ⟨fewer, foundRest, rfl⟩ := Option.map_eq_some_iff.1 found
        rw [ofLine_of_not_isAmbiguous (by simpa using single) owner index,
          inductionHypothesis foundRest (index + 1),
          show index + 1 + fewer + 1 = index + (fewer + 1) + 1 by omega]
        rfl

/-! ## The list -/

-- The index is that of the first line, so that the induction can move on.
theorem mem_listAfter {owner : Path} {index : Nat} {lines : List Text} {reference : Reference} :
    reference ∈ listAfter owner index lines
      ↔ ∃ passed line occurrence, lines[passed]? = some line ∧ find? line = some occurrence
        ∧ reference = ⟨owner, index + passed, occurrence.specifier, occurrence.span⟩ := by
  induction lines generalizing index with
  | nil => simp [listAfter]
  | cons line rest inductionHypothesis =>
      rw [listAfter_cons, List.mem_append, inductionHypothesis, Option.mem_toList,
        Option.map_eq_some_iff]
      constructor
      · rintro (⟨occurrence, found, rfl⟩ | ⟨passed, other, occurrence, isLine, found, rfl⟩)
        · exact ⟨0, line, occurrence, rfl, found, rfl⟩
        · refine ⟨passed + 1, other, occurrence, isLine, found, ?_⟩
          rw [Nat.add_assoc, Nat.add_comm 1 passed]
      · rintro ⟨passed, other, occurrence, isLine, found, rfl⟩
        cases passed with
        | zero =>
            left
            cases isLine
            exact ⟨occurrence, found, rfl⟩
        | succ passed =>
            right
            refine ⟨passed, other, occurrence, isLine, found, ?_⟩
            rw [Nat.add_assoc, Nat.add_comm 1 passed]

theorem increasing_listAfter (owner : Path) (index : Nat) (lines : List Text) :
    ((listAfter owner index lines).map Reference.index).Pairwise (· < ·) := by
  induction lines generalizing index with
  | nil => exact List.Pairwise.nil
  | cons line rest inductionHypothesis =>
      have later : ∀ place ∈ (listAfter owner (index + 1) rest).map Reference.index,
          index < place := by
        intro place member
        obtain ⟨reference, present, rfl⟩ := List.mem_map.1 member
        obtain ⟨passed, other, occurrence, -, -, rfl⟩ := mem_listAfter.1 present
        simp only
        omega
      rw [listAfter_cons]
      cases find? line with
      | none => exact inductionHypothesis (index + 1)
      | some occurrence => exact List.Pairwise.cons later (inductionHypothesis (index + 1))

/-- A list holds the references of some lines: in line order, one of every line
that has just one, and no others. -/
structure Lists (owner : Path) (lines : List Text) (references : List Reference) : Prop where
  increasing : (references.map Reference.index).Pairwise (· < ·)
  owned : ∀ reference ∈ references, reference.path = owner
  placed : ∀ reference ∈ references, ∃ line occurrence,
    lines[reference.index]? = some line ∧ count line = 1
      ∧ find? line = some occurrence ∧ reference.span = occurrence.span
      ∧ reference.span.textAt? line = some reference.specifier
  complete : ∀ index line, lines[index]? = some line → count line = 1 →
    ∃ reference ∈ references, reference.index = index

/-- The search finds something on a line exactly when the count does. -/
theorem count_eq_one_iff {line : Text} (single : count line ≤ 1) :
    count line = 1 ↔ ∃ occurrence, find? line = some occurrence := by
  have absent : count line = 0 ↔ find? line = none := count_eq_zero_iff
  rw [← Option.ne_none_iff_exists', Ne, ← absent]
  omega

theorem lists_listAfter (owner : Path) {lines : List Text}
    (single : ∀ line ∈ lines, count line ≤ 1) : Lists owner lines (listAfter owner 0 lines) := by
  refine ⟨increasing_listAfter owner 0 lines, ?_, ?_, ?_⟩
  · intro reference member
    obtain ⟨passed, line, occurrence, -, -, rfl⟩ := mem_listAfter.1 member
    rfl
  · intro reference member
    obtain ⟨passed, line, occurrence, isLine, found, rfl⟩ := mem_listAfter.1 member
    have one := (count_eq_one_iff (single line (List.mem_of_getElem? isLine))).2 ⟨occurrence, found⟩
    refine ⟨line, occurrence, ?_, one, found, rfl, textAt?_span_of_find? found⟩
    rw [Nat.zero_add]
    exact isLine
  · intro index line isLine one
    obtain ⟨occurrence, found⟩ := (count_eq_one_iff (Nat.le_of_eq one)).1 one
    refine ⟨_, mem_listAfter.2 ⟨index, line, occurrence, isLine, found, rfl⟩, ?_⟩
    exact Nat.zero_add index

/-! ## The outcome -/

theorem findIdx?_isAmbiguous_eq_none_iff {lines : List Text} :
    lines.findIdx? isAmbiguous = none ↔ ∀ line ∈ lines, count line ≤ 1 := by
  rw [List.findIdx?_eq_none_iff]
  simp only [isAmbiguous_eq_false_iff]

/-- **Exactly the files without an ambiguous line are listed, and listed in
full.**  The others fail at the first line with several references. -/
theorem ofLines_lists_or_fails (owner : Path) (lines : List Text) :
    ((∃ references, ofLines owner lines = .ok references) ↔ ∀ line ∈ lines, count line ≤ 1)
      ∧ (∀ references, ofLines owner lines = .ok references → Lists owner lines references)
      ∧ (∀ failure, ofLines owner lines = .error failure →
        failure.path = owner
          ∧ ∃ passed line, lines[passed]? = some line ∧ 1 < count line
            ∧ failure.number = passed + 1
            ∧ ∀ earlier other, earlier < passed → lines[earlier]? = some other →
              count other ≤ 1) := by
  rw [← findIdx?_isAmbiguous_eq_none_iff]
  unfold ofLines
  cases found : lines.findIdx? isAmbiguous with
  | none =>
      rw [ofLinesAfter_of_single found owner 0]
      refine ⟨by simp, ?_, by simp⟩
      intro references listed
      cases listed
      exact lists_listAfter owner (findIdx?_isAmbiguous_eq_none_iff.1 found)
  | some passed =>
      rw [ofLinesAfter_of_findIdx? found owner 0]
      refine ⟨by simp, by simp, ?_⟩
      intro failure failed
      cases failed
      obtain ⟨inRange, ambiguous, first⟩ := List.findIdx?_eq_some_iff_getElem.1 found
      refine ⟨rfl, passed, lines[passed], List.getElem?_eq_getElem inRange, ?_, ?_, ?_⟩
      · exact isAmbiguous_eq_true_iff.1 ambiguous
      · simp only [Nat.zero_add]
      · intro earlier other before isOther
        obtain ⟨otherInRange, rfl⟩ := List.getElem?_eq_some_iff.1 isOther
        exact isAmbiguous_eq_false_iff.1 (by simpa using first earlier before)

end PathAlias.Reference
