import Mathlib.Data.List.Basic
import PathAlias.Text.Separated

/-!
Contract: the algebra of splitting at a separator and joining with it.

Owns:
- splitting a concatenation, where a separator stands between its parts and
  where none stands in the first part;
- what pieces hold: no separator, and nothing but the symbols of the whole;
- the law that splitting undoes joining.

Does not own: that joining undoes splitting (`PathAlias.Text.Separated`).
-/

set_option autoImplicit false

universe u

namespace PathAlias.Separated

variable {α : Type u}

/-! ## Splitting a concatenation -/

section Splitting

variable [DecidableEq α] {separator : α}

/-- A separator between two sequences splits them from each other. -/
theorem split_append_cons (left right : List α) :
    split separator (left ++ separator :: right)
      = split separator left ++ split separator right := by
  induction left with
  | nil => simp [split]
  | cons symbol rest inductionHypothesis =>
      simp only [List.cons_append, split]
      rw [inductionHypothesis]
      split
      · rfl
      · cases pieces : split separator rest with
        | nil => exact absurd pieces (split_ne_nil separator rest)
        | cons first others => rfl

theorem split_append_of_not_mem {left : List α} (absent : separator ∉ left) (right : List α) :
    split separator (left ++ right)
      = (split separator right).modifyHead (left ++ ·) := by
  induction left with
  | nil =>
      rw [List.nil_append]
      cases split separator right <;> rfl
  | cons symbol rest inductionHypothesis =>
      have different : symbol ≠ separator := by
        rintro rfl
        exact absent (by simp)
      have restAbsent : separator ∉ rest := fun present =>
        absent (List.mem_cons_of_mem symbol present)
      simp only [List.cons_append, split]
      rw [if_neg different, inductionHypothesis restAbsent, List.modifyHead_modifyHead]
      rfl

theorem split_of_not_mem {symbols : List α} (absent : separator ∉ symbols) :
    split separator symbols = [symbols] := by
  have whole := split_append_of_not_mem absent []
  rw [List.append_nil] at whole
  rw [whole]
  simp [split]

theorem not_mem_of_mem_split {symbols piece : List α}
    (member : piece ∈ split separator symbols) : separator ∉ piece := by
  induction symbols generalizing piece with
  | nil =>
      have empty : piece = [] := by simpa [split] using member
      simp [empty]
  | cons symbol rest inductionHypothesis =>
      simp only [split] at member
      split at member
      · rcases List.mem_cons.1 member with rfl | later
        · simp
        · exact inductionHypothesis later
      · rename_i different
        cases pieces : split separator rest with
        | nil => exact absurd pieces (split_ne_nil separator rest)
        | cons first others =>
            rw [pieces, List.modifyHead_cons] at member
            rcases List.mem_cons.1 member with rfl | later
            · have firstPresent : first ∈ split separator rest := by
                rw [pieces]
                exact List.mem_cons_self
              simp only [List.mem_cons, not_or]
              exact ⟨fun same => different same.symm, inductionHypothesis firstPresent⟩
            · have piecePresent : piece ∈ split separator rest := by
                rw [pieces]
                exact List.mem_cons_of_mem first later
              exact inductionHypothesis piecePresent

end Splitting

/-! ## What a joined sequence holds -/

theorem mem_join {separator symbol : α} {pieces : List (List α)}
    (member : symbol ∈ join separator pieces) :
    symbol = separator ∨ ∃ piece ∈ pieces, symbol ∈ piece := by
  induction pieces with
  | nil => simp [join] at member
  | cons piece others inductionHypothesis =>
      by_cases last : others = []
      · subst last
        exact Or.inr ⟨piece, by simp, member⟩
      · rw [join_cons_of_ne_nil separator piece last, List.mem_append, List.mem_cons] at member
        rcases member with inPiece | isSeparator | later
        · exact Or.inr ⟨piece, by simp, inPiece⟩
        · exact Or.inl isSeparator
        · rcases inductionHypothesis later with isSeparator | ⟨found, present, inFound⟩
          · exact Or.inl isSeparator
          · exact Or.inr ⟨found, List.mem_cons_of_mem piece present, inFound⟩

theorem mem_join_of_mem {separator symbol : α} {piece : List α} {pieces : List (List α)}
    (present : piece ∈ pieces) (member : symbol ∈ piece) : symbol ∈ join separator pieces := by
  induction pieces with
  | nil => simp at present
  | cons first others inductionHypothesis =>
      by_cases last : others = []
      · subst last
        rw [List.mem_singleton] at present
        subst present
        exact member
      · rw [join_cons_of_ne_nil separator first last, List.mem_append, List.mem_cons]
        rcases List.mem_cons.1 present with rfl | later
        · exact Or.inl member
        · exact Or.inr (Or.inr (inductionHypothesis later))

theorem mem_of_mem_split [DecidableEq α] {separator symbol : α} {symbols piece : List α}
    (present : piece ∈ split separator symbols) (member : symbol ∈ piece) : symbol ∈ symbols := by
  rw [← join_split separator symbols]
  exact mem_join_of_mem present member

theorem join_append {separator : α} {left right : List (List α)}
    (leftNonempty : left ≠ []) (rightNonempty : right ≠ []) :
    join separator (left ++ right) = join separator left ++ separator :: join separator right := by
  induction left with
  | nil => exact absurd rfl leftNonempty
  | cons piece others inductionHypothesis =>
      by_cases last : others = []
      · subst last
        rw [List.singleton_append, join_cons_of_ne_nil separator piece rightNonempty]
        rfl
      · rw [List.cons_append, join_cons_of_ne_nil separator piece (by simp [last]),
          inductionHypothesis last, join_cons_of_ne_nil separator piece last, List.append_assoc,
          List.cons_append]

theorem map_join {β : Type u} (f : α → β) (separator : α) (pieces : List (List α)) :
    (join separator pieces).map f = join (f separator) (pieces.map (List.map f)) := by
  induction pieces with
  | nil => rfl
  | cons piece others inductionHypothesis =>
      by_cases last : others = []
      · subst last
        rfl
      · rw [join_cons_of_ne_nil separator piece last, List.map_append, List.map_cons,
          inductionHypothesis, List.map_cons,
          join_cons_of_ne_nil (f separator) (piece.map f) (by simp [last])]

theorem getLast?_join_concat (separator : α) (front : List (List α)) {last : List α}
    (nonempty : last ≠ []) : (join separator (front ++ [last])).getLast? = last.getLast? := by
  by_cases alone : front = []
  · subst alone
    rfl
  · rw [join_append alone (by simp), List.getLast?_append_of_ne_nil _ (by simp)]
    exact List.getLast?_append_of_ne_nil [separator] nonempty

theorem length_le_length_join (separator : α) {pieces : List (List α)}
    (nonempty : ∀ piece ∈ pieces, piece ≠ []) :
    pieces.length ≤ (join separator pieces).length := by
  induction pieces with
  | nil => exact Nat.zero_le _
  | cons piece others inductionHypothesis =>
      have positive : 0 < piece.length := List.length_pos_iff.2 (nonempty piece (by simp))
      by_cases last : others = []
      · subst last
        exact positive
      · have counted := inductionHypothesis
          (fun other member => nonempty other (List.mem_cons_of_mem piece member))
        rw [join_cons_of_ne_nil separator piece last, List.length_append, List.length_cons,
          List.length_cons]
        omega

theorem join_eq_nil_iff {separator : α} {pieces : List (List α)}
    (nonempty : ∀ piece ∈ pieces, piece ≠ []) : join separator pieces = [] ↔ pieces = [] := by
  constructor
  · intro empty
    have counted := length_le_length_join separator nonempty
    rw [empty] at counted
    exact List.length_eq_zero_iff.1 (Nat.le_zero.1 counted)
  · rintro rfl
    rfl

/-- Joined pieces begin with the first one, and go on with a separator if at
all. -/
theorem exists_join_cons (separator : α) (piece : List α) (others : List (List α)) :
    ∃ tail, join separator (piece :: others) = piece ++ tail
      ∧ (tail = [] ∨ ∃ rest, tail = separator :: rest) := by
  by_cases last : others = []
  · subst last
    exact ⟨[], (List.append_nil piece).symm, Or.inl rfl⟩
  · exact ⟨_, join_cons_of_ne_nil separator piece last, Or.inr ⟨_, rfl⟩⟩

/-- Splitting gives joined pieces back, as long as none holds a separator. -/
theorem split_join [DecidableEq α] {separator : α} {pieces : List (List α)}
    (nonempty : pieces ≠ []) (separatorFree : ∀ piece ∈ pieces, separator ∉ piece) :
    split separator (join separator pieces) = pieces := by
  induction pieces with
  | nil => exact absurd rfl nonempty
  | cons piece others inductionHypothesis =>
      have pieceFree : separator ∉ piece := separatorFree piece (by simp)
      by_cases last : others = []
      · subst last
        exact split_of_not_mem pieceFree
      · rw [join_cons_of_ne_nil separator piece last, split_append_cons,
          split_of_not_mem pieceFree, inductionHypothesis last
            (fun other present => separatorFree other (List.mem_cons_of_mem piece present))]
        rfl

end PathAlias.Separated
