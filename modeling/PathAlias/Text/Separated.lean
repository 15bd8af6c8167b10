/-!
Contract: sequences written with a separator between their pieces.

Owns: splitting at every separator, joining with a separator, and the law that
joining undoes splitting.

Does not own: which separator means what (lines end at a newline, path
segments at a slash).
-/

set_option autoImplicit false

universe u

namespace PathAlias.Separated

variable {α : Type u}

/-- The pieces between the separators, empty ones included: always one more
than there are separators. -/
def split [DecidableEq α] (separator : α) : List α → List (List α)
  | [] => [[]]
  | symbol :: rest =>
      if symbol = separator then [] :: split separator rest
      else (split separator rest).modifyHead (symbol :: ·)

def join (separator : α) : List (List α) → List α
  | [] => []
  | [piece] => piece
  | piece :: others => piece ++ separator :: join separator others

@[simp]
theorem split_ne_nil [DecidableEq α] (separator : α) (symbols : List α) :
    split separator symbols ≠ [] := by
  cases symbols with
  | nil => simp [split]
  | cons symbol rest =>
      have nested := split_ne_nil separator rest
      simp only [split]
      split
      · simp
      · cases pieces : split separator rest with
        | nil => exact absurd pieces nested
        | cons => simp

theorem join_cons_of_ne_nil (separator : α) (piece : List α) {others : List (List α)}
    (nonempty : others ≠ []) :
    join separator (piece :: others) = piece ++ separator :: join separator others := by
  cases others with
  | nil => exact absurd rfl nonempty
  | cons => rfl

theorem join_modifyHead (separator symbol : α) {pieces : List (List α)} (nonempty : pieces ≠ []) :
    join separator (pieces.modifyHead (symbol :: ·)) = symbol :: join separator pieces := by
  match pieces with
  | [_] => rfl
  | _ :: _ :: _ => rfl

/-- Joining the pieces of a sequence gives the sequence back. -/
@[simp]
theorem join_split [DecidableEq α] (separator : α) (symbols : List α) :
    join separator (split separator symbols) = symbols := by
  induction symbols with
  | nil => rfl
  | cons symbol rest inductionHypothesis =>
      have nonempty := split_ne_nil separator rest
      simp only [split]
      split
      · rename_i same
        rw [join_cons_of_ne_nil separator [] nonempty, inductionHypothesis, same]
        rfl
      · rw [join_modifyHead separator symbol nonempty, inductionHypothesis]

end PathAlias.Separated
