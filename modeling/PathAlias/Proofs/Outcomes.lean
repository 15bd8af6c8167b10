/-!
Contract: outcomes of work that can fail, one step after another.

Owns:
- the steps of such work as simplification rules;
- what has to happen for two steps to succeed, for either to fail, and for a result
  to be changed.

Does not own: what the steps are, or what their causes of failure mean.
-/

set_option autoImplicit false

universe u v

namespace PathAlias.Outcome

variable {Cause : Type u} {First Second : Type v}

@[simp]
theorem ok_bind (value : First) (next : First → Except Cause Second) :
    (Except.ok value >>= next) = next value := rfl

@[simp]
theorem error_bind (cause : Cause) (next : First → Except Cause Second) :
    (Except.error cause >>= next) = .error cause := rfl

@[simp]
theorem pure_eq_ok (value : First) : (pure value : Except Cause First) = .ok value := rfl

/-- Two steps succeed when the first one does, and the second one with what the
first one gave. -/
theorem bind_eq_ok_iff {first : Except Cause First} {next : First → Except Cause Second}
    {result : Second} :
    (first >>= next) = .ok result ↔ ∃ value, first = .ok value ∧ next value = .ok result := by
  cases first with
  | error cause => simp
  | ok value => simp

theorem bind_eq_error_iff {first : Except Cause First} {next : First → Except Cause Second}
    {cause : Cause} :
    (first >>= next) = .error cause
      ↔ first = .error cause ∨ ∃ value, first = .ok value ∧ next value = .error cause := by
  cases first with
  | error other => simp
  | ok value => simp

theorem map_eq_ok_iff {work : Except Cause First} {change : First → Second} {result : Second} :
    work.map change = .ok result ↔ ∃ value, work = .ok value ∧ result = change value := by
  cases work with
  | error cause => simp [Except.map]
  | ok value => simp [Except.map, eq_comm]

end PathAlias.Outcome
