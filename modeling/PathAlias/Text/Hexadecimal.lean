import PathAlias.Text.Basic

/-!
Contract: hexadecimal digits.

Owns: the digit of a number below sixteen, and the number of a digit.

Does not own: numbers of several digits, which each format groups its own way.
-/

set_option autoImplicit false

namespace PathAlias.Hexadecimal

def digit (value : Nat) : Char :=
  if value < 10 then Char.ofNat (value + '0'.toNat) else Char.ofNat (value - 10 + 'a'.toNat)

def value? (symbol : Char) : Option Nat :=
  if '0' ≤ symbol ∧ symbol ≤ '9' then some (symbol.toNat - '0'.toNat)
  else if 'a' ≤ symbol ∧ symbol ≤ 'f' then some (symbol.toNat - 'a'.toNat + 10)
  else if 'A' ≤ symbol ∧ symbol ≤ 'F' then some (symbol.toNat - 'A'.toNat + 10)
  else none

/-- The digit of a number stands for that number. -/
theorem value?_digit (value : Nat) (small : value < 16) : value? (digit value) = some value := by
  revert value
  decide

end PathAlias.Hexadecimal
