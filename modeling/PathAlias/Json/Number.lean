import PathAlias.Json.Fault

/-!
Contract: the numbers of a document.

Owns: the grammar of a number literal, and the check that a double can hold
its value.

Does not own: the value itself, which nothing here needs.

Only literals too large for a double are refused.  Long and tiny ones are
fine: digits that a sixty-four bit significand cannot take only scale it before
the point, and are dropped after it.
-/

set_option autoImplicit false

namespace PathAlias.Json.Number

def isDigit (symbol : Char) : Bool := '0' ≤ symbol && symbol ≤ '9'

def digitValue (symbol : Char) : Nat := symbol.toNat - '0'.toNat

/-! ## Range -/

/-- A number rounded to a count of significant bits.  It goes to the nearest
such number, and from the middle to the one whose last bit is zero. -/
def roundToBits (bits number : Nat) : Nat :=
  let excess := number.log2 + 1 - bits
  let unit := Nat.pow 2 excess
  let whole := number / unit
  let remainder := number % unit
  if unit < 2 * remainder ∨ (unit = 2 * remainder ∧ whole % 2 = 1) then (whole + 1) * unit
  else whole * unit

def doubleBits : Nat := 53

/-- The exponent of the power of two that no double reaches. -/
def doubleLimit : Nat := 1024

/-- The largest power of ten that a double can hold. -/
def largestTenPower : Nat := 308

/-- The number that no significand of sixty-four bits reaches. -/
def significandLimit : Nat := Nat.pow 2 64

/-- Digits read onto a significand as long as it fits sixty-four bits, and the
digits that are left. -/
def accumulate : Nat → Text → Nat × Text
  | significand, [] => (significand, [])
  | significand, symbol :: rest =>
      if significand * 10 + digitValue symbol < significandLimit then
        accumulate (significand * 10 + digitValue symbol) rest
      else (significand, symbol :: rest)

/-- Whether a significand scaled by a power of ten is beyond every double. -/
def overflows (significand : Nat) (exponent : Int) : Bool :=
  match exponent with
  | .negSucc _ => false
  | .ofNat power =>
      if significand = 0 then false
      else if largestTenPower < power then true
      else
        doubleLimit ≤ Nat.log2 (roundToBits doubleBits
          (roundToBits doubleBits significand * roundToBits doubleBits (Nat.pow 10 power)))

/-- Whether the literal with these digits before the point, these after it and
this exponent is beyond every double. -/
def literalOverflows (whole fraction : Text) (exponent : Int) : Bool :=
  let (wholePart, scaling) := accumulate 0 whole
  let (significand, ignored) := accumulate wholePart fraction
  overflows significand
    (exponent + scaling.length - (fraction.length - ignored.length : Nat))

/-! ## Grammar -/

def readDigits : Text → Except Fault (Text × Text)
  | [] => .error .unfinished
  | symbol :: rest =>
      if isDigit symbol then .ok (symbol :: rest.takeWhile isDigit, rest.dropWhile isDigit)
      else .error .malformed

/-- The digits before the point.  A zero in front stands alone. -/
def readWhole (text : Text) : Except Fault (Text × Text) :=
  match text with
  | '0' :: rest =>
      if rest.head?.any isDigit then .error .malformed else .ok (['0'], rest)
  | _ => readDigits text

def readFraction : Text → Except Fault (Text × Text)
  | '.' :: rest => readDigits rest
  | text => .ok ([], text)

/-- A sign in front of an exponent: whether it is negative. -/
def readSign : Text → Bool × Text
  | '+' :: rest => (false, rest)
  | '-' :: rest => (true, rest)
  | text => (false, text)

def readExponent (text : Text) : Except Fault (Int × Text) :=
  match text with
  | [] => .ok (0, [])
  | symbol :: rest =>
      if symbol = 'e' ∨ symbol = 'E' then do
        let (isNegative, rest) := readSign rest
        let (digits, rest) ← readDigits rest
        let magnitude := digits.foldl (fun number symbol => number * 10 + digitValue symbol) 0
        return (if isNegative then -(magnitude : Int) else magnitude, rest)
      else .ok (0, text)

/-- The text after the digits, fraction and exponent of a literal. -/
def skipUnsigned (text : Text) : Except Fault Text := do
  let (whole, rest) ← readWhole text
  let (fraction, rest) ← readFraction rest
  let (exponent, rest) ← readExponent rest
  if literalOverflows whole fraction exponent then .error .malformed else return rest

def read (text : Text) : Except Fault (Text × Text) := do
  let unsigned := match text with
    | '-' :: rest => rest
    | _ => text
  let rest ← skipUnsigned unsigned
  return (text.take (text.length - rest.length), rest)

end PathAlias.Json.Number
