import PathAlias.Text.Basic

/-!
Contract: text as UTF-8 bytes and back.

Owns:
- the encoding of a text;
- one reading of arbitrary bytes into characters and malformed stretches, where
  a stretch is as long as some character could still have begun that way;
- its two views: the strict one refuses malformed bytes, the lenient one shows
  each malformed stretch as one replacement character.

Does not own: what bytes stand for (paths, file contents).
-/

set_option autoImplicit false

namespace PathAlias.Utf8

def encode (text : Text) : List UInt8 :=
  text.flatMap String.utf8EncodeChar

/-- Where a reader stands between two bytes. -/
inductive State where
  | boundary
  /-- Inside a character: the next byte lies between `lowest` and `highest`,
  and `further` more come after it.  `scalar` collects the bits read so far. -/
  | inside (further lowest highest scalar : Nat)
  deriving DecidableEq, Repr

namespace State

/-- The step on the first byte of a character.  The bounds on the second byte
leave out overlong forms, surrogates and values beyond the last character.
Each piece that is finished by the byte is given: a character, or nothing for
a malformed stretch. -/
def begin (byte : Nat) : List (Option Char) × State :=
  if byte ≤ 0x7F then ([some (Char.ofNat byte)], boundary)
  else if 0xC2 ≤ byte ∧ byte ≤ 0xDF then ([], inside 0 0x80 0xBF (byte - 0xC0))
  else if 0xE0 ≤ byte ∧ byte ≤ 0xEF then
    ([], inside 1 (if byte = 0xE0 then 0xA0 else 0x80) (if byte = 0xED then 0x9F else 0xBF)
      (byte - 0xE0))
  else if 0xF0 ≤ byte ∧ byte ≤ 0xF4 then
    ([], inside 2 (if byte = 0xF0 then 0x90 else 0x80) (if byte = 0xF4 then 0x8F else 0xBF)
      (byte - 0xF0))
  else ([none], boundary)

/-- The step on any byte.  A byte that cannot continue a character ends a
malformed stretch and begins a character itself. -/
def step : State → Nat → List (Option Char) × State
  | boundary, byte => begin byte
  | inside further lowest highest scalar, byte =>
      if lowest ≤ byte ∧ byte ≤ highest then
        let extended := scalar * 64 + (byte - 0x80)
        match further with
        | 0 => ([some (Char.ofNat extended)], boundary)
        | fewer + 1 => ([], inside fewer 0x80 0xBF extended)
      else
        (none :: (begin byte).1, (begin byte).2)

/-- What the end of the bytes finishes: inside a character, a malformed
stretch. -/
def finish : State → List (Option Char)
  | boundary => []
  | inside .. => [none]

end State

def piecesFrom : State → List UInt8 → List (Option Char)
  | state, [] => state.finish
  | state, byte :: rest =>
      (state.step byte.toNat).1 ++ piecesFrom (state.step byte.toNat).2 rest

/-- The pieces of arbitrary bytes in order: each a character, or nothing for
one malformed stretch. -/
def pieces (bytes : List UInt8) : List (Option Char) :=
  piecesFrom .boundary bytes

def replacementChar : Char := '\uFFFD'

/-- The text of arbitrary bytes, each malformed stretch shown as one
replacement character. -/
def decodeLossy (bytes : List UInt8) : Text :=
  (pieces bytes).map (·.getD replacementChar)

def decode? (bytes : List UInt8) : Option Text :=
  if none ∈ pieces bytes then none else some (decodeLossy bytes)

end PathAlias.Utf8
