import PathAlias.Json.Fault
import PathAlias.Text.Hexadecimal

/-!
Contract: quoted text of a document.

Owns:
- the escapes of quoted text, written and read;
- characters named by one or two sixteen-bit units in hexadecimal;
- the round trip from text to quoted text.

Does not own: where quoted text may stand.

Writing escapes only what it must: the quote, the backslash and the control
characters below the blank.  Reading takes every escape the format has.
-/

set_option autoImplicit false

namespace PathAlias.Json.Quoted

open PathAlias.Hexadecimal

/-! ## Units and characters -/

def hexUnit? (first second third fourth : Char) : Option Nat := do
  let high ← value? first
  let upper ← value? second
  let lower ← value? third
  let low ← value? fourth
  return ((high * 16 + upper) * 16 + lower) * 16 + low

/-- The fault of a text in the place of four hexadecimal digits: too short
when fewer than four bytes are left, and wrong otherwise. -/
def unitFault (text : Text) : Fault :=
  if Text.byteLength text < 4 then .unfinished else .malformed

def isHighSurrogate (unit : Nat) : Bool := 0xD800 ≤ unit && unit ≤ 0xDBFF

def isLowSurrogate (unit : Nat) : Bool := 0xDC00 ≤ unit && unit ≤ 0xDFFF

def pairedChar (high low : Nat) : Char :=
  Char.ofNat (0x10000 + (high - 0xD800) * 0x400 + (low - 0xDC00))

/-! ## Reading and writing -/

def shortEscape? (letter : Char) : Option Char :=
  if letter = '"' ∨ letter = '\\' ∨ letter = '/' then some letter
  else if letter = 'b' then some '\x08'
  else if letter = 'f' then some '\x0c'
  else if letter = 'n' then some '\n'
  else if letter = 'r' then some '\r'
  else if letter = 't' then some '\t'
  else none

def readUnit : Text → Except Fault (Nat × Text)
  | first :: second :: third :: fourth :: rest =>
      match hexUnit? first second third fourth with
      | some unit => .ok (unit, rest)
      | none => .error .malformed
  | short => .error (unitFault short)

/-- The second unit of a pair, with the escape that introduces it. -/
def readLowSurrogate : Text → Except Fault Nat
  | [] => .error .unfinished
  | symbol :: rest =>
      if symbol = '\\' then
        match rest with
        | [] => .error .unfinished
        | letter :: rest =>
            if letter = 'u' then
              match readUnit rest with
              | .ok (low, _) => if isLowSurrogate low then .ok low else .error .malformed
              | .error fault => .error fault
            else .error .malformed
      else .error .malformed

/-- The character that an escape names by its units, from the first digit on,
and the number of characters that name it. -/
def readUnits (text : Text) : Except Fault (Char × Nat) :=
  match readUnit text with
  | .error fault => .error fault
  | .ok (unit, rest) =>
      if isLowSurrogate unit then .error .malformed
      else if isHighSurrogate unit then
        match readLowSurrogate rest with
        | .ok low => .ok (pairedChar unit low, 10)
        | .error fault => .error fault
      else .ok (Char.ofNat unit, 4)

/-- The character that an escape stands for, from the character after the
backslash on, and the number of characters after the backslash. -/
def readEscape : Text → Except Fault (Char × Nat)
  | [] => .error .unfinished
  | letter :: rest =>
      if letter = 'u' then
        match readUnits rest with
        | .ok (symbol, width) => .ok (symbol, width + 1)
        | .error fault => .error fault
      else
        match shortEscape? letter with
        | some symbol => .ok (symbol, 1)
        | none => .error .malformed

def prepend (symbol : Char) : Except Fault (Text × Text) → Except Fault (Text × Text)
  | .ok (text, rest) => .ok (symbol :: text, rest)
  | .error fault => .error fault

/-- The text up to the closing quote, after a number of characters that an
escape has taken already. -/
def readAfter : Nat → Text → Except Fault (Text × Text)
  | _, [] => .error .unfinished
  | taken + 1, _ :: rest => readAfter taken rest
  | 0, symbol :: rest =>
      if symbol = '"' then .ok ([], rest)
      else if symbol = '\\' then
        match readEscape rest with
        | .ok (escaped, width) => prepend escaped (readAfter width rest)
        | .error fault => .error fault
      else if symbol.toNat < 0x20 then .error .malformed
      else prepend symbol (readAfter 0 rest)

/-- The text up to the closing quote.  Control characters below the blank must
be escaped, and the units of a pair must stand together. -/
def read (text : Text) : Except Fault (Text × Text) := readAfter 0 text

def escape (symbol : Char) : Text :=
  if symbol = '"' then ['\\', '"']
  else if symbol = '\\' then ['\\', '\\']
  else if symbol = '\x08' then ['\\', 'b']
  else if symbol = '\x0c' then ['\\', 'f']
  else if symbol = '\n' then ['\\', 'n']
  else if symbol = '\r' then ['\\', 'r']
  else if symbol = '\t' then ['\\', 't']
  else if symbol.toNat < 0x20 then
    ['\\', 'u', '0', '0', digit (symbol.toNat / 16), digit (symbol.toNat % 16)]
  else [symbol]

def write (text : Text) : Text := '"' :: (text.flatMap escape ++ ['"'])

/-! ## Reading what was written -/

/-- An escaped character reads as the character. -/
theorem readAfter_escape (symbol : Char) (rest : Text) :
    readAfter 0 (escape symbol ++ rest) = prepend symbol (readAfter 0 rest) := by
  unfold escape
  split
  · rename_i isQuote
    subst isQuote
    rfl
  split
  · rename_i isBackslash
    subst isBackslash
    rfl
  iterate 5
    split
    · rename_i isShort
      subst isShort
      rfl
  split
  · rename_i isControl
    have unit : hexUnit? '0' '0' (digit (symbol.toNat / 16)) (digit (symbol.toNat % 16))
        = some symbol.toNat := by
      have zero : value? '0' = some 0 := by decide
      simp only [hexUnit?, zero, value?_digit (symbol.toNat / 16) (by omega),
        value?_digit (symbol.toNat % 16) (by omega), bind, Option.bind, pure]
      congr 1
      omega
    have notLow : isLowSurrogate symbol.toNat = false := by
      simp [isLowSurrogate]
      omega
    have notHigh : isHighSurrogate symbol.toNat = false := by
      simp [isHighSurrogate]
      omega
    simp [readAfter, readEscape, readUnits, readUnit, unit, notLow, notHigh, Char.ofNat_toNat]
  · rename_i notQuote notBackslash _ _ _ _ _ notControl
    simp [readAfter, notQuote, notBackslash, notControl]

/-- A text in quotes reads as the text. -/
theorem read_write (text rest : Text) :
    read (text.flatMap escape ++ '"' :: rest) = .ok (text, rest) := by
  unfold read
  induction text with
  | nil => rfl
  | cons symbol others inductionHypothesis =>
      rw [List.flatMap_cons, List.append_assoc, readAfter_escape, inductionHypothesis]
      rfl

end PathAlias.Json.Quoted
