import PathAlias.Text.Basic

/-!
Contract: why a text is not JSON, and the parts that every reader shares.

Owns: the two kinds of fault, blanks between tokens, and fixed words.

Does not own: the readers.  Each takes a text and gives what it read together
with the text that remains.
-/

set_option autoImplicit false

namespace PathAlias.Json

/-- Why a text cannot be read. -/
inductive Fault where
  | unfinished
  | malformed
  deriving DecidableEq, Repr

namespace Fault

def message : Fault → Text
  | unfinished => "the document ends too early".toList
  | malformed => "the document is not well formed".toList

end Fault

/-- Whether a character may stand between the tokens of a document. -/
def isBlank (symbol : Char) : Bool :=
  symbol = ' ' || symbol = '\t' || symbol = '\n' || symbol = '\r'

def skipBlanks (text : Text) : Text := text.dropWhile isBlank

def readWord {Result : Type} (result : Result) : Text → Text → Except Fault (Result × Text)
  | [], text => .ok (result, text)
  | _ :: _, [] => .error .unfinished
  | expected :: word, symbol :: rest =>
      if symbol = expected then readWord result word rest else .error .malformed

end PathAlias.Json
