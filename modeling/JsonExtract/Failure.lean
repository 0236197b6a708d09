import JsonExtract.Location

/-!
# Failures of an extraction

What ends an extraction early, and the text that says so.

* `SyntaxFault`, `SyntaxError` — a document that breaks the grammar, and where;
* `OptionFault` — a setting that is out of range;
* `Failure` — all of these, a bracket too many, and a source that fails to deliver.
-/

namespace JsonExtract

/-! ## Malformed documents

A fault says what is wrong with a byte and a location says where the byte stands. The message is
composed of these two, so the lexer writes no texts of its own. -/

/-- The ways in which a document breaks the grammar. -/
inductive SyntaxFault
  /-- a byte that cannot stand at its place -/
  | character (byte : UInt8)
  /-- a byte that no escape starts with -/
  | escape (byte : UInt8)
  /-- a byte that is no digit of a `\u` escape -/
  | unicodeDigit (byte : UInt8)
  /-- a closing bracket of the other container -/
  | bracket (byte : UInt8)
  /-- a document that ends too early -/
  | endOfInput
  deriving DecidableEq, Repr

/-- The text of a byte in a message: between apostrophes if it has a glyph, else its two digits. -/
def byteText (b : UInt8) : String :=
  if b = Ascii.apostrophe then "'\\''"
  else if Ascii.isGraphic b then String.ofList ['\'', Char.ofNat b.toNat, '\'']
  else "0x" ++ (Bytes.hex [b]).toUpper

namespace SyntaxFault

/-- The byte at fault, unless the document ends too early. -/
def byte? : SyntaxFault → Option UInt8
  | character b | escape b | unicodeDigit b | bracket b => some b
  | endOfInput => none

/-- The text of a fault. -/
def message : SyntaxFault → String
  | character b => "invalid character " ++ byteText b
  | escape b => "invalid escape sequence '\\" ++ byteText b ++ "'"
  | unicodeDigit b => "invalid unicode escape digit " ++ byteText b
  | bracket b => "mismatched closing bracket " ++ byteText b
  | endOfInput => "unexpected end of input"

end SyntaxFault

/-- A fault and the place of the byte at fault. -/
structure SyntaxError where
  /-- what is wrong -/
  fault : SyntaxFault
  /-- the place in front of the byte at fault -/
  location : Location
  deriving DecidableEq, Repr

/-- The text of a fault with its place. -/
def SyntaxError.message (e : SyntaxError) : String :=
  e.fault.message ++ " at byte " ++ toString e.location.offset ++
    " (" ++ toString e.location.line ++ ":" ++ toString e.location.column ++ ")"

/-! ## Settings out of range

Settings are checked before the first byte is read. The greatest depth and the size of reads are
the only settings that have a range, and in both of them only zero is wrong. -/

/-- The settings that may not be zero. -/
inductive OptionFault
  /-- reads of no bytes -/
  | zeroReadSize
  /-- no room for any container -/
  | zeroDepth
  deriving DecidableEq, Repr

/-- The text of a bad setting. -/
def OptionFault.message : OptionFault → String
  | zeroReadSize => "read_chunk_size must be non-zero"
  | zeroDepth => "max_depth must be non-zero"

/-! ## All failures

An extraction ends with the first failure it meets. Whatever the failure is about, its message
names a position of the document if there is one to name. -/

/-- What ends an extraction early. The four kinds come from four places: the grammar, the limit on
nesting, the source, and the settings, the last of which are checked before there is a session. -/
inductive Failure
  /-- the document breaks the grammar -/
  | malformed (error : SyntaxError)
  /-- the bracket at `offset` would open a container at nesting depth `depth`, above the limit -/
  | tooDeep (depth offset : Nat)
  /-- the source failed to deliver the byte at `offset` -/
  | unreadable (offset : Nat) (reason : String)
  /-- a setting is out of range -/
  | badOptions (fault : OptionFault)
  deriving DecidableEq, Repr

namespace Failure

/-- The text of a failure. -/
def message : Failure → String
  | malformed e => "syntax error: " ++ e.message
  | tooDeep depth offset =>
    "nesting depth " ++ toString depth ++ " exceeds the configured limit at byte " ++
      toString offset
  | unreadable offset reason => "read failed at byte " ++ toString offset ++ ": " ++ reason
  | badOptions fault => "invalid options: " ++ fault.message

/-- The text of the failure underneath, if there is one. -/
def cause? : Failure → Option String
  | malformed e => some e.message
  | unreadable _ reason => some reason
  | tooDeep .. | badOptions _ => none

end Failure

end JsonExtract
