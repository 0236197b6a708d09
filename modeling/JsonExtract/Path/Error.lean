import JsonExtract.Text.Escape

/-!
# Errors in paths

* `FilterFault`, `PathFault` — what is wrong with a path;
* `PathError` — what is wrong, and where.
-/

namespace JsonExtract

/-- What is wrong with a filter. -/
inductive FilterFault
  /-- no equality sign behind the first operand -/
  | noEquality
  /-- no point behind the sign for the filtered value -/
  | noPoint
  /-- neither a literal nor a member -/
  | noOperand
  /-- two members -/
  | noLiteral
  deriving DecidableEq, Repr

/-- The text of a fault in a filter. -/
def FilterFault.reason : FilterFault → String
  | noEquality => "expected '=='"
  | noPoint => "expected '.' after '@'"
  | noOperand => "expected a string literal or '@.'"
  | noLiteral => "one operand must be a string literal"

/-- What is wrong with a path. -/
inductive PathFault
  /-- the path does not start with its root -/
  | expectedRoot
  /-- a character that cannot stand at its place -/
  | unexpectedChar (c : Char)
  /-- a path that ends too early -/
  | unexpectedEnd
  /-- no name where one has to be -/
  | emptyKey
  /-- nothing between brackets -/
  | emptyIndex
  /-- a position in front of the first -/
  | negativeIndex
  /-- a position of more than 64 bits -/
  | indexOverflow
  /-- a bracket that is not closed -/
  | unbalanced (bracket : Char)
  /-- a filter that is none -/
  | malformedFilter (fault : FilterFault)
  /-- a quote that is not closed -/
  | unterminatedLiteral
  /-- a mark behind a mark -/
  | repeatedMarker
  deriving DecidableEq, Repr

namespace PathFault

/-- The text of a fault. -/
def message : PathFault → String
  | expectedRoot => "expected '$' at the start of the path"
  | unexpectedChar c => "unexpected character '" ++ String.ofList (Escape.character c) ++ "'"
  | unexpectedEnd => "unexpected end of path"
  | emptyKey => "empty key"
  | emptyIndex => "empty index expression"
  | negativeIndex => "negative indices are not supported"
  | indexOverflow => "index does not fit in usize"
  | unbalanced bracket => "unbalanced '" ++ bracket.toString ++ "'"
  | malformedFilter fault => "malformed filter: " ++ fault.reason
  | unterminatedLiteral => "unterminated string literal"
  | repeatedMarker => "selector is already marked"

/-- The character or the reason that a fault carries. -/
def detail? : PathFault → Option String
  | unexpectedChar c | unbalanced c => some c.toString
  | malformedFilter fault => some fault.reason
  | _ => none

end PathFault

/-- An error in a path. The offset counts bytes of the text, as offsets in documents do. -/
structure PathError where
  /-- what is wrong -/
  fault : PathFault
  /-- number of bytes in front of the place at fault -/
  offset : Nat
  deriving DecidableEq, Repr

/-- The text of an error. -/
def PathError.message (e : PathError) : String :=
  e.fault.message ++ " at offset " ++ toString e.offset

end JsonExtract
