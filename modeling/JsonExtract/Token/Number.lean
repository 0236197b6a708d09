import JsonExtract.Bytes.Basic

/-!
# The grammar of numbers

A number is a minus sign or none, then a zero or digits that do not start with one, then a fraction
or none, then an exponent or none. `NumberPart` is the automaton of this grammar: its states are the
parts of a number, named for what was read last.
-/

namespace JsonExtract

/-- What the last byte of an unfinished number was. -/
inductive NumberPart
  /-- the minus sign in front -/
  | sign
  /-- the zero of an integer part that is zero -/
  | zero
  /-- a digit of the integer part -/
  | whole
  /-- the point -/
  | point
  /-- a digit of the fraction -/
  | fraction
  /-- the letter in front of the exponent -/
  | letter
  /-- the sign of the exponent -/
  | exponentSign
  /-- a digit of the exponent -/
  | exponent
  deriving DecidableEq, Repr

namespace NumberPart

/-- The part that the first byte of a number starts. -/
def first? (b : UInt8) : Option NumberPart :=
  if b = Ascii.minus then some sign
  else if b = Ascii.zero then some zero
  else if Ascii.isDigit b then some whole
  else none

/-- The part that the byte `b` starts behind an integer or a fraction: an e of either case. -/
def exponent? (b : UInt8) : Option NumberPart :=
  if b = 0x65 || b = 0x45 then some letter else none

/-- The part that the byte `b` goes on with, `none` if the number cannot go on with it. -/
def next? : NumberPart → UInt8 → Option NumberPart
  | sign, b => if b = Ascii.zero then some zero else if Ascii.isDigit b then some whole else none
  | zero, b => if b = Ascii.point then some point else exponent? b
  | whole, b =>
    if Ascii.isDigit b then some whole else if b = Ascii.point then some point else exponent? b
  | point, b => if Ascii.isDigit b then some fraction else none
  | fraction, b => if Ascii.isDigit b then some fraction else exponent? b
  | letter, b =>
    if Ascii.isDigit b then some exponent
    else if b = Ascii.plus || b = Ascii.minus then some exponentSign
    else none
  | exponentSign, b => if Ascii.isDigit b then some exponent else none
  | exponent, b => if Ascii.isDigit b then some exponent else none

/-- Whether a number may end here. What was read so far is then a number, though it may be the
start of a longer one. -/
def isComplete : NumberPart → Bool
  | zero | whole | fraction | exponent => true
  | sign | point | letter | exponentSign => false

/-- Whether any number of digits may follow. -/
def takesDigits : NumberPart → Bool
  | whole | fraction | exponent => true
  | zero | sign | point | letter | exponentSign => false

/-- A part that takes digits stays as it is. -/
theorem next?_of_takesDigits {p : NumberPart} {b : UInt8} (hp : p.takesDigits = true)
    (hb : Ascii.isDigit b = true) : p.next? b = some p := by
  cases p <;> simp_all [takesDigits, next?]

end NumberPart

end JsonExtract
