/-!
# The ASCII bytes of the two languages

Documents are bytes, not characters, so their grammar is written with bytes. This module names the
ones that carry meaning and defines the classes of bytes that the grammar asks for.

* punctuation, by what it is called;
* `Ascii.isSpace`, `Ascii.isDigit`, `Ascii.isHexDigit` — classes of single bytes;
* `Ascii.isContinuation` — the second and later bytes of an encoded character.
-/

namespace JsonExtract.Ascii

/-! ## Punctuation

Documents and messages are taken apart byte by byte. These bytes stand under the names that the
grammar calls them by, and as abbreviations, so that a comparison with one of them still
computes. -/

/-- The double quote, around strings and member names. -/
abbrev quote : UInt8 := 0x22

/-- The reverse solidus, which starts an escape. -/
abbrev backslash : UInt8 := 0x5c

/-- The solidus, which may be escaped. -/
abbrev slash : UInt8 := 0x2f

/-- The left brace, which opens an object. -/
abbrev openBrace : UInt8 := 0x7b

/-- The right brace, which closes an object. -/
abbrev closeBrace : UInt8 := 0x7d

/-- The left square bracket, which opens an array. -/
abbrev openBracket : UInt8 := 0x5b

/-- The right square bracket, which closes an array. -/
abbrev closeBracket : UInt8 := 0x5d

/-- The comma between members and between elements. -/
abbrev comma : UInt8 := 0x2c

/-- The colon between a member's name and its value. -/
abbrev colon : UInt8 := 0x3a

/-- The minus sign of numbers and exponents. -/
abbrev minus : UInt8 := 0x2d

/-- The plus sign of exponents. -/
abbrev plus : UInt8 := 0x2b

/-- The point before a fraction. -/
abbrev point : UInt8 := 0x2e

/-- The digit zero, which may not lead other digits. -/
abbrev zero : UInt8 := 0x30

/-- The apostrophe, which quotes a byte in messages. -/
abbrev apostrophe : UInt8 := 0x27

/-- The line feed, which ends a line. -/
abbrev lineFeed : UInt8 := 0x0a

/-! ## Classes

Classes are tests that return a Boolean, since the lexer runs on them. All of them look at a
single byte and know nothing about the character that it may be part of. -/

/-- Space, tab, line feed and carriage return separate tokens. -/
def isSpace (b : UInt8) : Bool :=
  b == 0x20 || b == 0x09 || b == 0x0a || b == 0x0d

/-- The decimal digits. -/
def isDigit (b : UInt8) : Bool :=
  0x30 ≤ b && b ≤ 0x39

/-- The letters of either case from `a` to `f`, and the digits. -/
def isHexDigit (b : UInt8) : Bool :=
  isDigit b || (0x41 ≤ b && b ≤ 0x46) || (0x61 ≤ b && b ≤ 0x66)

/-- Control bytes may not stand unescaped in a string. -/
def isControl (b : UInt8) : Bool :=
  b < 0x20

/-- The bytes with a glyph of their own, the space among them. -/
def isGraphic (b : UInt8) : Bool :=
  0x20 ≤ b && b ≤ 0x7e

/-- Every byte of an encoded character after the first has the bits `10` on top. -/
def isContinuation (b : UInt8) : Bool :=
  b &&& 0xc0 == 0x80

end JsonExtract.Ascii
