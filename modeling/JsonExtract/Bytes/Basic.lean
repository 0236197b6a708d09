import JsonExtract.Bytes.Ascii

/-!
# Byte strings

Documents, keys and extracted values are strings of bytes that need not be valid in any encoding.

* `Bytes` — a list of bytes;
* `Bytes.ofString`, `Bytes.ofChars` — the encoding of text;
* `Bytes.stripQuotes` — the bytes between a pair of quotes;
* `Bytes.hex` — the digits of a byte string.
-/

namespace JsonExtract

/-- A string of bytes. No encoding is assumed, since a document may be broken anywhere, and names
and literals are compared byte for byte. -/
abbrev Bytes := List UInt8

namespace Bytes

/-- The encoding of a list of characters. -/
def ofChars (cs : List Char) : Bytes :=
  cs.flatMap String.utf8EncodeChar

/-- The encoding of a text. -/
def ofString (s : String) : Bytes :=
  ofChars s.toList

/-- The bytes between one pair of surrounding quotes, or all of them where there is no such pair. -/
def stripQuotes (raw : Bytes) : Bytes :=
  match raw with
  | b :: rest =>
    if b = Ascii.quote && rest.getLast? = some Ascii.quote then rest.dropLast else raw
  | [] => raw

/-- Two digits for each byte, in lower case. -/
def hex (bytes : Bytes) : String :=
  String.ofList <| bytes.flatMap fun b =>
    [Nat.digitChar (b.toNat / 16), Nat.digitChar (b.toNat % 16)]

/-! ## Equations

Texts are encoded character by character, so encoding respects concatenation. Quotes are removed
in pairs only, and only from the ends. -/

@[simp]
theorem ofChars_nil : ofChars [] = [] := rfl

@[simp]
theorem ofChars_append (cs ds : List Char) : ofChars (cs ++ ds) = ofChars cs ++ ofChars ds := by
  simp [ofChars]

/-- A quoted text loses its quotes. -/
theorem stripQuotes_quoted (inner : Bytes) :
    stripQuotes (Ascii.quote :: (inner ++ [Ascii.quote])) = inner := by
  simp [stripQuotes]

/-- A text that starts with no quote is kept. -/
theorem stripQuotes_of_head_ne {b : UInt8} (h : b ≠ Ascii.quote) (rest : Bytes) :
    stripQuotes (b :: rest) = b :: rest := by
  simp [stripQuotes, h]

end Bytes

end JsonExtract
