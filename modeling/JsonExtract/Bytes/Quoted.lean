import JsonExtract.Bytes.Utf8
import JsonExtract.Text.Escape

/-!
# Quoted byte strings

A byte string between double quotes, so that every byte of it can be read off: ASCII controls and
broken bytes by their two digits, characters as `Escape.character` writes them.

* `Quoted.piece` — the text of a character or a broken piece;
* `Quoted.text` — the text of a byte string.
-/

namespace JsonExtract.Quoted

/-- A byte by its two digits. -/
def byte (b : UInt8) : List Char :=
  ['\\', 'x'] ++ (Bytes.hex [b]).toList

/-- The text of a part of a byte string. -/
def piece : Utf8.Piece → List Char
  | .character c =>
    if c ≠ '\x00' && Escape.short? c = none && (c.toNat < 0x20 || c.toNat == 0x7f) then
      byte c.toNat.toUInt8
    else Escape.character c
  | .broken bytes => bytes.flatMap byte

/-- The text of a byte string, with quotes around it. -/
def text (bytes : Bytes) : String :=
  String.ofList (['"'] ++ (Utf8.pieces bytes).flatMap piece ++ ['"'])

end JsonExtract.Quoted
