import JsonExtract.Bytes.Basic

/-!
# Space beyond ASCII

The encoded space characters that may separate tokens on request: the byte order mark and the
characters beyond ASCII that have the property `White_Space`. Their encodings have two bytes behind
the lead `0xC2` and three behind the others.

* `Space.characters`, `Space.isEncoding` — the characters, and the bytes that stand for one;
* `Space.missing?` — the number of bytes that a lead announces.
-/

namespace JsonExtract.Space

/-- The space characters beyond ASCII. -/
def characters : List Char :=
  ['\u0085', '\u00a0', '\u1680', '\u2000', '\u2001', '\u2002', '\u2003', '\u2004', '\u2005',
    '\u2006', '\u2007', '\u2008', '\u2009', '\u200a', '\u2028', '\u2029', '\u202f', '\u205f',
    '\u3000', '\ufeff']

/-- Whether `bytes` stand for a space character. -/
def isEncoding (bytes : Bytes) : Bool :=
  characters.any fun c => String.utf8EncodeChar c = bytes

/-- The number of bytes that follow `b` if it leads one of the characters. -/
def missing? (b : UInt8) : Option Nat :=
  if b = 0xc2 then some 1
  else if b ∈ [0xe1, 0xe2, 0xe3, 0xef] then some 2
  else none

variable {c : Char}

/-- Every space character starts with a byte that `missing?` knows, and has as many more bytes as
that says. -/
theorem missing?_of_mem (h : c ∈ characters) :
    (String.utf8EncodeChar c).head?.bind missing? = some (String.utf8EncodeChar c).tail.length := by
  have each : characters.all (fun c => (String.utf8EncodeChar c).head?.bind missing? ==
      some (String.utf8EncodeChar c).tail.length) = true := by
    decide
  exact eq_of_beq (List.all_eq_true.1 each c h)

/-- All bytes of a space character behind the first are continuation bytes. -/
theorem isContinuation_of_mem (h : c ∈ characters) :
    (String.utf8EncodeChar c).tail.all Ascii.isContinuation = true := by
  have each : characters.all (fun c =>
      (String.utf8EncodeChar c).tail.all Ascii.isContinuation) = true := by
    decide
  exact List.all_eq_true.1 each c h

end JsonExtract.Space
