import JsonExtract.Bytes.Basic

/-!
# Bytes as text

Byte strings are shown as text where they are valid UTF-8. Where they are not, they fall into
characters and broken pieces: a broken piece is one byte, or the longest beginning of an encoded
character that the byte behind it breaks off.

* `Utf8.leading?` — the character that a byte string starts with;
* `Utf8.pieces` — characters and broken pieces;
* `Utf8.decode?` — the text of a valid byte string;
* `Utf8.lossy` — a text for any byte string, with U+FFFD for each broken piece.
-/

namespace JsonExtract.Utf8

/-- A part of a byte string. -/
inductive Piece
  /-- an encoded character -/
  | character (c : Char)
  /-- bytes that encode none -/
  | broken (bytes : Bytes)
  deriving DecidableEq, Repr

/-- The character that starts a byte string. -/
def leading? (bytes : Bytes) : Option Char :=
  (ByteArray.mk (bytes.take 4).toArray).utf8DecodeChar? 0

/-- What may follow the first byte of a character of several bytes: the least and the greatest
second byte, and the number of bytes behind it. -/
def follow? (b : UInt8) : Option (UInt8 × UInt8 × Nat) :=
  if 0xc2 ≤ b && b ≤ 0xdf then some (0x80, 0xbf, 0)
  else if b = 0xe0 then some (0xa0, 0xbf, 1)
  else if b = 0xed then some (0x80, 0x9f, 1)
  else if 0xe1 ≤ b && b ≤ 0xef then some (0x80, 0xbf, 1)
  else if b = 0xf0 then some (0x90, 0xbf, 2)
  else if 0xf1 ≤ b && b ≤ 0xf3 then some (0x80, 0xbf, 2)
  else if b = 0xf4 then some (0x80, 0x8f, 2)
  else none

/-- The number of bytes behind the first that still belong to the broken piece that starts with `b`
and goes on in `rest`. -/
def brokenTail (b : UInt8) (rest : Bytes) : Nat :=
  match follow? b, rest with
  | some (low, high, more), second :: others =>
    if low ≤ second && second ≤ high then
      1 + ((others.take more).takeWhile Ascii.isContinuation).length
    else 0
  | _, _ => 0

/-- The characters and the broken pieces of a byte string. -/
def pieces : Bytes → List Piece
  | [] => []
  | b :: rest =>
    match leading? (b :: rest) with
    | some c => .character c :: pieces (rest.drop (c.utf8Size - 1))
    | none =>
      let tail := brokenTail b rest
      .broken (b :: rest.take tail) :: pieces (rest.drop tail)
termination_by bytes => bytes.length
decreasing_by
  all_goals
    rw [List.length_drop, List.length_cons]
    omega

/-- The text of a byte string without broken pieces. -/
def decode? (bytes : Bytes) : Option (List Char) :=
  (pieces bytes).mapM fun
    | .character c => some c
    | .broken _ => none

/-- A text for any byte string. -/
def lossy (bytes : Bytes) : List Char :=
  (pieces bytes).map fun
    | .character c => c
    | .broken _ => '\ufffd'

/-- A text for any byte string. It is for messages only: whatever is compared or given out stays a
byte string. -/
def lossyString (bytes : Bytes) : String :=
  String.ofList (lossy bytes)

end JsonExtract.Utf8
