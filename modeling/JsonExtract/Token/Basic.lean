import JsonExtract.Kind

/-!
# Tokens of a document

Commas and colons are checked and dropped while a document is read; what is left are the brackets,
the names of members and the scalar values, each in its raw text.

* `Token` — brackets, names and scalars;
* `Lexeme` — raw text under construction;
* `Lexed` — a token and the bytes it stands on.
-/

namespace JsonExtract

/-- A token of a document. Commas, colons and spaces are left out, for the tokens of a value
determine them up to the spaces. -/
inductive Token
  /-- a bracket that opens a container -/
  | opening (container : Container)
  /-- a bracket that closes a container -/
  | closing (container : Container)
  /-- the name of a member, with its quotes -/
  | name (raw : Bytes)
  /-- a value that is no container -/
  | scalar (kind : Kind) (raw : Bytes)
  deriving DecidableEq, Repr

/-- The text of a token in the document. -/
def Token.text : Token → Bytes
  | opening c => [c.opening]
  | closing c => [c.closing]
  | name raw | scalar _ raw => raw

/-- A token and where it stands. Between two of them there are only spaces and separators. -/
structure Lexed where
  /-- the token -/
  token : Token
  /-- number of bytes in front of it -/
  start : Nat
  /-- number of bytes up to its end -/
  stop : Nat
  deriving DecidableEq, Repr

/-- The raw text of a token that is being read. -/
structure Lexeme where
  /-- number of bytes in front of it -/
  start : Nat
  /-- its bytes so far, the last one first -/
  reversed : Bytes
  deriving DecidableEq, Repr

namespace Lexeme

/-- Starts with one byte. -/
def first (start : Nat) (b : UInt8) : Lexeme :=
  ⟨start, [b]⟩

/-- The bytes so far. -/
def raw (l : Lexeme) : Bytes :=
  l.reversed.reverse

/-- Adds a byte. -/
def push (l : Lexeme) (b : UInt8) : Lexeme :=
  { l with reversed := b :: l.reversed }

/-- Adds a run of bytes. -/
def append (l : Lexeme) (bytes : Bytes) : Lexeme :=
  { l with reversed := bytes.reverseAux l.reversed }

variable (l : Lexeme) (b : UInt8) (bytes : Bytes)

@[simp]
theorem raw_first (start : Nat) : (first start b).raw = [b] := rfl

@[simp]
theorem raw_push : (l.push b).raw = l.raw ++ [b] := by
  simp [raw, push]

@[simp]
theorem raw_append : (l.append bytes).raw = l.raw ++ bytes := by
  simp [raw, append, List.reverseAux_eq]

@[simp]
theorem start_first (start : Nat) : (first start b).start = start := rfl

@[simp]
theorem start_push : (l.push b).start = l.start := rfl

@[simp]
theorem start_append : (l.append bytes).start = l.start := rfl

end Lexeme

end JsonExtract
