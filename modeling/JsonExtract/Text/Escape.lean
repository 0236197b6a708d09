import JsonExtract.Text.Hidden

/-!
# Escaped characters

How a character is written where a reader has to see which one it is: quotes, backslashes and the
usual controls behind a backslash, other hidden characters by their code point, all others as they
are.

* `Escape.short?` — the escapes of one letter;
* `Escape.character` — the text of a character;
* `Escape.quoted` — a text between double quotes.
-/

namespace JsonExtract.Escape

/-- Escapes of one letter. -/
def short? : Char → Option Char
  | '\t' => some 't'
  | '\n' => some 'n'
  | '\r' => some 'r'
  | '\'' => some '\''
  | '"' => some '"'
  | '\\' => some '\\'
  | _ => none

/-- Whether a character is written by its code point. -/
def isHidden (c : Char) : Bool :=
  if c.toNat < 0x80 then c.toNat < 0x20 || c.toNat == 0x7f else Hidden.contains c.toNat

/-- The code point of a character between braces. -/
def codePoint (c : Char) : List Char :=
  ['\\', 'u', '\x7b'] ++ Nat.toDigits 16 c.toNat ++ ['\x7d']

/-- The text of a character. -/
def character (c : Char) : List Char :=
  if c = '\x00' then ['\\', '0']
  else
    match short? c with
    | some letter => ['\\', letter]
    | none => if isHidden c then codePoint c else [c]

/-- A text between double quotes, where an apostrophe stands for itself. -/
def quoted (cs : List Char) : List Char :=
  ['"'] ++ cs.flatMap (fun c => if c = '\'' then [c] else character c) ++ ['"']

end JsonExtract.Escape
