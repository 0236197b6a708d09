import JsonExtract.Failure

/-!
# The grammar of strings

Between its quotes a string holds bytes other than quotes, backslashes and control bytes, and
escapes: a backslash with one of eight bytes, or with `u` and four hexadecimal digits. `Quotation`
is the automaton of this grammar behind the opening quote.
-/

namespace JsonExtract

/-- How far an unfinished string has come. -/
inductive Quotation
  /-- outside of any escape -/
  | plain
  /-- behind a backslash -/
  | escape
  /-- inside of a `\u` escape; one more digit than `more` is missing -/
  | digits (more : Nat)
  deriving DecidableEq, Repr

namespace Quotation

/-- The bytes that stand for themselves. -/
def isPlain (b : UInt8) : Bool :=
  b != Ascii.quote && b != Ascii.backslash && !Ascii.isControl b

/-- The bytes that make an escape together with a backslash: a quote, a backslash, a slash and the
letters b, f, n, r and t. -/
def isEscaped (b : UInt8) : Bool :=
  b ∈ [Ascii.quote, Ascii.backslash, Ascii.slash, 0x62, 0x66, 0x6e, 0x72, 0x74]

/-- How far the byte `b` brings the string; `none` if it is the closing quote. -/
def next : Quotation → UInt8 → Except SyntaxFault (Option Quotation)
  | plain, b =>
    if b = Ascii.quote then .ok none
    else if b = Ascii.backslash then .ok (some escape)
    else if Ascii.isControl b then .error (.character b)
    else .ok (some plain)
  | escape, b =>
    if isEscaped b then .ok (some plain)
    -- the letter u
    else if b = 0x75 then .ok (some (digits 3))
    else .error (.escape b)
  | digits more, b =>
    if Ascii.isHexDigit b then
      match more with
      | 0 => .ok (some plain)
      | more + 1 => .ok (some (digits more))
    else .error (.unicodeDigit b)

/-- Plain bytes do not change anything. -/
theorem next_plain {b : UInt8} (h : isPlain b = true) : plain.next b = .ok (some plain) := by
  simp_all [isPlain, next]

/-- The line feed is not plain, so that a plain run stays in its line. -/
theorem isPlain_lineFeed : isPlain Ascii.lineFeed = false := by
  decide

end Quotation

end JsonExtract
