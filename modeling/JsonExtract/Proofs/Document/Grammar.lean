import JsonExtract.Options
import JsonExtract.Proofs.Document.Tree

/-!
# The grammar of documents

What documents may look like, apart from any automaton that reads them:

    document := gap value gap
    value    := string | number | "true" | "false" | "null" | array | object
    array    := "[" gap "]" | "[" element ("," element)* "]"
    element  := gap value gap
    object   := "{" gap "}" | "{" member ("," member)* "}"
    member   := gap string gap ":" element
    string   := quote ( plain byte | escape )* quote
    number   := "-"? ( "0" | digit from 1 to 9, digit* ) ( "." digit+ )? ( [eE] [+-]? digit+ )?

* `IsGap` — the space between tokens;
* `IsStringBody`, `IsNumber` — scalars;
* `Spells` — the spellings of a value;
* `IsDocument`, `IsSeries` — a value with space around it, and values in a row;
* `Reads` — which of these the settings ask for.
-/

namespace JsonExtract.Grammar

/-! ## Space

Which characters beyond ASCII count as space is a matter of the settings, and is given by the
flag `wide`. -/

/-- The space characters beyond ASCII, and the byte order mark. -/
def IsWideSpace (c : Char) : Prop :=
  c.toNat ∈ [0x85, 0xa0, 0x1680, 0x2028, 0x2029, 0x202f, 0x205f, 0x3000, 0xfeff] ∨
    0x2000 ≤ c.toNat ∧ c.toNat ≤ 0x200a

/-- One space character; those beyond ASCII count only if `wide`. -/
inductive IsBlank (wide : Bool) : Bytes → Prop
  /-- space, tab, line feed or carriage return -/
  | ascii {b : UInt8} (h : b ∈ [0x20, 0x09, 0x0a, 0x0d]) : IsBlank wide [b]
  /-- the encoding of a wide space character -/
  | encoded {c : Char} (h : wide = true) (hc : IsWideSpace c) :
    IsBlank wide (String.utf8EncodeChar c)

/-- Any number of space characters. It may be empty, so there is a gap wherever space is allowed. -/
inductive IsGap (wide : Bool) : Bytes → Prop
  | nil : IsGap wide []
  | cons {blank gap : Bytes} : IsBlank wide blank → IsGap wide gap → IsGap wide (blank ++ gap)

/-! ## Scalars

Strings and numbers are described byte by byte. No escape is decoded, so a string is determined
by the bytes between its quotes. -/

/-- What may stand between the quotes of a string. Control characters have to be escaped. -/
inductive IsStringBody : Bytes → Prop
  | nil : IsStringBody []
  /-- a byte that stands for itself -/
  | plain {b : UInt8} {rest : Bytes} (hc : 0x20 ≤ b) (hq : b ≠ Ascii.quote)
    (hs : b ≠ Ascii.backslash) : IsStringBody rest → IsStringBody (b :: rest)
  /-- a backslash with a quote, a backslash, a slash or one of the letters b, f, n, r and t -/
  | escape {b : UInt8} {rest : Bytes}
    (h : b ∈ [Ascii.quote, Ascii.backslash, Ascii.slash, 0x62, 0x66, 0x6e, 0x72, 0x74]) :
    IsStringBody rest → IsStringBody (Ascii.backslash :: b :: rest)
  /-- a backslash with the letter u and four hexadecimal digits -/
  | unicode {digits rest : Bytes} (hlen : digits.length = 4)
    (h : ∀ b ∈ digits, Ascii.isHexDigit b = true) :
    IsStringBody rest → IsStringBody (Ascii.backslash :: 0x75 :: (digits ++ rest))

/-- One decimal digit or more. Leading zeros are allowed, as they are in fractions and exponents. -/
def IsDigits (digits : Bytes) : Prop :=
  digits ≠ [] ∧ ∀ b ∈ digits, Ascii.isDigit b = true

/-- The integer part of a number, which has no leading zeros. -/
inductive IsWhole : Bytes → Prop
  | zero : IsWhole [Ascii.zero]
  | digits {b : UInt8} {more : Bytes} (hb : Ascii.isDigit b = true) (hz : b ≠ Ascii.zero)
    (h : ∀ d ∈ more, Ascii.isDigit d = true) : IsWhole (b :: more)

/-- A fraction, or nothing. -/
inductive IsFraction : Bytes → Prop
  | none : IsFraction []
  | some {digits : Bytes} : IsDigits digits → IsFraction (Ascii.point :: digits)

/-- An exponent, or nothing. -/
inductive IsExponent : Bytes → Prop
  | none : IsExponent []
  | some {e : UInt8} {sign digits : Bytes} (he : e = 0x65 ∨ e = 0x45)
    (hs : sign = [] ∨ sign = [Ascii.plus] ∨ sign = [Ascii.minus]) :
    IsDigits digits → IsExponent (e :: (sign ++ digits))

/-- A number. Its parts have to be read greedily, but that is a matter of the lexer: here a number
is any text that can be divided in this way. -/
inductive IsNumber : Bytes → Prop
  | mk {sign whole fraction exponent : Bytes} (hs : sign = [] ∨ sign = [Ascii.minus]) :
    IsWhole whole → IsFraction fraction → IsExponent exponent →
      IsNumber (sign ++ (whole ++ (fraction ++ exponent)))

/-- Whether a scalar can be written. A tree may hold bytes that no document spells, and this is
what rules them out. -/
def IsScalar : Scalar → Prop
  | .string inner => IsStringBody inner
  | .number raw => IsNumber raw
  | .boolean _ | .null => True

/-! ## Values

The three relations are mutual: a container is spelled by its elements or members, and these by
the values in them. Space may stand around every value and every name, and nowhere in them. -/

mutual

/-- The spellings of a value. A value has many spellings, which differ in space only. -/
inductive Spells (wide : Bool) : Tree → Bytes → Prop
  | scalar {s : Scalar} : IsScalar s → Spells wide (.scalar s) s.raw
  | emptyArray {gap : Bytes} : IsGap wide gap →
    Spells wide (.array []) (Ascii.openBracket :: (gap ++ [Ascii.closeBracket]))
  | array {elements : List Tree} {body : Bytes} : SpellsElements wide elements body →
    Spells wide (.array elements) (Ascii.openBracket :: (body ++ [Ascii.closeBracket]))
  | emptyObject {gap : Bytes} : IsGap wide gap →
    Spells wide (.object []) (Ascii.openBrace :: (gap ++ [Ascii.closeBrace]))
  | object {members : List (Bytes × Tree)} {body : Bytes} : SpellsMembers wide members body →
    Spells wide (.object members) (Ascii.openBrace :: (body ++ [Ascii.closeBrace]))

/-- The spellings of the elements of an array, of which there is at least one. -/
inductive SpellsElements (wide : Bool) : List Tree → Bytes → Prop
  | last {e : Tree} {before text behind : Bytes} :
    IsGap wide before → Spells wide e text → IsGap wide behind →
      SpellsElements wide [e] (before ++ (text ++ behind))
  | more {e : Tree} {elements : List Tree} {before text behind body : Bytes} :
    IsGap wide before → Spells wide e text → IsGap wide behind →
      SpellsElements wide elements body →
        SpellsElements wide (e :: elements) (before ++ (text ++ (behind ++ Ascii.comma :: body)))

/-- The spellings of the members of an object, of which there is at least one. -/
inductive SpellsMembers (wide : Bool) : List (Bytes × Tree) → Bytes → Prop
  | lastMember {name : Bytes} {value : Tree} {gap₁ gap₂ before text behind : Bytes} :
    IsGap wide gap₁ → IsStringBody name → IsGap wide gap₂ →
      IsGap wide before → Spells wide value text → IsGap wide behind →
        SpellsMembers wide [(name, value)]
          (gap₁ ++ (Bytes.quoted name ++ (gap₂ ++ Ascii.colon :: (before ++ (text ++ behind)))))
  | moreMembers {name : Bytes} {value : Tree} {members : List (Bytes × Tree)}
    {gap₁ gap₂ before text behind body : Bytes} :
    IsGap wide gap₁ → IsStringBody name → IsGap wide gap₂ →
      IsGap wide before → Spells wide value text → IsGap wide behind →
        SpellsMembers wide members body →
          SpellsMembers wide ((name, value) :: members)
            (gap₁ ++ (Bytes.quoted name ++ (gap₂ ++ Ascii.colon ::
              (before ++ (text ++ (behind ++ Ascii.comma :: body))))))

end

/-! ## Documents

A document is one value, or any number of them. The depth of nesting is no part of the grammar,
and is limited by the settings on top of it. -/

/-- A document of one value. -/
inductive IsDocument (wide : Bool) (t : Tree) : Bytes → Prop
  | mk {before text behind : Bytes} : IsGap wide before → Spells wide t text →
    IsGap wide behind → IsDocument wide t (before ++ (text ++ behind))

/-- Whether a value ends in front of `rest`: a number must not go on there. All other values show
by themselves where they end. -/
def EndsBefore (text rest : Bytes) : Prop :=
  ∀ b ∈ rest.head?, ∀ more, ¬ IsNumber (text ++ b :: more)

/-- A document of any number of values. Space between them is needed only where a number would
go on without it. -/
inductive IsSeries (wide : Bool) : List Tree → Bytes → Prop
  | nil {gap : Bytes} : IsGap wide gap → IsSeries wide [] gap
  | cons {t : Tree} {more : List Tree} {before text rest : Bytes} : IsGap wide before →
    Spells wide t text → EndsBefore text rest → IsSeries wide more rest →
      IsSeries wide (t :: more) (before ++ (text ++ rest))

/-- Whether `d` is a document of `values`, as the settings have it. -/
def Reads (options : Options) (values : List Tree) (d : Bytes) : Prop :=
  if options.multipleValues then IsSeries options.unicodeSpace values d
  else ∃ t, values = [t] ∧ IsDocument options.unicodeSpace t d

end JsonExtract.Grammar
