import JsonExtract.Path.Basic
import JsonExtract.Proofs.Document.Tree

/-!
# The grammar of paths

Which texts are paths, byte by byte and apart from the functions that read them:

    path     := "$" mark? segment*
    segment  := ( "." ( "*" | name ) | "[" space index space "]" | filter ) mark?
    index    := "*" | literal | integer | integer? space ":" space integer? | filter
    filter   := "?(" space operand space "==" space operand space ")"
    operand  := literal | "@." ( "*" | name )
    name     := any bytes but delimiters, at least one
    integer  := decimal digits, at least one, for a number of at most 64 bits
    literal  := quote ( byte but quote and backslash | backslash byte )* quote
    mark     := "+"

Each rule is a relation between what is meant and the bytes that say so.

* `IsSpace`, `IsName`, `IsLiteral`, `IsInteger` — the smallest parts;
* `SpellsFilter`, `SpellsIndex`, `SpellsSegment` — what a segment says;
* `Spells` — the links of a path.
-/

namespace JsonExtract.Path.Grammar

open Path.Parser (Operand)

/-! ## The smallest parts

These are classes of bytes and what can be built from them without regard to their meaning. -/

/-- Spaces, tabs, line feeds and carriage returns. -/
def IsSpace (bytes : Bytes) : Prop :=
  ∀ b ∈ bytes, Ascii.isSpace b = true

/-- The bytes that stand in no name. -/
def delimiters : Bytes :=
  Bytes.ofChars ['.', '[', ']', '(', ')', '+', '?', '"', '=', '@', '*', ' ', '\t', '\n', '\r']

/-- A name. -/
def IsName (bytes : Bytes) : Prop :=
  bytes ≠ [] ∧ ∀ b ∈ bytes, b ∉ delimiters

/-- What may stand between the quotes of a literal. A backslash protects the byte behind it,
whatever that is. -/
inductive IsLiteral : Bytes → Prop
  | nil : IsLiteral []
  /-- a byte that stands for itself -/
  | plain {b : UInt8} {rest : Bytes} (hq : b ≠ Ascii.quote) (hs : b ≠ Ascii.backslash) :
    IsLiteral rest → IsLiteral (b :: rest)
  /-- a backslash and any byte -/
  | escape {b : UInt8} {rest : Bytes} : IsLiteral rest → IsLiteral (Ascii.backslash :: b :: rest)

/-- The number that decimal digits stand for. -/
def value (digits : Bytes) : Nat :=
  digits.foldl (fun n b => 10 * n + (b.toNat - Ascii.zero.toNat)) 0

/-- The digits of a number of at most 64 bits; leading zeros are allowed. The number is what the
digits stand for, so it is determined by them. -/
def IsInteger (n : Nat) (digits : Bytes) : Prop :=
  digits ≠ [] ∧ (∀ b ∈ digits, Ascii.isDigit b = true) ∧ value digits = n ∧ n < UInt64.size

/-- The digits of a number, or none. -/
inductive IsInteger? : Option Nat → Bytes → Prop
  | none : IsInteger? none []
  | some {n : Nat} {digits : Bytes} : IsInteger n digits → IsInteger? (some n) digits

/-! ## Filters

A filter compares a member with a literal, whichever of them stands in front, or two literals
with each other. -/

/-- One side of a comparison. -/
inductive SpellsOperand : Operand → Bytes → Prop
  | literal {inner : Bytes} : IsLiteral inner →
    SpellsOperand (.literal inner) (Bytes.quoted inner)
  | any : SpellsOperand (.field .any) (Bytes.ofChars ['@', '.', '*'])
  | named {name : Bytes} : IsName name →
    SpellsOperand (.field (.named name)) (Bytes.ofChars ['@', '.'] ++ name)

/-- The filter that compares two sides, of which one at most is a member. Two members cannot be
compared. -/
inductive Compares : Operand → Operand → Filter → Prop
  | literals {left right : Bytes} :
    Compares (.literal left) (.literal right) (.literals left right)
  | memberFirst {field : Field} {literal : Bytes} :
    Compares (.field field) (.literal literal) (.member field literal)
  | memberLast {field : Field} {literal : Bytes} :
    Compares (.literal literal) (.field field) (.member field literal)

/-- A filter. -/
inductive SpellsFilter : Filter → Bytes → Prop
  | mk {f : Filter} {left right : Operand} {l r gap₁ gap₂ gap₃ gap₄ : Bytes} :
    IsSpace gap₁ → SpellsOperand left l → IsSpace gap₂ → IsSpace gap₃ →
      SpellsOperand right r → IsSpace gap₄ → Compares left right f →
        SpellsFilter f (Bytes.ofChars ['?', '('] ++ (gap₁ ++ (l ++ (gap₂ ++
          (Bytes.ofChars ['=', '='] ++ (gap₃ ++ (r ++ (gap₄ ++ Bytes.ofChars [')']))))))))

/-! ## Segments

A segment can say more than one part: a selector, and a filter on what it selects. The mark
behind it belongs to the last of them. -/

/-- What stands between brackets. -/
inductive SpellsIndex : List Part → Bytes → Prop
  | wildcard : SpellsIndex [.selector .wildcard] (Bytes.ofChars ['*'])
  | key {inner : Bytes} : IsLiteral inner →
    SpellsIndex [.selector (.key inner)] (Bytes.quoted inner)
  | position {n : Nat} {digits : Bytes} : IsInteger n digits →
    SpellsIndex [.selector (.index n)] digits
  | slice {first bound : Option Nat} {low high gap₁ gap₂ : Bytes} : IsInteger? first low →
    IsSpace gap₁ → IsSpace gap₂ → IsInteger? bound high →
      SpellsIndex [.selector (.slice (first.getD 0) bound)]
        (low ++ (gap₁ ++ Ascii.colon :: (gap₂ ++ high)))
  | filter {f : Filter} {text : Bytes} : SpellsFilter f text →
    SpellsIndex [.selector .wildcard, .filter f] text

/-- A segment without its mark. -/
inductive SpellsSegment : List Part → Bytes → Prop
  | wildcard : SpellsSegment [.selector .wildcard] (Bytes.ofChars ['.', '*'])
  | name {name : Bytes} : IsName name →
    SpellsSegment [.selector (.key name)] (Ascii.point :: name)
  | index {parts : List Part} {text gap₁ gap₂ : Bytes} : IsSpace gap₁ → SpellsIndex parts text →
    IsSpace gap₂ → SpellsSegment parts
      (Ascii.openBracket :: (gap₁ ++ (text ++ (gap₂ ++ [Ascii.closeBracket]))))
  | filter {f : Filter} {text : Bytes} : SpellsFilter f text → SpellsSegment [.filter f] text

/-- A mark, or none. -/
inductive SpellsMark : Bool → Bytes → Prop
  | none : SpellsMark false []
  | mark : SpellsMark true [Ascii.plus]

/-- Segments, each with its mark. -/
inductive SpellsSegments : List Link → Bytes → Prop
  | nil : SpellsSegments [] []
  | cons {parts : List Part} {marked : Bool} {links : List Link} {text mark rest : Bytes} :
    SpellsSegment parts text → SpellsMark marked mark → SpellsSegments links rest →
      SpellsSegments (Link.ofParts marked parts ++ links) (text ++ (mark ++ rest))

/-- A path. The first link is the dollar sign, which may be marked like any other. -/
inductive Spells : List Link → Bytes → Prop
  | mk {marked : Bool} {links : List Link} {mark rest : Bytes} : SpellsMark marked mark →
    SpellsSegments links rest →
      Spells (⟨.selector .root, marked⟩ :: links) (Bytes.ofChars ['$'] ++ (mark ++ rest))

end JsonExtract.Path.Grammar
