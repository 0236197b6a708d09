import JsonExtract.Bytes.Utf8

/-!
# Filters

A filter compares two texts for equality. Either both are literals, and the filter is decided from
the start, or one of them is a member of the object that the filter guards. Then the filter is
decided by the object's members in their order: a named member decides it at once, while any member
will do for `@.*`, so that only a member with the wanted text decides that.

Texts are compared byte for byte: strings without their quotes, other scalars as they are written.
Objects and arrays equal no text.

* `Field`, `Filter` — the comparisons;
* `Filter.constant?` — the outcome if no member is needed;
* `Filter.decide?` — the outcome, if a member decides it;
* `Filter.text` — the filter as it is written in a path.
-/

namespace JsonExtract

/-- The members that a filter looks at. -/
inductive Field
  /-- the members of one name -/
  | named (name : Bytes)
  /-- all members -/
  | any
  deriving DecidableEq, Repr

/-- A comparison for equality. There is none of two members: one side is always a literal. -/
inductive Filter
  /-- two literals -/
  | literals (left right : Bytes)
  /-- a member and a literal -/
  | member (field : Field) (literal : Bytes)
  deriving DecidableEq, Repr

/-- A field as it is written in a path. -/
def Field.text : Field → String
  | named name => "@." ++ Utf8.lossyString name
  | any => "@.*"

namespace Filter

/-- The outcome of a filter that needs no member. -/
def constant? : Filter → Option Bool
  | literals left right => some (left == right)
  | member .. => none

/-- The outcome of a filter if the member `name` decides it; `text?` is the text of the member if it
is a scalar. -/
def decide? (name : Bytes) (text? : Option Bytes) : Filter → Option Bool
  | literals .. => none
  | member (.named wanted) literal => if name = wanted then some (text? == some literal) else none
  | member .any literal => if text? = some literal then some true else none

/-- A filter as it is written in a path, with the member in front. -/
def text : Filter → String
  | literals left right =>
    "\"" ++ Utf8.lossyString left ++ "\" == \"" ++ Utf8.lossyString right ++ "\""
  | member field literal => field.text ++ " == \"" ++ Utf8.lossyString literal ++ "\""

/-- A filter on members is never decided from the start, and any other filter is. -/
theorem constant?_eq_none_iff {f : Filter} :
    f.constant? = none ↔ ∃ field l, f = member field l := by
  cases f <;> simp [constant?]

/-- A member decides `@.*` only in its favour. -/
theorem decide?_any {name literal : Bytes} {text? : Option Bytes} :
    (member .any literal).decide? name text? ≠ some false := by
  simp only [decide?]
  split <;> simp

end Filter

end JsonExtract
