import JsonExtract.Bytes.Basic

/-!
# Kinds of JSON values

* `Container` — the two kinds of value that hold others, with their brackets;
* `Kind` — the six kinds of value.
-/

namespace JsonExtract

/-- A value that holds other values. Lexer and walk treat the two alike wherever they can, so what
differs between them is kept here and in the phases of the grammar. -/
inductive Container
  /-- members, each under a name -/
  | object
  /-- elements, each at a position -/
  | array
  deriving DecidableEq, Repr, Inhabited

/-- The six kinds of JSON value. -/
inductive Kind
  /-- a quoted text -/
  | string
  /-- a decimal number -/
  | number
  /-- members in braces -/
  | object
  /-- elements in square brackets -/
  | array
  /-- `true` or `false` -/
  | boolean
  /-- `null` -/
  | null
  deriving DecidableEq, Repr, Inhabited

namespace Container

/-- The bracket that opens a container. -/
def opening : Container → UInt8
  | object => Ascii.openBrace
  | array => Ascii.openBracket

/-- The bracket that closes a container. -/
def closing : Container → UInt8
  | object => Ascii.closeBrace
  | array => Ascii.closeBracket

/-- The kind of value that a container is. -/
def kind : Container → Kind
  | object => .object
  | array => .array

end Container

namespace Kind

/-- The name of a kind, in lower case. -/
def name : Kind → String
  | string => "string"
  | number => "number"
  | object => "object"
  | array => "array"
  | boolean => "boolean"
  | null => "null"

/-- The container that a value of this kind is, if it is one. -/
def container? : Kind → Option Container
  | object => some .object
  | array => some .array
  | _ => none

/-- Whether values of this kind hold other values. -/
def isContainer (k : Kind) : Bool :=
  k.container?.isSome

@[simp]
theorem container?_kind (c : Container) : c.kind.container? = some c := by
  cases c <;> rfl

/-- Exactly the kinds of containers hold other values. -/
theorem container?_eq_some_iff {k : Kind} {c : Container} : k.container? = some c ↔ k = c.kind := by
  cases k <;> cases c <;> simp [container?, Container.kind]

end Kind

end JsonExtract
