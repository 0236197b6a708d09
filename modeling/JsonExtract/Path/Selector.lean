import JsonExtract.Path.Filter

/-!
# Selectors

A path is a chain of links. A link either selects values, one nesting level further down than the
link before, or filters what the selector in front of it selects. A mark on a link asks for the
values that get this far.

* `Selector`, `Child`, `Selector.selects` — which children of a value are selected;
* `Link` — a selector or a filter, with or without a mark.
-/

namespace JsonExtract

/-- Where a value stands in its parent. -/
inductive Child
  /-- the value of a member, by its name without quotes -/
  | member (name : Bytes)
  /-- the element at a position, counted from zero -/
  | element (position : Nat)
  deriving DecidableEq, Repr

/-- What selects values at one nesting level. -/
inductive Selector
  /-- the value that stands in no container -/
  | root
  /-- every child -/
  | wildcard
  /-- the members of one name -/
  | key (name : Bytes)
  /-- the element at one position -/
  | index (position : Nat)
  /-- the elements from `first` on, up to but without `bound` -/
  | slice (first : Nat) (bound : Option Nat)
  deriving DecidableEq, Repr

/-- Whether a selector selects a child. A name selects no element and a position no member, while
a wildcard selects either. -/
def Selector.selects : Selector → Child → Bool
  | wildcard, _ => true
  | key name, .member name' => name' == name
  | index position, .element position' => position == position'
  | slice first bound, .element position => first ≤ position && bound.all (position < ·)
  | _, _ => false

/-- What a link of a path does. -/
inductive Part
  /-- selects values one level further down -/
  | selector (selector : Selector)
  /-- filters the values just selected -/
  | filter (filter : Filter)
  deriving DecidableEq, Repr

/-- Whether a link leads one level further down. -/
def Part.isSelector : Part → Bool
  | selector _ => true
  | filter _ => false

/-- One link of a path. A filter may be marked as a selector may: it then asks for the values that
pass it. -/
structure Link where
  /-- what the link does -/
  part : Part
  /-- whether the values that get this far are asked for -/
  marked : Bool
  deriving DecidableEq, Repr

/-- The links of several parts, of which only the last can be marked. -/
def Link.ofParts (marked : Bool) : List Part → List Link
  | [] => []
  | [part] => [⟨part, marked⟩]
  | part :: more => ⟨part, false⟩ :: ofParts marked more

end JsonExtract
