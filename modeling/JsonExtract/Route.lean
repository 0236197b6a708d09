import JsonExtract.Bytes.Quoted

/-!
# Routes

A route leads from the value that stands in no container down to another value: by the name of a
member, as it is written between its quotes, or by the position of an element.

* `Step`, `Route` — the steps of a route;
* `Step.ofInt` — positions have 64 bits, and negative ones wrap around;
* `Step.text` — the text of a step.
-/

namespace JsonExtract

/-- One step of a route. -/
inductive Step
  /-- to the value of a member -/
  | key (name : Bytes)
  /-- to an element -/
  | index (position : Nat)
  deriving DecidableEq, Repr

/-- A way down a document. The empty route stays at the value that stands in no container. -/
abbrev Route := List Step

namespace Step

/-- The step to a position given as any integer, which wraps around to 64 bits. -/
def ofInt (n : Int) : Step :=
  .index (UInt64.ofInt n).toNat

/-- The name of a member, if the step leads to one. -/
def key? : Step → Option Bytes
  | key name => some name
  | index _ => none

/-- The position of an element, if the step leads to one. -/
def index? : Step → Option Nat
  | key _ => none
  | index position => some position

/-- The text of a step. -/
def text : Step → String
  | key name => Quoted.text name
  | index position => toString position

end Step

end JsonExtract
