import JsonExtract.Kind

/-!
# Open containers

While a document is read, the containers around the current place are known, the innermost first,
and how many they are. The number is kept beside the list, so that a limit on it can be checked at
every bracket without counting the list again.

* `Nesting` — the open containers;
* `Nesting.enter`, `Nesting.leave` — a bracket opens or closes a container;
* `Nesting.ext` — the number adds nothing to the list.
-/

namespace JsonExtract

/-- The containers that are open at a place. -/
structure Nesting where
  /-- the open containers, the innermost first -/
  containers : List Container
  /-- how many there are -/
  depth : Nat
  /-- the number is that of the list -/
  depth_eq : depth = containers.length
  deriving DecidableEq, Repr

namespace Nesting

/-- No container is open. -/
def empty : Nesting :=
  ⟨[], 0, rfl⟩

/-- The innermost container, if one is open. -/
def innermost? (n : Nesting) : Option Container :=
  n.containers.head?

/-- Opens a container inside of the innermost one. -/
def enter (c : Container) (n : Nesting) : Nesting :=
  ⟨c :: n.containers, n.depth + 1, by rw [n.depth_eq, List.length_cons]⟩

/-- Closes the innermost container. -/
def leave (n : Nesting) : Nesting :=
  ⟨n.containers.tail, n.depth - 1, by rw [n.depth_eq, List.length_tail]⟩

/-- The same containers make the same nesting. -/
theorem ext {m n : Nesting} (h : m.containers = n.containers) : m = n := by
  cases m with | mk _ _ hm =>
  cases n with | mk _ _ hn =>
  cases h
  rw [← hn] at hm
  cases hm
  rfl

/-- Closing undoes opening. -/
theorem leave_enter (c : Container) (n : Nesting) : (n.enter c).leave = n :=
  ext rfl

end Nesting

end JsonExtract
