import JsonExtract.Kind
import JsonExtract.Path.Basic
import JsonExtract.Route

/-!
# Slots

A value that a mark asks for gets a slot when it starts. The slot is decided later: it is ready once
its value is complete and every filter it waits for has passed, and it is dead once one of them has
failed. Slots are numbered in the order in which they are made, and given out in that order.

* `Match` — what an extraction gives out;
* `Slot`, `Slot.match?` — a match in waiting;
* `Slots` — all slots, by their numbers;
* `Slots.decide`, `Slots.complete` — what happens to slots;
* `Slots.release` — the next match to give out.
-/

namespace JsonExtract

/-- A value that a path asked for. -/
structure Match where
  /-- the text of the path -/
  path : String
  /-- the text of the value, without any space between its tokens -/
  value : Bytes
  /-- the kind of the value -/
  kind : Kind
  /-- the way to the value -/
  route : Route
  deriving DecidableEq, Repr

/-- The result for one mark and one value. -/
structure Slot where
  /-- the number of the path in its session -/
  owner : Nat
  /-- the text of the path -/
  path : String
  /-- the kind of the value -/
  kind : Kind
  /-- the way to the value -/
  route : Route
  /-- number of bytes in front of the value -/
  start : Nat
  /-- number of bytes up to the end of the token that starts the value -/
  stop : Nat
  /-- number of filters that were undecided when the value started -/
  awaited : Nat
  /-- number of these filters that are undecided now -/
  pending : Nat
  /-- the text of the value, once it is complete -/
  value? : Option Bytes := none
  /-- whether one of the filters failed -/
  dead : Bool := false
  deriving DecidableEq, Repr

namespace Slot

/-- The match in a slot that is ready. -/
def match? (s : Slot) : Option Match :=
  if !s.dead && s.pending == 0 then
    s.value?.map fun value => { path := s.path, value, kind := s.kind, route := s.route }
  else none

/-- The slot after one of its filters was decided. -/
def decide (passed : Bool) (s : Slot) : Slot :=
  if passed then { s with pending := s.pending - 1 } else { s with dead := true }

/-- The slot after its value was completed. -/
def complete (value : Bytes) (s : Slot) : Slot :=
  { s with value? := some value }

/-- A slot that is dead holds no match. -/
theorem match?_of_dead {s : Slot} (h : s.dead = true) : s.match? = none := by
  simp [match?, h]

end Slot

/-- All slots of a session; a slot's number is its position. -/
abbrev Slots := Array Slot

namespace Slots

/-- Decides one filter of the slots with the given numbers. -/
def decide (passed : Bool) (numbers : List Nat) (slots : Slots) : Slots :=
  numbers.foldl (fun slots number => slots.modify number (Slot.decide passed)) slots

/-- Completes the value of the slots with the given numbers. -/
def complete (value : Bytes) (numbers : List Nat) (slots : Slots) : Slots :=
  numbers.foldl (fun slots number => slots.modify number (Slot.complete value)) slots

/-- The match in the first slot from `front` on that is not passed over, and the number behind it.
Dead slots are passed over. A slot that is not ready holds up those behind it, unless the session is
`ended` and it can no longer become ready. -/
def release (ended : Bool) (slots : Slots) (front : Nat) : Option Match × Nat :=
  if h : front < slots.size then
    match slots[front].match? with
    | some found => (some found, front + 1)
    | none =>
      if slots[front].dead || ended then release ended slots (front + 1) else (none, front)
  else (none, front)
termination_by slots.size - front

variable (slots : Slots)

@[simp]
theorem size_decide (passed : Bool) (numbers : List Nat) :
    (decide passed numbers slots).size = slots.size := by
  rw [decide]
  induction numbers generalizing slots with
  | nil => rfl
  | cons n ns ih => rw [List.foldl_cons, ih, Array.size_modify]

@[simp]
theorem size_complete (value : Bytes) (numbers : List Nat) :
    (complete value numbers slots).size = slots.size := by
  rw [complete]
  induction numbers generalizing slots with
  | nil => rfl
  | cons n ns ih => rw [List.foldl_cons, ih, Array.size_modify]

/-- A match that is given out leaves fewer slots. -/
theorem release_some_lt {ended : Bool} {front behind : Nat} {found : Match}
    (h : release ended slots front = (some found, behind)) :
    slots.size - behind < slots.size - front := by
  fun_induction release ended slots front with
  | case1 front hlt _ _ => cases h; omega
  | case2 front hlt _ _ ih => have := ih h; omega
  | case3 => cases h
  | case4 => cases h

end Slots

end JsonExtract
