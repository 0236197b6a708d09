import JsonExtract.Session.Walk

/-!
# Rulings on slots

A member decides some of the filters on its object, and the end of an object decides the others. What
happens to the slots is the same each time: a list of rulings is passed on them. What becomes of one
slot depends only on how often it is granted and how often it is refused, not on the order.

* `Ruling`, `Slots.judge` — the outcomes of some filters, for the slots that waited for them;
* `Slot.judge`, `Slots.getElem?_judge` — what becomes of one slot;
* `Frame.decided_eq_judge`, `Frame.closed_eq_judge` — the rulings of a member and of the end.
-/

namespace JsonExtract

/-- The outcome of a filter, for the slots that waited for it. -/
structure Ruling where
  /-- whether the filter holds -/
  passed : Bool
  /-- the numbers of the slots -/
  waiting : List Nat
  deriving DecidableEq, Repr

namespace Ruling

/-- The slots that are granted something, once for each ruling. -/
def granted (rulings : List Ruling) : List Nat :=
  rulings.flatMap fun r => if r.passed then r.waiting else []

/-- The slots that are refused something, once for each ruling. -/
def refused (rulings : List Ruling) : List Nat :=
  rulings.flatMap fun r => if r.passed then [] else r.waiting

section

variable {α : Type} (waiting : α → List Nat) (xs : List α)

theorem granted_refusal : granted (xs.map fun x => ⟨false, waiting x⟩) = [] := by
  simp [granted, List.flatMap_map]

theorem refused_refusal :
    refused (xs.map fun x => ⟨false, waiting x⟩) = xs.flatMap waiting := by
  simp [refused, List.flatMap_map]

end

end Ruling

/-! ## One slot

Being granted a filter takes one from what a slot is pending on, being refused one kills it.
Both commute, with each other and with themselves, so a slot can be handed all that happens to
it at once, as two numbers. -/

namespace Slot

/-- A slot that was granted and refused something that many times. -/
def judge (granted refused : Nat) (s : Slot) : Slot :=
  { s with pending := s.pending - granted, dead := s.dead || refused != 0 }

@[simp]
theorem judge_zero (s : Slot) : s.judge 0 0 = s := by
  simp [judge]

@[simp]
theorem judge_judge (g g' r r' : Nat) (s : Slot) :
    (s.judge g r).judge g' r' = s.judge (g + g') (r + r') := by
  have hr : (s.dead || r != 0 || r' != 0) = (s.dead || r + r' != 0) := by
    rw [Bool.or_assoc]
    cases r <;> cases r' <;> rfl
  simp only [judge, hr, Nat.sub_sub]

theorem decide_eq_judge (passed : Bool) (s : Slot) :
    s.decide passed = if passed then s.judge 1 0 else s.judge 0 1 := by
  cases passed <;> simp [decide, judge]

@[simp]
theorem judge_path (g r : Nat) (s : Slot) : (s.judge g r).path = s.path := rfl

@[simp]
theorem judge_kind (g r : Nat) (s : Slot) : (s.judge g r).kind = s.kind := rfl

@[simp]
theorem judge_route (g r : Nat) (s : Slot) : (s.judge g r).route = s.route := rfl

@[simp]
theorem judge_value? (g r : Nat) (s : Slot) : (s.judge g r).value? = s.value? := rfl

end Slot

/-! ## All slots

Passing rulings from left to right, slot by slot, comes to the same for each slot as counting
its number in the granted and in the refused lists. This turns every question about what a
member does to the slots into one about counts. -/

namespace Slots

/-- Passes rulings on slots, one after the other. -/
def judge (rulings : List Ruling) (slots : Slots) : Slots :=
  rulings.foldl (fun slots r => slots.decide r.passed r.waiting) slots

variable (slots : Slots)

@[simp]
theorem size_judge (rulings : List Ruling) : (judge rulings slots).size = slots.size := by
  rw [judge]
  induction rulings generalizing slots with
  | nil => rfl
  | cons r rs ih => rw [List.foldl_cons, ih, size_decide]

theorem getElem?_decide (passed : Bool) (numbers : List Nat) (i : Nat) :
    (slots.decide passed numbers)[i]? =
      slots[i]?.map fun s =>
        if passed then s.judge (numbers.count i) 0 else s.judge 0 (numbers.count i) := by
  rw [decide]
  induction numbers generalizing slots with
  | nil => simp
  | cons n ns ih =>
    rw [List.foldl_cons, ih, Array.getElem?_modify, List.count_cons]
    by_cases hn : n = i
    · cases passed <;> simp [hn, Slot.decide_eq_judge, Function.comp_def, Nat.add_comm]
    · simp [hn]

/-- A slot is granted and refused things as often as the rulings list it. No two slots influence
each other, and slots that are named nowhere stay as they are. -/
theorem getElem?_judge (rulings : List Ruling) (i : Nat) :
    (judge rulings slots)[i]? =
      slots[i]?.map
        (Slot.judge ((Ruling.granted rulings).count i) ((Ruling.refused rulings).count i)) := by
  rw [judge]
  induction rulings generalizing slots with
  | nil => simp [Ruling.granted, Ruling.refused, funext Slot.judge_zero]
  | cons r rs ih =>
    rw [List.foldl_cons, ih, getElem?_decide, Option.map_map]
    congr 1
    funext s
    cases hr : r.passed <;> simp [Ruling.granted, Ruling.refused, hr]

theorem getElem?_complete (value : Bytes) (numbers : List Nat) (i : Nat) :
    (slots.complete value numbers)[i]? =
      slots[i]?.map fun s => if i ∈ numbers then s.complete value else s := by
  rw [complete]
  induction numbers generalizing slots with
  | nil => simp
  | cons n ns ih =>
    rw [List.foldl_cons, ih, Array.getElem?_modify]
    by_cases hn : n = i
    · simp [hn, Slot.complete, Function.comp_def]
    · simp [hn, Ne.symm hn]

end Slots

/-! ## Filters

The checks of a frame are asked one after the other when a member is seen or the container ends,
and each of them changes the slots on its own. The lemmas gather these changes into one list of
rulings, for a check, for a trail's checks and for a frame. -/

namespace Check

/-- The slots that wait for a filter. -/
def queue (c : Check) : List Nat :=
  if c.isUndecided then c.waiting else []

/-- The ruling of a member, if it decides the filter. A filter that is decided already, or that
asks about another name, makes no ruling. -/
def ruling? (name : Bytes) (text? : Option Bytes) (c : Check) : Option Ruling :=
  (c.decide? name text?).map (⟨·, c.waiting⟩)

theorem decided_eq_judge (name : Bytes) (text? : Option Bytes) (c : Check) (slots : Slots) :
    c.decided name text? slots = slots.judge (c.ruling? name text?).toList := by
  rw [decided, ruling?]
  cases c.decide? name text? <;> rfl

theorem closed_eq_judge (c : Check) (slots : Slots) :
    c.closed slots = slots.judge [⟨false, c.queue⟩] := by
  rw [closed, queue]
  split <;> rfl

end Check

namespace Frame

/-- The rulings of a value that was seen. -/
def rulings (text? : Option Bytes) (f : Frame) : List Ruling :=
  match f.container with
  | .object => f.checks.flatMap fun c => (c.ruling? f.name text?).toList
  | .array => []

/-- Several rounds of rulings are one. The rounds may be the checks of a trail or the trails of a
frame. -/
theorem foldl_judge {α : Type} (rulings : α → List Ruling) (xs : List α) (slots : Slots) :
    xs.foldl (fun slots x => slots.judge (rulings x)) slots =
      slots.judge (xs.flatMap rulings) := by
  induction xs generalizing slots with
  | nil => rfl
  | cons x xs ih =>
    rw [List.foldl_cons, ih, List.flatMap_cons, Slots.judge, Slots.judge, Slots.judge,
      List.foldl_append]

theorem decided_eq_judge (text? : Option Bytes) (f : Frame) (slots : Slots) :
    f.decided text? slots = slots.judge (f.rulings text?) := by
  rw [decided, rulings]
  cases f.container with
  | object => simp only [Check.decided_eq_judge, foldl_judge]
  | array => rfl

theorem closed_eq_judge (f : Frame) (slots : Slots) :
    f.closed slots = slots.judge (f.checks.map fun c => ⟨false, c.queue⟩) := by
  simp only [closed, Check.closed_eq_judge, foldl_judge, List.map_eq_flatMap]

end Frame

end JsonExtract
