import JsonExtract.Cursor.Basic

/-!
# Cursors over bytes in memory

* `Buffer` — a complete document;
* `Metered` — a document behind a meter that counts the bytes stepped over, and which may refuse to
  show bytes from some position on. It knows no shortcut for runs and looks at every byte of them.
-/

namespace JsonExtract

/-! ## Complete documents

Bytes in memory are the simplest source: nothing has to be fetched, no look at them fails, and a
run is found by searching the rest of the document for the first byte outside of it. -/

/-- A cursor over a complete document. Its state is the rest of the document, so what was stepped
over is gone for good. -/
structure Buffer where
  /-- the bytes not yet stepped over -/
  rest : Bytes
  deriving DecidableEq, Repr

namespace Buffer

/-- The bytes of the run are those in front of the first byte outside of it. -/
def takeWhile (p : UInt8 → Bool) (s : Buffer) : Taken Buffer :=
  { bytes := s.rest.takeWhile p, failure := none, source := ⟨s.rest.dropWhile p⟩ }

theorem length_dropWhile_le (p : UInt8 → Bool) (xs : Bytes) : (xs.dropWhile p).length ≤ xs.length :=
  (List.dropWhile_sublist p).length_le

instance : Cursor Buffer where
  peek s := (.ok s.rest.head?, s)
  advance s := ⟨s.rest.tail⟩
  takeWhile := takeWhile
  left s := s.rest.length
  left_peek_le _ := Nat.le_refl _
  left_advance_lt := by
    intro s t b h
    obtain ⟨h₁, rfl⟩ := Prod.mk.inj h
    cases hs : s.rest with
    | nil => simp [hs] at h₁
    | cons _ _ => simp
  left_takeWhile_le p s := length_dropWhile_le p s.rest

end Buffer

/-! ## Metered documents

A meter shows how far an extraction has stepped, and a refusal makes the document end in a failure
at a position of one's choice. Together they are what is needed to see that no byte is stepped
over too early, and that a failure to deliver is reported where it happened. -/

/-- A position from which on no byte is shown, and the reason. -/
structure Refusal where
  /-- the first position refused -/
  position : Nat
  /-- why it is refused -/
  reason : String
  deriving DecidableEq, Repr

/-- A cursor over a document that counts its steps. -/
structure Metered where
  /-- the bytes not yet stepped over -/
  rest : Bytes
  /-- number of steps so far -/
  position : Nat := 0
  /-- where the document stops being shown, if it does -/
  refusal : Option Refusal := none
  deriving DecidableEq, Repr

namespace Metered

/-- The reason why the byte at `position` is not shown, if it is not. -/
def refused? (refusal : Option Refusal) (position : Nat) : Option String :=
  match refusal with
  | some r => if r.position ≤ position then some r.reason else none
  | none => none

/-- Looks at the next byte. -/
def peek (s : Metered) : Except String (Option UInt8) :=
  match refused? s.refusal s.position with
  | some reason => .error reason
  | none => .ok s.rest.head?

/-- Steps on. The meter counts steps behind the end, too. -/
def advance (s : Metered) : Metered :=
  { s with rest := s.rest.tail, position := s.position + 1 }

/-- Steps over the bytes of a run one by one; `rest` are the bytes at `position`. -/
def takeFrom (p : UInt8 → Bool) (refusal : Option Refusal) (position : Nat) :
    Bytes → Taken Metered
  | [] => { bytes := [], failure := refused? refusal position, source := ⟨[], position, refusal⟩ }
  | b :: rest =>
    match refused? refusal position with
    | some reason =>
      { bytes := [], failure := some reason, source := ⟨b :: rest, position, refusal⟩ }
    | none =>
      if p b then
        let more := takeFrom p refusal (position + 1) rest
        { more with bytes := b :: more.bytes }
      else { bytes := [], failure := none, source := ⟨b :: rest, position, refusal⟩ }

/-- Steps over the bytes of a run. -/
def takeWhile (p : UInt8 → Bool) (s : Metered) : Taken Metered :=
  takeFrom p s.refusal s.position s.rest

theorem length_takeFrom_le (p : UInt8 → Bool) (refusal : Option Refusal) (position : Nat)
    (xs : Bytes) : (takeFrom p refusal position xs).source.rest.length ≤ xs.length := by
  induction xs generalizing position with
  | nil => simp [takeFrom]
  | cons b rest ih =>
    rw [takeFrom]
    split
    · exact Nat.le_refl _
    · split
      · exact Nat.le_succ_of_le (ih _)
      · exact Nat.le_refl _

instance : Cursor Metered where
  peek s := (s.peek, s)
  advance := advance
  takeWhile := takeWhile
  left s := s.rest.length
  left_peek_le _ := Nat.le_refl _
  left_advance_lt := by
    intro s t b h
    obtain ⟨h₁, rfl⟩ := Prod.mk.inj h
    cases hs : s.rest with
    | nil =>
      rw [peek, hs] at h₁
      split at h₁ <;> simp at h₁
    | cons _ _ => simp [advance, hs]
  left_takeWhile_le p s := length_takeFrom_le p s.refusal s.position s.rest

end Metered

end JsonExtract
