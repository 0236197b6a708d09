import JsonExtract.Cursor.Buffer

/-!
# Cursors that step byte by byte

A source of bytes need not know a shortcut for runs: to step over a run it is enough to look at one
byte after the other. `Stepwise` makes a cursor of any source that can look and step.

* `Stepper` — looking and stepping, with a bound on the number of bytes still to come;
* `Stepwise`, `Stepwise.takeWhile` — the cursor;
* `Metered.takeWhile_eq_stepwise` — metered documents step over runs in this way.
-/

namespace JsonExtract

/-- A source that can look at the next byte and step over it. -/
class Stepper (σ : Type) where
  /-- the next byte, `none` at the end of the input, or the reason why it cannot be fetched -/
  peek : σ → Except String (Option UInt8) × σ
  /-- steps over the byte last looked at -/
  advance : σ → σ
  /-- a bound on the number of bytes still to come -/
  left : σ → Nat
  /-- looking does not make more bytes come -/
  left_peek_le : ∀ s, left (peek s).2 ≤ left s
  /-- stepping over a byte that is there makes fewer bytes come -/
  left_advance_lt : ∀ {s t b}, peek s = (.ok (some b), t) → left (advance t) < left s

/-- A cursor that steps over runs byte by byte. -/
structure Stepwise (σ : Type) where
  /-- the source -/
  source : σ
  deriving DecidableEq, Repr

namespace Stepwise

variable {σ : Type} [Stepper σ]

/-- Steps over bytes one by one as long as they satisfy `p`. -/
def takeWhile (p : UInt8 → Bool) (s : Stepwise σ) : Taken (Stepwise σ) :=
  match _h : Stepper.peek s.source with
  | (.error reason, shown) => { bytes := [], failure := some reason, source := ⟨shown⟩ }
  | (.ok none, shown) => { bytes := [], failure := none, source := ⟨shown⟩ }
  | (.ok (some b), shown) =>
    if p b then
      let more := takeWhile p ⟨Stepper.advance shown⟩
      { more with bytes := b :: more.bytes }
    else { bytes := [], failure := none, source := ⟨shown⟩ }
termination_by Stepper.left s.source
decreasing_by exact Stepper.left_advance_lt _h

section

variable {p : UInt8 → Bool} {s shown : σ}

theorem takeWhile_error {reason : String} (h : Stepper.peek s = (.error reason, shown)) :
    takeWhile p ⟨s⟩ = { bytes := [], failure := some reason, source := ⟨shown⟩ } := by
  rw [takeWhile]
  split <;> simp_all

theorem takeWhile_end (h : Stepper.peek s = (.ok none, shown)) :
    takeWhile p ⟨s⟩ = { bytes := [], failure := none, source := ⟨shown⟩ } := by
  rw [takeWhile]
  split <;> simp_all

theorem takeWhile_byte {b : UInt8} (h : Stepper.peek s = (.ok (some b), shown)) :
    takeWhile p ⟨s⟩ =
      if p b then
        let more := takeWhile p ⟨Stepper.advance shown⟩
        { more with bytes := b :: more.bytes }
      else { bytes := [], failure := none, source := ⟨shown⟩ } := by
  rw [takeWhile]
  split <;> simp_all

end

theorem left_takeWhile_le (p : UInt8 → Bool) (s : Stepwise σ) :
    Stepper.left (takeWhile p s).source.source ≤ Stepper.left s.source := by
  have hs := Stepper.left_peek_le s.source
  fun_induction takeWhile p s with
  | case1 s reason shown h => simpa [h] using hs
  | case2 s shown h => simpa [h] using hs
  | case3 s b shown h _ more ih =>
    exact Nat.le_trans (ih (Stepper.left_peek_le _)) (Nat.le_of_lt (Stepper.left_advance_lt h))
  | case4 s b shown h _ => simpa [h] using hs

instance : Cursor (Stepwise σ) where
  peek s := ((Stepper.peek s.source).1, ⟨(Stepper.peek s.source).2⟩)
  advance s := ⟨Stepper.advance s.source⟩
  takeWhile := takeWhile
  left s := Stepper.left s.source
  left_peek_le s := Stepper.left_peek_le s.source
  left_advance_lt := by
    intro s t b h
    obtain ⟨h₁, rfl⟩ := Prod.mk.inj h
    exact Stepper.left_advance_lt (Prod.ext h₁ rfl)
  left_takeWhile_le := left_takeWhile_le

end Stepwise

/-! ## Metered documents

The meter has a recursion of its own over the bytes in front of it, for it has to stop where the
document is refused. It is no shortcut, though: it takes the same steps as a source that knows
nothing but looking and stepping. -/

namespace Metered

instance : Stepper Metered where
  peek s := (s.peek, s)
  advance := advance
  left s := s.rest.length
  left_peek_le := Cursor.left_peek_le
  left_advance_lt := Cursor.left_advance_lt

/-- A metered document steps over a run byte by byte, also where it refuses to go on. -/
theorem takeWhile_eq_stepwise (p : UInt8 → Bool) (s : Metered) :
    (Stepwise.takeWhile p ⟨s⟩ : Taken (Stepwise Metered)) =
      { s.takeWhile p with source := ⟨(s.takeWhile p).source⟩ } := by
  obtain ⟨rest, position, refusal⟩ := s
  induction rest generalizing position with
  | nil =>
    rw [Metered.takeWhile, takeFrom]
    cases hr : refused? refusal position with
    | some reason => exact Stepwise.takeWhile_error (by simp [Stepper.peek, peek, hr])
    | none => exact Stepwise.takeWhile_end (by simp [Stepper.peek, peek, hr])
  | cons b rest ih =>
    rw [Metered.takeWhile, takeFrom]
    cases hr : refused? refusal position with
    | some reason => exact Stepwise.takeWhile_error (by simp [Stepper.peek, peek, hr])
    | none =>
      have hb : Stepper.peek (⟨b :: rest, position, refusal⟩ : Metered) =
          (.ok (some b), ⟨b :: rest, position, refusal⟩) := by
        simp [Stepper.peek, peek, hr]
      have hmore := ih (position + 1)
      rw [Stepwise.takeWhile_byte hb]
      cases p b with
      | false => rfl
      | true =>
        simp only [if_true]
        exact congrArg (fun t : Taken (Stepwise Metered) => { t with bytes := b :: t.bytes }) hmore

end Metered

end JsonExtract
