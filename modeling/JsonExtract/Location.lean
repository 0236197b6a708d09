import JsonExtract.Bytes.Basic

/-!
# Locations in a document

A location counts the bytes, the lines and the columns before it. Columns count bytes, and both
lines and columns count from one.

* `Location.past` — the location behind a byte;
* `Location.along` — the location behind several bytes;
* `offset_along`, `line_along` — what a location says about the bytes before it.
-/

namespace JsonExtract

/-- A place between two bytes of a document. -/
structure Location where
  /-- number of bytes before this place -/
  offset : Nat
  /-- one more than the number of line feeds before this place -/
  line : Nat
  /-- one more than the number of bytes since the last line feed -/
  column : Nat
  deriving DecidableEq, Repr, Inhabited

namespace Location

/-- The place before the first byte. -/
def origin : Location :=
  ⟨0, 1, 1⟩

/-- The place behind the byte `b`. -/
def past (l : Location) (b : UInt8) : Location :=
  if b = Ascii.lineFeed then ⟨l.offset + 1, l.line + 1, 1⟩ else ⟨l.offset + 1, l.line, l.column + 1⟩

/-- The place behind all of `bytes`. -/
def along (l : Location) (bytes : Bytes) : Location :=
  bytes.foldl past l

/-- The place `n` bytes further on in the same line. -/
def skip (l : Location) (n : Nat) : Location :=
  ⟨l.offset + n, l.line, l.column + n⟩

/-! ## What a location counts

The counts are kept byte by byte as the document is read. Here they are related to the bytes as a
whole: the offset to their number, and the line to the line feeds among them. -/

variable (l : Location) (b : UInt8) (xs ys : Bytes)

@[simp]
theorem offset_past : (l.past b).offset = l.offset + 1 := by
  rw [past]
  split <;> rfl

@[simp]
theorem along_nil : l.along [] = l := rfl

@[simp]
theorem along_cons : l.along (b :: xs) = (l.past b).along xs := rfl

@[simp]
theorem along_append : l.along (xs ++ ys) = (l.along xs).along ys := by
  simp [along]

@[simp]
theorem offset_along : (l.along xs).offset = l.offset + xs.length := by
  induction xs generalizing l with
  | nil => rfl
  | cons b xs ih => simp only [along_cons, ih, offset_past, List.length_cons]; omega

/-- Each line feed starts a line. -/
theorem line_along : (l.along xs).line = l.line + xs.count Ascii.lineFeed := by
  induction xs generalizing l with
  | nil => rfl
  | cons b xs ih =>
    rw [along_cons, ih, List.count_cons, past]
    by_cases h : b = Ascii.lineFeed
    · simp only [h, if_true, beq_self_eq_true]; omega
    · simp only [h, if_false, beq_iff_eq]; omega

/-- Skipping `xs.length` bytes leads behind `xs`, if `xs` has no line feed. -/
theorem skip_length (h : Ascii.lineFeed ∉ xs) : l.skip xs.length = l.along xs := by
  induction xs generalizing l with
  | nil => rfl
  | cons b xs ih =>
    rw [List.mem_cons, not_or] at h
    rw [along_cons, ← ih _ h.2, past, if_neg (Ne.symm h.1)]
    simp only [skip, List.length_cons, Location.mk.injEq]
    exact ⟨by omega, trivial, by omega⟩

end Location

end JsonExtract
