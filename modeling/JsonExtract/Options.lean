import JsonExtract.Failure

/-!
# Settings of an extraction

* `Options` — how input is read, how deep it may nest, and which liberties it may take;
* `Options.check` — the settings must be in range.
-/

namespace JsonExtract

/-- The settings of an extraction. The default values are settings in range. -/
structure Options where
  /-- number of bytes asked for in one read; not zero -/
  readSize : Nat := 8192
  /-- number of containers that may be open at a time; not zero -/
  maxDepth : Nat := 512
  /-- whether any number of values may follow one another -/
  multipleValues : Bool := false
  /-- whether the encoded space characters beyond ASCII separate tokens, too -/
  unicodeSpace : Bool := false
  deriving DecidableEq, Repr, Inhabited

namespace Options

/-- Accepts settings in range. The read size is looked at first. -/
def check (o : Options) : Except Failure Unit :=
  if o.readSize = 0 then .error (.badOptions .zeroReadSize)
  else if o.maxDepth = 0 then .error (.badOptions .zeroDepth)
  else .ok ()

/-- Settings are in range when neither size is zero. -/
theorem check_eq_ok_iff {o : Options} : o.check = .ok () ↔ o.readSize ≠ 0 ∧ o.maxDepth ≠ 0 := by
  rw [check]
  split
  · simp_all
  · split <;> simp_all

end Options

end JsonExtract
