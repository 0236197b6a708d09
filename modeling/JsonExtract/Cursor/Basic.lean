import JsonExtract.Bytes.Basic

/-!
# Cursors over bytes

A cursor stands in front of the next byte of an input. It can look at that byte, step over it, and
step over a whole run of bytes at once. A cursor may fetch bytes only when it has to, so looking can
change it, and fetching can fail.

* `Taken` — what stepping over a run gives;
* `Cursor` — the operations, and a bound on the number of bytes that can still come, which lets
  loops over a cursor end.
-/

namespace JsonExtract

/-- The result of stepping over a run of bytes. -/
structure Taken (σ : Type) where
  /-- the bytes stepped over -/
  bytes : Bytes
  /-- the reason why the next byte could not be fetched, if that ended the run -/
  failure : Option String
  /-- the cursor behind the run -/
  source : σ
  deriving Repr

/-- A forward-only cursor over bytes. The first three fields are what a lexer asks for. The others
say that a loop over a cursor comes to an end. -/
class Cursor (σ : Type) where
  /-- the next byte, `none` at the end of the input, or the reason why it cannot be fetched -/
  peek : σ → Except String (Option UInt8) × σ
  /-- steps over the byte last looked at -/
  advance : σ → σ
  /-- steps over bytes as long as they satisfy a predicate -/
  takeWhile : (UInt8 → Bool) → σ → Taken σ
  /-- a bound on the number of bytes still to come -/
  left : σ → Nat
  /-- looking does not make more bytes come -/
  left_peek_le : ∀ s, left (peek s).2 ≤ left s
  /-- stepping over a byte that is there makes fewer bytes come -/
  left_advance_lt : ∀ {s t b}, peek s = (.ok (some b), t) → left (advance t) < left s
  /-- stepping over a run does not make more bytes come -/
  left_takeWhile_le : ∀ p s, left (takeWhile p s).source ≤ left s

end JsonExtract
