import JsonExtract.Bytes.Basic

/-!
# Byte strings in chunks

How a document is cut before it is delivered should not matter to an extraction. To say so, the
ways of cutting are needed as functions: they have to lose nothing, and what a reader makes of the
pieces is left to its script.

* `Chunks.ofSize` — consecutive pieces of one length, with the rest at the end;
* `Chunks.split?` — about equally many bytes in each of several pieces;
* `Chunks.ofLengths` — consecutive pieces of given lengths, and what is left.
-/

namespace JsonExtract.Chunks

/-- Consecutive pieces of `size + 1` bytes, the last of which may be shorter. -/
def ofSizeSucc (size : Nat) : Bytes → List Bytes
  | [] => []
  | b :: rest => (b :: rest.take size) :: ofSizeSucc size (rest.drop size)
termination_by bytes => bytes.length
decreasing_by
  rw [List.length_drop, List.length_cons]
  omega

/-- Consecutive pieces of `size` bytes, and of one byte where `size` is zero. -/
def ofSize (size : Nat) (bytes : Bytes) : List Bytes :=
  ofSizeSucc (size - 1) bytes

/-- At most `parts` pieces of one length, the last of which may be shorter; none if there are no
bytes. There is no way to make zero parts. -/
def split? (bytes : Bytes) (parts : Nat) : Option (List Bytes) :=
  if parts = 0 then none else some (ofSize ((bytes.length + (parts - 1)) / parts) bytes)

/-- Pieces of the given lengths, each cut short by the end of the bytes, and the rest. -/
def ofLengths (bytes : Bytes) : List Nat → List Bytes
  | [] => [bytes]
  | n :: more => bytes.take n :: ofLengths (bytes.drop n) more

/-- Nothing is lost in pieces of one length. -/
theorem flatten_ofSize (size : Nat) (bytes : Bytes) : (ofSize size bytes).flatten = bytes := by
  rw [ofSize]
  fun_induction ofSizeSucc (size - 1) bytes with
  | case1 => rfl
  | case2 b rest ih => simp [ih]

/-- Nothing is lost in pieces of given lengths. -/
theorem flatten_ofLengths (bytes : Bytes) (lengths : List Nat) :
    (ofLengths bytes lengths).flatten = bytes := by
  induction lengths generalizing bytes with
  | nil => simp [ofLengths]
  | cons n more ih => simp [ofLengths, ih]

end JsonExtract.Chunks
