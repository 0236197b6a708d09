import JsonExtract.Cursor.Basic
import JsonExtract.Cursor.Script

/-!
# Buffered readers

A buffered reader asks its reader for bytes only when its buffer is used up, tries interrupted reads
again, and asks no more once the input is at its end. A fault that ends a run of bytes is kept for
the next operation that needs a byte, so that the bytes of the run are not lost.

* `Reader.replenish` — makes the buffer non-empty, if there are bytes to come;
* `Reader.takeWhile` — a run may go across any number of buffers;
* `Reader.reads`, `Reader.delivered` — how much has been asked for and how much has come.
-/

namespace JsonExtract

/-- A cursor over what a reader delivers. -/
structure Reader where
  /-- the answers of the reader to come -/
  script : Script
  /-- number of bytes asked for in one read -/
  size : Nat
  /-- reads ask for something -/
  size_pos : 0 < size
  /-- bytes that came and have not been stepped over -/
  buffer : Bytes := []
  /-- whether the end of the input was reported -/
  ended : Bool := false
  /-- a fault that ended a run of bytes, not yet reported -/
  deferred : Option String := none
  /-- number of reads so far -/
  reads : Nat := 0
  /-- number of bytes that came so far -/
  delivered : Nat := 0
  deriving DecidableEq, Repr

namespace Reader

/-- A cursor that reads `size` bytes at a time, and at least one. -/
def ofScript (script : Script) (size : Nat) : Reader :=
  { script, size := max 1 size, size_pos := by omega }

/-- A bound on the number of bytes still to come. -/
def left (s : Reader) : Nat :=
  s.buffer.length + s.script.volume

/-! ## Fetching

All reading goes through `replenish`, which reads only when the buffer is empty. This is the one
place that decides between a fault that was kept, an input that has ended, and a read. A fetch
moves bytes from the script into the buffer, so the bound `left` on the bytes to come does not
grow. -/

/-- Reads until bytes come, the input ends or a read fails, trying interrupted reads again. What the
buffer holds is given up, so it has to be used up. -/
def fetch (s : Reader) : Except String Unit × Reader :=
  match _h : s.script.read s.size with
  | (.ok bytes, rest) =>
    (.ok (),
      { s with
        script := rest, buffer := bytes, ended := bytes.isEmpty
        reads := s.reads + 1, delivered := s.delivered + bytes.length })
  | (.error fault, rest) =>
    let t := { s with script := rest, reads := s.reads + 1 }
    if fault.kind = .interrupted then t.fetch else (.error fault.message, t)
termination_by s.script.length
decreasing_by
  rw [Script.of_read_error _h]
  exact Nat.lt_succ_self _

/-- Makes the buffer non-empty if there are bytes to come. A fault that was kept comes first. -/
def replenish (s : Reader) : Except String Unit × Reader :=
  match s.buffer, s.deferred with
  | _ :: _, _ => (.ok (), s)
  | [], some reason => (.error reason, { s with deferred := none })
  | [], none => if s.ended then (.ok (), s) else s.fetch

theorem left_fetch_le (s : Reader) : s.fetch.2.left ≤ s.left := by
  fun_induction fetch s with
  | case1 s bytes rest h =>
    have := Script.volume_of_read_ok h
    simp only [left]
    omega
  | case2 s fault rest h t _ ih =>
    refine Nat.le_trans ih ?_
    simp only [left, t, Script.of_read_error h, Script.volume]
    omega
  | case3 s fault rest h t _ =>
    simp only [left, t, Script.of_read_error h, Script.volume]
    omega

theorem left_replenish_le (s : Reader) : s.replenish.2.left ≤ s.left := by
  rw [replenish]
  split
  · exact Nat.le_refl _
  · exact Nat.le_refl _
  · split
    · exact Nat.le_refl _
    · exact left_fetch_le s

/-! ## The cursor

Looking and stepping are immediate once the buffer is filled. Runs are not, because a run may
use up the buffer and has to go on in the next one. The recursion is on the bytes to come, since
each further buffer has used up at least one byte of them. -/

/-- Looks at the next byte, fetching it if the buffer is used up. -/
def peek (s : Reader) : Except String (Option UInt8) × Reader :=
  match s.replenish with
  | (.error reason, t) => (.error reason, t)
  | (.ok (), t) => (.ok t.buffer.head?, t)

/-- Steps over the next byte if it is in the buffer. -/
def advance (s : Reader) : Reader :=
  { s with buffer := s.buffer.tail }

/-- Steps over the bytes of a run; `begun` says whether some of it is already behind. A fault in the
middle of a run is kept for later. -/
def takeOn (p : UInt8 → Bool) (begun : Bool) (s : Reader) : Taken Reader :=
  match _h : s.replenish with
  | (.error reason, t) =>
    -- bytes that are already behind must not be lost to the fault
    if begun then { bytes := [], failure := none, source := { t with deferred := some reason } }
    else { bytes := [], failure := some reason, source := t }
  | (.ok (), t) =>
    match _ht : t.buffer with
    | [] => { bytes := [], failure := none, source := t }
    | b :: rest =>
      let run := (b :: rest).takeWhile p
      match (b :: rest).dropWhile p with
      -- the whole buffer belongs to the run, which may go on in the next one
      | [] =>
        let more := takeOn p true { t with buffer := [] }
        { more with bytes := run ++ more.bytes }
      | unread => { bytes := run, failure := none, source := { t with buffer := unread } }
termination_by s.left
decreasing_by
  have ht := left_replenish_le s
  simp only [_h, left, _ht, List.length_cons, List.length_nil] at ht ⊢
  omega

/-- Steps over the bytes of a run. -/
def takeWhile (p : UInt8 → Bool) (s : Reader) : Taken Reader :=
  takeOn p false s

theorem left_peek_le (s : Reader) : s.peek.2.left ≤ s.left := by
  have := left_replenish_le s
  rw [peek]
  split <;> simp_all

theorem left_takeOn_le (p : UInt8 → Bool) (begun : Bool) (s : Reader) :
    (takeOn p begun s).source.left ≤ s.left := by
  fun_induction takeOn p begun s with
  | case1 s reason t h => simpa [h, left] using left_replenish_le s
  | case2 begun s reason t h _ => simpa [h] using left_replenish_le s
  | case3 begun s t h _ => simpa [h] using left_replenish_le s
  | case4 begun s t h b rest ht run hd more ih =>
    have hs := left_replenish_le s
    refine Nat.le_trans ih (Nat.le_trans ?_ hs)
    simp only [h, left, List.length_nil]
    omega
  | case5 begun s t h b rest ht run hd =>
    have hs := left_replenish_le s
    have hu : ((b :: rest).dropWhile p).length ≤ (b :: rest).length :=
      (List.dropWhile_sublist p).length_le
    simp only [h, left, ht] at hs ⊢
    omega

instance : Cursor Reader where
  peek := peek
  advance := advance
  takeWhile := takeWhile
  left := left
  left_peek_le := left_peek_le
  left_advance_lt := by
    intro s t b h
    have hs := left_peek_le s
    rw [h] at hs
    have hb : t.buffer.head? = some b := by
      rw [peek] at h
      split at h
      · simp at h
      · obtain ⟨h₁, rfl⟩ := Prod.mk.inj h
        exact Except.ok.inj h₁
    cases ht : t.buffer with
    | nil => simp [ht] at hb
    | cons _ _ =>
      simp only [left, ht, advance, List.length_cons, List.tail_cons] at hs ⊢
      omega
  left_takeWhile_le p s := left_takeOn_le p false s

end Reader

end JsonExtract
