import JsonExtract.Bytes.Basic

/-!
# Scripted readers

A reader answers each read with some bytes, with none at the end of its input, or with a fault. A
script lists these answers in advance, which is all that an extraction can see of a reader.

* `FaultKind`, `Fault` — why a read fails; a read that was merely interrupted may be tried again;
* `Event`, `Script` — the answers to come;
* `Script.read` — one read into a buffer of a given size;
* `Script.drain` — all that is left.
-/

namespace JsonExtract

/-! ## Faults

A kind decides only whether a read is tried again; all else about a fault is its text, which
ends up in the failure of the extraction. -/

/-- The kinds of fault that a reader reports. -/
inductive FaultKind
  /-- a signal came in between; the read may be tried again -/
  | interrupted
  | connectionReset
  | unexpectedEof
  | permissionDenied
  | timedOut
  | wouldBlock
  | brokenPipe
  | invalidData
  | notFound
  | other
  deriving DecidableEq, Repr

/-- The usual text of a kind of fault. -/
def FaultKind.text : FaultKind → String
  | interrupted => "operation interrupted"
  | connectionReset => "connection reset"
  | unexpectedEof => "unexpected end of file"
  | permissionDenied => "permission denied"
  | timedOut => "timed out"
  | wouldBlock => "operation would block"
  | brokenPipe => "broken pipe"
  | invalidData => "invalid data"
  | notFound => "entity not found"
  | other => "other error"

/-- A fault of a reader. -/
structure Fault where
  /-- the kind of fault -/
  kind : FaultKind
  /-- a text of its own, in place of the usual one -/
  note : Option String := none
  deriving DecidableEq, Repr

/-- The text of a fault. -/
def Fault.message (f : Fault) : String :=
  f.note.getD f.kind.text

/-! ## Scripts

An event without bytes is read as an end of the input. Behind it the script may still go on, just
as a reader may deliver more bytes after it reported an end. -/

/-- One answer of a reader. Events and reads need not correspond, as one event may take several
reads. -/
inductive Event
  /-- bytes; those that find no room in the buffer are the answer to the next read -/
  | data (bytes : Bytes)
  /-- the end of the input, reported by a read of no bytes -/
  | finish
  /-- a fault -/
  | fail (fault : Fault)
  deriving DecidableEq, Repr

/-- The answers of a reader to come. When they are used up, the input is at its end for good. -/
abbrev Script := List Event

namespace Script

/-- The script of a reader that delivers `pieces` one by one. Empty pieces are left out. -/
def ofPieces (pieces : List Bytes) : Script :=
  (pieces.filter fun piece => !piece.isEmpty).map .data

/-- One read into a buffer of `size` bytes. -/
def read (size : Nat) : Script → Except Fault Bytes × Script
  | [] => (.ok [], [])
  | .data bytes :: rest =>
    let unread := bytes.drop size
    (.ok (bytes.take size), if unread.isEmpty then rest else .data unread :: rest)
  | .finish :: rest => (.ok [], rest)
  | .fail fault :: rest => (.error fault, rest)

/-- The number of bytes that a script can still deliver. -/
def volume : Script → Nat
  | [] => 0
  | .data bytes :: rest => bytes.length + volume rest
  | .finish :: rest => volume rest
  | .fail _ :: rest => volume rest

/-- All bytes up to the next end of input, and the faults met on the way. -/
def drain : Script → Bytes × List Fault
  | [] => ([], [])
  | .data [] :: _ => ([], [])
  | .data bytes :: rest => let more := drain rest; (bytes ++ more.1, more.2)
  | .finish :: _ => ([], [])
  | .fail fault :: rest => let more := drain rest; (more.1, fault :: more.2)

/-! ## What a read delivers

Fetching again and again comes to an end for two reasons: successful reads use up the volume of
the script, and failed ones use up its events. -/

variable {size : Nat} {script rest : Script}

/-- The bytes that a read delivers are no longer to come. -/
theorem volume_of_read_ok {bytes : Bytes} (h : script.read size = (.ok bytes, rest)) :
    bytes.length + volume rest = volume script := by
  match script, h with
  | [], h => cases h; rfl
  | .finish :: _, h => cases h; simp [volume]
  | .data d :: more, h =>
    obtain ⟨hb, hr⟩ := Prod.mk.inj h
    cases hb
    subst hr
    have hlen : (d.take size).length + (d.drop size).length = d.length := by
      rw [← List.length_append, List.take_append_drop]
    split
    · next hd => rw [List.isEmpty_iff.1 hd] at hlen; simp only [volume, List.length_nil] at *; omega
    · simp only [volume]; omega

/-- A fault delivers no bytes, and a shorter script is left. -/
theorem of_read_error {fault : Fault} (h : script.read size = (.error fault, rest)) :
    script = .fail fault :: rest := by
  match script, h with
  | .fail _ :: _, h => cases h; rfl

end Script

end JsonExtract
