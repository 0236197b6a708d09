import JsonExtract.Cursor.Reader

/-!
# The transcript of a reader

Leaving out how its bytes come in pieces, and which of its reads were merely interrupted, a reader is a
row of bytes with a failure here and there, up to the first end of input. An ideal cursor goes along this
row. A buffered reader differs from it by what it keeps: a buffer, a failure that came too early to be
reported, and the answers of its reader to come.

* `Cell`, `Script.cells` — the row;
* `Transcript` — the ideal cursor over it;
* `Reader.Act`, `Reader.Acts` — what a buffered reader does, one thing at a time. It reads only when it is
  `Reader.Idle`;
* `Reader.Acts.cells_eq` — nothing of the row is lost, repeated or moved;
* `Reader.peek_transcript`, `Reader.advance_transcript`, `Reader.takeWhile_transcript` — a buffered reader
  answers as the ideal cursor does.
-/

namespace JsonExtract

/-- What stands at one place of a transcript. A failure has a place among the bytes, in front of
those that are delivered after it. -/
inductive Cell
  /-- a byte -/
  | byte (b : UInt8)
  /-- the reason why a read failed -/
  | failure (reason : String)
  deriving DecidableEq, Repr

/-- The bytes and the failures of a reader up to its first end of input. Interruptions leave no
trace. An empty piece ends the input, and so does the end of the script. -/
def Script.cells : Script → List Cell
  | [] => []
  | .data [] :: _ => []
  | .data (b :: bytes) :: rest => (b :: bytes).map .byte ++ cells rest
  | .finish :: _ => []
  | .fail fault :: rest =>
    if fault.kind = .interrupted then cells rest else .failure fault.message :: cells rest

/-! ## The ideal cursor

The transcript is a list, and a cursor over it has neither a buffer nor a failure to keep. Its
runs end at a failure, and a failure is reported when it is the first thing in the row. -/

/-- A cursor over a transcript. It is what a buffered reader pretends to be: there are no reads,
no buffers and no failures that are kept back. -/
structure Transcript where
  /-- what has not been stepped over or reported -/
  cells : List Cell
  deriving DecidableEq, Repr

namespace Transcript

/-- Looks at the next byte. A failure in front of it is reported, and is gone then. If the failure
is reported, the byte behind it is next. -/
def peek (s : Transcript) : Except String (Option UInt8) × Transcript :=
  match s.cells with
  | [] => (.ok none, s)
  | .byte b :: _ => (.ok (some b), s)
  | .failure reason :: rest => (.error reason, ⟨rest⟩)

/-- Steps over the next byte. -/
def advance (s : Transcript) : Transcript :=
  match s.cells with
  | .byte _ :: rest => ⟨rest⟩
  | _ => s

/-- Steps over the bytes in front of the first failure and of the first byte outside of the run. -/
def run (p : UInt8 → Bool) : List Cell → Taken Transcript
  | [] => { bytes := [], failure := none, source := ⟨[]⟩ }
  | .failure reason :: rest => { bytes := [], failure := none, source := ⟨.failure reason :: rest⟩ }
  | .byte b :: rest =>
    if p b then
      let more := run p rest
      { more with bytes := b :: more.bytes }
    else { bytes := [], failure := none, source := ⟨.byte b :: rest⟩ }

/-- Steps over the bytes of a run. A failure is reported only if it stands in front of all of
them. Otherwise it is left for the next request, as the bytes in front of it must not be lost. -/
def takeWhile (p : UInt8 → Bool) (s : Transcript) : Taken Transcript :=
  match s.cells with
  | .failure reason :: rest => { bytes := [], failure := some reason, source := ⟨rest⟩ }
  | cells => run p cells

theorem length_run_le (p : UInt8 → Bool) (cells : List Cell) :
    (run p cells).source.cells.length ≤ cells.length := by
  fun_induction run p cells with
  | case1 | case2 | case4 => exact Nat.le_refl _
  | case3 b rest _ more ih => exact Nat.le_succ_of_le ih

instance : Cursor Transcript where
  peek := peek
  advance := advance
  takeWhile := takeWhile
  left s := s.cells.length
  left_peek_le s := by
    rw [peek]
    split <;> simp [*]
  left_advance_lt := by
    intro s t b h
    rw [peek] at h
    split at h <;> cases h
    simp [advance, *]
  left_takeWhile_le p s := by
    rw [takeWhile]
    split
    · simp [*]
    · exact length_run_le p s.cells

theorem run_append (p : UInt8 → Bool) {bytes : Bytes} (h : ∀ b ∈ bytes, p b = true)
    (cells : List Cell) :
    run p (bytes.map .byte ++ cells) =
      { run p cells with bytes := bytes ++ (run p cells).bytes } := by
  induction bytes with
  | nil => rfl
  | cons b bytes ih =>
    rw [List.map_cons, List.cons_append, run, if_pos (h b List.mem_cons_self),
      ih fun c hc => h c (List.mem_cons_of_mem b hc)]
    rfl

end Transcript

/-! ## What a reader does

All that a reader does is broken down into acts: stepping over a buffered byte, reading, noting
a failure, reporting one, meeting the end. An act changes the state of the reader and gives out
cells, and reading is an act of idle readers only. -/

namespace Reader

/-- Whether a reader has nothing to give out unless it reads: no byte is buffered, no failure is
kept, and the end of the input has not been met. As soon as one of the three is not so, a request
can be answered without a read. -/
structure Idle (s : Reader) : Prop where
  buffer : s.buffer = []
  deferred : s.deferred = none
  ended : s.ended = false

/-- One thing that a reader does, and what it gives out by that. -/
inductive Act : Reader → List Cell → Reader → Prop
  /-- steps over a byte of the buffer -/
  | step {s : Reader} {b : UInt8} {rest : Bytes} (hbuffer : s.buffer = b :: rest) :
    Act s [.byte b] { s with buffer := rest }
  /-- reads bytes, or meets the end of the input -/
  | read {s : Reader} {bytes : Bytes} {rest : Script} (hidle : s.Idle)
    (hread : s.script.read s.size = (.ok bytes, rest)) :
    Act s []
      { s with
        script := rest, buffer := bytes, ended := bytes.isEmpty
        reads := s.reads + 1, delivered := s.delivered + bytes.length }
  /-- reads, but is interrupted -/
  | retry {s : Reader} {fault : Fault} {rest : Script} (hidle : s.Idle)
    (hread : s.script.read s.size = (.error fault, rest)) (hkind : fault.kind = .interrupted) :
    Act s [] { s with script := rest, reads := s.reads + 1 }
  /-- reads, and keeps the failure of the read -/
  | keep {s : Reader} {fault : Fault} {rest : Script} (hidle : s.Idle)
    (hread : s.script.read s.size = (.error fault, rest)) (hkind : fault.kind ≠ .interrupted) :
    Act s [] { s with script := rest, reads := s.reads + 1, deferred := some fault.message }
  /-- reports the failure that was kept -/
  | report {s : Reader} {reason : String} (hbuffer : s.buffer = [])
    (hdeferred : s.deferred = some reason) : Act s [.failure reason] { s with deferred := none }

/-- Any number of things that a reader does one after the other, and all that it gives out by them. -/
inductive Acts : Reader → List Cell → Reader → Prop
  | refl (s : Reader) : Acts s [] s
  | cons {s t u : Reader} {out more : List Cell} (h : Act s out t) :
    Acts t more u → Acts s (out ++ more) u

variable {s t u : Reader} {out more : List Cell}

theorem Acts.single (h : Act s out t) : Acts s out t := by
  have := Acts.cons h (.refl t)
  rwa [List.append_nil] at this

theorem Acts.trans (h : Acts s out t) (hmore : Acts t more u) : Acts s (out ++ more) u := by
  induction h with
  | refl => exact hmore
  | cons hact _ ih =>
    rw [List.append_assoc]
    exact .cons hact (ih hmore)

/-- Stepping over bytes of the buffer. -/
theorem Acts.steps {bytes rest : Bytes} (h : s.buffer = bytes ++ rest) :
    Acts s (bytes.map .byte) { s with buffer := rest } := by
  induction bytes generalizing s with
  | nil =>
    have hsame : { s with buffer := rest } = s := by
      cases s
      cases h
      rfl
    rw [hsame]
    exact .refl s
  | cons b bytes ih => exact .cons (.step h) (ih (s := { s with buffer := bytes ++ rest }) rfl)

/-! ### Nothing is lost -/

/-- What a reader has still to give out. The bytes in the buffer come first, then a failure that
was kept, and then what the script has still to say. -/
def cells (s : Reader) : List Cell :=
  s.buffer.map .byte ++ s.deferred.toList.map .failure ++
    if s.ended then [] else s.script.cells

theorem cells_ofScript (script : Script) (size : Nat) : (ofScript script size).cells = script.cells := by
  rfl

theorem Idle.cells_eq (h : s.Idle) : s.cells = s.script.cells := by
  rw [Reader.cells, h.buffer, h.deferred, h.ended]
  rfl

/-- A read takes the bytes that it delivers off the row. -/
theorem cells_of_read_ok {script rest : Script} {size : Nat} {bytes : Bytes} (hsize : 0 < size)
    (h : script.read size = (.ok bytes, rest)) :
    script.cells = bytes.map .byte ++ if bytes.isEmpty then [] else rest.cells := by
  match script, h with
  | [], h | .finish :: _, h | .data [] :: _, h =>
    cases h
    simp [Script.cells]
  | .data (b :: piece) :: more, h =>
    obtain ⟨hbytes, hrest⟩ := Prod.mk.inj h
    cases hbytes
    have hsplit : (b :: piece).map Cell.byte =
        ((b :: piece).take size).map .byte ++ ((b :: piece).drop size).map .byte := by
      rw [← List.map_append, List.take_append_drop]
    have hsome : ((b :: piece).take size).isEmpty = false := by
      rw [List.isEmpty_eq_false_iff, Ne, List.take_eq_nil_iff]
      rintro (hzero | hnil)
      · omega
      · cases hnil
    rw [Script.cells, hsplit, List.append_assoc, hsome]
    refine congrArg (_ ++ ·) ?_
    -- a piece that is too long for one read stays in front of the others
    subst hrest
    cases (b :: piece).drop size <;> simp [Script.cells]

/-- What a reader gives out stands in front of what it has still to give out. Since acts give out
the front of the row, no cell is given out twice and none is skipped. -/
theorem Act.cells_eq (h : Act s out t) : s.cells = out ++ t.cells := by
  cases h with
  | step hbuffer => simp [Reader.cells, hbuffer]
  | read hidle hread =>
    rw [hidle.cells_eq, cells_of_read_ok s.size_pos hread, Reader.cells, hidle.deferred]
    simp
  | retry hidle hread hkind =>
    rw [hidle.cells_eq, Script.of_read_error hread, Script.cells, if_pos hkind, Reader.cells,
      hidle.buffer, hidle.deferred, hidle.ended]
    rfl
  | keep hidle hread hkind =>
    rw [hidle.cells_eq, Script.of_read_error hread, Script.cells, if_neg hkind, Reader.cells,
      hidle.buffer, hidle.ended]
    rfl
  | report hbuffer hdeferred => simp [Reader.cells, hbuffer, hdeferred]

theorem Acts.cells_eq (h : Acts s out t) : s.cells = out ++ t.cells := by
  induction h with
  | refl => rfl
  | cons hact _ ih => rw [hact.cells_eq, ih, List.append_assoc]

/-! ### The operations, one thing at a time -/

/-- What making the buffer non-empty does: it succeeds and leaves the buffer empty only at the end of the
input, or it fails, and the failure may be reported at once or kept. -/
inductive Replenished (s : Reader) : Except String Unit × Reader → Prop
  | ok {t : Reader} (hacts : Acts s [] t) (hend : t.buffer = [] → t.cells = []) :
    Replenished s (.ok (), t)
  | error {reason : String} {t : Reader} (hreport : Acts s [.failure reason] t)
    (hkeep : Acts s [] { t with deferred := some reason }) : Replenished s (.error reason, t)

theorem Replenished.of_acts {r : Except String Unit × Reader} (h : Acts s [] t)
    (hr : Replenished t r) : Replenished s r := by
  cases hr with
  | ok hacts hend => exact .ok (h.trans hacts) hend
  | error hreport hkeep => exact .error (h.trans hreport) (h.trans hkeep)

theorem replenished_fetch (h : s.Idle) : Replenished s s.fetch := by
  fun_induction fetch s with
  | case1 s bytes rest hread =>
    refine .ok (.single (.read h hread)) ?_
    rintro rfl
    rw [Reader.cells, h.deferred]
    rfl
  | case2 s fault rest hread t hkind ih =>
    exact .of_acts (.single (.retry h hread hkind)) (ih ⟨h.buffer, h.deferred, h.ended⟩)
  | case3 s fault rest hread t hkind =>
    have hkeep := Act.keep h hread hkind
    have hgone : { t with deferred := none } = t := by
      rw [← h.deferred]
    refine .error ?_ (.single hkeep)
    rw [← hgone]
    exact .cons hkeep (.single (.report h.buffer rfl))

theorem replenished_replenish (s : Reader) : Replenished s s.replenish := by
  rw [replenish]
  split
  · next hb => exact .ok (.refl s) fun hnil => by rw [hnil] at hb; cases hb
  · next reason hb hd =>
    refine .error (.single (.report hb hd)) ?_
    have hsame : { s with deferred := some reason } = s := by
      rw [← hd]
    rw [hsame]
    exact .refl s
  · next hb hd =>
    split
    · next hended => exact .ok (.refl s) fun _ => by simp [Reader.cells, hb, hd, hended]
    · next hended => exact replenished_fetch ⟨hb, hd, by simpa using hended⟩

theorem acts_peek (s : Reader) :
    Acts s (match s.peek.1 with
      | .ok _ => []
      | .error reason => [.failure reason]) s.peek.2 := by
  have h := replenished_replenish s
  rw [peek]
  cases hr : s.replenish with
  | mk answer t =>
    rw [hr] at h
    cases h with
    | ok hacts => exact hacts
    | error hreport => exact hreport

theorem acts_takeOn (p : UInt8 → Bool) (begun : Bool) (s : Reader) :
    Acts s ((takeOn p begun s).bytes.map .byte ++ (takeOn p begun s).failure.toList.map .failure)
      (takeOn p begun s).source := by
  fun_induction takeOn p begun s with
  | case1 s reason t hr =>
    have h := hr ▸ replenished_replenish s
    cases h with
    | error _ hkeep => exact hkeep
  | case2 begun s reason t hr _ =>
    have h := hr ▸ replenished_replenish s
    cases h with
    | error hreport => exact hreport
  | case3 begun s t hr _ =>
    have h := hr ▸ replenished_replenish s
    cases h with
    | ok hacts => exact hacts
  | case4 begun s t hr b rest hb run hdrop more ih =>
    have h := hr ▸ replenished_replenish s
    have hrun : t.buffer = run ++ [] := by
      rw [hb, ← hdrop, List.takeWhile_append_dropWhile]
    cases h with
    | ok hacts =>
      simp only [List.map_append, List.append_assoc]
      exact hacts.trans ((Acts.steps hrun).trans ih)
  | case5 begun s t hr b rest hb run unread =>
    have h := hr ▸ replenished_replenish s
    have hrun : t.buffer = run ++ (b :: rest).dropWhile p := by
      rw [hb, List.takeWhile_append_dropWhile]
    cases h with
    | ok hacts =>
      simp only [Option.toList_none, List.map_nil, List.append_nil]
      exact hacts.trans (.steps hrun)

/-! ## Answers as from the ideal cursor

The state of a reader stands for a row of cells, what is buffered in front of the failure that
is kept, and that in front of what the script will still give. An operation on the reader and
the same operation of the ideal cursor on this row have the same answer, and leave states that
stand for the same row. -/

/-- The ideal cursor over what a reader has still to give out. -/
def transcript (s : Reader) : Transcript :=
  ⟨s.cells⟩

/-- Making the buffer non-empty shows what stands first in the row. -/
theorem cells_replenish (s : Reader) :
    (∃ t, s.replenish = (.ok (), t) ∧ s.cells = t.cells ∧ (t.buffer = [] → t.cells = [])) ∨
      ∃ reason t, s.replenish = (.error reason, t) ∧ s.cells = .failure reason :: t.cells ∧
        s.cells = { t with deferred := some reason }.cells := by
  have h := replenished_replenish s
  cases hr : s.replenish with
  | mk answer t =>
    rw [hr] at h
    cases h with
    | ok hacts hend => exact .inl ⟨t, rfl, hacts.cells_eq, hend⟩
    | error hreport hkeep => exact .inr ⟨_, t, rfl, hreport.cells_eq, hkeep.cells_eq⟩

/-- The bytes of the buffer stand in front of everything else. -/
theorem cells_of_buffer {bytes rest : Bytes} (h : s.buffer = bytes ++ rest) :
    s.cells = bytes.map .byte ++ { s with buffer := rest }.cells :=
  (Acts.steps h).cells_eq

theorem cells_of_cons {b : UInt8} {rest : Bytes} (h : s.buffer = b :: rest) :
    s.cells = .byte b :: { s with buffer := rest }.cells :=
  (Act.step h).cells_eq

theorem peek_transcript (s : Reader) :
    s.transcript.peek = (s.peek.1, s.peek.2.transcript) := by
  rcases cells_replenish s with ⟨t, hr, hcells, hend⟩ | ⟨reason, t, hr, hcells, -⟩
  · rw [peek, hr, transcript, transcript, Transcript.peek, hcells]
    cases hb : t.buffer with
    | nil => simp [hend hb, hb]
    | cons b rest => simp [cells_of_cons hb, hb]
  · rw [peek, hr, transcript, Transcript.peek, hcells]
    rfl

/-- A byte that is shown is the first of the buffer. -/
theorem buffer_of_peek {b : UInt8} (h : s.peek.1 = .ok (some b)) : s.peek.2.buffer.head? = some b := by
  rw [peek] at h ⊢
  split at h
  · cases h
  · exact Except.ok.inj h

/-- Stepping over a byte that is there. -/
theorem advance_transcript (h : s.buffer ≠ []) : s.transcript.advance = s.advance.transcript := by
  cases hb : s.buffer with
  | nil => exact absurd hb h
  | cons b rest =>
    rw [transcript, Transcript.advance, cells_of_cons hb, advance, hb]
    rfl

/-- A run starts with the byte that stands first in the row. -/
theorem takeWhile_transcript {b : UInt8} {rest : Bytes} (h : s.buffer = b :: rest)
    (p : UInt8 → Bool) : Transcript.takeWhile p ⟨s.cells⟩ = Transcript.run p s.cells := by
  rw [Transcript.takeWhile, cells_of_cons h]

/-- A run in the row is taken whatever buffers it comes in. Once it has begun, a failure is not
reported. The run may go through any number of buffers. -/
theorem takeOn_transcript (p : UInt8 → Bool) (begun : Bool) (s : Reader) :
    (if begun then Transcript.run p s.cells else s.transcript.takeWhile p) =
      ⟨(takeOn p begun s).bytes, (takeOn p begun s).failure, (takeOn p begun s).source.transcript⟩ := by
  fun_induction takeOn p begun s with
  | case1 s reason t hr =>
    obtain ⟨_, hsame, -⟩ | ⟨_, _, hsame, hcells, hkeep⟩ := cells_replenish s
    · cases hr.symm.trans hsame
    · cases hr.symm.trans hsame
      rw [if_pos rfl, transcript, ← hkeep, hcells]
      rfl
  | case2 begun s reason t hr hbegun =>
    obtain ⟨_, hsame, -⟩ | ⟨_, _, hsame, hcells, -⟩ := cells_replenish s
    · cases hr.symm.trans hsame
    · cases hr.symm.trans hsame
      rw [if_neg hbegun, transcript, Transcript.takeWhile, hcells]
      rfl
  | case3 begun s t hr hb =>
    obtain ⟨_, hsame, hcells, hend⟩ | ⟨_, _, hsame, -⟩ := cells_replenish s
    · cases hr.symm.trans hsame
      rw [transcript, transcript, Transcript.takeWhile, hcells, hend hb]
      exact ite_self _
    · cases hr.symm.trans hsame
  -- the whole buffer belongs to the run, which goes on in the next one
  | case4 begun s t hr b rest hb run hdrop more ih =>
    obtain ⟨_, hsame, hcells, -⟩ | ⟨_, _, hsame, -⟩ := cells_replenish s
    · cases hr.symm.trans hsame
      have hrun : run = b :: rest := by
        rw [← List.takeWhile_append_dropWhile (p := p) (l := b :: rest), hdrop, List.append_nil]
      have hbuffer : t.buffer = run ++ [] := by
        rw [hb, hrun, List.append_nil]
      rw [if_pos rfl] at ih
      rw [transcript, hcells, takeWhile_transcript hb, ite_self, cells_of_buffer hbuffer,
        Transcript.run_append p (List.all_eq_true.1 List.all_takeWhile), ih]
    · cases hr.symm.trans hsame
  -- the run ends inside of the buffer
  | case5 begun s t hr b rest hb run unread =>
    obtain ⟨_, hsame, hcells, -⟩ | ⟨_, _, hsame, -⟩ := cells_replenish s
    · cases hr.symm.trans hsame
      obtain ⟨c, left, hleft⟩ := List.exists_cons_of_ne_nil unread
      have hc : ¬ p c = true := by
        have := List.head?_dropWhile_not p (b :: rest)
        rw [hleft] at this
        simpa using this
      have hbuffer : t.buffer = run ++ (b :: rest).dropWhile p := by
        rw [hb, List.takeWhile_append_dropWhile]
      rw [transcript, hcells, takeWhile_transcript hb, ite_self, cells_of_buffer hbuffer,
        Transcript.run_append p (List.all_eq_true.1 List.all_takeWhile), transcript, hleft,
        cells_of_cons rfl, Transcript.run, if_neg hc, List.append_nil]
    · cases hr.symm.trans hsame

end Reader

end JsonExtract
