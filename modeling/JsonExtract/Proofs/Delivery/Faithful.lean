import JsonExtract.Cursor.Buffer
import JsonExtract.Cursor.Reader
import JsonExtract.Cursor.Stepwise

/-!
# Cursors that hand out a document

A cursor is faithful to a document if it shows its bytes one after the other and then the end, and
never fails. Documents in memory are, sources that step byte by byte if they show the bytes, and
readers if their answers make up the document, in whatever pieces and with whatever interruptions.

* `Faithful` — cursors that do what a document in memory does;
* `Stepper.HandsOut`, `Script.Delivers` — sources and readers that are faithful to a document;
* `faithful_buffer`, `faithful_stepwise`, `faithful_reader` — the three kinds of cursor.
-/

namespace JsonExtract

/-- Whether cursors that have the bytes `d` in front of them, which `Holds s d` says, show and
step over these bytes as a document in memory does. The state of the cursor may change when it is
looked at, as a reader fills its buffer, and then has the same bytes in front of it. -/
structure Faithful {σ : Type} [Cursor σ] (Holds : σ → Bytes → Prop) : Prop where
  /-- the first byte is shown, and can be stepped over then -/
  peek : ∀ {s d}, Holds s d → ∃ t, Cursor.peek s = (.ok d.head?, t) ∧ Holds t d ∧
    ∀ b rest, d = b :: rest → Holds (Cursor.advance t) rest
  /-- runs are taken as a whole -/
  takeWhile : ∀ {s d} p, Holds s d →
    ∃ t, Cursor.takeWhile p s = ⟨d.takeWhile p, none, t⟩ ∧ Holds t (d.dropWhile p)

/-! ## Documents in memory

The first kind of cursor has nothing to hide: its bytes are all there. -/

/-- A document in memory has its bytes in front of it. -/
def Buffer.Holds (s : Buffer) (d : Bytes) : Prop :=
  s.rest = d

theorem faithful_buffer : Faithful Buffer.Holds where
  peek := by
    rintro s d rfl
    refine ⟨s, rfl, rfl, ?_⟩
    intro b rest h
    change s.rest.tail = rest
    rw [h, List.tail_cons]
  takeWhile := by
    rintro s d p rfl
    exact ⟨⟨s.rest.dropWhile p⟩, rfl, rfl⟩

/-! ## Sources that step byte by byte

Such a source takes a run by looking at each byte and stepping over it. That ends in the same
place as taking the run of a document in memory, if each look shows the next byte. -/

section Stepwise

variable {σ : Type} [Stepper σ]

/-- Whether a source shows the bytes `d` one after the other, and then the end, each as often as
it is looked at. To be looked at changes the source perhaps, but not what it shows. -/
def Stepper.HandsOut (s : σ) (d : Bytes) : Prop :=
  ∃ Holds : σ → Bytes → Prop,
    (∀ s d, Holds s d → ∃ t, Stepper.peek s = (.ok d.head?, t) ∧ Holds t d ∧
      ∀ b rest, d = b :: rest → Holds (Stepper.advance t) rest) ∧
    Holds s d

/-- What is left behind looking, and behind stepping. -/
theorem Stepper.HandsOut.peek {s : σ} {d : Bytes} (h : Stepper.HandsOut s d) :
    ∃ t, Stepper.peek s = (.ok d.head?, t) ∧ Stepper.HandsOut t d ∧
      ∀ b rest, d = b :: rest → Stepper.HandsOut (Stepper.advance t) rest := by
  obtain ⟨Holds, step, h⟩ := h
  obtain ⟨t, hpeek, ht, hadvance⟩ := step s d h
  exact ⟨t, hpeek, ⟨Holds, step, ht⟩, fun b rest hd => ⟨Holds, step, hadvance b rest hd⟩⟩

/-- Stepping over a run byte by byte takes the whole run. -/
theorem Stepwise.takeWhile_of_handsOut {d : Bytes} (p : UInt8 → Bool) {s : σ}
    (h : Stepper.HandsOut s d) :
    ∃ t, Stepwise.takeWhile p ⟨s⟩ = ⟨d.takeWhile p, none, ⟨t⟩⟩ ∧
      Stepper.HandsOut t (d.dropWhile p) := by
  induction d generalizing s with
  | nil =>
    obtain ⟨t, hpeek, ht, -⟩ := h.peek
    exact ⟨t, Stepwise.takeWhile_end hpeek, ht⟩
  | cons b d ih =>
    obtain ⟨t, hpeek, ht, hadvance⟩ := h.peek
    cases hb : p b with
    | true =>
      obtain ⟨u, htake, hu⟩ := ih (hadvance b d rfl)
      rw [List.takeWhile_cons_of_pos hb, List.dropWhile_cons_of_pos hb]
      refine ⟨u, ?_, hu⟩
      rw [Stepwise.takeWhile_byte hpeek, if_pos hb, htake]
    | false =>
      have hneg : ¬ p b = true := by
        rw [hb]
        decide
      rw [List.takeWhile_cons_of_neg hneg, List.dropWhile_cons_of_neg hneg]
      refine ⟨t, ?_, ht⟩
      rw [Stepwise.takeWhile_byte hpeek, if_neg hneg]

theorem faithful_stepwise :
    Faithful fun (s : Stepwise σ) d => Stepper.HandsOut s.source d where
  peek := by
    intro s d h
    obtain ⟨t, hpeek, ht, hadvance⟩ := h.peek
    refine ⟨⟨t⟩, ?_, ht, hadvance⟩
    change ((Stepper.peek s.source).1, (⟨(Stepper.peek s.source).2⟩ : Stepwise σ)) = _
    rw [hpeek]
  takeWhile := by
    intro s d p h
    obtain ⟨t, htake, ht⟩ := Stepwise.takeWhile_of_handsOut p h
    exact ⟨⟨t⟩, htake, ht⟩

end Stepwise

/-! ## Readers

A reader has bytes in a buffer, and its script has more of them. Which of the bytes are where
changes with every read, and the two parts together are what the reader has in front of it. An
operation that finds the buffer empty reads until it has a byte or the end. -/

/-- Whether the answers of a reader make up the bytes `d`. They may come in any pieces,
interrupted any number of times, and what would come behind the end does not matter. Each piece
has at least one byte, as a read of no bytes is the end of the input. -/
inductive Script.Delivers : Script → Bytes → Prop
  | nil : Delivers [] []
  | finish (rest : Script) : Delivers (.finish :: rest) []
  | data {piece : Bytes} {rest : Script} {d : Bytes} (h : piece ≠ []) :
    Delivers rest d → Delivers (.data piece :: rest) (piece ++ d)
  | interrupted {fault : Fault} {rest : Script} {d : Bytes} (h : fault.kind = .interrupted) :
    Delivers rest d → Delivers (.fail fault :: rest) d

/-- Pieces make up what they are pieces of. -/
theorem Script.delivers_ofPieces (pieces : List Bytes) :
    Script.Delivers (Script.ofPieces pieces) pieces.flatten := by
  induction pieces with
  | nil => exact .nil
  | cons piece pieces ih =>
    cases piece with
    | nil => exact ih
    | cons b piece => exact .data (List.cons_ne_nil b piece) ih

namespace Script.Delivers

variable {script rest : Script} {d : Bytes} {size : Nat} (h : Script.Delivers script d)
  (hsize : 0 < size)

include h hsize

/-- A read answers the next bytes, and none only at the end. -/
theorem of_read_ok {bytes : Bytes} (hread : script.read size = (.ok bytes, rest)) :
    bytes = [] ∧ d = [] ∨
      bytes ≠ [] ∧ ∃ more, d = bytes ++ more ∧ Script.Delivers rest more := by
  cases h with
  | nil =>
    cases hread
    exact .inl ⟨rfl, rfl⟩
  | finish =>
    cases hread
    exact .inl ⟨rfl, rfl⟩
  | @data piece script more hpiece hrest =>
    cases hread
    have htake : piece.take size ≠ [] := by
      rw [Ne, List.take_eq_nil_iff]
      rintro (h | h)
      · omega
      · exact hpiece h
    refine .inr ⟨htake, piece.drop size ++ more, ?_, ?_⟩
    · rw [← List.append_assoc, List.take_append_drop]
    -- a piece that is too long for one read stays in front of the others
    · split
      · next hd =>
        rw [List.isEmpty_iff.1 hd, List.nil_append]
        exact hrest
      · next hd => exact .data (fun h => hd (List.isEmpty_iff.2 h)) hrest
  | interrupted => cases hread

omit hsize in
/-- A read fails only if it was interrupted. -/
theorem of_read_error {fault : Fault} (hread : script.read size = (.error fault, rest)) :
    fault.kind = .interrupted ∧ Script.Delivers rest d := by
  cases h with
  | nil => cases hread
  | finish => cases hread
  | data => cases hread
  | interrupted hkind hrest =>
    cases hread
    exact ⟨hkind, hrest⟩

end Script.Delivers

namespace Reader

/-- Whether the bytes `d` are those in the buffer and those that the reader will still deliver. -/
def Holds (s : Reader) (d : Bytes) : Prop :=
  s.deferred = none ∧
    ∃ more, d = s.buffer ++ more ∧ if s.ended then more = [] else Script.Delivers s.script more

/-- Fetching leaves the buffer empty only if nothing is left to deliver. -/
theorem fetch_of_delivers {d : Bytes} {s : Reader} (hd : s.deferred = none)
    (h : Script.Delivers s.script d) :
    ∃ t, s.fetch = (.ok (), t) ∧ t.Holds d ∧ (t.buffer = [] → d = []) := by
  fun_induction fetch s with
  | case1 s bytes rest hread =>
    refine ⟨_, rfl, ?_⟩
    rcases h.of_read_ok s.size_pos hread with ⟨rfl, rfl⟩ | ⟨hne, more, rfl, hrest⟩
    · exact ⟨⟨hd, [], rfl, rfl⟩, fun _ => rfl⟩
    · refine ⟨⟨hd, more, rfl, ?_⟩, fun hnil => absurd hnil hne⟩
      rw [if_neg (by simpa using hne)]
      exact hrest
  | case2 s fault rest hread t hkind ih => exact ih hd (h.of_read_error hread).2
  | case3 s fault rest hread t hkind => exact absurd (h.of_read_error hread).1 hkind

/-- Afterwards the buffer is empty only if nothing is left to deliver. -/
theorem replenish_of_holds {d : Bytes} {s : Reader} (h : s.Holds d) :
    ∃ t, s.replenish = (.ok (), t) ∧ t.Holds d ∧ (t.buffer = [] → d = []) := by
  obtain ⟨hd, more, rfl, hmore⟩ := h
  rw [replenish]
  split
  · next hb =>
    refine ⟨s, rfl, ⟨hd, more, rfl, hmore⟩, ?_⟩
    intro hnil
    rw [hnil] at hb
    cases hb
  · next hreason => rw [hd] at hreason; cases hreason
  · next hb _ =>
    rw [hb, List.nil_append]
    split at hmore
    · next hended =>
      rw [if_pos hended]
      refine ⟨s, rfl, ⟨hd, more, by rw [hb]; rfl, ?_⟩, fun _ => hmore⟩
      rw [if_pos hended]
      exact hmore
    · next hended =>
      rw [if_neg hended]
      exact fetch_of_delivers hd hmore

/-- The first byte is the first of the buffer then. -/
theorem peek_of_holds {d : Bytes} {s : Reader} (h : s.Holds d) :
    ∃ t, s.peek = (.ok d.head?, t) ∧ t.Holds d ∧
      ∀ b rest, d = b :: rest → t.advance.Holds rest := by
  obtain ⟨t, hreplenish, ht, hempty⟩ := replenish_of_holds h
  have hpeek : s.peek = (.ok t.buffer.head?, t) := by
    rw [peek, hreplenish]
  obtain ⟨hd, more, rfl, hmore⟩ := ht
  cases hb : t.buffer with
  | nil =>
    have hnil := hempty hb
    rw [hb] at hpeek hnil
    rw [hnil]
    refine ⟨t, hpeek, ⟨hd, more, by rw [hb, hnil], hmore⟩, fun b rest h => by cases h⟩
  | cons c cs =>
    rw [hb] at hpeek
    refine ⟨t, hpeek, ⟨hd, more, by rw [hb], hmore⟩, fun b rest h => ⟨hd, more, ?_, hmore⟩⟩
    obtain ⟨-, rfl⟩ := List.cons.inj h
    rw [advance, hb]
    rfl

/-- Nothing is left behind a run if all bytes belong to it. -/
theorem all_of_dropWhile_eq_nil {p : UInt8 → Bool} {xs : Bytes} (h : xs.dropWhile p = []) :
    ∀ b ∈ xs, p b = true := by
  have hsplit := List.takeWhile_append_dropWhile (p := p) (l := xs)
  rw [h, List.append_nil] at hsplit
  have hall := List.all_eq_true.1 (List.all_takeWhile (p := p) (l := xs))
  rwa [hsplit] at hall

/-- A run is taken as a whole, whatever buffers it comes in. The induction is on what is left to
deliver, as each buffer takes some of it. -/
theorem takeOn_of_holds {d : Bytes} {p : UInt8 → Bool} {begun : Bool} {s : Reader}
    (h : s.Holds d) :
    ∃ t, takeOn p begun s = ⟨d.takeWhile p, none, t⟩ ∧ t.Holds (d.dropWhile p) := by
  fun_induction takeOn p begun s generalizing d with
  | case1 s reason t hreplenish =>
    obtain ⟨u, hsame, -⟩ := replenish_of_holds h
    rw [hreplenish] at hsame
    cases hsame
  | case2 begun s reason t hreplenish _ =>
    obtain ⟨u, hsame, -⟩ := replenish_of_holds h
    rw [hreplenish] at hsame
    cases hsame
  | case3 begun s t hreplenish hb =>
    obtain ⟨u, hsame, ht, hempty⟩ := replenish_of_holds h
    rw [hreplenish] at hsame
    cases hsame
    obtain rfl := hempty hb
    exact ⟨t, rfl, ht⟩
  -- the whole buffer belongs to the run, which goes on in the next one
  | case4 begun s t hreplenish b rest hb run hdrop more =>
    rename_i ih
    obtain ⟨u, hsame, ⟨hd, later, rfl, hlater⟩, -⟩ := replenish_of_holds h
    rw [hreplenish] at hsame
    cases hsame
    obtain ⟨u, hmore, hu⟩ := ih (d := later) ⟨hd, later, rfl, hlater⟩
    have hall := all_of_dropWhile_eq_nil hdrop
    have hrun : run = b :: rest := by
      have := List.takeWhile_append_dropWhile (p := p) (l := b :: rest)
      rwa [hdrop, List.append_nil] at this
    rw [hb, List.takeWhile_append_of_pos hall, List.dropWhile_append_of_pos hall]
    refine ⟨u, ?_, hu⟩
    simp only [more, hmore, hrun]
  -- the run ends inside of the buffer
  | case5 begun s t hreplenish b rest hb run =>
    rename_i hdrop
    obtain ⟨u, hsame, ⟨hd, later, rfl, hlater⟩, -⟩ := replenish_of_holds h
    rw [hreplenish] at hsame
    cases hsame
    have hne : ¬ ((b :: rest).takeWhile p).length = (b :: rest).length := by
      have := congrArg List.length (List.takeWhile_append_dropWhile (p := p) (l := b :: rest))
      rw [List.length_append] at this
      have := List.length_pos_iff.2 (fun h => hdrop h)
      omega
    rw [hb, List.takeWhile_append, if_neg hne, List.dropWhile_append, if_neg (by simpa using hdrop)]
    exact ⟨_, rfl, hd, later, rfl, hlater⟩

theorem holds_ofScript {script : Script} {d : Bytes} (h : Script.Delivers script d) (size : Nat) :
    (Reader.ofScript script size).Holds d :=
  ⟨rfl, d, rfl, h⟩

end Reader

theorem faithful_reader : Faithful Reader.Holds where
  peek := Reader.peek_of_holds
  takeWhile _ h := Reader.takeOn_of_holds h

end JsonExtract
