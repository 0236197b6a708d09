import JsonExtract.Proofs.Delivery.Transcript

/-!
# Any requests to a reader

A client of a cursor may mix looking, stepping and taking runs in any order, as long as it steps only over
a byte that it was shown just before. To all of its requests a buffered reader gives the answers of the
ideal cursor over the transcript of its script, and it reads only when it has nothing else to give out.

* `Request`, `Answer`, `Request.putAll` — what is asked of a cursor, and what it answers;
* `Request.Orderly` — steps go over bytes that were shown;
* `Answer.handed`, `Answer.allHanded` — the bytes and failures that the client got hold of;
* `Reader.put_transcript` — one request;
* `Reader.putAll_eq_transcript` — any number of requests.
-/

namespace JsonExtract

/-- What may be asked of a cursor. These are the operations of a cursor as data, so that a row of
them can be put to two cursors. -/
inductive Request
  /-- to look at the next byte -/
  | peek
  /-- to step over the byte that was shown -/
  | advance
  /-- to step over bytes that satisfy a predicate -/
  | takeWhile (p : UInt8 → Bool)

/-- What a cursor answers. -/
inductive Answer
  /-- the next byte, the end of the input, or why the next byte cannot be fetched -/
  | shown (answer : Except String (Option UInt8))
  /-- nothing but that a byte was stepped over -/
  | stepped
  /-- the bytes of a run, and the failure that ended it, if it is reported -/
  | took (bytes : Bytes) (failure : Option String)

namespace Answer

/-- The byte that an answer shows. -/
def byte? : Answer → Option UInt8
  | shown (.ok b?) => b?
  | _ => none

/-- What an answer hands over, if `last` is the byte that the answer before it showed: the failure that it
reports and the bytes that are stepped over. -/
def handed (last : Option UInt8) : Answer → List Cell
  | shown (.ok _) => []
  | shown (.error reason) => [.failure reason]
  | stepped => last.toList.map .byte
  | took bytes failure => bytes.map .byte ++ failure.toList.map .failure

/-- What a row of answers hands over. A byte is handed over when it is stepped over, so each
answer has to be read together with the one before it. -/
def allHanded : Option UInt8 → List Answer → List Cell
  | _, [] => []
  | last, a :: rest => a.handed last ++ allHanded a.byte? rest

end Answer

namespace Request

variable {σ : Type} [Cursor σ]

/-- The answer to a request, and the cursor behind it. -/
def put (source : σ) : Request → Answer × σ
  | peek => (.shown (Cursor.peek source).1, (Cursor.peek source).2)
  | advance => (.stepped, Cursor.advance source)
  | takeWhile p =>
    let taken := Cursor.takeWhile p source
    (.took taken.bytes taken.failure, taken.source)

/-- The answers to a row of requests, and the cursor behind the last one. -/
def putAll : List Request → σ → List Answer × σ
  | [], source => ([], source)
  | r :: rest, source =>
    let (answer, behind) := r.put source
    let more := putAll rest behind
    (answer :: more.1, more.2)

/-- Whether a row of requests steps only over bytes that were shown just before, if `last` is the
byte shown by the answer in front of the row. This is how a lexer uses its cursor: it steps over a
byte only once it has looked at it. -/
def Orderly : Option UInt8 → List Request → σ → Prop
  | _, [], _ => True
  | last, r :: rest, source =>
    (r = .advance → last.isSome) ∧ Orderly (r.put source).1.byte? rest (r.put source).2

end Request

namespace Reader

/-- A request is answered as by the ideal cursor. -/
theorem put_transcript (r : Request) (s : Reader) {last : Option UInt8}
    (hr : r = .advance → last.isSome) (hlast : ∀ b, last = some b → s.buffer.head? = some b) :
    r.put s.transcript = ((r.put s).1, (r.put s).2.transcript) ∧
      Acts s ((r.put s).1.handed last) (r.put s).2 ∧
      ∀ b, (r.put s).1.byte? = some b → (r.put s).2.buffer.head? = some b := by
  cases r with
  | peek =>
    have hpeek := s.peek_transcript
    refine ⟨?_, ?_, ?_⟩
    · change (Answer.shown s.transcript.peek.1, s.transcript.peek.2) = _
      rw [hpeek]
      rfl
    · have hacts := s.acts_peek
      change Acts s ((Answer.shown s.peek.1).handed last) s.peek.2
      rcases hanswer : s.peek.1 with reason | b?
      · rw [hanswer] at hacts
        exact hacts
      · rw [hanswer] at hacts
        exact hacts
    · intro b hb
      refine buffer_of_peek ?_
      change (Answer.shown s.peek.1).byte? = some b at hb
      rcases hanswer : s.peek.1 with reason | b?
      · rw [hanswer] at hb
        cases hb
      · rw [hanswer] at hb
        exact congrArg Except.ok hb
  | advance =>
    obtain ⟨b, rfl⟩ := Option.isSome_iff_exists.1 (hr rfl)
    obtain ⟨rest, hbuffer⟩ := List.head?_eq_some_iff.1 (hlast b rfl)
    refine ⟨?_, ?_, fun c hc => by cases hc⟩
    · have hsome : s.buffer ≠ [] := by
        rw [hbuffer]
        exact List.cons_ne_nil b rest
      exact congrArg (Prod.mk Answer.stepped) (advance_transcript hsome)
    · have hstep := Acts.single (.step hbuffer)
      change Acts s [.byte b] { s with buffer := s.buffer.tail }
      rw [hbuffer]
      exact hstep
  | takeWhile p =>
    refine ⟨?_, s.acts_takeOn p false, fun b hb => by cases hb⟩
    have htake := s.takeOn_transcript p false
    change (Answer.took (s.transcript.takeWhile p).bytes (s.transcript.takeWhile p).failure,
      (s.transcript.takeWhile p).source) = _
    rw [show s.transcript.takeWhile p = _ from htake]
    rfl

/-- Any number of requests is answered as by the ideal cursor. -/
theorem putAll_transcript (requests : List Request) (s : Reader) {last : Option UInt8}
    (h : Request.Orderly last requests s) (hlast : ∀ b, last = some b → s.buffer.head? = some b) :
    (Request.putAll requests s).1 = (Request.putAll requests s.transcript).1 ∧
      Acts s (Answer.allHanded last (Request.putAll requests s).1) (Request.putAll requests s).2 := by
  induction requests generalizing s last with
  | nil => exact ⟨rfl, .refl s⟩
  | cons r rest ih =>
    obtain ⟨hr, hrest⟩ := h
    obtain ⟨hanswer, hacts, hshown⟩ := put_transcript r s hr hlast
    obtain ⟨hmore, hlater⟩ := ih (r.put s).2 hrest hshown
    refine ⟨?_, hacts.trans hlater⟩
    simp only [Request.putAll, hanswer, hmore]

/-- To any requests that step only over bytes that were shown just before, a buffered reader gives the
same answers as the ideal cursor over the transcript of its script: the bytes in their order, every
failure but an interruption once and in its place, and nothing but the end behind the first end of input.
What it hands over and what it has still to give out is the transcript. On the way it makes a read only
while no byte is buffered, no failure is kept and the end of the input has not been met. -/
theorem putAll_eq_transcript (script : Script) (size : Nat) (requests : List Request)
    (h : Request.Orderly none requests (ofScript script size)) :
    let exchange := Request.putAll requests (ofScript script size)
    exchange.1 = (Request.putAll requests (Transcript.mk script.cells)).1 ∧
      script.cells = Answer.allHanded none exchange.1 ++ exchange.2.cells ∧
      Acts (ofScript script size) (Answer.allHanded none exchange.1) exchange.2 := by
  obtain ⟨hanswers, hacts⟩ := putAll_transcript requests (ofScript script size) h fun b hb => by cases hb
  exact ⟨hanswers, hacts.cells_eq, hacts⟩

/-- A run that meets a failure in one read after another, and goes on behind it. -/
theorem putAll_digits :
    let script : Script :=
      [.data (Bytes.ofString "12"), .fail ⟨.interrupted, none⟩, .fail ⟨.other, some "gone"⟩,
        .data (Bytes.ofString "3"), .finish, .data (Bytes.ofString "4")]
    let requests : List Request := [.takeWhile Ascii.isDigit, .peek, .peek, .advance, .peek, .peek]
    Request.Orderly none requests (ofScript script 1) ∧
      (Request.putAll requests (ofScript script 1)).1 =
        [.took (Bytes.ofString "12") none, .shown (.error "gone"), .shown (.ok (some 0x33)), .stepped,
          .shown (.ok none), .shown (.ok none)] := by
  intro script requests
  have horderly : Request.Orderly none requests (ofScript script 1) :=
    ⟨nofun, nofun, nofun, fun _ => by decide +kernel, nofun, nofun, trivial⟩
  obtain ⟨hanswers, -⟩ := putAll_eq_transcript script 1 requests horderly
  exact ⟨horderly, hanswers⟩

end Reader

end JsonExtract
