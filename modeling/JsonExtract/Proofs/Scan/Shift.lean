import JsonExtract.Proofs.Scan.Cut

/-!
# Reading further down

Where any number of values is asked for, what is read behind a value is read as in front of all: the
tokens and the failure are the same, further down by the bytes and the lines in front. So a document
that is read to its end where one value is asked for, a line feed, and any other bytes are read as the
one and then the other.

* `Shift` — how far down, with what it does to everything that knows its place;
* `Lexer.read_shift`, `Lexer.feed_shift` — what is read further down;
* `Follows.several` — what is read where one value is asked for is read where several are;
* `Lexer.feed_behind_document` — a document, a line feed and any other bytes.
-/

namespace JsonExtract

/-! ## Shifts

A shift moves everything that knows a place: locations, failures, tokens, the token being read
and the state of the lexer. It also turns the phase in front of all values into the phase behind
one, which is the only way in which the state behind a value differs from the initial state,
when no container is open. -/

/-- How far down in a document another one starts, in a line of its own. -/
structure Shift where
  /-- number of bytes in front -/
  bytes : Nat
  /-- number of lines in front -/
  lines : Nat
  deriving DecidableEq, Repr

/-- The shift over a document and the line feed behind it. -/
def Shift.over (d : Bytes) : Shift :=
  ⟨d.length + 1, d.count Ascii.lineFeed + 1⟩

/-- The same place further down; columns stay. The line feed in front of the other document is
what makes columns start anew. -/
def Location.shift (s : Shift) (l : Location) : Location :=
  ⟨l.offset + s.bytes, l.line + s.lines, l.column⟩

/-- The same failure further down. -/
def Failure.shift (s : Shift) : Failure → Failure
  | malformed e => malformed { e with location := e.location.shift s }
  | tooDeep depth offset => tooDeep depth (offset + s.bytes)
  | unreadable offset reason => unreadable (offset + s.bytes) reason
  | badOptions fault => badOptions fault

/-- The same token further down. -/
def Lexed.shift (s : Shift) (l : Lexed) : Lexed :=
  { l with start := l.start + s.bytes, stop := l.stop + s.bytes }

def Lexeme.shift (s : Shift) (l : Lexeme) : Lexeme :=
  { l with start := l.start + s.bytes }

def Unfinished.shift (s : Shift) : Unfinished → Unfinished
  | gap => gap
  | space start lead seen more => space (start.shift s) lead seen more
  | string isName quotation lexeme => string isName quotation (lexeme.shift s)
  | number part lexeme => number part (lexeme.shift s)
  | word kind next more lexeme => word kind next more (lexeme.shift s)

/-- What is asked for behind a value where it was asked for in front of all. All other phases
occur inside of containers, or behind a value already. -/
def Phase.behind : Phase → Phase
  | start => done
  | other => other

/-- The same state further down, behind a value. -/
def Lexer.shift (s : Shift) (lexer : Lexer) : Lexer :=
  ⟨lexer.phase.behind, lexer.nesting, lexer.here.shift s⟩

def Verdict.shift (s : Shift) : Verdict → Verdict
  | more unfinished lexer => more (unfinished.shift s) (lexer.shift s)
  | token found lexer => token (found.shift s) (lexer.shift s)
  | tokenBefore found lexer => tokenBefore (found.shift s) (lexer.shift s)
  | error e => error (e.shift s)
  | errorBehind e => errorBehind (e.shift s)

/-- The same tokens and the same failure further down. -/
def Scanned.shift (s : Shift) (scanned : Scanned) : Scanned :=
  ⟨scanned.tokens.map (·.shift s), scanned.failure?.map (·.shift s)⟩

namespace Lexer

variable {options : Options} (s : Shift) (lexer : Lexer)

/-! ## Single bytes

Each of the lexer's functions commutes with the shift. Most of them never look at a place, and
so the proofs go by the structure of the function; the exception is the start of a value, where
the two phases have to be seen to do the same. -/

theorem shift_past (l : Location) (b : UInt8) : (l.past b).shift s = (l.shift s).past b := by
  rw [Location.past, Location.past]
  split <;> simp [Location.shift, Nat.add_right_comm]

theorem past_shift (b : UInt8) : (lexer.past b).shift s = (lexer.shift s).past b := by
  simp [shift, past, shift_past]

theorem fault_shift (f : SyntaxFault) : (lexer.fault f).shift s = (lexer.shift s).fault f := rfl

theorem afterValue_shift : lexer.afterValue.shift s = (lexer.shift s).afterValue := by
  simp only [afterValue, shift]
  cases lexer.nesting.innermost? with
  | none => rfl
  | some c => cases c <;> rfl

theorem openContainer_shift (c : Container) :
    (lexer.openContainer options c).shift s = (lexer.shift s).openContainer options c := by
  rw [openContainer.eq_def, openContainer.eq_def, ← past_shift,
    show (lexer.shift s).nesting = lexer.nesting from rfl]
  split
  · rfl
  · cases c <;> rfl

theorem closeContainer_shift (c : Container) :
    (lexer.closeContainer c).shift s = (lexer.shift s).closeContainer c := by
  rw [closeContainer, closeContainer, ← past_shift]
  simp only [Verdict.shift, afterValue_shift]
  rfl

theorem readValue_shift (b : UInt8) :
    (lexer.readValue options b).shift s = (lexer.shift s).readValue options b := by
  rw [readValue, readValue, ← openContainer_shift, ← openContainer_shift, ← past_shift]
  split
  · rfl
  · split
    · rfl
    · split
      · rfl
      · cases NumberPart.first? b with
        | some part => rfl
        | none =>
          cases word? b with
          | none => rfl
          | some found => rfl

theorem readName_shift (b : UInt8) :
    (lexer.readName b).shift s = (lexer.shift s).readName b := by
  rw [readName, readName, ← past_shift]
  split <;> rfl

variable (hm : options.multipleValues = true)

include hm

/-- Where several values are asked for, a value may start behind another one. In the phase `done`,
several values allowed, a byte is read as in the phase `start`. -/
theorem readStart_shift (b : UInt8) :
    (lexer.readStart options b).shift s = (lexer.shift s).readStart options b := by
  rw [readStart, readStart, show (lexer.shift s).phase = lexer.phase.behind from rfl]
  cases lexer.phase with
  | start | done =>
    simp only [Phase.behind, hm, if_true]
    exact readValue_shift s lexer b
  | beforeMember | beforeElement => exact readValue_shift s lexer b
  | beforeName => exact readName_shift s lexer b
  | arrayOpen =>
    simp only [Phase.behind]
    split
    · exact closeContainer_shift s lexer .array
    · exact readValue_shift s lexer b
  | objectOpen =>
    simp only [Phase.behind]
    split
    · exact closeContainer_shift s lexer .object
    · exact readName_shift s lexer b
  | afterName =>
    simp only [Phase.behind, separate, ← past_shift]
    split <;> rfl
  | afterMember =>
    simp only [Phase.behind, separate, ← past_shift, ← closeContainer_shift]
    repeat' split
    all_goals rfl
  | afterElement =>
    simp only [Phase.behind, separate, ← past_shift, ← closeContainer_shift]
    repeat' split
    all_goals rfl

theorem readGap_shift (b : UInt8) :
    (lexer.readGap options b).shift s = (lexer.shift s).readGap options b := by
  rw [readGap, readGap, ← past_shift]
  split
  · rfl
  · split
    · rfl
    · exact readStart_shift s lexer hm b

omit hm in
theorem readSpace_shift (start : Location) (lead : UInt8) (seen : Bytes) (more : Nat) (b : UInt8) :
    (lexer.readSpace start lead seen more b).shift s =
      (lexer.shift s).readSpace (start.shift s) lead seen more b := by
  rw [readSpace.eq_def, readSpace.eq_def, ← past_shift]
  split
  · cases more with
    | zero => dsimp only; split <;> rfl
    | succ more => rfl
  · rfl

omit hm in
theorem closeString_shift (isName : Bool) (lexeme : Lexeme) :
    (lexer.shift s).closeString isName (lexeme.shift s) =
      (((lexer.closeString isName lexeme).1).shift s, ((lexer.closeString isName lexeme).2).shift s) := by
  cases isName with
  | true => rfl
  | false =>
    rw [closeString, closeString, ← afterValue_shift]
    rfl

omit hm in
theorem readString_shift (isName : Bool) (q : Quotation) (lexeme : Lexeme) (b : UInt8) :
    (lexer.readString isName q lexeme b).shift s =
      (lexer.shift s).readString isName q (lexeme.shift s) b := by
  have hpush : (lexeme.shift s).push b = (lexeme.push b).shift s := rfl
  rw [readString, readString, ← past_shift, hpush]
  cases q.next b with
  | error fault => rfl
  | ok q? =>
    cases q? with
    | some q => rfl
    | none => simp only [closeString_shift, Verdict.shift]

omit hm in
theorem readNumber_shift (part : NumberPart) (lexeme : Lexeme) (b : UInt8) :
    (lexer.readNumber part lexeme b).shift s =
      (lexer.shift s).readNumber part (lexeme.shift s) b := by
  rw [readNumber, readNumber, ← past_shift, ← afterValue_shift]
  cases part.next? b with
  | some part => rfl
  | none => dsimp only; split <;> rfl

omit hm in
theorem readWord_shift (kind : Kind) (next : UInt8) (more : Bytes) (lexeme : Lexeme) (b : UInt8) :
    (lexer.readWord kind next more lexeme b).shift s =
      (lexer.shift s).readWord kind next more (lexeme.shift s) b := by
  rw [readWord.eq_def, readWord.eq_def, ← past_shift]
  split
  · cases more with
    | cons next more => rfl
    | nil => simp only [Verdict.shift, afterValue_shift]; rfl
  · rfl

/-- A byte is read further down as it is read in front of all. -/
theorem read_shift (unfinished : Unfinished) (b : UInt8) :
    (lexer.shift s).read options (unfinished.shift s) b =
      (lexer.read options unfinished b).shift s := by
  cases unfinished with
  | gap => exact (readGap_shift s lexer hm b).symm
  | space start lead seen more => exact (readSpace_shift s lexer start lead seen more b).symm
  | string isName q lexeme => exact (readString_shift s lexer isName q lexeme b).symm
  | number part lexeme => exact (readNumber_shift s lexer part lexeme b).symm
  | word kind next more lexeme => exact (readWord_shift s lexer kind next more lexeme b).symm

/-- So is the end of the input. -/
theorem finish_shift (unfinished : Unfinished) :
    (lexer.shift s).finish options (unfinished.shift s) =
      match lexer.finish options unfinished with
      | .error e => .error (e.shift s)
      | .ok none => .ok none
      | .ok (some (found, behind)) => .ok (some (found.shift s, behind.shift s)) := by
  cases unfinished with
  | gap =>
    rw [Unfinished.shift, finish, finish, show (lexer.shift s).phase = lexer.phase.behind from rfl]
    cases lexer.phase <;> simp [Phase.behind, hm, fault_shift]
  | space => rfl
  | string => rfl
  | word => rfl
  | number part lexeme =>
    rw [Unfinished.shift, finish, finish, ← afterValue_shift]
    split <;> rfl

/-! ## Whole documents

Feeding commutes with the shift by induction along `feed`, one case for each verdict. -/

/-- What is read further down is read as in front of all. -/
theorem feed_shift (unfinished : Unfinished) (bytes : Bytes) :
    (lexer.shift s).feed options (unfinished.shift s) bytes =
      (lexer.feed options unfinished bytes).shift s := by
  have hprepend : ∀ (found : Lexed) (scanned : Scanned),
      (scanned.prepend [found]).shift s = (scanned.shift s).prepend [found.shift s] :=
    fun _ _ => rfl
  fun_induction feed options lexer unfinished bytes with
  | case1 lexer unfinished e h =>
    refine feed_nil_error ?_
    rw [finish_shift s lexer hm, h]
  | case2 lexer unfinished h =>
    refine feed_nil_end ?_
    rw [finish_shift s lexer hm, h]
  | case3 lexer unfinished found behind h ih =>
    rw [hprepend, ← ih]
    refine feed_nil_token ?_
    rw [finish_shift s lexer hm, h]
  | case4 lexer unfinished b rest unfinished' behind h ih =>
    rw [← ih]
    refine feed_more ?_
    rw [read_shift s lexer hm, h]
    rfl
  | case5 lexer unfinished b rest found behind h ih =>
    rw [hprepend, ← ih]
    refine feed_token ?_
    rw [read_shift s lexer hm, h]
    rfl
  | case6 lexer unfinished b rest found behind h ih =>
    rw [hprepend, ← ih]
    refine feed_tokenBefore ?_
    rw [read_shift s lexer hm, h]
    rfl
  | case7 lexer unfinished b rest e h =>
    refine feed_error ?_
    rw [read_shift s lexer hm, h]
    rfl
  | case8 lexer unfinished b rest e h =>
    refine feed_errorBehind ?_
    rw [read_shift s lexer hm, h]
    rfl

end Lexer

/-! ## A document in front of others

Where one value is asked for, what is behind a value must be space. The same bytes are read the
same where several values are asked for, and the line feed behind the document leads to the
state that is the shift of the initial one. So the bytes behind the line feed are read as a
document of their own, further down. -/

section

variable {options : Options}

/-- A byte that can be read where one value is asked for is read the same where several are. -/
theorem Lexer.readStart_several {lexer : Lexer} {b : UInt8}
    (h : (lexer.readStart { options with multipleValues := false } b).next? ≠ none) :
    lexer.readStart { options with multipleValues := true } b =
      lexer.readStart { options with multipleValues := false } b := by
  rw [readStart] at h ⊢
  rw [readStart]
  cases hp : lexer.phase with
  | done =>
    rw [hp] at h
    exact absurd rfl h
  | _ => rfl

theorem Midway.read_several {m m' : Midway} {b : UInt8}
    (h : (m.read { options with multipleValues := false } b).next? = some m') :
    m.read { options with multipleValues := true } b =
      m.read { options with multipleValues := false } b := by
  obtain ⟨lexer, unfinished⟩ := m
  cases unfinished with
  | space | string | number | word => rfl
  | gap =>
    simp only [read, Lexer.read, Lexer.readGap] at h ⊢
    by_cases hspace : Ascii.isSpace b = true
    · rw [if_pos hspace, if_pos hspace]
    · rw [if_neg hspace] at h ⊢
      rw [if_neg hspace]
      cases hmissing : (if options.unicodeSpace = true then Space.missing? b else none) with
      | none =>
        rw [hmissing] at h
        exact Lexer.readStart_several (by rw [h]; exact Option.some_ne_none _)
      | some n =>
        rw [hmissing] at h
        cases n with
        | zero => exact Lexer.readStart_several (by rw [h]; exact Option.some_ne_none _)
        | succ n => rfl

/-- What is followed where one value is asked for is followed where several are. -/
theorem Follows.several {m m' : Midway} {xs : Bytes} {tokens : List Lexed}
    (h : Follows { options with multipleValues := false } m xs tokens m') :
    Follows { options with multipleValues := true } m xs tokens m' := by
  induction h with
  | nil => exact .nil
  | taken hn hb _ ih =>
    have hread := Midway.read_several hn
    rw [← hread] at hn hb ⊢
    exact .taken hn hb ih
  | @before m _ b _ found lexer _ hv _ ih =>
    have hn : (m.read { options with multipleValues := false } b).next? = some ⟨lexer, .gap⟩ := by
      rw [hv]
      rfl
    exact .before ((Midway.read_several hn).trans hv) ih

namespace Lexer

/-- A line feed starts a line. -/
theorem along_lineFeed (d : Bytes) :
    (Location.origin.along d).past Ascii.lineFeed = Location.origin.shift (.over d) := by
  rw [Location.past, if_pos rfl, Location.offset_along, Location.line_along]
  simp [Location.shift, Shift.over, Location.origin, Nat.add_assoc]

/-- Where a document may end outside of tokens, a line feed leads to where another one may start. -/
theorem feed_gap_lineFeed {lexer : Lexer} {d : Bytes}
    (hf : Midway.Fits { options with multipleValues := false } ⟨lexer, .gap⟩)
    (hhere : lexer.here = Location.origin.along d)
    (h : (lexer.feed { options with multipleValues := false } .gap []).failure? = none) (x : Bytes) :
    lexer.feed { options with multipleValues := true } .gap (Ascii.lineFeed :: x) =
      (initial.feed { options with multipleValues := true } .gap x).shift (.over d) := by
  have hdone : lexer.phase = .done := by
    by_contra hp
    have hfinish : lexer.finish { options with multipleValues := false } .gap =
        .error (lexer.fault .endOfInput) := by
      simp [finish, hp]
    rw [feed_nil_error hfinish] at h
    cases h
  have hnesting : lexer.nesting = .empty := by
    have hinnermost := hf.innermost
    rw [hdone] at hinnermost
    exact Nesting.ext (List.head?_eq_none_iff.1 hinnermost)
  have hread : lexer.read { options with multipleValues := true } .gap Ascii.lineFeed =
      .more .gap (lexer.past Ascii.lineFeed) := rfl
  have hpast : lexer.past Ascii.lineFeed = initial.shift (.over d) := by
    rw [past, hdone, hnesting, hhere, along_lineFeed]
    rfl
  rw [feed_more hread, hpast]
  exact feed_shift (.over d) initial rfl .gap x

/-- The same behind a number that may end, which is given out first. A number in front of the line
feed is complete, as the document could end there. -/
theorem feed_lineFeed {m : Midway} {d : Bytes}
    (hf : m.Fits { options with multipleValues := false })
    (hhere : m.lexer.here = Location.origin.along d)
    (h : (m.feed { options with multipleValues := false } []).failure? = none) (x : Bytes) :
    m.feed { options with multipleValues := true } (Ascii.lineFeed :: x) =
      ((initial.feed { options with multipleValues := true } .gap x).shift (.over d)).prepend
        (m.feed { options with multipleValues := false } []).tokens := by
  have hnothing : ∀ lexer : Lexer,
      (lexer.feed { options with multipleValues := false } .gap []).tokens = [] := by
    intro lexer
    obtain ⟨failure?, hfeed, -⟩ := Midway.ends_gap { options with multipleValues := false } lexer
    exact congrArg Scanned.tokens hfeed
  obtain ⟨lexer, unfinished⟩ := m
  rw [Midway.feed] at h
  rw [Midway.feed, Midway.feed]
  cases unfinished with
  | space | string | word =>
    rw [feed_nil_error rfl] at h
    cases h
  | gap =>
    rw [feed_gap_lineFeed hf hhere h, hnothing]
    rfl
  | number part lexeme =>
    by_cases hp : part.isComplete = true
    · have hfinish : lexer.finish { options with multipleValues := false } (.number part lexeme) =
          .ok (some (lexer.numberToken lexeme, lexer.afterValue)) := by
        rw [finish, if_pos hp]
      have hread : ∀ o : Options, lexer.read o (.number part lexeme) Ascii.lineFeed =
          .tokenBefore (lexer.numberToken lexeme) lexer.afterValue := by
        intro o
        have hnext : part.next? Ascii.lineFeed = none := by cases part <;> rfl
        rw [read, readNumber, hnext, if_pos hp]
      have hbehind : Midway.Fits { options with multipleValues := false }
          ⟨lexer.afterValue, .gap⟩ := by
        refine hf.next (b := Ascii.lineFeed) ?_
        rw [Midway.read, hread]
        rfl
      rw [feed_nil_token hfinish] at h ⊢
      rw [feed_tokenBefore (hread _), feed_gap_lineFeed hbehind hhere h, Scanned.tokens_prepend,
        hnothing, List.append_nil]
    · have hfinish : lexer.finish { options with multipleValues := false } (.number part lexeme) =
          .error (lexer.fault .endOfInput) := by
        rw [finish, if_neg hp]
      rw [feed_nil_error hfinish] at h
      cases h

/-- A document that is read to its end where one value is asked for, a line feed, and any other bytes
are read as the one and then, further down, the other. -/
theorem feed_behind_document {d : Bytes}
    (h : (initial.feed { options with multipleValues := false } .gap d).failure? = none)
    (x : Bytes) :
    initial.feed { options with multipleValues := true } .gap (d ++ Ascii.lineFeed :: x) =
      ((initial.feed { options with multipleValues := true } .gap x).shift (.over d)).prepend
        (initial.feed { options with multipleValues := false } .gap d).tokens := by
  have hall : (Midway.initial.feed { options with multipleValues := false } (d ++ [])).failure? =
      none := by
    rw [List.append_nil]
    exact h
  obtain ⟨tokens, m, hfollows⟩ := Follows.exists_of_feed hall
  have hsingle : initial.feed { options with multipleValues := false } .gap d =
      (m.feed { options with multipleValues := false } []).prepend tokens := by
    rw [← hfollows.feed, List.append_nil]
    rfl
  have hseveral : initial.feed { options with multipleValues := true } .gap
        (d ++ Ascii.lineFeed :: x) =
      (m.feed { options with multipleValues := true } (Ascii.lineFeed :: x)).prepend tokens :=
    hfollows.several.feed _
  rw [hsingle] at h
  rw [hseveral, feed_lineFeed (hfollows.fits (Midway.fits_initial _)) hfollows.here h, hsingle,
    Scanned.prepend_prepend]
  rfl

end Lexer

end

end JsonExtract
