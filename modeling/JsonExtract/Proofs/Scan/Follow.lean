import JsonExtract.Proofs.Scan.Step

/-!
# Following the lexer down a document

Reading some bytes gives tokens and leads to a state, whatever comes behind the bytes. A document is
followed in this way to its end, or to the byte at which it is at fault. The tokens on the way stand
in the order of the document, and none is empty.

* `Follows` — from one state to another, over some bytes and tokens;
* `Midway.Stops` — a byte at which reading ends, and what is still given out there;
* `Midway.follows_or_stops` — a document is followed to its end or to such a byte;
* `Lexed.Row` — tokens in the order of the document.
-/

namespace JsonExtract

namespace Midway

/-- What the lexer makes of a byte. -/
def read (options : Options) (m : Midway) (b : UInt8) : Verdict :=
  m.lexer.read options m.unfinished b

/-- What reading gives from here on. -/
def feed (options : Options) (m : Midway) (bytes : Bytes) : Scanned :=
  m.lexer.feed options m.unfinished bytes

/-- The containers that are open. -/
def containers (m : Midway) : List Container :=
  m.lexer.nesting.containers

variable {options : Options} {m m' : Midway} {b : UInt8} {found : Lexed} {e : Failure}

theorem reads_read (options : Options) (m : Midway) (b : UInt8) :
    m.lexer.Reads options b m.unfinished (m.read options b) :=
  Lexer.reads_read options m.lexer b m.unfinished

/-- A byte leads from fitting states to fitting states. -/
theorem Fits.next (hf : m.Fits options) (hn : (m.read options b).next? = some m') :
    m'.Fits options :=
  Lexer.fits_of_reads hf (reads_read options m b) hn

/-- A byte that is taken stands in front of the next one. -/
theorem here_next (hn : (m.read options b).next? = some m')
    (hb : (m.read options b).isBefore = false) : m'.lexer.here = m.lexer.here.past b := by
  rw [Lexer.here_of_reads (reads_read options m b) hn, hb]
  rfl

theorem offset_next (hn : (m.read options b).next? = some m')
    (hb : (m.read options b).isBefore = false) :
    m'.lexer.here.offset = m.lexer.here.offset + 1 := by
  rw [here_next hn hb, Location.offset_past]

/-- A byte that is taken leads on to what is behind it. -/
theorem feed_of_next (h : (m.read options b).next? = some m')
    (hb : (m.read options b).isBefore = false) (rest : Bytes) :
    m.feed options (b :: rest) =
      (m'.feed options rest).prepend (m.read options b).token?.toList := by
  cases hv : m.read options b with
  | more unfinished lexer =>
    rw [hv] at h
    cases h
    exact Lexer.feed_more hv
  | token found lexer =>
    rw [hv] at h
    cases h
    exact Lexer.feed_token hv
  | tokenBefore => rw [hv] at hb; cases hb
  | error | errorBehind => rw [hv] at h; cases h

/-- A token that ends in front of a byte leaves the byte to what is behind. -/
theorem feed_of_tokenBefore {lexer : Lexer} (h : m.read options b = .tokenBefore found lexer)
    (rest : Bytes) :
    m.feed options (b :: rest) = ((mk lexer .gap).feed options (b :: rest)).prepend [found] :=
  Lexer.feed_tokenBefore h

end Midway

/-! ## Following

`feed` says what a whole input gives. For statements about a place in the middle of a document
one needs to know what its first bytes do, no matter what comes behind them, and that is what
`Follows` says. It is a chain of single steps, so everything that a step keeps is kept by it. -/

/-- Reading `bytes` leads from one state to another and gives `tokens`, whatever comes behind.
Where a token ends in front of a byte, the step gives the token and keeps the byte for the next
step. -/
inductive Follows (options : Options) : Midway → Bytes → List Lexed → Midway → Prop
  | nil {m : Midway} : Follows options m [] [] m
  | taken {m m' m'' : Midway} {b : UInt8} {bytes : Bytes} {tokens : List Lexed}
    (hn : (m.read options b).next? = some m') (hb : (m.read options b).isBefore = false) :
    Follows options m' bytes tokens m'' →
      Follows options m (b :: bytes) ((m.read options b).token?.toList ++ tokens) m''
  /-- a token ends in front of the first byte -/
  | before {m m' : Midway} {b : UInt8} {bytes : Bytes} {found : Lexed} {lexer : Lexer}
    {tokens : List Lexed} (hv : m.read options b = .tokenBefore found lexer) :
    Follows options ⟨lexer, .gap⟩ (b :: bytes) tokens m' →
      Follows options m (b :: bytes) (found :: tokens) m'

namespace Follows

variable {options : Options} {m m' m'' : Midway} {xs ys : Bytes} {tokens tokens' : List Lexed}

/-- A byte that is taken. -/
theorem byte {b : UInt8} (m' : Midway) (hn : (m.read options b).next? = some m')
    (hb : (m.read options b).isBefore = false) :
    Follows options m [b] ((m.read options b).token?.toList ++ []) m' :=
  .taken hn hb .nil

theorem trans (h : Follows options m xs tokens m') (h' : Follows options m' ys tokens' m'') :
    Follows options m (xs ++ ys) (tokens ++ tokens') m'' := by
  induction h with
  | nil => exact h'
  | taken hn hb _ ih =>
    rw [List.append_assoc]
    exact .taken hn hb (ih h')
  | before hv _ ih => exact .before hv (ih h')

/-- What is followed is read. -/
theorem feed (h : Follows options m xs tokens m') (rest : Bytes) :
    m.feed options (xs ++ rest) = (m'.feed options rest).prepend tokens := by
  induction h with
  | nil => rfl
  | taken hn hb _ ih =>
    rw [List.cons_append, Midway.feed_of_next hn hb, ih, Scanned.prepend_prepend]
  | before hv _ ih =>
    rw [List.cons_append, Midway.feed_of_tokenBefore hv, ← List.cons_append, ih,
      Scanned.prepend_prepend]
    rfl

theorem fits (h : Follows options m xs tokens m') (hf : m.Fits options) : m'.Fits options := by
  induction h with
  | nil => exact hf
  | taken hn _ _ ih => exact ih (hf.next hn)
  | before hv _ ih => exact ih (hf.next (by rw [hv]; rfl))

/-- The place moves on by the bytes. -/
theorem here (h : Follows options m xs tokens m') :
    m'.lexer.here = m.lexer.here.along xs := by
  induction h with
  | nil => rfl
  | taken hn hb _ ih => rw [ih, Midway.here_next hn hb, Location.along_cons]
  | @before m _ b _ _ _ _ hv _ ih =>
    rw [ih, Lexer.here_of_reads (Midway.reads_read options m b) (m := ⟨_, .gap⟩) (by rw [hv]; rfl), hv]
    rfl

end Follows

/-! ## The order of tokens

A token starts where the lexer noted that it starts, and ends where the lexer stands when it is
complete. So the places of the tokens can be compared with the places of the states between
which they were read. -/

/-- The tokens stand one behind the other between two places, and none of them is empty. Space may
stand in front of each of them, and behind the last. -/
def Lexed.Row (first : Nat) : List Lexed → Nat → Prop
  | [], last => first ≤ last
  | token :: tokens, last =>
    first ≤ token.start ∧ token.start < token.stop ∧ Row token.stop tokens last

namespace Lexed

variable {first middle last : Nat} {tokens tokens' : List Lexed}

theorem Row.le (h : Row first tokens last) : first ≤ last := by
  induction tokens generalizing first with
  | nil => exact h
  | cons token tokens ih => exact Nat.le_trans (Nat.le_of_lt (Nat.lt_of_le_of_lt h.1 h.2.1)) (ih h.2.2)

theorem Row.of_le {first' : Nat} (h : Row first tokens last) (hle : first' ≤ first) :
    Row first' tokens last := by
  cases tokens with
  | nil => exact Nat.le_trans hle h
  | cons token tokens => exact ⟨Nat.le_trans hle h.1, h.2⟩

theorem Row.append (h : Row first tokens middle) (h' : Row middle tokens' last) :
    Row first (tokens ++ tokens') last := by
  induction tokens generalizing first with
  | nil => exact h'.of_le h
  | cons token tokens ih => exact ⟨h.1, h.2.1, ih h.2.2⟩

end Lexed

namespace Lexer

variable {options : Options} {lexer : Lexer} {unfinished : Unfinished} {b : UInt8} {v : Verdict}
  {m : Midway}

/-- A token that a byte completes stands between what was read before and what is read next. -/
theorem row_of_reads (hf : Midway.Fits options ⟨lexer, unfinished⟩)
    (h : Reads options lexer b unfinished v) (hn : v.next? = some m) :
    Lexed.Row (unfinished.start lexer.here.offset) v.token?.toList m.start := by
  have hpast : (lexer.past b).here.offset = lexer.here.offset + 1 := Location.offset_past _ _
  have hfirst : lexer.here.offset < (lexer.past b).here.offset := hpast ▸ Nat.lt_succ_self _
  have hle : unfinished.start lexer.here.offset ≤ lexer.here.offset := Midway.start_le hf
  have hlater := Nat.lt_of_le_of_lt hle hfirst
  cases h
  case tooDeep | fault | spaceFault | spaceFaultBehind => cases hn
  all_goals cases hn
  -- nothing is complete: what is read goes on, or starts in front of the byte or behind it
  case lead | name | spaceMore | string | number | word => exact Nat.le_refl _
  case scalar hu => cases hu <;> exact Nat.le_refl _
  case blank | separator | spaceEnd => exact Nat.le_of_lt hlater
  -- a token is complete: it started where what is read started
  case opening hb _ _ | closing hb _ =>
    subst hb
    exact ⟨Nat.le_refl _, hfirst, Nat.le_refl _⟩
  case stringEnd isName _ _ => cases isName <;> exact ⟨Nat.le_refl _, hlater, Nat.le_refl _⟩
  case wordEnd => exact ⟨Nat.le_refl _, hlater, Nat.le_refl _⟩
  case numberEnd => exact ⟨Nat.le_refl _, hf.begun (by simp), Nat.le_refl _⟩

end Lexer

namespace Follows

variable {options : Options} {m m' : Midway} {xs : Bytes} {tokens : List Lexed}

/-- The tokens on the way stand in the order of the document. -/
theorem row (h : Follows options m xs tokens m') (hf : m.Fits options) :
    Lexed.Row m.start tokens m'.start := by
  induction h with
  | nil => exact Nat.le_refl _
  | taken hn _ _ ih =>
    exact (Lexer.row_of_reads hf (Midway.reads_read ..) hn).append (ih (hf.next hn))
  | @before m _ b _ found lexer _ hv _ ih =>
    have hn : (m.read options b).next? = some ⟨lexer, .gap⟩ := by rw [hv]; rfl
    have hrow := Lexer.row_of_reads hf (Midway.reads_read ..) hn
    rw [hv] at hrow
    exact hrow.append (ih (hf.next hn))

/-- Containers are opened and closed by the brackets on the way. -/
theorem containers (h : Follows options m xs tokens m') :
    m'.containers = tokens.foldl (fun containers t => t.token.nest containers) m.containers := by
  induction h with
  | nil => rfl
  | @taken m m₁ _ b _ tokens hn _ _ ih =>
    have hstep : m₁.containers = _ := Lexer.containers_of_reads (Midway.reads_read ..) hn
    rw [ih, hstep]
    cases (m.read options b).token? <;> rfl
  | @before m _ b _ found lexer _ hv _ ih =>
    have hstep : (Midway.mk lexer .gap).containers = _ :=
      Lexer.containers_of_reads (Midway.reads_read options m b) (by rw [hv]; rfl)
    rw [ih, hstep, hv]
    rfl

end Follows

/-! ## Where reading ends

A document that cannot be followed to its end has a byte at which it fails, and the failure is
blamed on that byte, or on the lead of a space character that is none. A number that is complete
is still given out first, since it is the failing byte that shows its end. -/

/-- A failure of the document that is seen at the byte `b`. -/
inductive Midway.Blames (options : Options) (m : Midway) (b : UInt8) : Failure → Prop
  /-- the byte cannot stand at its place -/
  | here {f : SyntaxFault} (hf : f.byte? = some b) : Blames options m b (m.lexer.fault f)
  /-- the bracket opens a container too many -/
  | tooDeep {depth : Nat} : Blames options m b (.tooDeep depth m.lexer.here.offset)
  /-- the bytes in front make no space character, with or without `b` -/
  | space {start : Location} {lead : UInt8} {seen : Bytes} {more : Nat}
    (hu : m.unfinished = .space start lead seen more) :
    Blames options m b (.malformed ⟨.character lead, start⟩)

namespace Midway

variable {options : Options} {m m' : Midway} {b : UInt8} {more : List Lexed} {e : Failure}

/-- What may still be given out when reading ends: a number that is complete. Any other token that
is being read when reading ends is not given out. -/
def Last (m : Midway) (more : List Lexed) : Prop :=
  more = [] ∨ ∃ part lexeme, m.unfinished = .number part lexeme ∧ part.isComplete = true ∧
    more = [m.lexer.numberToken lexeme]

/-- Reading ends at the byte `b` with a failure, whatever comes behind it. The failure cannot be
influenced by what comes behind the byte. -/
structure Stops (options : Options) (m : Midway) (b : UInt8) (more : List Lexed) (e : Failure) :
    Prop where
  feed : ∀ rest, m.feed options (b :: rest) = ⟨more, some e⟩
  last : m.Last more
  blames : m.Blames options b e

theorem blames_of_error (h : m.read options b = .error e ∨ m.read options b = .errorBehind e) :
    m.Blames options b e := by
  have hr := reads_read options m b
  generalize hu : m.unfinished = unfinished at hr
  rcases h with h | h
  all_goals
    rw [h] at hr
    cases hr
  case inl.fault hf => exact .here hf
  case inl.tooDeep => exact .tooDeep
  case inl.spaceFault => exact .space hu
  case inr.spaceFaultBehind => exact .space hu

theorem stops_of_error (h : m.read options b = .error e ∨ m.read options b = .errorBehind e) :
    m.Stops options b [] e where
  feed _ := by
    rcases h with h | h
    · exact Lexer.feed_error h
    · exact Lexer.feed_errorBehind h
  last := .inl rfl
  blames := blames_of_error h

/-- Only a number ends in front of a byte. -/
theorem of_tokenBefore {lexer : Lexer} {found : Lexed}
    (h : m.read options b = .tokenBefore found lexer) :
    lexer = m.lexer.afterValue ∧ ∃ part lexeme, m.unfinished = .number part lexeme ∧
      part.isComplete = true ∧ found = m.lexer.numberToken lexeme := by
  have hr := reads_read options m b
  generalize hu : m.unfinished = unfinished at hr
  rw [h] at hr
  cases hr with
  | numberEnd hp _ => exact ⟨rfl, _, _, rfl, hp, rfl⟩

/-- The byte behind a number is at fault if it is so without the number. -/
theorem stops_of_tokenBefore {lexer : Lexer} {found : Lexed}
    (h : m.read options b = .tokenBefore found lexer) (hs : (mk lexer .gap).Stops options b [] e) :
    m.Stops options b [found] e := by
  obtain ⟨rfl, part, lexeme, hu, hp, rfl⟩ := of_tokenBefore h
  refine ⟨fun rest => ?_, .inr ⟨part, lexeme, hu, hp, rfl⟩, ?_⟩
  · rw [feed_of_tokenBefore h, hs.feed]
    rfl
  · cases hs.blames with
    | here hf => exact .here hf
    | tooDeep => exact .tooDeep
    | space hgap => cases hgap

/-- A byte is followed, or reading ends there. -/
theorem follows_byte (options : Options) (m : Midway) (b : UInt8) :
    (∃ tokens m', Follows options m [b] tokens m') ∨ ∃ more e, m.Stops options b more e := by
  cases hv : m.read options b with
  | more unfinished lexer =>
    exact .inl ⟨_, _, .byte ⟨lexer, unfinished⟩ (by rw [hv]; rfl) (by rw [hv]; rfl)⟩
  | token found lexer => exact .inl ⟨_, _, .byte ⟨lexer, .gap⟩ (by rw [hv]; rfl) (by rw [hv]; rfl)⟩
  | error e => exact .inr ⟨_, _, stops_of_error (.inl hv)⟩
  | errorBehind e => exact .inr ⟨_, _, stops_of_error (.inr hv)⟩
  | tokenBefore found lexer =>
    -- the byte is read once more, behind the number that it ends
    have hbehind : ∀ {tokens m'}, Follows options ⟨lexer, .gap⟩ [b] tokens m' →
        ∃ tokens m', Follows options m [b] tokens m' := fun h => ⟨_, _, .before hv h⟩
    cases hv' : (mk lexer .gap).read options b with
    | more unfinished lexer' =>
      exact .inl (hbehind (.byte ⟨lexer', unfinished⟩ (by rw [hv']; rfl) (by rw [hv']; rfl)))
    | token found lexer' =>
      exact .inl (hbehind (.byte ⟨lexer', .gap⟩ (by rw [hv']; rfl) (by rw [hv']; rfl)))
    | error e => exact .inr ⟨_, _, stops_of_tokenBefore hv (stops_of_error (.inl hv'))⟩
    | errorBehind e => exact .inr ⟨_, _, stops_of_tokenBefore hv (stops_of_error (.inr hv'))⟩
    | tokenBefore => exact absurd hv' Lexer.read_gap_ne_tokenBefore

/-- A document is followed to its end, or to a byte at which reading ends. Up to that byte it is
followed, so the two cases share what can be said about tokens on the way. -/
theorem follows_or_stops (options : Options) (m : Midway) (bytes : Bytes) :
    (∃ tokens m', Follows options m bytes tokens m') ∨
      ∃ before b behind tokens m' more e, bytes = before ++ b :: behind ∧
        Follows options m before tokens m' ∧ m'.Stops options b more e := by
  induction bytes generalizing m with
  | nil => exact .inl ⟨[], m, .nil⟩
  | cons b bytes ih =>
    obtain ⟨tokens, m₁, hbyte⟩ | ⟨more, e, hstops⟩ := follows_byte options m b
    · obtain ⟨tokens', m₂, h⟩ | ⟨before, c, behind, tokens', m₂, more, e, rfl, h, hstops⟩ := ih m₁
      · exact .inl ⟨_, _, hbyte.trans h⟩
      · exact .inr ⟨b :: before, c, behind, _, _, more, e, rfl, hbyte.trans h, hstops⟩
    · exact .inr ⟨[], b, bytes, [], m, more, e, rfl, .nil, hstops⟩

/-! ### The end of the input -/

/-- At the end of the input a number that is complete may be given out, and the failure, if there is
one, is that the document ends too early, or that the bytes in front make no space character. -/
structure Ends (options : Options) (m : Midway) (more : List Lexed) (failure? : Option Failure) :
    Prop where
  feed : m.feed options [] = ⟨more, failure?⟩
  last : m.Last more
  blames : ∀ e ∈ failure?, e = m.lexer.fault .endOfInput ∨
    ∃ start lead seen n, m.unfinished = .space start lead seen n ∧ e = .malformed ⟨.character lead, start⟩

/-- Outside of tokens, the end of the input is either allowed or too early. -/
theorem ends_gap (options : Options) (lexer : Lexer) :
    ∃ failure?, (mk lexer .gap).feed options [] = ⟨[], failure?⟩ ∧
      ∀ e ∈ failure?, e = lexer.fault .endOfInput := by
  by_cases hp : (lexer.phase = .done || (lexer.phase = .start && options.multipleValues)) = true
  · exact ⟨none, Lexer.feed_nil_end (by rw [Lexer.finish, if_pos hp]), fun e he => by cases he⟩
  · refine ⟨some (lexer.fault .endOfInput), Lexer.feed_nil_error (by rw [Lexer.finish, if_neg hp]), ?_⟩
    intro e he
    cases he
    rfl

theorem ends (options : Options) (m : Midway) : ∃ more failure?, m.Ends options more failure? := by
  obtain ⟨lexer, unfinished⟩ := m
  cases unfinished with
  | gap =>
    obtain ⟨failure?, hfeed, hblames⟩ := ends_gap options lexer
    exact ⟨[], failure?, hfeed, .inl rfl, fun e he => .inl (hblames e he)⟩
  | space start lead seen n =>
    refine ⟨[], _, Lexer.feed_nil_error rfl, .inl rfl, ?_⟩
    intro e he
    cases he
    exact .inr ⟨_, _, _, _, rfl, rfl⟩
  | string | word =>
    refine ⟨[], _, Lexer.feed_nil_error rfl, .inl rfl, ?_⟩
    intro e he
    cases he
    exact .inl rfl
  | number part lexeme =>
    by_cases hp : part.isComplete = true
    · obtain ⟨failure?, hfeed, hblames⟩ := ends_gap options lexer.afterValue
      refine ⟨[lexer.numberToken lexeme], failure?, ?_, .inr ⟨_, _, rfl, hp, rfl⟩,
        fun e he => .inl (hblames e he)⟩
      rw [feed, Lexer.feed_nil_token (by rw [Lexer.finish, if_pos hp])]
      exact congrArg (Scanned.prepend _) hfeed
    · refine ⟨[], _, Lexer.feed_nil_error (by rw [Lexer.finish, if_neg hp]), .inl rfl, ?_⟩
      intro e he
      cases he
      exact .inl rfl

end Midway

end JsonExtract
