import JsonExtract.Proofs.Scan.Completeness

/-!
# Single steps of the lexer

Everything that can happen when the lexer reads a byte, in one list, and what all of it has in
common: the phase fits the containers that are open, a token that is being read is one that the phase
asks for, and containers are opened and closed by their brackets alone.

* `Lexer.Reads`, `Lexer.reads_read` — what the lexer makes of a byte, case by case;
* `Midway`, `Midway.Fits` — the state between two bytes, and what is true of it from the start;
* `Verdict.next?`, `Lexer.fits_of_reads` — a byte leads from fitting states to fitting states;
* `Token.nest`, `Lexer.containers_of_reads` — which containers are open behind a token.
-/

namespace JsonExtract

/-! ## What can happen

`Lexer.read` is a nest of conditions on the phase, the settings and the byte. `Reads` lists its
outcomes as rules, with the conditions of each one as premises, so that later proofs split on
what happened and never on how it was found out. The lemmas go through the parts of `read` one
by one to show that the list is complete. -/

namespace Lexer

/-- The phases that ask for a name. -/
def TakesName (phase : Phase) : Prop :=
  phase = .objectOpen ∨ phase = .beforeName

/-- A comma or a colon leads from one phase to the other. -/
inductive Separates : Phase → Phase → Prop
  | colon : Separates .afterName .beforeMember
  | member : Separates .afterMember .beforeName
  | element : Separates .afterElement .beforeElement

/-- Scalar values with nothing but their first byte read. A closing quote, a further digit and the
other letters come with later bytes. -/
inductive Starts (lexeme : Lexeme) : Unfinished → Prop
  | string : Starts lexeme (.string false .plain lexeme)
  | number {part : NumberPart} : Starts lexeme (.number part lexeme)
  | word {kind : Kind} {next : UInt8} {more : Bytes} (hk : kind.container? = none) :
    Starts lexeme (.word kind next more lexeme)

/-- The state behind the bracket that closes a container. -/
def outside (lexer : Lexer) (c : Container) : Lexer :=
  afterValue { lexer.past c.closing with nesting := lexer.nesting.leave }

/-- What the lexer can make of the byte `b`, by the token that is being read. The conditions under
which it does so are premises, as far as later proofs need them. -/
inductive Reads (options : Options) (lexer : Lexer) (b : UInt8) : Unfinished → Verdict → Prop
  | blank : Reads options lexer b .gap (.more .gap (lexer.past b))
  /-- the lead of a space character beyond ASCII -/
  | lead {more : Nat} (hu : options.unicodeSpace = true) :
    Reads options lexer b .gap (.more (.space lexer.here b [] more) (lexer.past b))
  | separator {phase : Phase} (hp : Separates lexer.phase phase) :
    Reads options lexer b .gap (.more .gap { lexer.past b with phase })
  | name (hp : TakesName lexer.phase) :
    Reads options lexer b .gap (.more (.string true .plain (lexer.lexeme b)) (lexer.past b))
  | scalar {unfinished : Unfinished} (hp : TakesValue options lexer.phase)
    (hu : Starts (lexer.lexeme b) unfinished) :
    Reads options lexer b .gap (.more unfinished (lexer.past b))
  | opening {c : Container} (hb : b = c.opening) (hp : TakesValue options lexer.phase)
    (hd : lexer.nesting.depth < options.maxDepth) :
    Reads options lexer b .gap
      (.token ⟨.opening c, lexer.here.offset, (lexer.past c.opening).here.offset⟩ (lexer.inside c))
  | closing {c : Container} (hb : b = c.closing) (hp : MayClose c lexer.phase) :
    Reads options lexer b .gap
      (.token ⟨.closing c, lexer.here.offset, (lexer.past c.closing).here.offset⟩ (lexer.outside c))
  | tooDeep (hd : options.maxDepth ≤ lexer.nesting.depth) :
    Reads options lexer b .gap
      (.error (.tooDeep (lexer.nesting.depth + 1) lexer.here.offset))
  /-- a byte that cannot stand at its place, in or in front of a token -/
  | fault {unfinished : Unfinished} {f : SyntaxFault} (hf : f.byte? = some b) :
    Reads options lexer b unfinished (.error (lexer.fault f))
  | spaceMore {start : Location} {lead : UInt8} {seen : Bytes} {more : Nat} :
    Reads options lexer b (.space start lead seen (more + 1))
      (.more (.space start lead (seen ++ [b]) more) (lexer.past b))
  | spaceEnd {start : Location} {lead : UInt8} {seen : Bytes} :
    Reads options lexer b (.space start lead seen 0) (.more .gap (lexer.past b))
  | spaceFault {start : Location} {lead : UInt8} {seen : Bytes} {more : Nat} :
    Reads options lexer b (.space start lead seen more) (.error (.malformed ⟨.character lead, start⟩))
  | spaceFaultBehind {start : Location} {lead : UInt8} {seen : Bytes} {more : Nat} :
    Reads options lexer b (.space start lead seen more)
      (.errorBehind (.malformed ⟨.character lead, start⟩))
  | string {isName : Bool} {q q' : Quotation} {lexeme : Lexeme} :
    Reads options lexer b (.string isName q lexeme)
      (.more (.string isName q' (lexeme.push b)) (lexer.past b))
  | stringEnd {isName : Bool} {q : Quotation} {lexeme : Lexeme} :
    Reads options lexer b (.string isName q lexeme)
      (.token ((lexer.past b).closeString isName (lexeme.push b)).1
        ((lexer.past b).closeString isName (lexeme.push b)).2)
  | number {part part' : NumberPart} {lexeme : Lexeme} (hp : part.next? b = some part') :
    Reads options lexer b (.number part lexeme) (.more (.number part' (lexeme.push b)) (lexer.past b))
  /-- the byte behind a number -/
  | numberEnd {part : NumberPart} {lexeme : Lexeme} (hp : part.isComplete = true)
    (hn : part.next? b = none) :
    Reads options lexer b (.number part lexeme)
      (.tokenBefore (lexer.numberToken lexeme) lexer.afterValue)
  | word {kind : Kind} {next : UInt8} {more : Bytes} {lexeme : Lexeme} :
    Reads options lexer b (.word kind b (next :: more) lexeme)
      (.more (.word kind next more (lexeme.push b)) (lexer.past b))
  | wordEnd {kind : Kind} {lexeme : Lexeme} :
    Reads options lexer b (.word kind b [] lexeme)
      (.token ((lexer.past b).wordToken kind (lexeme.push b)) (lexer.past b).afterValue)

variable (options : Options) (lexer : Lexer) (b : UInt8)

theorem reads_openContainer {c : Container} (hb : b = c.opening)
    (hp : TakesValue options lexer.phase) :
    Reads options lexer b .gap (lexer.openContainer options c) := by
  unfold openContainer
  split
  · next hd => exact .tooDeep hd
  · next hd => exact .opening hb hp (Nat.lt_of_not_le hd)

/-- A literal is no container. -/
theorem container?_of_word? {b : UInt8} {kind : Kind} {next : UInt8} {more : Bytes}
    (h : word? b = some (kind, next, more)) : kind.container? = none := by
  rw [word?] at h
  repeat' split at h
  all_goals cases h
  all_goals rfl

theorem reads_readValue (hp : TakesValue options lexer.phase) :
    Reads options lexer b .gap (lexer.readValue options b) := by
  rw [readValue]
  split
  · next hb => exact reads_openContainer options lexer b hb hp
  · split
    · next hb => exact reads_openContainer options lexer b hb hp
    · split
      · exact .scalar hp .string
      · split
        · exact .scalar hp .number
        · next hw => exact .scalar hp (.word (container?_of_word? hw))
        · exact .fault rfl

theorem reads_readName (hp : TakesName lexer.phase) :
    Reads options lexer b .gap (lexer.readName b) := by
  rw [readName]
  split
  · exact .name hp
  · exact .fault rfl

theorem reads_readStart : Reads options lexer b .gap (lexer.readStart options b) := by
  have hclose : ∀ {c : Container}, b = c.closing → MayClose c lexer.phase →
      Reads options lexer b .gap (lexer.closeContainer c) := fun hb hp => .closing hb hp
  -- one bullet for each phase: `hp` says what it takes
  rw [readStart]
  split
  case h_1 hp | h_2 hp | h_3 hp => exact reads_readValue options lexer b (hp ▸ trivial)
  case h_4 hp =>
    split
    · next hb => exact hclose (c := .array) hb (.inl hp)
    · exact reads_readValue options lexer b (hp ▸ trivial)
  case h_5 hp =>
    split
    · next hb => exact hclose (c := .object) hb (.inl hp)
    · exact reads_readName options lexer b (.inl hp)
  case h_6 hp => exact reads_readName options lexer b (.inr hp)
  case h_7 hp =>
    split
    · exact .separator (hp ▸ .colon)
    · exact .fault rfl
  case h_8 hp =>
    split
    · exact .separator (hp ▸ .member)
    · split
      · next hb => exact hclose (c := .object) hb (.inr hp)
      · split <;> exact .fault rfl
  case h_9 hp =>
    split
    · exact .separator (hp ▸ .element)
    · split
      · next hb => exact hclose (c := .array) hb (.inr hp)
      · split <;> exact .fault rfl
  case h_10 hp =>
    split
    · next hm => exact reads_readValue options lexer b (hp ▸ hm)
    · exact .fault rfl

theorem reads_readGap : Reads options lexer b .gap (lexer.readGap options b) := by
  rw [readGap]
  split
  · exact .blank
  · split
    · next hm =>
      split at hm
      · next hu => exact .lead hu
      · cases hm
    · exact reads_readStart options lexer b

theorem reads_readSpace (start : Location) (lead : UInt8) (seen : Bytes) (more : Nat) :
    Reads options lexer b (.space start lead seen more) (lexer.readSpace start lead seen more b) := by
  unfold readSpace
  split
  · cases more with
    | zero =>
      dsimp only
      split
      · exact .spaceEnd
      · exact .spaceFaultBehind
    | succ more => exact .spaceMore
  · exact .spaceFault

theorem reads_readString (isName : Bool) (q : Quotation) (lexeme : Lexeme) :
    Reads options lexer b (.string isName q lexeme) (lexer.readString isName q lexeme b) := by
  rw [readString]
  split
  · exact .string
  · exact .stringEnd
  · next f hf =>
    refine .fault ?_
    cases q <;> simp only [Quotation.next] at hf
    all_goals
      repeat' split at hf
      all_goals first | cases hf; rfl | cases hf

theorem reads_readNumber (part : NumberPart) (lexeme : Lexeme) :
    Reads options lexer b (.number part lexeme) (lexer.readNumber part lexeme b) := by
  rw [readNumber]
  split
  · next hp => exact .number hp
  · next hn =>
    split
    · next hp => exact .numberEnd hp hn
    · exact .fault rfl

theorem reads_readWord (kind : Kind) (next : UInt8) (more : Bytes) (lexeme : Lexeme) :
    Reads options lexer b (.word kind next more lexeme) (lexer.readWord kind next more lexeme b) := by
  unfold readWord
  split
  · next hb =>
    subst hb
    cases more with
    | nil => exact .wordEnd
    | cons next more => exact .word
  · exact .fault rfl

/-- Nothing else happens. -/
theorem reads_read (unfinished : Unfinished) :
    Reads options lexer b unfinished (lexer.read options unfinished b) :=
  match unfinished with
  | .gap => reads_readGap options lexer b
  | .space start lead seen more => reads_readSpace options lexer b start lead seen more
  | .string isName q lexeme => reads_readString options lexer b isName q lexeme
  | .number part lexeme => reads_readNumber options lexer b part lexeme
  | .word kind next more lexeme => reads_readWord options lexer b kind next more lexeme

end Lexer

/-! ## What is always true

A state between two bytes fits if the phase belongs to the innermost container, the token that
is being read is one that the phase asks for, and no more containers are open than the settings
allow. Every rule of `Reads` leads from such a state to such a state, so that later proofs need
not rule out combinations that never occur. -/

/-- The container that the grammar is in the middle of, if it is in one. -/
def Phase.container? : Phase → Option Container
  | start | done => none
  | objectOpen | beforeName | afterName | beforeMember | afterMember => some .object
  | arrayOpen | beforeElement | afterElement => some .array

/-- Whether a phase asks for the token that is being read. -/
def Unfinished.Asked (options : Options) (phase : Phase) : Unfinished → Prop
  | gap => True
  | space .. => options.unicodeSpace = true
  | string isName .. => if isName then Lexer.TakesName phase else Lexer.TakesValue options phase
  | number .. => Lexer.TakesValue options phase
  | word kind .. => Lexer.TakesValue options phase ∧ kind.container? = none

/-- Number of bytes in front of the token that is being read, or of the next one. -/
def Unfinished.start (offset : Nat) : Unfinished → Nat
  | gap => offset
  | space start .. => start.offset
  | string _ _ lexeme | number _ lexeme | word _ _ _ lexeme => lexeme.start

/-- The state of the lexer between two bytes. Both parts together are what the next byte is read
in; between two tokens the second one is a gap. -/
structure Midway where
  /-- the state of the lexer -/
  lexer : Lexer
  /-- the token that is being read -/
  unfinished : Unfinished
  deriving DecidableEq, Repr

namespace Midway

/-- The state in front of a document. -/
def initial : Midway :=
  ⟨.initial, .gap⟩

/-- Number of bytes in front of the token that is being read, or of the next one. -/
def start (m : Midway) : Nat :=
  m.unfinished.start m.lexer.here.offset

/-- What is true of the state, wherever a document is read. The last field excludes tokens without
a byte, which is why the places of tokens are in order. -/
structure Fits (options : Options) (m : Midway) : Prop where
  /-- the phase is one of the innermost container -/
  innermost : m.lexer.nesting.innermost? = m.lexer.phase.container?
  /-- there was room for all containers -/
  room : m.lexer.nesting.depth ≤ options.maxDepth
  /-- the token that is being read is asked for -/
  asked : m.unfinished.Asked options m.lexer.phase
  /-- at least one byte of it was read -/
  begun : m.unfinished ≠ .gap → m.start < m.lexer.here.offset

theorem fits_initial (options : Options) : initial.Fits options :=
  ⟨rfl, Nat.zero_le _, trivial, fun h => absurd rfl h⟩

theorem start_le {options : Options} {m : Midway} (h : m.Fits options) :
    m.start ≤ m.lexer.here.offset := by
  by_cases hu : m.unfinished = .gap
  · rw [start, hu]
    exact Nat.le_refl _
  · exact Nat.le_of_lt (h.begun hu)

end Midway

/-- The state behind a byte, unless the document is at fault there. -/
def Verdict.next? : Verdict → Option Midway
  | more unfinished lexer => some ⟨lexer, unfinished⟩
  | token _ lexer | tokenBefore _ lexer => some ⟨lexer, .gap⟩
  | error _ | errorBehind _ => none

/-- The token that a byte completes, or shows to be complete. -/
def Verdict.token? : Verdict → Option Lexed
  | token found _ | tokenBefore found _ => some found
  | more .. | error _ | errorBehind _ => none

/-- Whether the byte is left for the next token. -/
def Verdict.isBefore : Verdict → Bool
  | tokenBefore .. => true
  | more .. | token .. | error _ | errorBehind _ => false

namespace Lexer

theorem container?_phaseBehind (c : Option Container) : (phaseBehind c).container? = c := by
  match c with
  | none => rfl
  | some .object => rfl
  | some .array => rfl

theorem container?_of_separates {phase phase' : Phase} (h : Separates phase phase') :
    phase'.container? = phase.container? := by
  cases h <;> rfl

variable {options : Options} {lexer : Lexer} {unfinished : Unfinished}

/-- Behind a value the phase fits the container around it. -/
theorem fits_afterValue (lexer : Lexer) (hd : lexer.nesting.depth ≤ options.maxDepth) :
    Midway.Fits options ⟨lexer.afterValue, .gap⟩ :=
  ⟨(container?_phaseBehind _).symm, hd, trivial, fun h => absurd rfl h⟩

/-- Behind a string comes a colon, or what follows a value. -/
theorem fits_closeString {isName : Bool} (lexeme : Lexeme)
    (hi : lexer.nesting.innermost? = lexer.phase.container?)
    (hd : lexer.nesting.depth ≤ options.maxDepth)
    (ha : if isName then TakesName lexer.phase else TakesValue options lexer.phase) :
    Midway.Fits options ⟨(lexer.closeString isName lexeme).2, .gap⟩ := by
  cases isName with
  | false => exact fits_afterValue lexer hd
  | true =>
    refine ⟨hi.trans ?_, hd, trivial, fun h => absurd rfl h⟩
    rcases ha with hp | hp <;> exact hp ▸ rfl

/-- A byte leads from fitting states to fitting states. By the rules: most leave phase and
containers alone, and the brackets change both together. -/
theorem fits_of_reads {b : UInt8} {v : Verdict} {m : Midway}
    (hf : Midway.Fits options ⟨lexer, unfinished⟩) (h : Reads options lexer b unfinished v)
    (hn : v.next? = some m) : m.Fits options := by
  obtain ⟨hi, hd, ha, hb⟩ := hf
  have hpast : (lexer.past b).here.offset = lexer.here.offset + 1 := Location.offset_past _ _
  have hlater : unfinished ≠ .gap → unfinished.start lexer.here.offset < (lexer.past b).here.offset :=
    fun hu => Nat.lt_trans (hb hu) (hpast ▸ Nat.lt_succ_self _)
  have hfirst : lexer.here.offset < (lexer.past b).here.offset := hpast ▸ Nat.lt_succ_self _
  cases h
  -- at fault, nothing follows
  case tooDeep | fault | spaceFault | spaceFaultBehind => cases hn
  all_goals cases hn
  case blank | spaceEnd => exact ⟨hi, hd, trivial, fun hu => absurd rfl hu⟩
  case lead hu => exact ⟨hi, hd, hu, fun _ => hfirst⟩
  case separator hp =>
    exact ⟨hi.trans (container?_of_separates hp).symm, hd, trivial, fun hu => absurd rfl hu⟩
  case name hp => exact ⟨hi, hd, hp, fun _ => hfirst⟩
  case scalar hp hu =>
    refine ⟨hi, hd, ?_, fun _ => by cases hu <;> exact hfirst⟩
    cases hu with
    | string | number => exact hp
    | word hk => exact ⟨hp, hk⟩
  case opening c _ _ hroom =>
    exact ⟨by cases c <;> rfl, hroom, trivial, fun hu => absurd rfl hu⟩
  case closing => exact fits_afterValue _ (Nat.le_trans (Nat.sub_le _ _) hd)
  case stringEnd => exact fits_closeString _ hi hd ha
  case numberEnd | wordEnd => exact fits_afterValue _ hd
  case spaceMore | string | number | word => exact ⟨hi, hd, ha, fun _ => hlater (by simp)⟩

end Lexer

/-! ## Brackets

Only two tokens change which containers are open. This is said once about a token, by
`Token.nest`, and shown of each rule, so that walks, drafts and lexers can agree on the open
containers by agreeing on tokens. -/

/-- The containers that are open behind a token, the innermost first. -/
def Token.nest : Token → List Container → List Container
  | opening c, containers => c :: containers
  | closing _, containers => containers.tail
  | name _, containers | scalar .., containers => containers

namespace Lexer

variable {options : Options} {lexer : Lexer} {unfinished : Unfinished} {b : UInt8} {v : Verdict}
  {m : Midway}

theorem containers_closeString (lexer : Lexer) (isName : Bool) (lexeme : Lexeme) :
    (lexer.closeString isName lexeme).2.nesting.containers =
      (lexer.closeString isName lexeme).1.token.nest lexer.nesting.containers := by
  cases isName <;> rfl

/-- Containers are opened and closed by their brackets alone. -/
theorem containers_of_reads (h : Reads options lexer b unfinished v) (hn : v.next? = some m) :
    m.lexer.nesting.containers =
      v.token?.elim lexer.nesting.containers fun t => t.token.nest lexer.nesting.containers := by
  cases h
  case tooDeep | fault | spaceFault | spaceFaultBehind => cases hn
  all_goals cases hn
  case stringEnd => exact containers_closeString ..
  all_goals rfl

/-- A scalar is no container. -/
theorem container?_of_reads (hf : Midway.Fits options ⟨lexer, unfinished⟩)
    (h : Reads options lexer b unfinished v) {found : Lexed} {kind : Kind} {raw : Bytes}
    (hv : v.token? = some found) (hs : found.token = .scalar kind raw) : kind.container? = none := by
  have ha := hf.asked
  cases h
  case opening | closing => cases hv; cases hs
  case stringEnd isName _ _ =>
    cases hv
    cases isName <;> cases hs
    rfl
  case numberEnd => cases hv; cases hs; rfl
  case wordEnd => cases hv; cases hs; exact ha.2
  all_goals cases hv

/-- The place moves on by the byte, unless that is left for the next token. A byte that shows a
number to be complete is read again, so the place must not count it yet. -/
theorem here_of_reads (h : Reads options lexer b unfinished v) (hn : v.next? = some m) :
    m.lexer.here = if v.isBefore then lexer.here else lexer.here.past b := by
  cases h
  case tooDeep | fault | spaceFault | spaceFaultBehind => cases hn
  all_goals cases hn
  case opening hb _ _ | closing hb _ => subst hb; rfl
  case stringEnd isName _ _ => cases isName <;> rfl
  all_goals rfl

end Lexer

end JsonExtract
