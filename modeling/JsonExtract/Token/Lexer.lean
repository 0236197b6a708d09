import JsonExtract.Options
import JsonExtract.Token.Basic
import JsonExtract.Token.Nesting
import JsonExtract.Token.Number
import JsonExtract.Token.Quotation
import JsonExtract.Token.Space

/-!
# From bytes to tokens

The lexer is an automaton over single bytes. Between two tokens its state is a `Lexer`: what the
grammar asks for next, the containers that are open, and the place in the document. Inside of a
token there is an `Unfinished` in addition. A byte is either taken or left for the next token: a
number ends only at a byte that does not belong to it.

* `Phase`, `Lexer`, `Unfinished` — the state;
* `Lexer.read` — what the lexer makes of a byte;
* `Lexer.finish` — what it makes of the end of the input;
* `Unfinished.run?`, `Unfinished.absorb` — runs of bytes that change nothing but the lexeme;
* `Lexer.complete?` — tokens that end with their run;
* `Lexer.read_run` — taking a run at once is the same as reading its bytes.
-/

namespace JsonExtract

/-! ## The state

The grammar is that of a pushdown automaton: the phase is its control state and the nesting is
its stack. The place is carried along to be reported and has no influence on what is read. -/

/-- What the grammar asks for. There is one for each place in the grammar where a token or a
separator may come next. -/
inductive Phase
  /-- a value that stands in no container -/
  | start
  /-- a name, or the end of an object without members -/
  | objectOpen
  /-- a name, behind a comma -/
  | beforeName
  /-- the colon behind a name -/
  | afterName
  /-- the value of a member -/
  | beforeMember
  /-- a comma or the end of the object -/
  | afterMember
  /-- an element, or the end of an array without elements -/
  | arrayOpen
  /-- an element, behind a comma -/
  | beforeElement
  /-- a comma or the end of the array -/
  | afterElement
  /-- nothing more, or another value that stands in no container -/
  | done
  deriving DecidableEq, Repr, Inhabited

/-- The state of the lexer between two tokens. -/
structure Lexer where
  /-- what the grammar asks for -/
  phase : Phase
  /-- the open containers -/
  nesting : Nesting
  /-- the place in front of the next byte -/
  here : Location
  deriving DecidableEq, Repr

/-- The token that is being read. -/
inductive Unfinished
  /-- none -/
  | gap
  /-- a character that starts with `lead` at `start` and has to be a space; behind `lead` came
  `seen`, and one more byte than `more` is missing -/
  | space (start : Location) (lead : UInt8) (seen : Bytes) (more : Nat)
  /-- a string; `isName` if it names a member -/
  | string (isName : Bool) (quotation : Quotation) (lexeme : Lexeme)
  /-- a number -/
  | number (part : NumberPart) (lexeme : Lexeme)
  /-- a literal of kind `kind` that goes on with `next` and `more` -/
  | word (kind : Kind) (next : UInt8) (more : Bytes) (lexeme : Lexeme)
  deriving DecidableEq, Repr

/-- What the lexer makes of a byte. -/
inductive Verdict
  /-- the byte is taken and completes nothing -/
  | more (unfinished : Unfinished) (lexer : Lexer)
  /-- the byte is taken and completes a token -/
  | token (token : Lexed) (lexer : Lexer)
  /-- a token ended in front of the byte, which is not taken -/
  | tokenBefore (token : Lexed) (lexer : Lexer)
  /-- the document is malformed or too deep; the byte is not taken -/
  | error (failure : Failure)
  /-- the document is malformed; the byte is taken -/
  | errorBehind (failure : Failure)
  deriving DecidableEq, Repr

namespace Lexer

/-- The state in front of a document. -/
def initial : Lexer :=
  ⟨.start, .empty, .origin⟩

variable (options : Options) (lexer : Lexer)

/-- The failure at the current place. -/
def fault (fault : SyntaxFault) : Failure :=
  .malformed ⟨fault, lexer.here⟩

/-- Steps over a byte. -/
def past (b : UInt8) : Lexer :=
  { lexer with here := lexer.here.past b }

/-- What is asked for behind a value, by the container around it. -/
def phaseBehind : Option Container → Phase
  | none => .done
  | some .object => .afterMember
  | some .array => .afterElement

/-- The state behind a complete value. What was opened in front of the value decides what may come
behind it. -/
def afterValue : Lexer :=
  { lexer with phase := phaseBehind lexer.nesting.innermost? }

/-! ## Single bytes

One function for each kind of token that may be unfinished, and one for the gaps between them.
Together they say what the lexer makes of a byte, and no other definition decides about the
grammar. -/

/-- Steps over a separator, on to `phase`. -/
def separate (phase : Phase) (b : UInt8) : Verdict :=
  .more .gap { lexer.past b with phase }

/-- Opens a container, if there is room for it. -/
def openContainer (c : Container) : Verdict :=
  if options.maxDepth ≤ lexer.nesting.depth then
    .error (.tooDeep (lexer.nesting.depth + 1) lexer.here.offset)
  else
    let behind := lexer.past c.opening
    .token ⟨.opening c, lexer.here.offset, behind.here.offset⟩
      { behind with
        nesting := lexer.nesting.enter c
        phase := match c with
          | .object => .objectOpen
          | .array => .arrayOpen }

/-- Closes the innermost container, which is a `c`: the phase that allows the bracket says so. -/
def closeContainer (c : Container) : Verdict :=
  let behind := lexer.past c.closing
  .token ⟨.closing c, lexer.here.offset, behind.here.offset⟩
    (afterValue { behind with nesting := lexer.nesting.leave })

/-- The lexeme of a token that starts here. -/
def lexeme (b : UInt8) : Lexeme :=
  .first lexer.here.offset b

/-- The literal that the byte `b` starts: its kind and the bytes behind `b`, of which there is at
least one. -/
def word? (b : UInt8) : Option (Kind × UInt8 × Bytes) :=
  -- true
  if b = 0x74 then some (.boolean, 0x72, [0x75, 0x65])
  -- false
  else if b = 0x66 then some (.boolean, 0x61, [0x6c, 0x73, 0x65])
  -- null
  else if b = 0x6e then some (.null, 0x75, [0x6c, 0x6c])
  else none

/-- Starts a value. -/
def readValue (b : UInt8) : Verdict :=
  if b = Ascii.openBrace then lexer.openContainer options .object
  else if b = Ascii.openBracket then lexer.openContainer options .array
  else if b = Ascii.quote then .more (.string false .plain (lexer.lexeme b)) (lexer.past b)
  else
    match NumberPart.first? b, word? b with
    | some part, _ => .more (.number part (lexer.lexeme b)) (lexer.past b)
    | none, some (kind, next, more) => .more (.word kind next more (lexer.lexeme b)) (lexer.past b)
    | none, none => .error (lexer.fault (.character b))

/-- Starts the name of a member. -/
def readName (b : UInt8) : Verdict :=
  if b = Ascii.quote then .more (.string true .plain (lexer.lexeme b)) (lexer.past b)
  else .error (lexer.fault (.character b))

/-- Reads a byte that is no space and stands in no token. -/
def readStart (b : UInt8) : Verdict :=
  match lexer.phase with
  | .start | .beforeMember | .beforeElement => lexer.readValue options b
  | .arrayOpen =>
    if b = Ascii.closeBracket then lexer.closeContainer .array else lexer.readValue options b
  | .objectOpen =>
    if b = Ascii.closeBrace then lexer.closeContainer .object else lexer.readName b
  | .beforeName => lexer.readName b
  | .afterName =>
    if b = Ascii.colon then lexer.separate .beforeMember b
    else .error (lexer.fault (.character b))
  | .afterMember =>
    if b = Ascii.comma then lexer.separate .beforeName b
    else if b = Ascii.closeBrace then lexer.closeContainer .object
    else if b = Ascii.closeBracket then .error (lexer.fault (.bracket b))
    else .error (lexer.fault (.character b))
  | .afterElement =>
    if b = Ascii.comma then lexer.separate .beforeElement b
    else if b = Ascii.closeBracket then lexer.closeContainer .array
    else if b = Ascii.closeBrace then .error (lexer.fault (.bracket b))
    else .error (lexer.fault (.character b))
  | .done =>
    if options.multipleValues then lexer.readValue options b
    else .error (lexer.fault (.character b))

/-- Reads a byte that stands in no token. -/
def readGap (b : UInt8) : Verdict :=
  if Ascii.isSpace b then .more .gap (lexer.past b)
  else
    match if options.unicodeSpace then Space.missing? b else none with
    | some (more + 1) => .more (.space lexer.here b [] more) (lexer.past b)
    | _ => lexer.readStart options b

/-- Reads a byte behind the lead of a character that has to be a space. No token starts with such a
lead, so a character that is no space is at fault from its lead on, even where bytes are taken. -/
def readSpace (start : Location) (lead : UInt8) (seen : Bytes) (more : Nat) (b : UInt8) : Verdict :=
  let failure := Failure.malformed ⟨.character lead, start⟩
  if Ascii.isContinuation b then
    match more with
    | more + 1 => .more (.space start lead (seen ++ [b]) more) (lexer.past b)
    | 0 =>
      if Space.isEncoding (lead :: (seen ++ [b])) then .more .gap (lexer.past b)
      else .errorBehind failure
  else .error failure

/-- The token that a complete string is, and the state behind it. -/
def closeString (isName : Bool) (lexeme : Lexeme) : Lexed × Lexer :=
  if isName then
    (⟨.name lexeme.raw, lexeme.start, lexer.here.offset⟩, { lexer with phase := .afterName })
  else (⟨.scalar .string lexeme.raw, lexeme.start, lexer.here.offset⟩, lexer.afterValue)

/-- Reads a byte of a string. -/
def readString (isName : Bool) (quotation : Quotation) (lexeme : Lexeme) (b : UInt8) : Verdict :=
  match quotation.next b with
  | .ok (some quotation) => .more (.string isName quotation (lexeme.push b)) (lexer.past b)
  | .ok none =>
    let (token, behind) := (lexer.past b).closeString isName (lexeme.push b)
    .token token behind
  | .error fault => .error (lexer.fault fault)

/-- The number that has been read. -/
def numberToken (lexeme : Lexeme) : Lexed :=
  ⟨.scalar .number lexeme.raw, lexeme.start, lexer.here.offset⟩

/-- Reads a byte of a number, or the byte behind it: only that byte shows that the number ends. -/
def readNumber (part : NumberPart) (lexeme : Lexeme) (b : UInt8) : Verdict :=
  match part.next? b with
  | some part => .more (.number part (lexeme.push b)) (lexer.past b)
  | none =>
    if part.isComplete then .tokenBefore (lexer.numberToken lexeme) lexer.afterValue
    else .error (lexer.fault (.character b))

/-- Reads a byte of a literal, which has to be `next`. -/
def readWord (kind : Kind) (next : UInt8) (more : Bytes) (lexeme : Lexeme) (b : UInt8) : Verdict :=
  if b = next then
    match more with
    | next :: more => .more (.word kind next more (lexeme.push b)) (lexer.past b)
    | [] =>
      let behind := lexer.past b
      .token ⟨.scalar kind (lexeme.push b).raw, lexeme.start, behind.here.offset⟩ behind.afterValue
  else .error (lexer.fault (.character b))

/-- Reads a byte. This is the transition function of the automaton. -/
def read (unfinished : Unfinished) (b : UInt8) : Verdict :=
  match unfinished with
  | .gap => lexer.readGap options b
  | .space start lead seen more => lexer.readSpace start lead seen more b
  | .string isName quotation lexeme => lexer.readString isName quotation lexeme b
  | .number part lexeme => lexer.readNumber part lexeme b
  | .word kind next more lexeme => lexer.readWord kind next more lexeme b

/-! ## The end of the input

At the end of the input a number may turn out to be complete; all other tokens know their last
byte. Whether the document may end there depends on the phase, and on whether it may hold several
values. -/

/-- Reads the end of the input: a last token, nothing at all, or a failure. -/
def finish (unfinished : Unfinished) : Except Failure (Option (Lexed × Lexer)) :=
  match unfinished with
  | .gap =>
    if lexer.phase = .done || (lexer.phase = .start && options.multipleValues) then .ok none
    else .error (lexer.fault .endOfInput)
  | .space start lead _ _ => .error (.malformed ⟨.character lead, start⟩)
  | .number part lexeme =>
    if part.isComplete then .ok (some (lexer.numberToken lexeme, lexer.afterValue))
    else .error (lexer.fault .endOfInput)
  | .string .. | .word .. => .error (lexer.fault .endOfInput)

end Lexer

/-! ## Runs

Sources can hand over the longest run of bytes of a class faster than byte by byte. The plain
bytes of strings and the digits of numbers are such runs. The lemmas below make sure that the
shortcut does not change what is read. -/

namespace Unfinished

/-- The bytes that may be taken in one run. -/
def run? : Unfinished → Option (UInt8 → Bool)
  | string _ .plain _ => some Quotation.isPlain
  | number part _ => if part.takesDigits then some Ascii.isDigit else none
  | _ => none

/-- The token with a run of bytes added. -/
def absorb (bytes : Bytes) : Unfinished → Unfinished
  | string isName quotation lexeme => string isName quotation (lexeme.append bytes)
  | number part lexeme => number part (lexeme.append bytes)
  | other => other

end Unfinished

namespace Lexer

variable (options : Options) (lexer : Lexer)

/-- The token that is complete as soon as its run is taken, whatever comes next. Nothing can follow
the digits of an exponent, so the byte behind them need not be looked at; an integer or a fraction
may still go on. -/
def complete? (unfinished : Unfinished) : Option (Lexed × Lexer) :=
  match unfinished with
  | .number .exponent lexeme => some (lexer.numberToken lexeme, lexer.afterValue)
  | _ => none

/-- A complete token ends in front of any byte that is not part of its run. -/
theorem read_of_complete? {unfinished : Unfinished} {token : Lexed} {behind : Lexer} {b : UInt8}
    (h : lexer.complete? unfinished = some (token, behind)) (hb : Ascii.isDigit b = false) :
    lexer.read options unfinished b = .tokenBefore token behind := by
  match unfinished, h with
  | .number .exponent lexeme, h =>
    cases h
    simp [read, readNumber, NumberPart.next?, NumberPart.isComplete, hb]

/-- A complete token ends at the end of the input. -/
theorem finish_of_complete? {unfinished : Unfinished} {token : Lexed} {behind : Lexer}
    (h : lexer.complete? unfinished = some (token, behind)) :
    lexer.finish options unfinished = .ok (some (token, behind)) := by
  match unfinished, h with
  | .number .exponent lexeme, h =>
    cases h
    simp [finish, NumberPart.isComplete]

/-- Steps over `n` bytes of a run. -/
def skip (n : Nat) : Lexer :=
  { lexer with here := lexer.here.skip n }

/-- A byte of a run is taken and changes nothing but the lexeme and the place. -/
theorem read_run {unfinished : Unfinished} {p : UInt8 → Bool} {b : UInt8}
    (hp : unfinished.run? = some p) (hb : p b = true) :
    lexer.read options unfinished b = .more (unfinished.absorb [b]) (lexer.skip 1) := by
  match unfinished, hp with
  | .string isName .plain lexeme, hp =>
    cases hp
    have hne : b ≠ Ascii.lineFeed := by
      rintro rfl
      exact absurd hb (by simp [Quotation.isPlain_lineFeed])
    simp [read, readString, Quotation.next_plain hb, Unfinished.absorb, Lexeme.push, Lexeme.append,
      past, skip, Location.past, Location.skip, hne]
  | .number part lexeme, hp =>
    rw [Unfinished.run?] at hp
    split at hp
    · next hd =>
      cases hp
      have hne : b ≠ Ascii.lineFeed := by
        rintro rfl
        exact absurd hb (by decide)
      simp [read, readNumber, NumberPart.next?_of_takesDigits hd hb, Unfinished.absorb, Lexeme.push,
        Lexeme.append, past, skip, Location.past, Location.skip, hne]
    · exact absurd hp (by simp)

end Lexer

end JsonExtract
