import JsonExtract.Proofs.Paths.Faults
import JsonExtract.Proofs.Paths.Soundness

/-!
# Reading paths byte by byte

A path can be read from its bytes, without looking at characters. A place is then a number of bytes, and
a reader may break down: it could cut the text in the middle of a character, take bytes that are not
there, step far beyond the end, or stay where it is for ever. It does none of these. Whatever the text is,
it reads the links that `Path.parse` reads, or finds the same fault at the same place.

* `Bytewise.Reading` — answers, errors and breakdowns;
* `Bytewise.ahead`, `Bytewise.slice`, `Bytewise.cut` — the steps that may break down;
* `Bytewise.path` and the readers in front of it — one for each rule.
-/

namespace JsonExtract.Path.Bytewise

open JsonExtract.Path.Parser (Operand)

/-! ## Steps

What could go wrong in such a reader is made visible. Every index, slice and cut is a step that
can fail, and failing is `none`, which is neither an answer nor an error. The loops would have
to be cut short if they did not get on, and that counts as a breakdown, too. -/

/-- What comes of reading: an answer or an error, or nothing at all if the reader breaks down. The
two layers are kept apart: an error is a result of the reader, a breakdown is a defect of it. -/
abbrev Reading := ExceptT PathError Option

/-- Something that cannot be done. No later step can recover from it. -/
def breakdown {α : Type} : Reading α :=
  ExceptT.mk none

/-- A fault at a place. It is a result like any other, and the place is one that was reached
without a breakdown. -/
def fault {α : Type} (fault : PathFault) (pos : Nat) : Reading α :=
  throw ⟨fault, pos⟩

section

variable (src : Bytes)

/-- The place `n` bytes ahead. There is one place beyond the end, and none further on. One place
beyond the end is what a reader needs to look for a byte that is not there. -/
def ahead (n pos : Nat) : Reading Nat :=
  if pos + n ≤ src.length + 1 then pure (pos + n) else breakdown

/-- The bytes between two places. -/
def slice (start stop : Nat) : Reading Bytes :=
  if start ≤ stop ∧ stop ≤ src.length then pure ((src.take stop).drop start) else breakdown

/-- Whether a text may be cut at a place: in front of a character, or at its end. -/
def isBoundary (pos : Nat) : Bool :=
  pos == 0 ||
    match src[pos]? with
    | some b => !Ascii.isContinuation b
    | none => pos == src.length

/-- The text from a place on. To cut anywhere else would leave bytes that are no text. -/
def cut (pos : Nat) : Reading Bytes :=
  if isBoundary src pos then pure (src.drop pos) else breakdown

/-- The error of a character that cannot stand at its place. -/
def unexpected {α : Type} (pos : Nat) : Reading α :=
  match if isBoundary src pos then Utf8.leading? (src.drop pos) else none with
  | some c => fault (.unexpectedChar c) pos
  | none => fault .unexpectedEnd pos

end

/-- The first place at which a byte is not in a class. -/
def skipWhile (p : UInt8 → Bool) (src : Bytes) (pos : Nat) : Reading Nat :=
  if h : pos < src.length then
    if p src[pos] then do
      let _ ← ahead src 1 pos
      skipWhile p src (pos + 1)
    else pure pos
  else pure pos
termination_by src.length - pos

/-- The place behind any space. -/
def skipSpace (src : Bytes) (pos : Nat) : Reading Nat :=
  skipWhile Ascii.isSpace src pos

/-! ## Names, literals and numbers

A name and a number are runs of bytes. A literal is searched for its closing quote, where the
byte behind a backslash is skipped without being looked at; in the middle of a character this
may leave the boundaries for a moment. -/

/-- A name, which is not empty. -/
def name (src : Bytes) (pos : Nat) : Reading (Bytes × Nat) := do
  let stop ← skipWhile (fun b => !decide (b ∈ Grammar.delimiters)) src pos
  if stop = pos then
    match src[pos]? with
    | none => fault .unexpectedEnd pos
    | some _ => fault .emptyKey pos
  else
    let bytes ← slice src pos stop
    return (bytes, stop)

/-- The place of the quote that closes a literal. The byte behind a backslash is stepped over. -/
def closing? (src : Bytes) (pos : Nat) : Reading (Option Nat) :=
  if h : pos < src.length then
    if src[pos] = '"'.toUInt8 then pure (some pos)
    else if src[pos] = '\\'.toUInt8 then do
      let _ ← ahead src 2 pos
      closing? src (pos + 2)
    else do
      let _ ← ahead src 1 pos
      closing? src (pos + 1)
  else pure none
termination_by src.length - pos

/-- A literal, with its quotes. -/
def literal (src : Bytes) (pos : Nat) : Reading (Bytes × Nat) := do
  let start ← ahead src 1 pos
  match ← closing? src start with
  | some stop =>
    let bytes ← slice src start stop
    let behind ← ahead src 1 stop
    return (bytes, behind)
  | none => fault .unterminatedLiteral pos

/-- A number of 64 bits. A number that does not fit is an error of the text, and not a breakdown. -/
def checked? (n : Nat) : Option Nat :=
  if n < UInt64.size then some n else none

/-- The number that decimal digits stand for behind those of `value`, where the first one stands at
`start`. -/
def digits (src : Bytes) (start value pos : Nat) : Reading (Nat × Nat) :=
  if h : pos < src.length then
    if Ascii.isDigit src[pos] then
      match (checked? (value * 10)).bind fun tens => checked? (tens + (src[pos].toNat - '0'.toNat)) with
      | some value => do
        let _ ← ahead src 1 pos
        digits src start value (pos + 1)
      | none => fault .indexOverflow start
    else pure (value, pos)
  else pure (value, pos)
termination_by src.length - pos

/-- A number, if there are digits. -/
def integer? (src : Bytes) (pos : Nat) : Reading (Option Nat × Nat) := do
  let (value, stop) ← digits src pos 0 pos
  return (if pos < stop then some value else none, stop)

/-! ## Filters

A comparison is two operands with an equality sign between them, and either side may be the
literal. Errors inside of a filter have places of their own. -/

/-- One side of a comparison. -/
def operand (src : Bytes) (pos : Nat) : Reading (Operand × Nat) :=
  match src[pos]? with
  | none => fault .unexpectedEnd pos
  | some b =>
    if b = '"'.toUInt8 then do
      let (bytes, behind) ← literal src pos
      return (.literal bytes, behind)
    else if b = '@'.toUInt8 then do
      let point ← ahead src 1 pos
      if src[point]? = some '.'.toUInt8 then
        let start ← ahead src 1 point
        if src[start]? = some '*'.toUInt8 then
          let behind ← ahead src 1 start
          return (.field .any, behind)
        else
          let (bytes, behind) ← name src start
          return (.field (.named bytes), behind)
      else fault (.malformedFilter .noPoint) point
    else fault (.malformedFilter .noOperand) pos

/-- The equality sign of a comparison, with the space behind it. -/
def equality (src : Bytes) (pos : Nat) : Reading Nat := do
  let sign ← skipSpace src pos
  let rest ← cut src sign
  if rest.take 2 = ['='.toUInt8, '='.toUInt8] then
    let behind ← ahead src 2 sign
    skipSpace src behind
  else fault (.malformedFilter .noEquality) sign

/-- The end of something that `bracket` has opened at some place. -/
def close (bracket closing : Char) (src : Bytes) (opened pos : Nat) : Reading Nat := do
  let stop ← skipSpace src pos
  match src[stop]? with
  | none => fault (.unbalanced bracket) opened
  | some b => if b = closing.toUInt8 then ahead src 1 stop else unexpected src stop

/-- A filter, with its question mark. -/
def filter (src : Bytes) (pos : Nat) : Reading (Filter × Nat) := do
  let paren ← ahead src 1 pos
  match src[paren]? with
  | none => fault .unexpectedEnd paren
  | some b =>
    if b = '('.toUInt8 then
      let start ← ahead src 1 paren
      let start ← skipSpace src start
      let (left, behind) ← operand src start
      let behind ← equality src behind
      let (right, behind) ← operand src behind
      let behind ← close '(' ')' src paren behind
      match Parser.compare? left right with
      | some filter => return (filter, behind)
      | none => fault (.malformedFilter .noLiteral) pos
    else unexpected src paren

/-! ## Segments

A segment starts with a dot, a bracket or a question mark, and what comes next decides which
rule it is. Behind the segment stands its mark, if it has one. -/

/-- A position or a range of positions. -/
def position (src : Bytes) (pos : Nat) : Reading (Selector × Nat) := do
  let (first, behind) ← integer? src pos
  let colon ← skipSpace src behind
  if src[colon]? = some ':'.toUInt8 then
    let start ← ahead src 1 colon
    let start ← skipSpace src start
    if src[start]? = some '-'.toUInt8 then fault .negativeIndex start
    else
      let (bound, behind) ← integer? src start
      return (.slice (first.getD 0) bound, behind)
  else
    match first with
    | some first => return (.index first, colon)
    | none => fault .emptyIndex colon

/-- What stands between brackets from `start` on, where the opening one stands at `pos`. -/
def content (src : Bytes) (pos start : Nat) : Reading (List Part × Nat) :=
  match src[start]? with
  | none => fault (.unbalanced '[') pos
  | some b =>
    if b = '*'.toUInt8 then do
      let behind ← ahead src 1 start
      return ([.selector .wildcard], behind)
    else if b = '?'.toUInt8 then do
      let (filter, behind) ← filter src start
      return ([.selector .wildcard, .filter filter], behind)
    else if b = '"'.toUInt8 then do
      let (bytes, behind) ← literal src start
      return ([.selector (.key bytes)], behind)
    else if Ascii.isDigit b || b = ':'.toUInt8 then do
      let (selector, behind) ← position src start
      return ([.selector selector], behind)
    else if b = '-'.toUInt8 then fault .negativeIndex start
    else if b = ']'.toUInt8 then fault .emptyIndex start
    else unexpected src start

/-- What stands between brackets, with the opening one and the space behind it. -/
def index (src : Bytes) (pos : Nat) : Reading (List Part × Nat) := do
  let start ← ahead src 1 pos
  let start ← skipSpace src start
  content src pos start

/-- A segment without its mark. -/
def segment (src : Bytes) (pos : Nat) : Reading (List Part × Nat) :=
  match src[pos]? with
  | none => fault .unexpectedEnd pos
  | some b =>
    if b = '.'.toUInt8 then do
      let start ← ahead src 1 pos
      if src[start]? = some '*'.toUInt8 then
        let behind ← ahead src 1 start
        return ([.selector .wildcard], behind)
      else
        let (bytes, behind) ← name src start
        return ([.selector (.key bytes)], behind)
    else if b = '['.toUInt8 then do
      let (parts, behind) ← index src pos
      let behind ← close '[' ']' src pos behind
      return (parts, behind)
    else if b = '?'.toUInt8 then do
      let (filter, behind) ← filter src pos
      return ([.filter filter], behind)
    else unexpected src pos

/-- A mark, if there is one. -/
def mark (src : Bytes) (pos : Nat) : Reading (Bool × Nat) :=
  if src[pos]? = some '+'.toUInt8 then do
    let behind ← ahead src 1 pos
    if src[behind]? = some '+'.toUInt8 then fault .repeatedMarker behind else return (true, behind)
  else return (false, pos)

/-- The links of all segments up to the end of a path. -/
def segments (src : Bytes) (pos : Nat) : Reading (List Link) :=
  if pos < src.length then do
    let (parts, behind) ← segment src pos
    let (marked, behind) ← mark src behind
    -- where nothing was read, the same would be read for ever
    if pos < behind then
      let links ← segments src behind
      return Link.ofParts marked parts ++ links
    else breakdown
  else return []
termination_by src.length - pos

/-- The links of a path. -/
def path (src : Bytes) : Reading (List Link) :=
  if src[0]? = some '$'.toUInt8 then do
    let start ← ahead src 1 0
    let (marked, behind) ← mark src start
    let links ← segments src behind
    return ⟨.selector .root, marked⟩ :: links
  else fault .expectedRoot 0

end JsonExtract.Path.Bytewise
