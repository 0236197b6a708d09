import JsonExtract.Session.Frame
import JsonExtract.Token.Basic

/-!
# Walking down a document

The walk follows the tokens of a document with all paths of a session at once. It keeps a frame for
each open container, reserves slots for the values that are asked for, and writes the text of
containers that are asked for on a tape. All such containers share the tape, and it is emptied when
the last one is closed.

* `Value` — a value that starts;
* `Walk` — the state of the walk;
* `Walk.enter` — which paths lead to a value;
* `Walk.arrive`, `Walk.name`, `Walk.close` — what a token does;
* `Walk.token` — one step of the walk.
-/

namespace JsonExtract

/-- A value that starts. A container has its opening bracket for a token, so `stop` is then behind
the bracket and not at the end of the container. -/
structure Value where
  /-- the kind of the value -/
  kind : Kind
  /-- the token that starts it -/
  raw : Bytes
  /-- number of bytes in front of the token -/
  start : Nat
  /-- number of bytes up to its end -/
  stop : Nat
  deriving DecidableEq, Repr

/-- The text that filters compare; containers have none. -/
def Value.text? (v : Value) : Option Bytes :=
  match v.kind with
  | .object | .array => none
  | .string => some (Bytes.stripQuotes v.raw)
  | .number | .boolean | .null => some v.raw

/-- The state of a walk. It knows nothing of bytes and phases: all it depends on are the paths and
the tokens. -/
structure Walk where
  /-- the open containers, the innermost first -/
  frames : List Frame := []
  /-- all slots so far -/
  slots : Slots := #[]
  /-- the text of the open containers that are asked for -/
  tape : Array UInt8 := #[]
  /-- number of open containers that are asked for -/
  recordings : Nat := 0
  deriving DecidableEq, Repr

namespace Walk

/-! ## The tape

Containers that are asked for may stand in one another. Their texts then overlap, so each byte
is written once and a recording is a place on the tape where a text starts. -/

/-- Writes on the tape, if any open container is asked for. -/
def write (bytes : Bytes) (w : Walk) : Walk :=
  if w.recordings = 0 then w else { w with tape := w.tape ++ bytes }

/-- Writes the comma in front of a member or an element that is not the first. -/
def writeComma (f : Frame) (w : Walk) : Walk :=
  if f.count = 0 then w else w.write [Ascii.comma]

/-! ## Entering values

Two things happen in an order that matters: the value is first shown to the filters of its
parent, and only then are the paths asked whether they lead to it. A member that makes a filter
fail is itself no longer reached. -/

/-- Enters a value into its parent, and finds the paths that lead to it. The value may decide
filters of its parent first, and a path whose filter it fails leads no further, not even to this
value. -/
def enter (paths : List Path) (v : Value) (w : Walk) : List Arrival × Walk :=
  match w.frames with
  | [] => (paths.zipIdx.filterMap fun (p, owner) => p.arrival? owner, w)
  | parent :: outer =>
    let seen := parent.see v.text?
    let written := match parent.container with
      | .object => w
      | .array => w.writeComma parent
    (seen.trails.filterMap (·.arrival? parent.child),
      { written with
        frames := { seen with count := parent.count + 1 } :: outer
        slots := parent.decided v.text? written.slots })

/-! ## Reserving slots

A slot is reserved when the value starts, although its text and the outcomes of its filters come
later. This is what puts matches into the order in which they start. A level may hold several
marks with filters between them, so slots are reserved mark by mark and each waits for the
filters in front of its own. -/

/-- A walk that reserves slots for an arrival. -/
structure Staging where
  /-- the walk -/
  walk : Walk
  /-- the filters on the value -/
  checks : List Check
  /-- the numbers of the slots reserved for the value, the last one first -/
  reserved : List Nat

/-- Reserves a slot for a mark behind `count` filters, unless one of them has failed. The slot waits
for all undecided filters of its path: those of the open containers, and the first `count` of its
own. -/
def Staging.mark (v : Value) (a : Arrival) (s : Staging) (count : Nat) : Staging :=
  let own := s.checks.take count
  if own.any (·.isFailed) then s
  else
    let frames := s.walk.frames
    let number := s.walk.slots.size
    let awaited := (frames.flatMap (·.checksOf a.owner) ++ own).countP (·.isUndecided)
    let slot :=
      { owner := a.owner, path := a.path, kind := v.kind, route := (frames.map (·.step)).reverse
        start := v.start, stop := v.stop, awaited, pending := awaited }
    { walk :=
        { s.walk with
          frames := frames.map (·.await a.owner number)
          slots := s.walk.slots.push slot }
      checks := own.map (·.await number) ++ s.checks.drop count
      reserved := number :: s.reserved }

/-- A walk with the trails and the slots of a value. -/
structure Placement where
  /-- the walk -/
  walk : Walk
  /-- the paths that lead into the value, the last one first -/
  trails : List Trail := []
  /-- the numbers of the slots reserved for the value, the last one first -/
  reserved : List Nat := []

/-- Reserves slots for all marks of an arrival. -/
def Placement.arrive (v : Value) (p : Placement) (a : Arrival) : Placement :=
  let checks := a.level.guards.map fun g => Check.start (v.kind = .object) g.filter
  let staged := a.level.marks.foldl (Staging.mark v a) ⟨p.walk, checks, p.reserved⟩
  { walk := staged.walk
    trails := ⟨a.owner, a.path, a.below, staged.checks⟩ :: p.trails
    reserved := staged.reserved }

/-! ## Tokens

Each token that the lexer delivers becomes one step of the walk. The steps are total: where no
container is open, a name or a closing bracket changes nothing, and the lexer delivers neither
there. -/

/-- Opens a container; its text goes to the reserved slots. -/
def openFrame (container : Container) (p : Placement) : Walk :=
  let recording? :=
    if p.reserved.isEmpty then none else some ⟨p.walk.tape.size, p.reserved.reverse⟩
  let recordings := if p.reserved.isEmpty then p.walk.recordings else p.walk.recordings + 1
  write [container.opening]
    { p.walk with
      frames := { container, trails := p.trails.reverse, recording? } :: p.walk.frames
      recordings }

/-- Completes a scalar for the reserved slots. -/
def completeScalar (raw : Bytes) (p : Placement) : Walk :=
  write raw { p.walk with slots := p.walk.slots.complete raw p.reserved.reverse }

/-- Starts a value. First the parent takes notice of it, then slots are reserved for all paths
that lead to it, and only then it becomes a frame or a completed scalar. -/
def arrive (paths : List Path) (v : Value) (w : Walk) : Walk :=
  let (arrivals, entered) := w.enter paths v
  let placed := arrivals.foldl (Placement.arrive v) { walk := entered }
  match v.kind.container? with
  | some container => openFrame container placed
  | none => completeScalar v.raw placed

/-- Reads the name of a member. -/
def name (raw : Bytes) (w : Walk) : Walk :=
  match w.frames with
  | [] => w
  | f :: outer =>
    let written := ((w.writeComma f).write raw).write [Ascii.colon]
    -- without a path into the object nobody asks for the name
    if f.trails.isEmpty then written
    else { written with frames := { f with name := Bytes.stripQuotes raw } :: outer }

/-- Closes the innermost container. Its text goes from the start of its recording to the end of the
tape, since containers inside of it have left theirs there. -/
def close (w : Walk) : Walk :=
  match w.frames with
  | [] => w
  | f :: outer =>
    let written := write [f.container.closing] { w with frames := outer, slots := f.closed w.slots }
    match f.recording? with
    | none => written
    | some recording =>
      let value := (written.tape.extract recording.start written.tape.size).toList
      { written with
        slots := written.slots.complete value recording.slots
        recordings := written.recordings - 1
        tape := if written.recordings = 1 then #[] else written.tape }

/-- Takes in a token. Only the start of a value can reserve slots; names and closing brackets
decide about those that are there. -/
def token (paths : List Path) (lexed : Lexed) (w : Walk) : Walk :=
  match lexed.token with
  | .name raw => w.name raw
  | .scalar kind raw => w.arrive paths ⟨kind, raw, lexed.start, lexed.stop⟩
  | .opening c => w.arrive paths ⟨c.kind, [c.opening], lexed.start, lexed.stop⟩
  | .closing _ => w.close

end Walk

end JsonExtract
