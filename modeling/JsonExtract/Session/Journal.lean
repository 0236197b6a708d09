import JsonExtract.Session.Basic

/-!
# The journal of a session

What there is to tell about an extraction: the paths that were read, the start, the slots that were
reserved, and the end.

* `Entry`, `Entry.grade`, `Entry.message` — an entry, how much it matters, and its text;
* `Journal.ofTexts` — the entries about the paths;
* `Session.journal` — the entries about a session.
-/

namespace JsonExtract

/-- How much an entry matters. -/
inductive Grade
  /-- only to those who follow every step -/
  | trace
  /-- to those who look for something -/
  | debug
  /-- to everyone -/
  | warn
  deriving DecidableEq, Repr

/-- The name of a grade. -/
def Grade.name : Grade → String
  | trace => "trace"
  | debug => "debug"
  | warn => "warn"

/-- An entry of a journal. Entries keep the data that their texts are made of, so that a text can
be compared with the session it is about. -/
inductive Entry
  /-- a path was read -/
  | parsed (path : Path)
  /-- the text of a path was refused -/
  | refused (text : String) (error : PathError)
  /-- a session started -/
  | started (paths : List String)
  /-- a slot was reserved -/
  | reserved (number : Nat) (slot : Slot)
  /-- the document was read to its end -/
  | finished (paths found : Nat)
  /-- something ended the session early -/
  | aborted (paths found : Nat) (failure : Failure)
  deriving DecidableEq, Repr

namespace Entry

/-- How much an entry matters. -/
def grade : Entry → Grade
  | reserved .. => .trace
  | aborted .. => .warn
  | parsed _ | refused .. | started _ | finished .. => .debug

/-- A text in quotes. -/
def quote (text : String) : String :=
  String.ofList (Escape.quoted text.toList)

/-- The text of an entry. -/
def message : Entry → String
  | parsed path =>
    "compiled path " ++ quote path.text ++ ": " ++ toString path.links.length ++ " selectors, " ++
      toString path.levels.length ++ " levels"
  | refused text error => "rejected path " ++ quote text ++ ": " ++ error.message
  | started paths => "starting evaluation of [" ++ ", ".intercalate (paths.map quote) ++ "]"
  | reserved number slot =>
    "staged slot " ++ toString number ++ " (" ++ slot.kind.name ++ ") of " ++ quote slot.path ++
      " at bytes " ++ toString slot.start ++ ".." ++ toString slot.stop ++ ", " ++
      toString slot.awaited ++ " guards pending"
  | finished paths found =>
    "evaluation of " ++ toString paths ++ " paths reached end of input after " ++ toString found ++
      " matches"
  | aborted paths found failure =>
    "evaluation of " ++ toString paths ++ " paths aborted after " ++ toString found ++
      " matches: " ++ failure.message

end Entry

/-- The entries about reading paths, up to the first that is refused. -/
def Journal.ofTexts : List String → List Entry
  | [] => []
  | text :: more =>
    match Path.parse text with
    | .ok path => .parsed path :: ofTexts more
    | .error error => [.refused text error]

namespace Session

variable {σ : Type} (s : Session σ)

/-- The entry about the end of the document, once it was met. -/
def closingEntry : List Entry :=
  match s.ending? with
  | none => []
  | some ⟨none, given⟩ => [.finished s.paths.length given]
  | some ⟨some failure, given⟩ => [.aborted s.paths.length given failure]

/-- All entries about a session. Slots are reserved only before the end of the document is met. -/
def journal : List Entry :=
  .started (s.paths.map (·.text)) ::
    (s.walk.slots.toList.zipIdx.map fun (slot, number) => .reserved number slot) ++ s.closingEntry

end Session

end JsonExtract
