import JsonExtract.Path.Level
import JsonExtract.Path.Parser

/-!
# Paths

A path asks for values of a document. It is written as a text and followed by its levels.

* `Path` — the text, the links and the levels of a path;
* `Path.ofLinks` — levels come from links;
* `Path.parse`, `Path.parseAll` — paths from texts.
-/

namespace JsonExtract

/-- A path into documents. The links say what the text says, one for each selector and filter. The
levels are what a session follows. -/
structure Path where
  /-- the text of the path -/
  text : String
  /-- its links, in their order -/
  links : List Link
  /-- the levels to follow -/
  levels : List Level
  deriving DecidableEq, Repr

namespace Path

/-- The path of a chain of links, followed down to its deepest mark. -/
def ofLinks (text : String) (links : List Link) : Path :=
  ⟨text, links, Level.trim (Level.ofLinks links)⟩

/-- The number of marks. Each mark may ask for each value of a document once, so this bounds what
a value can give rise to. -/
def markCount (p : Path) : Nat :=
  p.links.countP (·.marked)

/-- The path that a text describes. An error stands where reading got stuck. -/
def parse (text : String) : Except PathError Path :=
  match Parser.path text.toList with
  | .ok links => .ok (ofLinks text links)
  | .error stuck =>
    .error ⟨stuck.fault, text.utf8ByteSize - (Bytes.ofChars stuck.rest).length⟩

/-- The paths that texts describe, or the first error. -/
def parseAll (texts : List String) : Except PathError (List Path) :=
  texts.mapM parse

end Path

end JsonExtract
