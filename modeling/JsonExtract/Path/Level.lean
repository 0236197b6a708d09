import JsonExtract.Path.Selector

/-!
# The levels of a path

For following a path down a document, its links are put into levels: one for each selector, with the
filters behind it. Levels below the deepest mark cannot lead to anything that is asked for, so they
are dropped.

* `Guard`, `Level` — a filter with its place in the path; a selector with its filters and marks;
* `Level.ofLinks` — all levels of a chain of links;
* `Level.trim` — the levels down to the deepest mark.
-/

namespace JsonExtract

/-- A filter of a path. The place tells filters of one path apart that look the same. -/
structure Guard where
  /-- the place of the filter in the chain of links -/
  place : Nat
  /-- the filter -/
  filter : Filter
  deriving DecidableEq, Repr

/-- A selector of a path with all that belongs to it. A level is met when a path arrives at a
value one nesting level further down, and then it has all that has to be decided about this value. -/
structure Level where
  /-- the place of the selector in the chain of links -/
  place : Nat
  /-- the selector -/
  selector : Selector
  /-- the filters behind the selector, in their order -/
  guards : List Guard
  /-- for each mark, the number of filters in front of it -/
  marks : List Nat
  deriving DecidableEq, Repr

namespace Level

/-- A filter that waits for the selector in front of it. -/
structure Waiting where
  /-- the filter -/
  guard : Guard
  /-- whether the filter is marked -/
  marked : Bool
  deriving DecidableEq, Repr

/-- The marks on a selector and the filters behind it. -/
def marksOf (marked : Bool) (waiting : List Waiting) : List Nat :=
  (if marked then [0] else []) ++
    (waiting.zipIdx 1).filterMap fun (w, count) => if w.marked then some count else none

/-- The filters in front of the first selector, and the levels from that selector on; the first link
stands at `place`. -/
def collect (place : Nat) : List Link → List Waiting × List Level
  | [] => ([], [])
  | link :: rest =>
    let (waiting, levels) := collect (place + 1) rest
    match link.part with
    | .filter filter => (⟨⟨place, filter⟩, link.marked⟩ :: waiting, levels)
    | .selector selector =>
      ([], ⟨place, selector, waiting.map (·.guard), marksOf link.marked waiting⟩ :: levels)

/-- All levels of a chain of links. -/
def ofLinks (links : List Link) : List Level :=
  (collect 0 links).2

/-- The levels down to the deepest mark. -/
def trimAll : List Level → List Level
  | [] => []
  | level :: below =>
    match trimAll below with
    | [] => if level.marks.isEmpty then [] else [level]
    | kept => level :: kept

/-- The first level, and those below it down to the deepest mark. -/
def trim : List Level → List Level
  | [] => []
  | top :: below => top :: trimAll below

/-- Levels without marks are dropped from the end only. -/
theorem isPrefix_trimAll (levels : List Level) : trimAll levels <+: levels := by
  induction levels with
  | nil => exact List.nil_prefix
  | cons level below ih =>
    rw [trimAll]
    split
    · split
      · exact List.nil_prefix
      · exact List.cons_prefix_cons.2 ⟨rfl, List.nil_prefix⟩
    · exact List.cons_prefix_cons.2 ⟨rfl, ih⟩

/-- The deepest level that is kept has a mark. -/
theorem marks_ne_nil_of_getLast?_trimAll {levels : List Level} {deepest : Level}
    (h : (trimAll levels).getLast? = some deepest) : deepest.marks ≠ [] := by
  induction levels with
  | nil => simp [trimAll] at h
  | cons level below ih =>
    rw [trimAll] at h
    split at h
    · split at h
      · simp at h
      · next hm => cases h; simpa using hm
    · next hne =>
      rw [List.getLast?_cons_of_ne_nil (by simpa using hne)] at h
      exact ih h

end Level

end JsonExtract
