import JsonExtract.Path.Basic
import JsonExtract.Proofs.Document.Tree
import JsonExtract.Session.Slot

/-!
# What paths ask for

The meaning of paths, with the whole document at hand as a tree. Nothing here knows of tokens, frames
or levels: a filter looks at all members of an object at once, and a chain of links either leads to a
place in the document or does not.

* `Tree.text?`, `Filter.holds` — whether a value passes a filter;
* `Way`, `Tree.places` — all values of a document, each with the way to it;
* `Link.lead`, `Link.untilMarks` — where the links of a path lead, and where they are marked;
* `Path.matchesAt`, `Path.matchesIn` — the matches of paths at one place and in a whole document.
-/

namespace JsonExtract

/-! ## Filters

A filter is asked of a complete object here. Whether the member that decides it stands in front
of the values of interest or behind them plays no part. -/

namespace Tree

/-- The text that filters compare; containers have none. -/
def text? : Tree → Option Bytes
  | scalar s => some s.text
  | array _ | object _ => none

/-- The members of an object; other values have none. -/
def members : Tree → List (Bytes × Tree)
  | object members => members
  | scalar _ | array _ => []

end Tree

/-- Whether members have the wanted text: the first one of a name, or any one at all. -/
def Field.equals (literal : Bytes) (members : List (Bytes × Tree)) : Field → Bool
  | named name => (members.find? (·.1 == name)).any (·.2.text? == some literal)
  | any => members.any (·.2.text? == some literal)

/-- Whether a value passes a filter. This needs no tokens and no order of events. -/
def Filter.holds (v : Tree) : Filter → Bool
  | literals left right => left == right
  | member field literal => field.equals literal v.members

/-! ## Places

A document has one place for each value in it, and the way to a place tells the route of a
match. The places are listed in the order in which the values start, which is the order of the
matches. -/

/-- The step of a route to a child. -/
def Child.step : Child → Step
  | member name => .key name
  | element position => .index position

/-- A way down a document: where each step goes, and the value it gets to. -/
abbrev Way := List (Child × Tree)

/-- The route along a way. -/
def Way.route (way : Way) : Route :=
  way.map (·.1.step)

namespace Tree

/-- A child is smaller than its parent. -/
theorem sizeOf_child_lt {t : Tree} {c : Child × Tree} (h : c ∈ t.children) :
    sizeOf c.2 < sizeOf t := by
  cases t with
  | scalar s => cases h
  | array elements =>
    obtain ⟨e, he, rfl⟩ := List.mem_map.1 h
    exact sizeOf_element_lt (List.fst_mem_of_mem_zipIdx he)
  | object members =>
    obtain ⟨m, hm, rfl⟩ := List.mem_map.1 h
    exact sizeOf_member_lt hm

/-- All values of a document in the order in which they start, each with the way to it. The list
begins with the document itself, whose way is empty. -/
def places (t : Tree) : List (Way × Tree) :=
  ([], t) :: t.children.attach.flatMap fun ⟨c, _⟩ =>
    c.2.places.map fun place => (c :: place.1, place.2)
termination_by sizeOf t
decreasing_by exact sizeOf_child_lt ‹_›

theorem places_eq (t : Tree) :
    t.places =
      ([], t) :: t.children.flatMap fun c =>
        c.2.places.map fun place => (c :: place.1, place.2) := by
  rw [places, List.flatMap_subtype fun _ _ => rfl, List.unattach_attach]

end Tree

/-! ## Links

Each link of a path is either a filter on the value reached so far, or a selector that takes one
step. A mark splits the path: the links up to it must lead to the end of the way, and what comes
behind the mark has no influence. -/

namespace Link

/-- Whether links lead from a value to the end of a way. Each selector takes one step and selects
the child it gets to; each filter holds of the value it stands at. The way is used up by the
selectors, and nothing of it may be left. -/
def lead : List Link → Tree → Way → Bool
  | [], _, way => way.isEmpty
  | link :: links, v, way =>
    match link.part, way with
    | .filter filter, way => filter.holds v && lead links v way
    | .selector selector, (child, u) :: way => selector.selects child && lead links u way
    | .selector _, [] => false

/-- Whether the links of a path lead from the top of a document to the end of a way. The first one
selects the value that stands in no container. -/
def reach (links : List Link) (t : Tree) (way : Way) : Bool :=
  match links with
  | ⟨.selector .root, _⟩ :: links => lead links t way
  | _ => false

/-- The links up to each mark, the shortest first. The links behind a mark are left out, and so is
a mark in front of it. -/
def untilMarks : List Link → List (List Link)
  | [] => []
  | link :: links => (if link.marked then [[link]] else []) ++ (untilMarks links).map (link :: ·)

end Link

/-! ## Matches

At each place the paths are gone through in their order and the marks of a path in theirs, and
each mark whose links lead there gives a match. -/

namespace Path

/-- The matches of a path at one place: one for each mark that the links lead to it with. -/
def matchesAt (t : Tree) (place : Way × Tree) (p : Path) : List Match :=
  ((Link.untilMarks p.links).filter fun links => Link.reach links t place.1).map fun _ =>
    { path := p.text, value := place.2.text, kind := place.2.kind, route := place.1.route }

/-- The matches of several paths in a document: place by place, and path by path at each place.
This is the specification of an extraction. -/
def matchesIn (t : Tree) (paths : List Path) : List Match :=
  t.places.flatMap fun place => paths.flatMap (matchesAt t place)

end Path

end JsonExtract
