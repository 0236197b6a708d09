import JsonExtract.Session.Slot

/-!
# Open containers

While a container is open, a frame keeps what the paths that lead into it know about it: which of
their filters are decided, and which slots wait for the others.

* `Check` — a filter of an open container;
* `Trail` — a path that leads into an open container;
* `Frame` — an open container;
* `Frame.see`, `Frame.decided` — a member decides filters, and with them slots;
* `Frame.await` — a new slot waits for the undecided filters of its path.
-/

namespace JsonExtract

/-! ## Filters

A filter is decided at most once. As long as it is undecided it remembers the slots that wait
for it, so that they can be told the outcome when a member decides it or when the object is
closed without such a member. -/

/-- What is known about a filter. -/
inductive Status
  /-- a later member may decide it -/
  | undecided
  /-- the filter holds -/
  | holds
  /-- the filter does not hold -/
  | fails
  deriving DecidableEq, Repr

/-- A decided outcome. -/
def Status.ofBool : Bool → Status
  | true => holds
  | false => fails

/-- A filter on a value that has started. The filter itself stays the same. The status is decided
once, and the list of waiting slots is used when that happens. -/
structure Check where
  /-- the filter -/
  filter : Filter
  /-- what is known about it -/
  status : Status
  /-- the numbers of the slots that wait for it -/
  waiting : List Nat := []
  deriving DecidableEq, Repr

namespace Check

/-- A filter on a value that starts. Only an object can decide a filter on members later. -/
def start (isObject : Bool) (filter : Filter) : Check :=
  match filter.constant? with
  | some outcome => { filter, status := .ofBool outcome }
  | none => { filter, status := if isObject then .undecided else .fails }

/-- Whether a later member may decide the filter. -/
def isUndecided (c : Check) : Bool :=
  c.status = .undecided

/-- Whether the filter does not hold. -/
def isFailed (c : Check) : Bool :=
  c.status = .fails

/-- Makes a slot wait for the filter, if it is undecided. -/
def await (number : Nat) (c : Check) : Check :=
  if c.isUndecided then { c with waiting := number :: c.waiting } else c

/-- The outcome if a member decides the filter just now. -/
def decide? (name : Bytes) (text? : Option Bytes) (c : Check) : Option Bool :=
  if c.isUndecided then c.filter.decide? name text? else none

/-- The filter after a member was seen. -/
def see (name : Bytes) (text? : Option Bytes) (c : Check) : Check :=
  match c.decide? name text? with
  | some outcome => { c with status := .ofBool outcome, waiting := [] }
  | none => c

/-- The slots after a member was seen. -/
def decided (name : Bytes) (text? : Option Bytes) (c : Check) (slots : Slots) : Slots :=
  match c.decide? name text? with
  | some outcome => slots.decide outcome c.waiting
  | none => slots

/-- The slots after the object was closed. A filter that no member decided does not hold. -/
def closed (c : Check) (slots : Slots) : Slots :=
  if c.isUndecided then slots.decide false c.waiting else slots

end Check

/-! ## Paths

The state of a path in a container is the list of levels that it has left below. It does not
change while the container is open, since a path arrives at each child on its own; only the
filters on the container do. -/

/-- A path that leads into an open container. A frame has at most one for each path. -/
structure Trail where
  /-- the number of the path in its session -/
  owner : Nat
  /-- the text of the path -/
  path : String
  /-- the levels of the path below the container -/
  below : List Level
  /-- the filters on the container -/
  checks : List Check
  deriving DecidableEq, Repr

/-- A path that leads to a value. -/
structure Arrival where
  /-- the number of the path in its session -/
  owner : Nat
  /-- the text of the path -/
  path : String
  /-- the level of the path that the value is on -/
  level : Level
  /-- the levels below -/
  below : List Level
  deriving DecidableEq, Repr

namespace Trail

/-- A path leads no further when one of its filters failed. -/
def isBlocked (t : Trail) : Bool :=
  t.checks.any (·.isFailed)

/-- The arrival of the path at a child, if it leads there. -/
def arrival? (child : Child) (t : Trail) : Option Arrival :=
  match t.below with
  | level :: below =>
    if !t.isBlocked && level.selector.selects child then some ⟨t.owner, t.path, level, below⟩
    else none
  | [] => none

end Trail

/-- The arrival of a path at a value that stands in no container. -/
def Path.arrival? (owner : Nat) (p : Path) : Option Arrival :=
  match p.levels with
  | level :: below => some ⟨owner, p.text, level, below⟩
  | [] => none

/-! ## Containers

A frame is all that is kept about an open container, whatever its size. Of the members that have
been read only their number, the name of the last one and the outcomes of filters remain. -/

/-- A container whose text is kept. The end of the text is not noted, as it is the end of the tape
when the container is closed. -/
structure Recording where
  /-- where the text of the container starts on the tape -/
  start : Nat
  /-- the numbers of the slots that the text is for -/
  slots : List Nat
  deriving DecidableEq, Repr

/-- An open container. The frames of a walk form a stack, and a frame is changed only while it is
on top, apart from slots that are made to wait for its filters. -/
structure Frame where
  /-- which container it is -/
  container : Container
  /-- number of members or elements that have started -/
  count : Nat := 0
  /-- the name of the last member, kept while a path leads into the container -/
  name : Bytes := []
  /-- the paths that lead into the container -/
  trails : List Trail
  /-- where the text of the container goes, if it goes anywhere -/
  recording? : Option Recording
  deriving DecidableEq, Repr

namespace Frame

/-- The step to the last member or element. -/
def step (f : Frame) : Step :=
  match f.container with
  | .object => .key f.name
  | .array => .index (f.count - 1)

/-- Where the next value stands. The name of a member was read before, while the position of an
element is found by counting. -/
def child (f : Frame) : Child :=
  match f.container with
  | .object => .member f.name
  | .array => .element f.count

/-- All filters on the container. -/
def checks (f : Frame) : List Check :=
  f.trails.flatMap (·.checks)

/-- Changes all filters on the container. -/
def mapChecks (change : Check → Check) (f : Frame) : Frame :=
  { f with trails := f.trails.map fun t => { t with checks := t.checks.map change } }

/-- The frame after a value was seen; only members decide filters. -/
def see (text? : Option Bytes) (f : Frame) : Frame :=
  match f.container with
  | .object => f.mapChecks (·.see f.name text?)
  | .array => f

/-- The slots after a value was seen. -/
def decided (text? : Option Bytes) (f : Frame) (slots : Slots) : Slots :=
  match f.container with
  | .object => f.checks.foldl (fun slots c => c.decided f.name text? slots) slots
  | .array => slots

/-- The slots after the container was closed. -/
def closed (f : Frame) (slots : Slots) : Slots :=
  f.checks.foldl (fun slots c => c.closed slots) slots

/-- The filters of one path on the container. -/
def checksOf (owner : Nat) (f : Frame) : List Check :=
  (f.trails.filter (·.owner = owner)).flatMap (·.checks)

/-- Makes a slot wait for the undecided filters of its path. -/
def await (owner number : Nat) (f : Frame) : Frame :=
  { f with
    trails := f.trails.map fun t =>
      if t.owner = owner then { t with checks := t.checks.map (·.await number) } else t }

end Frame

end JsonExtract
