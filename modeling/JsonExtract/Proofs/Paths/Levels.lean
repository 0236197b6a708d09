import JsonExtract.Proofs.Walk.Notices

/-!
# Links in levels

The levels of a path know selectors and filters by their places in the chain of links. There is a level
for each selector from the first on, down to the deepest mark, and it has the filters between its
selector and the next.

* `Link.selectorPlaces`, `Link.filterPlaces` — where selectors and filters stand;
* `Level.places_collect`, `Level.guards_collect` — which of these places levels have;
* `Level.FitsLinks` — a level has what stands at its places;
* `Path.Planned`, `Path.planned_of_parse` — the levels of every path from a text.
-/

namespace JsonExtract

/-! ## Places

A level and a guard are identified by the places of their links in the chain. These places are
counted from the front, over selectors and filters alike. -/

namespace Link

/-- The places of some links in a chain, the first of which stands at `place`. The same function
gives the places of selectors and those of filters. -/
def placesWhere (p : Link → Bool) (place : Nat) (links : List Link) : List Nat :=
  ((links.zipIdx place).filter (p ·.1)).map (·.2)

/-- The places of selectors in a chain of links. -/
def selectorPlaces : Nat → List Link → List Nat :=
  placesWhere (·.part.isSelector)

/-- The places of filters in a chain of links. -/
def filterPlaces : Nat → List Link → List Nat :=
  placesWhere (!·.part.isSelector)

variable {p : Link → Bool} {place : Nat} {link : Link} {links : List Link}

theorem placesWhere_cons_pos (h : p link = true) :
    placesWhere p place (link :: links) = place :: placesWhere p (place + 1) links := by
  rw [placesWhere, List.zipIdx_cons, List.filter_cons_of_pos (by exact h), List.map_cons, placesWhere]

theorem placesWhere_cons_neg (h : p link = false) :
    placesWhere p place (link :: links) = placesWhere p (place + 1) links := by
  rw [placesWhere, List.zipIdx_cons, List.filter_cons_of_neg (by simp [h]), placesWhere]

theorem le_of_mem_placesWhere {i : Nat} (h : i ∈ placesWhere p place links) : place ≤ i := by
  obtain ⟨x, hx, rfl⟩ := List.mem_map.1 h
  exact List.le_snd_of_mem_zipIdx (List.mem_filter.1 hx).1

variable (place links)

/-- A selector in front of a chain stands in front of all its filters. -/
theorem places_selector (s : Selector) (marked : Bool) :
    selectorPlaces place (⟨.selector s, marked⟩ :: links) = place :: selectorPlaces (place + 1) links ∧
      filterPlaces place (⟨.selector s, marked⟩ :: links) = filterPlaces (place + 1) links :=
  ⟨placesWhere_cons_pos rfl, placesWhere_cons_neg rfl⟩

/-- A filter in front of a chain stands in front of all its selectors. -/
theorem places_filter (f : Filter) (marked : Bool) :
    selectorPlaces place (⟨.filter f, marked⟩ :: links) = selectorPlaces (place + 1) links ∧
      filterPlaces place (⟨.filter f, marked⟩ :: links) = place :: filterPlaces (place + 1) links :=
  ⟨placesWhere_cons_neg rfl, placesWhere_cons_pos rfl⟩

end Link

namespace Level

open Link (selectorPlaces filterPlaces)

variable (place : Nat) (links : List Link)

/-- There is a level for each selector. -/
theorem places_collect : (collect place links).2.map (·.place) = selectorPlaces place links := by
  induction links generalizing place with
  | nil => rfl
  | cons link links ih =>
    obtain ⟨part, marked⟩ := link
    cases part with
    | selector s =>
      rw [(Link.places_selector place links s marked).1, ← ih]
      rfl
    | filter f =>
      rw [(Link.places_filter place links f marked).1, ← ih]
      rfl

/-- The filters that wait are those in front of the first selector. -/
theorem waiting_collect : (collect place links).1.map (·.guard.place) =
    (filterPlaces place links).filter fun j => (selectorPlaces place links)[0]?.all (j < ·) := by
  induction links generalizing place with
  | nil => rfl
  | cons link links ih =>
    obtain ⟨part, marked⟩ := link
    cases part with
    | selector s =>
      obtain ⟨hselectors, hfilters⟩ := Link.places_selector place links s marked
      rw [hselectors, hfilters, List.getElem?_cons_zero]
      refine (List.filter_eq_nil_iff.2 fun j hj => ?_).symm
      have hlt : place < j := Link.le_of_mem_placesWhere hj
      rw [Option.all_some, decide_eq_true_eq]
      exact Nat.lt_asymm hlt
    | filter f =>
      obtain ⟨hselectors, hfilters⟩ := Link.places_filter place links f marked
      have hfirst : (selectorPlaces (place + 1) links)[0]?.all (place < ·) = true := by
        rw [Option.all_eq_true]
        exact fun i hi => decide_eq_true (Link.le_of_mem_placesWhere (List.mem_of_getElem? hi))
      rw [hselectors, hfilters, List.filter_cons_of_pos (by exact hfirst), ← ih]
      rfl

/-- The filters of a level are those between its selector and the next. A filter belongs to the
last selector in front of it. -/
theorem guards_collect {i : Nat} {level : Level} (h : (collect place links).2[i]? = some level) :
    level.guards.map (·.place) = (filterPlaces place links).filter fun j =>
      level.place < j && (selectorPlaces place links)[i + 1]?.all (j < ·) := by
  induction links generalizing place i with
  | nil => cases h
  | cons link links ih =>
    obtain ⟨part, marked⟩ := link
    cases part with
    | selector s =>
      obtain ⟨hselectors, hfilters⟩ := Link.places_selector place links s marked
      rw [hselectors, hfilters, List.getElem?_cons_succ]
      cases i with
      | succ i => exact ih (place + 1) h
      | zero =>
        -- the first level has the filters that wait for its selector
        cases h
        rw [List.map_map]
        refine (waiting_collect (place + 1) links).trans (List.filter_congr fun j hj => ?_)
        have hlt : place < j := Link.le_of_mem_placesWhere hj
        rw [decide_eq_true hlt, Bool.true_and]
    | filter f =>
      obtain ⟨hselectors, hfilters⟩ := Link.places_filter place links f marked
      have hmem : level.place ∈ selectorPlaces (place + 1) links :=
        places_collect (place + 1) links ▸ List.mem_map_of_mem (List.mem_of_getElem? h)
      have hlt : place < level.place := Link.le_of_mem_placesWhere hmem
      rw [hselectors, hfilters, List.filter_cons, decide_eq_false (Nat.lt_asymm hlt), Bool.false_and]
      exact ih (place + 1) h

/-! ## Marks

The marks of a level are numbers of guards, one for each mark on its selector or on a filter
behind it. They are in order because the filters are. -/

/-- Marks are in order, and each is behind some of the filters. -/
theorem marksOf_ordered (marked : Bool) (waiting : List Waiting) :
    (marksOf marked waiting).Pairwise (· < ·) ∧ ∀ count ∈ marksOf marked waiting, count ≤ waiting.length := by
  have hlater : ∀ first, ((waiting.zipIdx first).filterMap fun p =>
        if p.1.marked then some p.2 else none).Pairwise (· < ·) ∧
      ∀ count ∈ (waiting.zipIdx first).filterMap fun p => if p.1.marked then some p.2 else none,
        first ≤ count ∧ count < first + waiting.length := by
    induction waiting with
    | nil => exact fun first => ⟨.nil, fun _ h => absurd h List.not_mem_nil⟩
    | cons w waiting ih =>
      intro first
      obtain ⟨hordered, hbounds⟩ := ih (first + 1)
      rw [List.zipIdx_cons, List.filterMap_cons, List.length_cons]
      cases w.marked with
      | false => exact ⟨hordered, fun count hc => by have := hbounds count hc; omega⟩
      | true =>
        refine ⟨List.pairwise_cons.2 ⟨fun count hc => (hbounds count hc).1, hordered⟩, fun count hc => ?_⟩
        rcases List.mem_cons.1 hc with rfl | hc
        · exact ⟨Nat.le_refl _, Nat.lt_add_of_pos_right (Nat.succ_pos _)⟩
        · have := hbounds count hc
          omega
  obtain ⟨hordered, hbounds⟩ := hlater 1
  rw [marksOf]
  cases marked with
  | false => exact ⟨hordered, fun count hc => by have := hbounds count hc; omega⟩
  | true =>
    refine ⟨List.pairwise_cons.2 ⟨fun count hc => (hbounds count hc).1, hordered⟩, fun count hc => ?_⟩
    rcases List.mem_cons.1 hc with rfl | hc
    · exact Nat.zero_le _
    · have := hbounds count hc
      omega

/-- Levels that are dropped have no marks. -/
theorem sum_marks_trimAll (levels : List Level) :
    ((trimAll levels).map (·.marks.length)).sum = (levels.map (·.marks.length)).sum := by
  induction levels with
  | nil => rfl
  | cons level below ih =>
    rw [List.map_cons, List.sum_cons, ← ih, trimAll]
    split
    · next hkept =>
      rw [hkept]
      split
      · next hm => rw [List.isEmpty_iff.1 hm]; rfl
      · rfl
    · rfl

/-! ## What stands at the places

Collecting goes through the links from the back, and each link keeps the place it has in the
chain. So looking up a place in the chain gives the selector or the filter that the level was
made from. -/

/-- A level has the selector and the filters that stand at its places, and its marks are in order.
The levels hold copies of what stands in the links, which could differ in principle. -/
structure FitsLinks (links : List Link) (level : Level) : Prop where
  /-- the selector stands at the place of the level -/
  selector : links[level.place]?.map (·.part) = some (.selector level.selector)
  /-- filters stand at the places of the guards -/
  filter : ∀ g ∈ level.guards, links[g.place]?.map (·.part) = some (.filter g.filter)
  /-- marks go up, and none is there twice -/
  ordered : level.marks.Pairwise (· < ·)
  /-- each mark is behind some of the filters -/
  bounded : ∀ count ∈ level.marks, count ≤ level.guards.length

/-- Links that are put into levels stay where they are; `front` are links in front of them. -/
theorem fits_collect (front : List Link) :
    (∀ w ∈ (collect front.length links).1,
      (front ++ links)[w.guard.place]?.map (·.part) = some (.filter w.guard.filter)) ∧
    ∀ level ∈ (collect front.length links).2, level.FitsLinks (front ++ links) := by
  induction links generalizing front with
  | nil => exact ⟨fun _ h => absurd h List.not_mem_nil, fun _ h => absurd h List.not_mem_nil⟩
  | cons link links ih =>
    obtain ⟨hwaiting, hlevels⟩ := ih (front ++ [link])
    rw [List.append_assoc, List.singleton_append, List.length_append, List.length_singleton]
      at hwaiting hlevels
    have hhere : (front ++ link :: links)[front.length]? = some link := by simp
    rw [collect]
    cases hpart : link.part with
    | selector s =>
      refine ⟨fun _ h => absurd h List.not_mem_nil, List.forall_mem_cons.2 ⟨?_, hlevels⟩⟩
      obtain ⟨hordered, hbounded⟩ := marksOf_ordered link.marked (collect (front.length + 1) links).1
      exact
        { selector := by rw [hhere, Option.map_some, hpart]
          filter := List.forall_mem_map.2 hwaiting
          ordered := hordered
          bounded := by rwa [List.length_map] }
    | filter f =>
      refine ⟨List.forall_mem_cons.2 ⟨?_, hwaiting⟩, hlevels⟩
      rw [hhere, Option.map_some, hpart]

end Level

/-! ## Paths

For the levels of a path read from a text this is put into one structure, with the root in
front. -/

namespace Path

open Link (selectorPlaces filterPlaces)

/-- The levels of a path are as its links say. The levels that are kept go down to the deepest
mark, so there may be fewer of them than selectors. -/
structure Planned (p : Path) : Prop where
  /-- the first level is for the value that stands in no container -/
  root : ∃ top below, p.levels = top :: below ∧ top.place = 0 ∧ top.selector = .root
  /-- levels are for the first selectors, in their order -/
  places : p.levels.map (·.place) <+: selectorPlaces 0 p.links
  /-- the filters of a level are those between its selector and the next -/
  guards : ∀ (i : Nat) (level : Level), p.levels[i]? = some level → level.guards.map (·.place) =
    (filterPlaces 0 p.links).filter fun j =>
      level.place < j && (selectorPlaces 0 p.links)[i + 1]?.all (j < ·)
  /-- each level fits the links -/
  fits : ∀ level ∈ p.levels, level.FitsLinks p.links
  /-- all marks are on levels -/
  sum : (p.levels.map (·.marks.length)).sum = p.markCount
  /-- the deepest level has a mark, unless it is the first -/
  deepest : ∀ level, p.levels.getLast? = some level → level.marks ≠ [] ∨ p.levels.length = 1

/-- The levels of a chain that starts at the top are as the chain says. -/
theorem planned_ofLinks (text : String) (marked : Bool) (links : List Link) :
    (ofLinks text (⟨.selector .root, marked⟩ :: links)).Planned := by
  generalize hlinks : (⟨.selector .root, marked⟩ :: links : List Link) = all
  obtain ⟨guards, marks, below, hcollect⟩ : ∃ guards marks below,
      (Level.collect 0 all).2 = ⟨0, .root, guards, marks⟩ :: below := by
    rw [← hlinks]
    exact ⟨_, _, _, rfl⟩
  have hlevels : (ofLinks text all).levels = ⟨0, .root, guards, marks⟩ :: Level.trimAll below := by
    rw [ofLinks, Level.ofLinks, hcollect, Level.trim]
  have hkept : (ofLinks text all).levels <+: (Level.collect 0 all).2 := by
    rw [hlevels, hcollect]
    exact List.cons_prefix_cons.2 ⟨rfl, Level.isPrefix_trimAll below⟩
  refine ⟨⟨_, _, hlevels, rfl, rfl⟩, ?_, fun i level hi => ?_, fun level hlevel => ?_, ?_,
    fun level hlast => ?_⟩
  · rw [show (ofLinks text all).links = all from rfl, ← Level.places_collect]
    exact hkept.map _
  · obtain ⟨dropped, hdropped⟩ := hkept
    refine Level.guards_collect 0 all ?_
    rw [← hdropped, List.getElem?_append_left (List.getElem?_eq_some_iff.1 hi).1, hi]
  · exact (Level.fits_collect all []).2 level (hkept.subset hlevel)
  · have hsum := Level.sum_length_collect 0 all
    have hwaiting : (Level.collect 0 all).1 = [] := by rw [← hlinks]; rfl
    rw [hwaiting, List.countP_nil, Nat.zero_add, hcollect, List.map_cons, List.sum_cons] at hsum
    rw [hlevels, List.map_cons, List.sum_cons, Level.sum_marks_trimAll, hsum]
    rfl
  · rw [hlevels] at hlast ⊢
    cases hbelow : Level.trimAll below with
    | nil => exact .inr rfl
    | cons next rest =>
      rw [hbelow, List.getLast?_cons_cons, ← hbelow] at hlast
      exact .inl (Level.marks_ne_nil_of_getLast?_trimAll hlast)

theorem planned_of_parse {text : String} {p : Path} (h : parse text = .ok p) : p.Planned := by
  obtain ⟨marked, links, rfl⟩ := exists_of_parse h
  exact planned_ofLinks text marked links

end Path

end JsonExtract
