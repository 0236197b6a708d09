import JsonExtract.Proofs.Extraction.Reference

/-!
# What levels ask for

A walk follows the levels of a path, which come from its links: filters are gathered behind their
selector, marks become counts of filters, and levels without marks at the end are dropped. None of
this changes how often a path asks for a value.

* `Level.hits` — how often levels ask for the value at the end of a way;
* `Level.hits_trim` — levels that are dropped ask for nothing;
* `Level.length_reach` — levels ask for what their links ask for;
* `Path.matchesAt_eq_replicate` — the matches of a path from a text, by its levels.
-/

namespace JsonExtract

namespace Level

/-- How often levels ask for the value at the end of a way, once the first level has selected the
value in front. A filter at a higher level must hold, whereas on the last level only the filters
in front of a mark count. -/
def hits : List Level → Tree → Way → Nat
  | [], _, _ => 0
  | level :: _, t, [] => level.marks.countP fun count =>
    (level.guards.take count).all (·.filter.holds t)
  | level :: below, t, (child, u) :: way =>
    if level.guards.all (·.filter.holds t) && below.head?.any (·.selector.selects child) then
      hits below u way
    else 0

/-- How often levels ask for the value at the end of a way that starts with the step to a child. -/
def hitsBelow (levels : List Level) (c : Child × Tree) (way : Way) : Nat :=
  if levels.head?.any (·.selector.selects c.1) then hits levels c.2 way else 0

theorem hits_cons (level : Level) (below : List Level) (t : Tree) (c : Child × Tree) (way : Way) :
    hits (level :: below) t (c :: way) =
      if level.guards.all (·.filter.holds t) then hitsBelow below c way else 0 := by
  rw [hits, hitsBelow]
  cases level.guards.all (·.filter.holds t) <;> simp

/-! ## Levels that are dropped

Levels without a mark, below the deepest one, are cut off when a path is read. They ask for
nothing, so the count is the same with them and without them. -/

theorem hits_nil (t : Tree) (way : Way) : hits [] t way = 0 := by
  rw [hits]

theorem hitsBelow_nil (c : Child × Tree) (way : Way) : hitsBelow [] c way = 0 := rfl

theorem hitsBelow_congr {kept levels : List Level} (hp : kept <+: levels)
    (h : ∀ t way, hits kept t way = hits levels t way) (c : Child × Tree) (way : Way) :
    hitsBelow kept c way = hitsBelow levels c way := by
  rw [hitsBelow, hitsBelow, h]
  cases kept with
  | nil => rw [← h, hits_nil, ite_self, ite_self]
  | cons level below =>
    obtain ⟨rest, rfl⟩ := hp
    rfl

/-- Below the deepest mark nothing is asked for. -/
theorem hits_trimAll (levels : List Level) (t : Tree) (way : Way) :
    hits (trimAll levels) t way = hits levels t way := by
  induction levels generalizing t way with
  | nil => rfl
  | cons level below ih =>
    have hbelow := hitsBelow_congr (isPrefix_trimAll below) ih
    rw [trimAll.eq_def]
    simp only
    split
    -- a level is dropped only with all levels below it, and if it has no marks
    · next hkept =>
      rw [hkept] at hbelow
      split
      · next hm =>
        cases way with
        | nil => rw [hits_nil, hits, List.isEmpty_iff.1 hm]; rfl
        | cons c way => rw [hits_nil, hits_cons, ← hbelow, hitsBelow_nil, ite_self]
      · cases way with
        | nil => rw [hits, hits]
        | cons c way => rw [hits_cons, hits_cons, hbelow]
    · cases way with
      | nil => rw [hits, hits]
      | cons c way => rw [hits_cons, hits_cons, hbelow]

theorem hits_trim (levels : List Level) (t : Tree) (way : Way) :
    hits (trim levels) t way = hits levels t way := by
  cases levels with
  | nil => rfl
  | cons level below =>
    cases way with
    | nil => rw [trim, hits, hits]
    | cons c way =>
      rw [trim, hits_cons, hits_cons,
        hitsBelow_congr (isPrefix_trimAll below) (hits_trimAll below)]

/-! ## Links

The links of a path are gathered into levels: filters behind a selector become its guards, and a
mark becomes the number of guards in front of it. The number of links up to a mark that lead to
a value is thus a number of marks on the level of the value. -/

/-- How often the filters behind a selector are marked, up to the first that does not hold. -/
def countMarked (t : Tree) : List Waiting → Nat
  | [] => 0
  | w :: waiting =>
    if w.guard.filter.holds t then (if w.marked then 1 else 0) + countMarked t waiting else 0

/-- Marks count the filters in front of them; `before` are filters in front of those that wait. -/
theorem countP_waiting (t : Tree) (before : List Guard) (waiting : List Waiting) :
    ((waiting.zipIdx (before.length + 1)).filterMap fun (w, count) =>
        if w.marked then some count else none).countP
      (fun count =>
        ((before ++ waiting.map (·.guard)).take count).all (·.filter.holds t)) =
      if before.all (·.filter.holds t) then countMarked t waiting else 0 := by
  induction waiting generalizing before with
  | nil => simp [countMarked]
  | cons w waiting ih =>
    have hrest := ih (before ++ [w.guard])
    simp only [List.length_append, List.length_singleton, List.append_assoc,
      List.singleton_append, List.all_append, List.all_cons, List.all_nil, Bool.and_true] at hrest
    have htake : (before ++ w.guard :: waiting.map (·.guard)).take (before.length + 1) =
        before ++ [w.guard] := by
      simp [List.take_append, List.take_of_length_le (Nat.le_succ before.length)]
    rw [List.zipIdx_cons, List.filterMap_cons, List.map_cons, countMarked]
    cases hm : w.marked with
    | false =>
      simp only [hm, Bool.false_eq_true, if_false, hrest]
      cases before.all (·.filter.holds t) <;> simp
    | true =>
      simp only [hm, if_true, List.countP_cons, hrest, htake, List.all_append, List.all_cons,
        List.all_nil, Bool.and_true]
      cases before.all (·.filter.holds t) <;> cases w.guard.filter.holds t <;> simp [Nat.add_comm]

theorem countP_marksOf (t : Tree) (marked : Bool) (waiting : List Waiting) :
    (marksOf marked waiting).countP
        (fun count => ((waiting.map (·.guard)).take count).all (·.filter.holds t)) =
      (if marked then 1 else 0) + countMarked t waiting := by
  have h := countP_waiting t [] waiting
  simp only [List.length_nil, Nat.zero_add, List.nil_append, List.all_nil, if_true] at h
  rw [marksOf, List.countP_append, h]
  cases marked <;> rfl

theorem length_untilMarks_cons (p : List Link → Bool) (link : Link) (links : List Link) :
    ((Link.untilMarks (link :: links)).filter p).length =
      (if link.marked && p [link] then 1 else 0) +
        ((Link.untilMarks links).filter fun ls => p (link :: ls)).length := by
  rw [Link.untilMarks, List.filter_append, List.length_append, List.filter_map, List.length_map]
  congr 1
  cases link.marked with
  | false => rfl
  | true => cases hp : p [link] <;> simp [hp]

/-- How often links behind a selector ask for the value at the end of a way: by the filters in
front of the next selector, or by the levels from there on. The induction is over the links, and
the filters that have not met a selector yet are counted on their own. -/
theorem length_lead (links : List Link) (place : Nat) (t : Tree) (way : Way) :
    ((Link.untilMarks links).filter fun ls => Link.lead ls t way).length =
      match way with
      | [] => countMarked t (collect place links).1
      | c :: way =>
        if (collect place links).1.all (·.guard.filter.holds t) then
          hitsBelow (collect place links).2 c way
        else 0 := by
  -- a filter stays at the value, a selector takes a step, so both the value and the way vary
  induction links generalizing place t way with
  | nil => cases way <;> rfl
  | cons link links ih =>
    obtain ⟨part, marked⟩ := link
    rw [length_untilMarks_cons]
    cases part with
    | filter f =>
      have hrest := ih (place + 1) t way
      simp only [Link.lead, collect, List.all_cons, countMarked]
      by_cases hf : f.holds t = true
      · simp only [hf, Bool.true_and, if_true, hrest]
        cases way <;> simp
      · cases way <;> simp [hf]
    | selector s =>
      cases way with
      | nil => simp [Link.lead, collect, countMarked]
      | cons c way =>
        obtain ⟨child, u⟩ := c
        have hrest := ih (place + 1) u way
        simp only [Link.lead, collect, List.all_nil, if_true, hitsBelow, List.head?_cons,
          Option.any_some]
        by_cases hs : s.selects child = true
        · simp only [hs, Bool.true_and, if_true, hrest]
          cases way with
          | nil => rw [hits, countP_marksOf]; simp
          | cons c way => rw [hits_cons, List.all_map]; simp [Function.comp_def]
        · simp [hs]

/-- The levels of a path ask for what its links ask for. -/
theorem length_reach (marked : Bool) (links : List Link) (t : Tree) (way : Way) :
    ((Link.untilMarks (⟨.selector .root, marked⟩ :: links)).filter
        fun ls => Link.reach ls t way).length =
      hits (ofLinks (⟨.selector .root, marked⟩ :: links)) t way := by
  have hrest := length_lead links 1 t way
  rw [length_untilMarks_cons]
  simp only [Link.reach, hrest, ofLinks, collect, Nat.zero_add]
  cases way with
  | nil => rw [hits, countP_marksOf]; simp [Link.lead]
  | cons c way => rw [hits_cons, List.all_map]; simp [Function.comp_def, Link.lead]

end Level

/-! ## Paths

The reference semantics gives one match for each mark that leads to a place. All matches of one
path at one place are equal, so their number is all that has to be compared with the levels. -/

namespace Path

/-- The first link of a path selects the value that stands in no container. -/
theorem exists_of_parse {text : String} {p : Path} (h : parse text = .ok p) :
    ∃ marked links, p = ofLinks text (⟨.selector .root, marked⟩ :: links) := by
  rw [parse] at h
  split at h
  · next links hp =>
    cases h
    rw [Parser.path.eq_def] at hp
    split at hp
    · obtain ⟨⟨marked, behind⟩, _, hp⟩ := Parser.bind_eq_ok.1 hp
      obtain ⟨links, _, hp⟩ := Parser.bind_eq_ok.1 hp
      cases Parser.pure_eq_ok.1 hp
      exact ⟨marked, links, rfl⟩
    · cases hp
  · cases h

/-- The matches of a path from a text at one place, by the levels that a walk follows. All of them
have the path, the value, the kind and the route of this place. -/
theorem matchesAt_eq_replicate {text : String} {p : Path} (h : parse text = .ok p) (t : Tree)
    (place : Way × Tree) :
    p.matchesAt t place =
      List.replicate (Level.hits p.levels t place.1)
        { path := p.text, value := place.2.text, kind := place.2.kind, route := place.1.route } := by
  obtain ⟨marked, links, rfl⟩ := exists_of_parse h
  rw [matchesAt, List.map_const', ofLinks, Level.hits_trim, ← Level.length_reach]

end Path

end JsonExtract
