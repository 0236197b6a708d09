import JsonExtract.Proofs.Extraction.Several

/-!
# Where it is decided what a mark finds

A mark asks for every value that its selectors lead to, but the filters on the way may be decided
later: by a member, or by the end of an object. A stake is such a value with all of these filters. It
is decided where the first of them fails, or, if all of them hold, where the last one has passed and
the value is complete.

* `Field.decider?`, `Filter.decidedAt` — the member that decides a filter, and where that is;
* `Stake`, `Stake.decidedAt` — a value with filters on the way to it, and where it is decided;
* `Stake.foreseen_eq` — what is known of a stake at a place is what is known of its parts;
* `Link.points`, `Passage.candidates` — all that paths find if filters let it through;
* `Passage.findings_eq_candidates` — what they find is what the filters do let through;
* `Level.gates`, `Passage.stakes` — the same by the levels that a walk follows.
-/

namespace JsonExtract

/-! ## Filters

When a filter is decided depends on the members in front of the place, and on whether the object
has been closed. The member that decides is a property of the whole object, and so the place is
defined without following the document. -/

/-- The member that decides a filter on members: the first one of a name, or the first one at all with
the wanted text. -/
def Field.decider? (literal : Bytes) (members : List (Bytes × Passage)) :
    Field → Option (Bytes × Passage)
  | named name => members.find? (·.1 == name)
  | any => members.find? (·.2.value.text? == some literal)

/-- Members have the wanted text if the one that decides has it. -/
theorem Field.equals_eq_any_decider? (literal : Bytes) (members : List (Bytes × Passage))
    (field : Field) : field.equals literal (members.map fun m => (m.1, m.2.value)) =
      (field.decider? literal members).any (·.2.value.text? == some literal) := by
  cases field with
  | named name =>
    rw [equals, List.find?_map, Option.any_map]
    rfl
  | any =>
    rw [equals, List.any_map, decider?, Bool.eq_iff_iff, Option.any_eq_true]
    constructor
    · intro h
      obtain ⟨m, hm, htext⟩ := List.any_eq_true.1 h
      obtain ⟨first, hfirst⟩ := Option.isSome_iff_exists.1 (List.find?_isSome.2 ⟨m, hm, htext⟩)
      exact ⟨first, hfirst, (List.find?_eq_some_iff_append.1 hfirst).1⟩
    · rintro ⟨m, hm, htext⟩
      exact List.any_eq_true.2 ⟨m, List.mem_of_find?_eq_some hm, htext⟩

namespace Filter

/-- Where it is decided whether a filter holds of a value: at the first token of the member that
decides it, or else where the object is closed. Literals, and values that are no objects, decide
it at once. The object is closed by its last token, and the deciding member ends with its only
token if it has a text. -/
def decidedAt (p : Passage) : Filter → Nat
  | literals .. => 0
  | member field literal =>
    if p.value.kind = .object then
      match field.decider? literal p.members with
      | some m => m.2.first.stop
      | none => p.last.stop
    else 0

/-- Whether a filter fails as soon as a value starts. -/
def failsAtOnce (p : Passage) : Filter → Bool
  | literals left right => left != right
  | member .. => p.value.kind != .object

/-- What is known at a place of whether a filter holds of a value, and `b` where nothing is known.
The parameter `b` stands for what is assumed of filters that are still open. -/
def foreseen (n : Nat) (b : Bool) (p : Passage) (f : Filter) : Bool :=
  if f.decidedAt p ≤ n then f.holds p.value else b

/-- A filter that fails at once does not hold, and that is known from the start. -/
theorem foreseen_of_failsAtOnce {p : Passage} {f : Filter} (h : f.failsAtOnce p = true) (n : Nat)
    (b : Bool) : f.foreseen n b p = false := by
  cases f with
  | literals left right =>
    rw [foreseen, decidedAt, if_pos (Nat.zero_le n), holds]
    exact bne_iff_ne.1 h |> beq_eq_false_iff_ne.2
  | member field literal =>
    have hkind : p.value.kind ≠ .object := bne_iff_ne.1 h
    have hmembers : p.value.members = [] := by
      cases hv : p.value with
      | scalar | array => rfl
      | object => rw [hv] at hkind; exact absurd rfl hkind
    rw [foreseen, decidedAt, if_neg hkind, if_pos (Nat.zero_le n), holds, hmembers]
    cases field <;> rfl

end Filter

/-! ## Stakes

A stake is a value with all filters that stand in its way. If one fails, the stake is decided at
the first failure, which may come long before the value is complete; if none does, it is decided
where everything has come in. Both are places computed from the whole document. -/

/-- A value that a mark of a path asks for, if some filters let it through. -/
structure Stake where
  /-- the number of the path in its session -/
  owner : Nat
  /-- the value -/
  passage : Passage
  /-- the filters on the way to it, each with the value it stands on -/
  gates : List (Filter × Passage)

namespace Stake

/-- Whether all filters hold. It asks for the whole document and not for a part of it. -/
def holds (s : Stake) : Bool :=
  s.gates.all fun g => g.1.holds g.2.value

/-- The places at which filters fail. Several filters may fail, and the list has all of them in
the order of the filters. -/
def failures (s : Stake) : List Nat :=
  (s.gates.filter fun g => !g.1.holds g.2.value).map fun g => g.1.decidedAt g.2

/-- Where it is decided whether the value is found: where the first filter fails, or else where
the value is complete and all filters have passed. Failures are counted by the earliest, successes
by the latest. -/
def decidedAt (s : Stake) : Nat :=
  match s.failures.min? with
  | some place => place
  | none => (s.gates.map fun g => g.1.decidedAt g.2).foldr max s.passage.last.stop

/-- What is known at a place of whether a value is found, and `b` where nothing is known. -/
def foreseen (n : Nat) (b : Bool) (s : Stake) : Bool :=
  if s.decidedAt ≤ n then s.holds else b

variable {s : Stake} {n : Nat}

theorem mem_failures {place : Nat} :
    place ∈ s.failures ↔ ∃ g ∈ s.gates, g.1.holds g.2.value = false ∧ g.1.decidedAt g.2 = place := by
  simp [failures, and_assoc]

theorem failures_eq_nil_iff : s.failures = [] ↔ s.holds = true := by
  simp [failures, holds]

theorem le_foldr_max_iff {start : Nat} (places : List Nat) :
    places.foldr max start ≤ n ↔ start ≤ n ∧ ∀ place ∈ places, place ≤ n := by
  induction places with
  | nil => simp
  | cons place places ih =>
    rw [List.foldr_cons, Nat.max_le, ih, List.forall_mem_cons, and_left_comm]

/-- A value is found once it is complete and all filters have passed. -/
theorem decidedAt_le_iff_of_holds (h : s.holds = true) :
    s.decidedAt ≤ n ↔ s.passage.last.stop ≤ n ∧ ∀ g ∈ s.gates, g.1.decidedAt g.2 ≤ n := by
  rw [decidedAt, failures_eq_nil_iff.2 h, List.min?_nil]
  simp only [le_foldr_max_iff, List.forall_mem_map]

/-- A value is not found once one of the filters has failed. -/
theorem decidedAt_le_iff_of_not_holds (h : s.holds = false) :
    s.decidedAt ≤ n ↔ ∃ g ∈ s.gates, g.1.holds g.2.value = false ∧ g.1.decidedAt g.2 ≤ n := by
  have hne : s.failures ≠ [] := fun hnil => by rw [failures_eq_nil_iff.1 hnil] at h; cases h
  obtain ⟨place, hplace⟩ := Option.ne_none_iff_exists'.1 (mt List.min?_eq_none_iff.1 hne)
  obtain ⟨hmem, hleast⟩ := List.min?_eq_some_iff.1 hplace
  rw [decidedAt, hplace]
  constructor
  · intro hn
    obtain ⟨g, hg, hfails, rfl⟩ := mem_failures.1 hmem
    exact ⟨g, hg, hfails, hn⟩
  · rintro ⟨g, hg, hfails, hn⟩
    exact Nat.le_trans (hleast _ (mem_failures.2 ⟨g, hg, hfails, rfl⟩)) hn

/-- What is known of a stake is what is known of its value and of the filters. A stake that has
failed is known to fail even while its value is not complete. -/
theorem foreseen_eq (n : Nat) (b : Bool) (s : Stake) :
    s.foreseen n b =
      ((s.passage.last.stop ≤ n || b) && s.gates.all fun g => g.1.foreseen n b g.2) := by
  cases b with
  -- no filter is known to fail
  | true =>
    have hknown : ∀ (place : Nat) (outcome : Bool), (if place ≤ n then outcome else true) = true ↔
        ¬ (outcome = false ∧ place ≤ n) := by
      intro place outcome
      by_cases hn : place ≤ n <;> simp [hn]
    rw [Bool.or_true, Bool.true_and, Bool.eq_iff_iff, List.all_eq_true, foreseen]
    simp only [Filter.foreseen, hknown]
    cases hh : s.holds with
    | true =>
      refine iff_of_true (fun hf => Bool.noConfusion hf.1) fun g hg hf => ?_
      rw [List.all_eq_true.1 hh g hg] at hf
      cases hf.1
    | false => simp [decidedAt_le_iff_of_not_holds hh]
  -- all filters are known to hold
  | false =>
    have hknown : ∀ (place : Nat) (outcome : Bool), (if place ≤ n then outcome else false) = true ↔
        place ≤ n ∧ outcome = true := by
      intro place outcome
      by_cases hn : place ≤ n <;> simp [hn]
    rw [Bool.or_false, Bool.eq_iff_iff, Bool.and_eq_true, List.all_eq_true, decide_eq_true_eq, foreseen]
    simp only [Filter.foreseen, hknown]
    constructor
    · rintro ⟨hn, hh⟩
      obtain ⟨hlast, hgates⟩ := (decidedAt_le_iff_of_holds hh).1 hn
      exact ⟨hlast, fun g hg => ⟨hgates g hg, List.all_eq_true.1 hh g hg⟩⟩
    · rintro ⟨hlast, hgates⟩
      have hh : s.holds = true := List.all_eq_true.2 fun g hg => (hgates g hg).2
      exact ⟨(decidedAt_le_iff_of_holds hh).2 ⟨hlast, fun g hg => (hgates g hg).1⟩, hh⟩

/-- Whether one of the filters fails as soon as its value starts. -/
def failsAtOnce (s : Stake) : Bool :=
  s.gates.any fun g => g.1.failsAtOnce g.2

/-- Of a stake that fails at once this is known from the start. -/
theorem foreseen_of_failsAtOnce (h : s.failsAtOnce = true) (n : Nat) (b : Bool) :
    s.foreseen n b = false := by
  obtain ⟨g, hg, hfails⟩ := List.any_eq_true.1 h
  rw [foreseen_eq, Bool.and_eq_false_iff, List.all_eq_false]
  exact .inr ⟨g, hg, by rw [Filter.foreseen_of_failsAtOnce hfails]; exact Bool.false_ne_true⟩

theorem holds_of_failsAtOnce (h : s.failsAtOnce = true) : s.holds = false := by
  have hlate := foreseen_of_failsAtOnce h s.decidedAt true
  rwa [foreseen, if_pos (Nat.le_refl _)] at hlate

end Stake

/-! ## Links

`lead` asks the filters while it goes along the links. Here the two are separated: `points` goes
along the links without asking, and the filters are gathered in a list of gates. -/

namespace Link

/-- Whether links lead to the end of a way if all filters on it let them through. -/
def points : List Link → Trek → Bool
  | [], trek => trek.isEmpty
  | link :: links, trek =>
    match link.part, trek with
    | .filter _, trek => points links trek
    | .selector selector, (child, _) :: trek => selector.selects child && points links trek
    | .selector _, [] => false

/-- The same for the links of a path, from the top of a document. -/
def aims (links : List Link) (trek : Trek) : Bool :=
  match links with
  | ⟨.selector .root, _⟩ :: links => points links trek
  | _ => false

/-- Links lead to the end of a way if they point to it and all filters on it hold. -/
theorem lead_eq (links : List Link) (p : Passage) (trek : Trek) :
    lead links p.value trek.way =
      (points links trek && (gates links p trek).all fun g => g.1.holds g.2.value) := by
  induction links generalizing p trek with
  | nil => cases trek <;> rfl
  | cons link links ih =>
    obtain ⟨part, marked⟩ := link
    cases part with
    | filter f => simp only [lead, points, gates, List.all_cons, ih, Bool.and_left_comm]
    | selector s =>
      cases trek with
      | nil => rfl
      | cons c trek =>
        have hrest := ih c.2 trek
        simp only [Trek.way, List.map_cons, lead, points, gates] at hrest ⊢
        rw [hrest, Bool.and_assoc]

theorem reach_eq (links : List Link) (p : Passage) (trek : Trek) :
    reach links p.value trek.way =
      (aims links trek && (gates links.tail p trek).all fun g => g.1.holds g.2.value) := by
  cases links with
  | nil => rfl
  | cons link links =>
    obtain ⟨part, marked⟩ := link
    cases part with
    | filter => rfl
    | selector s =>
      cases s with
      | root => exact lead_eq links p trek
      | _ => rfl

end Link

/-! ## Candidates

Every finding is a candidate whose stake holds. There are more candidates than findings, as a
value is waited for while its filters are undecided. Those are left out for which a filter fails
as soon as its value starts: no slot is reserved for them. -/

/-- The stake of a match. -/
def Finding.stake (f : Finding) : Stake :=
  ⟨f.owner, f.passage, f.gates⟩

/-- What a path finds at one site with the links up to a mark, if all filters hold. -/
def Path.finding (owner : Nat) (p : Passage) (site : Trek × Passage) (path : Path)
    (links : List Link) : Finding :=
  { owner, links, passage := site.2, gates := Link.gates links.tail p site.1
    found := { path := path.text, value := site.2.value.text, kind := site.2.value.kind
               route := site.1.way.route } }

/-- What a path may find at one site: what its selectors lead to, unless one of the filters fails
as soon as its value starts. They are listed in the order in which slots would be reserved. -/
def Path.candidatesAt (owner : Nat) (p : Passage) (site : Trek × Passage) (path : Path) :
    List Finding :=
  (((Link.untilMarks path.links).filter fun links => Link.aims links site.1).map
    (path.finding owner p site)).filter fun f => !f.stake.failsAtOnce

/-- What paths may find in a passage: site by site, and path by path at each site. -/
def Passage.candidates (paths : List Path) (p : Passage) : List Finding :=
  p.sites.flatMap fun site => paths.zipIdx.flatMap fun x => x.1.candidatesAt x.2 p site

theorem Path.findingsAt_eq_candidatesAt (owner : Nat) (p : Passage) (site : Trek × Passage)
    (path : Path) :
    path.findingsAt owner p site = (path.candidatesAt owner p site).filter (·.stake.holds) := by
  rw [findingsAt, candidatesAt, List.filter_filter, List.filter_map, List.filter_filter]
  refine congrArg (List.map _) (List.filter_congr fun links _ => ?_)
  rw [Link.reach_eq, Function.comp_apply, Bool.and_comm]
  refine congrArg (· && _) ?_
  -- what holds does not fail at once
  cases hfails : (path.finding owner p site links).stake.failsAtOnce with
  | true => rw [Bool.not_true, Bool.and_false]; exact Stake.holds_of_failsAtOnce hfails
  | false => rw [Bool.not_false, Bool.and_true]; rfl

/-- Paths find those of the candidates that filters let through. The order is kept, so a finding
stands where its candidate stood. -/
theorem Passage.findings_eq_candidates (p : Passage) (paths : List Path) :
    p.findings paths = (p.candidates paths).filter (·.stake.holds) := by
  simp only [findings, candidates, List.filter_flatMap, Path.findingsAt_eq_candidatesAt]

/-! ## Levels

The gates of a path can be read off its levels as well, which is what the walk does. For each
mark that leads to a value there is one list of gates, and the lists come in the same order by
links and by levels. -/

namespace Level

/-- For each time that levels lead to the value at the end of a way, the filters on the way. -/
def gates : List Level → Passage → Trek → List (List (Filter × Passage))
  | [], _, _ => []
  | level :: _, p, [] => level.marks.map fun count =>
    (level.guards.take count).map fun g => (g.filter, p)
  | level :: below, p, (child, q) :: trek =>
    if below.head?.any (·.selector.selects child) then
      (gates below q trek).map ((level.guards.map fun g => (g.filter, p)) ++ ·)
    else []

/-- The same for a way that starts with the step to a child. -/
def gatesBelow (levels : List Level) (c : Child × Passage) (trek : Trek) :
    List (List (Filter × Passage)) :=
  if levels.head?.any (·.selector.selects c.1) then gates levels c.2 trek else []

theorem gates_nil (p : Passage) (trek : Trek) : gates [] p trek = [] := by
  rw [gates]

theorem gates_cons (level : Level) (below : List Level) (p : Passage) (c : Child × Passage)
    (trek : Trek) :
    gates (level :: below) p (c :: trek) =
      (gatesBelow below c trek).map ((level.guards.map fun g => (g.filter, p)) ++ ·) := by
  rw [gates, gatesBelow]
  split <;> rfl

/-! ### Levels that are dropped -/

theorem gatesBelow_nil (c : Child × Passage) (trek : Trek) : gatesBelow [] c trek = [] := rfl

theorem gatesBelow_congr {kept levels : List Level} (hp : kept <+: levels)
    (h : ∀ p trek, gates kept p trek = gates levels p trek) (c : Child × Passage) (trek : Trek) :
    gatesBelow kept c trek = gatesBelow levels c trek := by
  rw [gatesBelow, gatesBelow, h]
  cases kept with
  | nil => rw [← h, gates_nil, ite_self, ite_self]
  | cons level below =>
    obtain ⟨rest, rfl⟩ := hp
    rfl

/-- Below the deepest mark nothing is asked for. -/
theorem gates_trimAll (levels : List Level) (p : Passage) (trek : Trek) :
    gates (trimAll levels) p trek = gates levels p trek := by
  induction levels generalizing p trek with
  | nil => rfl
  | cons level below ih =>
    have hbelow := gatesBelow_congr (isPrefix_trimAll below) ih
    rw [trimAll.eq_def]
    simp only
    split
    -- a level is dropped only with all levels below it, and if it has no marks
    · next hkept =>
      rw [hkept] at hbelow
      split
      · next hm =>
        cases trek with
        | nil => rw [gates_nil, gates, List.isEmpty_iff.1 hm]; rfl
        | cons c trek => rw [gates_nil, gates_cons, ← hbelow, gatesBelow_nil, List.map_nil]
      · cases trek with
        | nil => rw [gates, gates]
        | cons c trek => rw [gates_cons, gates_cons, hbelow]
    · cases trek with
      | nil => rw [gates, gates]
      | cons c trek => rw [gates_cons, gates_cons, hbelow]

theorem gates_trim (levels : List Level) (p : Passage) (trek : Trek) :
    gates (trim levels) p trek = gates levels p trek := by
  cases levels with
  | nil => rfl
  | cons level below =>
    cases trek with
    | nil => rw [trim, gates, gates]
    | cons c trek =>
      rw [trim, gates_cons, gates_cons,
        gatesBelow_congr (isPrefix_trimAll below) (gates_trimAll below)]

/-! ### Links -/

/-- The filters behind a selector up to each mark on one of them. -/
def gatesMarked (p : Passage) : List Waiting → List (List (Filter × Passage))
  | [] => []
  | w :: waiting =>
    (if w.marked then [[(w.guard.filter, p)]] else []) ++
      (gatesMarked p waiting).map ((w.guard.filter, p) :: ·)

/-- Marks count the filters in front of them; `before` are filters in front of those that wait. -/
theorem map_waiting (p : Passage) (before : List Guard) (waiting : List Waiting) :
    (((waiting.zipIdx (before.length + 1)).filterMap fun (w, count) =>
        if w.marked then some count else none).map fun count =>
          ((before ++ waiting.map (·.guard)).take count).map fun g => (g.filter, p)) =
      (gatesMarked p waiting).map ((before.map fun g => (g.filter, p)) ++ ·) := by
  induction waiting generalizing before with
  | nil => rfl
  | cons w waiting ih =>
    have hrest := ih (before ++ [w.guard])
    simp only [List.length_append, List.length_singleton, List.append_assoc,
      List.singleton_append, List.map_append, List.map_singleton] at hrest
    have htake : (before ++ w.guard :: waiting.map (·.guard)).take (before.length + 1) =
        before ++ [w.guard] := by
      simp [List.take_append, List.take_of_length_le (Nat.le_succ before.length)]
    rw [List.zipIdx_cons, List.filterMap_cons, List.map_cons, gatesMarked, List.map_append,
      List.map_map]
    cases hm : w.marked with
    | false =>
      simp only [hm, Bool.false_eq_true, if_false, hrest, List.map_nil, List.nil_append]
      rfl
    | true =>
      simp only [hm, if_true, List.map_cons, hrest, htake, List.map_append, List.map_nil,
        List.cons_append, List.nil_append]
      rfl

theorem map_marksOf (p : Passage) (marked : Bool) (waiting : List Waiting) :
    ((marksOf marked waiting).map fun count =>
        ((waiting.map (·.guard)).take count).map fun g => (g.filter, p)) =
      (if marked then [[]] else []) ++ gatesMarked p waiting := by
  have h := map_waiting p [] waiting
  simp only [List.length_nil, Nat.zero_add, List.nil_append, List.map_nil, List.map_id'] at h
  rw [marksOf, List.map_append, h]
  cases marked <;> rfl

theorem map_untilMarks_cons {α : Type} (q : List Link → Bool) (g : List Link → α) (link : Link)
    (links : List Link) :
    ((Link.untilMarks (link :: links)).filter q).map g =
      (if link.marked && q [link] then [g [link]] else []) ++
        ((Link.untilMarks links).filter fun ls => q (link :: ls)).map fun ls => g (link :: ls) := by
  rw [Link.untilMarks, List.filter_append, List.map_append, List.filter_map, List.map_map]
  congr 1
  cases link.marked with
  | false => rfl
  | true => cases hq : q [link] <;> simp [hq]

/-- Links behind a selector lead to the end of a way as often as the filters in front of the next
selector, or the levels from there on, and with the same filters. -/
theorem map_gates_points (links : List Link) (place : Nat) (p : Passage) (trek : Trek) :
    (((Link.untilMarks links).filter fun ls => Link.points ls trek).map fun ls =>
        Link.gates ls p trek) =
      match trek with
      | [] => gatesMarked p (collect place links).1
      | c :: trek =>
        (gatesBelow (collect place links).2 c trek).map
          (((collect place links).1.map fun w => (w.guard.filter, p)) ++ ·) := by
  -- a filter stays at the value, a selector takes a step, so both the value and the way vary
  induction links generalizing place p trek with
  | nil => cases trek <;> rfl
  | cons link links ih =>
    obtain ⟨part, marked⟩ := link
    rw [map_untilMarks_cons]
    cases part with
    | filter f =>
      have hrest := congrArg (List.map ((f, p) :: ·)) (ih (place + 1) p trek)
      rw [List.map_map] at hrest
      simp only [Function.comp_def] at hrest
      simp only [Link.points, Link.gates, collect, List.map_cons, hrest]
      cases trek with
      | nil => simp [gatesMarked]
      | cons c trek => simp [Function.comp_def]
    | selector s =>
      cases trek with
      | nil => simp [Link.points, collect, gatesMarked]
      | cons c trek =>
        obtain ⟨child, q⟩ := c
        have hrest := ih (place + 1) q trek
        simp only [Link.points, Link.gates, collect, List.map_nil, List.nil_append, List.map_id',
          gatesBelow, List.head?_cons, Option.any_some]
        by_cases hs : s.selects child = true
        · simp only [hs, Bool.true_and, if_true, hrest]
          cases trek with
          | nil => rw [gates, map_marksOf]; simp
          | cons c trek => rw [gates_cons, List.map_map]; simp [Function.comp_def]
        · simp [hs]

/-- The levels of a path lead where its links do, with the same filters. It is the counterpart of
the count of hits, with gates in place of filters that hold. -/
theorem map_gates_aims (marked : Bool) (links : List Link) (p : Passage) (trek : Trek) :
    (((Link.untilMarks (⟨.selector .root, marked⟩ :: links)).filter fun ls =>
        Link.aims ls trek).map fun ls => Link.gates ls.tail p trek) =
      gates (ofLinks (⟨.selector .root, marked⟩ :: links)) p trek := by
  have hrest := map_gates_points links 1 p trek
  rw [map_untilMarks_cons]
  simp only [Link.aims, List.tail_cons, hrest, ofLinks, collect, Nat.zero_add]
  cases trek with
  | nil => rw [gates, map_marksOf]; simp [Link.points, Link.gates]
  | cons c trek => rw [gates_cons, List.map_map]; simp [Function.comp_def, Link.points]

end Level

/-! ## Arrivals

The stakes of an arrival are those of its levels below a value. At the top of a document, where
each path arrives once, these are the stakes of all candidates. -/

/-- The stakes of an arrival at one site. -/
def Arrival.stakesAt (p : Passage) (site : Trek × Passage) (a : Arrival) : List Stake :=
  (Level.gates (a.level :: a.below) p site.1).map fun gates => ⟨a.owner, site.2, gates⟩

/-- The stakes of arrivals at a passage: site by site, and arrival by arrival at each site. -/
def Passage.stakes (arrivals : List Arrival) (p : Passage) : List Stake :=
  p.sites.flatMap fun site => arrivals.flatMap (Arrival.stakesAt p site)

/-- At the top of a document, the stakes are those of all candidates, apart from stakes that fail at
once. -/
theorem Passage.map_stake_candidates {paths : List Path}
    (h : ∀ path ∈ paths, ∃ text, Path.parse text = .ok path) (p : Passage) :
    (p.candidates paths).map Finding.stake =
      (p.stakes (Walk.arrivals paths)).filter fun s => !s.failsAtOnce := by
  have hone : ∀ (site : Trek × Passage) (x : Path × Nat), x ∈ paths.zipIdx →
      (x.1.candidatesAt x.2 p site).map Finding.stake =
        ((x.1.arrival? x.2).toList.flatMap (Arrival.stakesAt p site)).filter fun s =>
          !s.failsAtOnce := by
    intro site x hx
    obtain ⟨text, hparse⟩ := h x.1 (List.fst_mem_of_mem_zipIdx hx)
    obtain ⟨marked, links, hlinks⟩ := Path.exists_of_parse hparse
    have hgates := Level.map_gates_aims marked links p site.1
    have hlevels : Level.gates x.1.levels p site.1 =
        ((Link.untilMarks x.1.links).filter fun ls => Link.aims ls site.1).map fun ls =>
          Link.gates ls.tail p site.1 := by
      rw [hlinks, Path.ofLinks, Level.gates_trim, hgates]
    have harrival : (x.1.arrival? x.2).toList.flatMap (Arrival.stakesAt p site) =
        (Level.gates x.1.levels p site.1).map fun gates => ⟨x.2, site.2, gates⟩ := by
      rw [Path.arrival?]
      cases x.1.levels with
      | nil => rw [Level.gates_nil]; rfl
      | cons level below => rw [Option.toList_some, List.flatMap_singleton]; rfl
    rw [harrival, hlevels, Path.candidatesAt, List.map_map, List.filter_map, List.filter_map,
      List.map_map]
    rfl
  rw [candidates, stakes, List.map_flatMap, List.filter_flatMap]
  refine List.flatMap_congr fun site _ => ?_
  rw [List.map_flatMap, Walk.arrivals, flatMap_filterMap_eq, List.filter_flatMap]
  exact List.flatMap_congr fun x hx => hone site x hx

end JsonExtract
