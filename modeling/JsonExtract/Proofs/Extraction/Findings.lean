import JsonExtract.Proofs.Extraction.Progress
import JsonExtract.Proofs.Extraction.Prizes

/-!
# What paths find, and when it is decided

The matches of paths in a value with places, each with the value that it is for and the filters on the
way to it. A match is decided by a place of the document if its value ends in front of it, and if each
filter is passed by a member that does so. The paths find in the value that has started up to a place
just what is decided by then.

* `Trek`, `Passage.sites` — all values of a passage, each with the way to it;
* `Passage.completed` — those that are complete up to a place;
* `Filter.passedBy`, `Link.gates` — filters that are passed by a place, and those on a way;
* `Finding`, `Passage.findings`, `Passage.map_found_findings` — what paths find, and where;
* `Finding.decidedBy`, `Passage.matchesAt_upTo` — what is decided by a place.
-/

namespace JsonExtract

/-! ## Values on their ways

A site of a passage is a value with the way down to it, all with places. At a place in the
document, some sites are complete and some have only started; the first sort stands in the tree
of what has started, with ways that are cut off at the same place. -/

/-- A way down a passage: where each step goes, and the passage it gets to. -/
abbrev Trek := List (Child × Passage)

/-- The way without places. -/
def Trek.way (trek : Trek) : Way :=
  trek.map fun c => (c.1, c.2.value)

/-- The way through what has started up to a place. -/
def Trek.upTo (n : Nat) (trek : Trek) : Way :=
  trek.map fun c => (c.1, c.2.upTo n)

theorem Trek.route_upTo (n : Nat) (trek : Trek) : Way.route (trek.upTo n) = trek.way.route := by
  rw [Way.route, Way.route, upTo, way, List.map_map, List.map_map]
  rfl

namespace Passage

/-- All values of a passage in the order in which they start, each with the way to it. It is the
list of all places of the tree, before places in the document are forgotten. -/
def sites (p : Passage) : List (Trek × Passage) :=
  ([], p) :: p.contents.attach.flatMap fun ⟨x, _⟩ =>
    x.passage.sites.map fun site => ((x.child, x.passage) :: site.1, site.2)
termination_by sizeOf p
decreasing_by exact sizeOf_content_lt ‹_›

theorem sites_eq (p : Passage) :
    p.sites = ([], p) :: p.contents.flatMap fun x =>
      x.passage.sites.map fun site => ((x.child, x.passage) :: site.1, site.2) := by
  rw [sites, List.flatMap_subtype fun _ _ => rfl, List.unattach_attach]

/-- Without the places of tokens, sites are the places of a tree. -/
theorem places_value (p : Passage) :
    p.value.places = p.sites.map fun site => (site.1.way, site.2.value) := by
  induction p using induction with | step p ih =>
  rw [Tree.places_eq, sites_eq, children_value, List.map_cons, List.flatMap_map, List.map_flatMap]
  congr 1
  refine List.flatMap_congr fun x hx => ?_
  rw [Content.value, ih x hx, List.map_map, List.map_map]
  rfl

/-- A site and the values on the way to it stand in the passage. -/
theorem sublist_of_mem_sites {p : Passage} {site : Trek × Passage} (hs : site ∈ p.sites) :
    site.2.tokens.Sublist p.tokens ∧ ∀ c ∈ site.1, c.2.tokens.Sublist p.tokens := by
  induction p using induction generalizing site with | step p ih =>
  rw [sites_eq, List.mem_cons] at hs
  obtain rfl | hs := hs
  · exact ⟨.refl _, fun c hc => absurd hc List.not_mem_nil⟩
  · obtain ⟨x, hx, hs⟩ := List.mem_flatMap.1 hs
    obtain ⟨below, hbelow, rfl⟩ := List.mem_map.1 hs
    obtain ⟨hsite, htrek⟩ := ih x hx hbelow
    have hcontent : x.passage.tokens.Sublist p.tokens :=
      (List.sublist_append_right ..).trans (tokens_content_sublist hx)
    exact ⟨hsite.trans hcontent,
      List.forall_mem_cons.2 ⟨hcontent, fun c hc => (htrek c hc).trans hcontent⟩⟩

theorem sorted_of_mem_sites {p : Passage} (h : p.Sorted) {site : Trek × Passage}
    (hs : site ∈ p.sites) : site.2.Sorted ∧ ∀ c ∈ site.1, c.2.Sorted :=
  ⟨h.sublist (sublist_of_mem_sites hs).1, fun c hc => h.sublist ((sublist_of_mem_sites hs).2 c hc)⟩

/-! ### What is complete up to a place -/

/-- All values of a passage that are complete up to a place, each with the way to it. The way to
such a value may lead through containers that are still open. -/
def completed (n : Nat) (p : Passage) : List (Way × Tree) :=
  (p.sites.filter fun site => site.2.last.stop ≤ n).map fun site => (site.1.upTo n, site.2.upTo n)

/-- In a value that is complete all values are, and so are all values on the way to them. -/
theorem upTo_of_mem_sites {n : Nat} {p : Passage} (h : p.Sorted) (hn : p.last.stop ≤ n)
    {site : Trek × Passage} (hs : site ∈ p.sites) :
    site.2.last.stop ≤ n ∧ site.2.upTo n = site.2.value ∧ site.1.upTo n = site.1.way := by
  have hle : ∀ q : Passage, q.tokens.Sublist p.tokens → q.last.stop ≤ n ∧ q.upTo n = q.value := by
    intro q hq
    have hlast := Nat.le_trans (le_last_stop h (hq.subset q.last_mem_tokens)) hn
    exact ⟨hlast, upTo_eq_value (h.sublist hq) hlast⟩
  obtain ⟨hsite, htrek⟩ := sublist_of_mem_sites hs
  obtain ⟨hlast, hvalue⟩ := hle site.2 hsite
  exact ⟨hlast, hvalue, List.map_congr_left fun c hc => by rw [(hle c.2 (htrek c hc)).2]⟩

theorem completed_of_last_le {n : Nat} {p : Passage} (h : p.Sorted) (hn : p.last.stop ≤ n) :
    p.completed n = p.value.places := by
  rw [completed, places_value, List.filter_eq_self.2]
  · refine List.map_congr_left fun site hs => ?_
    obtain ⟨-, hvalue, hway⟩ := upTo_of_mem_sites h hn hs
    rw [hvalue, hway]
  · exact fun site hs => decide_eq_true (upTo_of_mem_sites h hn hs).1

/-- In a value that has not started nothing is complete. -/
theorem completed_of_lt_first {n : Nat} {p : Passage} (h : p.Sorted) (hn : n < p.first.stop) :
    p.completed n = [] := by
  rw [completed, List.map_eq_nil_iff, List.filter_eq_nil_iff]
  intro site hs hle
  have hlast := first_stop_le h ((sublist_of_mem_sites hs).1.subset site.2.last_mem_tokens)
  have := of_decide_eq_true hle
  omega

/-- In a value that is not complete, what is complete stands below. -/
theorem completed_of_lt_last {n : Nat} {p : Passage} (hn : n < p.last.stop) :
    p.completed n = p.contents.flatMap fun x =>
      (x.passage.completed n).map fun place => (x.upTo n :: place.1, place.2) := by
  rw [completed, sites_eq, List.filter_cons, if_neg (by simpa using hn), List.filter_flatMap,
    List.map_flatMap]
  refine List.flatMap_congr fun x _ => ?_
  rw [completed, List.filter_map, List.map_map, List.map_map]
  rfl

/-- The same for the children up to a place. -/
theorem Cut.completed {n : Nat} {p : Passage} {done rest : List Content} (h : p.Cut n done rest)
    (hp : p.Sorted) (hn : n < p.last.stop) :
    p.completed n =
      ((done.map Content.value).flatMap fun c => c.2.places.map fun place => (c :: place.1, place.2)) ++
        rest.flatMap fun x =>
          (x.passage.completed n).map fun place => (x.upTo n :: place.1, place.2) := by
  rw [completed_of_lt_last hn, h.contents, List.flatMap_append, List.flatMap_map]
  congr 1
  refine List.flatMap_congr fun x hx => ?_
  rw [completed_of_last_le (hp.content (h.mem_of_mem_done hx)) (h.last_le hx), h.upTo_eq hp hx]
  rfl

/-- Nothing is complete in children of which no token ends in front of the place. -/
theorem completed_later {α : Type} {n : Nat} {later : List Content}
    (h : ∀ y ∈ later, ∀ l ∈ y.tokens, n < l.stop) (hs : ∀ y ∈ later, y.passage.Sorted)
    (g : Content → Way × Tree → List α) :
    (later.flatMap fun y => (y.passage.completed n).flatMap (g y)) = [] :=
  List.flatMap_eq_nil_iff.2 fun y hy => by
    rw [completed_of_lt_first (hs y hy) (lt_first_later h hy), List.flatMap_nil]

end Passage

/-! ## Filters

On a value that is cut off, a filter sees the members that have started. One with a text is then
complete, as a text is a single token, so the filter holds there just if the member that makes
it hold ends in front of the place. Once it has held it holds in the end, since the members seen
are the first ones. -/

/-- Whether members up to a place have the wanted text: the first one of a name, or any one at all. -/
def Field.equalsBy (n : Nat) (literal : Bytes) (members : List (Bytes × Passage)) : Field → Bool
  | named name => (members.find? (·.1 == name)).any fun m =>
      m.2.value.text? == some literal && m.2.last.stop ≤ n
  | any => members.any fun m => m.2.value.text? == some literal && m.2.last.stop ≤ n

/-- Whether a value passes a filter by a member that ends in front of a place. Literals pass from
the start. A filter that does not hold in the end is passed by no place. -/
def Filter.passedBy (n : Nat) (p : Passage) : Filter → Bool
  | literals left right => left == right
  | member field literal => field.equalsBy n literal p.members

namespace Passage

variable {n : Nat} {p : Passage}

theorem members_value (p : Passage) :
    p.value.members = p.members.map fun m => (m.1, m.2.value) := by
  cases p with
  | scalar | array => rw [value]; rfl
  | object =>
    rw [value, Tree.members, members, List.map_map]
    rfl

theorem members_upTo (n : Nat) (p : Passage) :
    (p.upTo n).members =
      (p.members.takeWhile fun m => m.2.hasStarted n).map fun m => (m.1, m.2.upTo n) := by
  cases p with
  | scalar => rw [upTo]; rfl
  | array => rw [upTo_array]; rfl
  | object =>
    rw [upTo_object, Tree.members, members, List.takeWhile_map, List.map_map]
    rfl

/-- Members start one behind the other. -/
theorem pairwise_members (h : p.Sorted) (n : Nat) :
    p.members.Pairwise fun a b => b.2.hasStarted n = true → a.2.hasStarted n = true := by
  cases p with
  | scalar | array => exact .nil
  | object opening members closing =>
    have hpairs := h.pairwise_contents
    rw [contents, List.pairwise_map] at hpairs
    rw [Passage.members, List.pairwise_map]
    refine hpairs.imp fun {a b} hab hb => ?_
    have hlt := (hab a.2.first (List.mem_append_right _ a.2.first_mem_tokens) b.2.first
      (List.mem_append_right _ b.2.first_mem_tokens)).2
    exact decide_eq_true (Nat.le_trans (Nat.le_of_lt hlt) (of_decide_eq_true hb))

/-- A value with a text is one token. -/
theorem first_eq_last {literal : Bytes} (h : p.value.text? = some literal) : p.first = p.last := by
  cases p with
  | scalar => rfl
  | array | object => rw [value] at h; cases h

/-- The first of some things in a row that start one behind the other, if it has started. -/
theorem find?_takeWhile {α : Type} {started : α → Bool} {xs : List α}
    (h : xs.Pairwise fun a b => started b = true → started a = true) (q : α → Bool) :
    (xs.takeWhile started).find? q = (xs.find? q).filter started := by
  induction xs with
  | nil => rfl
  | cons x xs ih =>
    rw [List.pairwise_cons] at h
    rw [List.takeWhile_cons]
    cases hx : started x with
    | true =>
      rw [if_pos rfl, List.find?_cons, List.find?_cons, ih h.2]
      cases q x with
      | true => rw [Option.filter_some, if_pos hx]
      | false => rfl
    | false =>
      have hnone : ∀ y, (x :: xs).find? q = some y → started y = false := by
        intro y hy
        rcases List.mem_cons.1 (List.mem_of_find?_eq_some hy) with rfl | hy
        · exact hx
        · exact Bool.eq_false_iff.2 fun hs => by rw [h.1 y hy hs] at hx; cases hx
      rw [if_neg Bool.false_ne_true, List.find?_nil]
      cases hf : (x :: xs).find? q with
      | none => rfl
      | some y => rw [Option.filter_some, if_neg (by rw [hnone y hf]; exact Bool.false_ne_true)]

theorem any_takeWhile {α : Type} {started : α → Bool} {xs : List α}
    (h : xs.Pairwise fun a b => started b = true → started a = true) (q : α → Bool) :
    (xs.takeWhile started).any q = xs.any fun x => started x && q x := by
  induction xs with
  | nil => rfl
  | cons x xs ih =>
    rw [List.pairwise_cons] at h
    rw [List.takeWhile_cons, List.any_cons]
    cases hx : started x with
    | true => rw [if_pos rfl, List.any_cons, ih h.2, Bool.true_and]
    | false =>
      have hnone : (xs.any fun y => started y && q y) = false := by
        rw [List.any_eq_false]
        intro y hy hstarted
        rw [h.1 y hy (Bool.and_eq_true_iff.1 hstarted).1] at hx
        cases hx
      rw [if_neg Bool.false_ne_true, hnone]
      rfl

/-- A member has the wanted text and has started just if it has the text and is complete. -/
theorem started_and_text (n : Nat) (literal : Bytes) (m : Bytes × Passage) :
    (m.2.hasStarted n && m.2.value.text? == some literal) =
      (m.2.value.text? == some literal && decide (m.2.last.stop ≤ n)) := by
  by_cases ht : m.2.value.text? = some literal
  · rw [hasStarted, first_eq_last ht, Bool.and_comm]
  · rw [beq_eq_false_iff_ne.2 ht, Bool.and_false, Bool.false_and]

/-- A filter holds on what has started up to a place just if it is passed by then. This is what
makes it possible to speak of the filters of a document that ends early. -/
theorem holds_upTo (h : p.Sorted) (f : Filter) : f.holds (p.upTo n) = f.passedBy n p := by
  cases f with
  | literals => rfl
  | member field literal =>
    have hpairs := pairwise_members h n
    rw [Filter.holds, Filter.passedBy, members_upTo]
    cases field with
    | named name =>
      rw [Field.equals, Field.equalsBy, List.find?_map, Option.any_map]
      simp only [Function.comp_def, text?_upTo]
      rw [find?_takeWhile hpairs, Option.any_filter]
      simp only [started_and_text]
    | any =>
      rw [Field.equals, Field.equalsBy, List.any_map, any_takeWhile hpairs]
      simp only [Function.comp_def, text?_upTo, started_and_text]

/-- A filter that is passed by some place holds in the end. -/
theorem holds_of_passedBy {f : Filter} (h : f.passedBy n p = true) : f.holds p.value = true := by
  cases f with
  | literals => exact h
  | member field literal =>
    rw [Filter.passedBy] at h
    rw [Filter.holds, members_value]
    cases field with
    | named name =>
      rw [Field.equalsBy, Option.any_eq_true] at h
      obtain ⟨m, hm, htext⟩ := h
      rw [Field.equals, List.find?_map]
      simp only [Function.comp_def, hm, Option.map_some, Option.any_some]
      exact (Bool.and_eq_true_iff.1 htext).1
    | any =>
      rw [Field.equalsBy, List.any_eq_true] at h
      obtain ⟨m, hm, htext⟩ := h
      rw [Field.equals, List.any_map, List.any_eq_true]
      exact ⟨m, hm, (Bool.and_eq_true_iff.1 htext).1⟩

end Passage

/-! ## Ways

The filters on a way to a site stand on the values of the way, and each must be passed by the
place in question. Selectors look at steps only, which have no places. -/

/-- The filters that links lead through on a way, each with the value it stands on. A filter
stands on the value that the links in front of it have led to. -/
def Link.gates : List Link → Passage → Trek → List (Filter × Passage)
  | [], _, _ => []
  | link :: links, p, trek =>
    match link.part, trek with
    | .filter filter, trek => (filter, p) :: gates links p trek
    | .selector _, (_, q) :: trek => gates links q trek
    | .selector _, [] => []

/-- Links lead through what has started up to a place just if they lead to the end of the way, and all
filters on it are passed by then. -/
theorem Link.lead_upTo (n : Nat) (links : List Link) {p : Passage} {trek : Trek} (hp : p.Sorted)
    (ht : ∀ c ∈ trek, c.2.Sorted) :
    lead links (p.upTo n) (trek.upTo n) =
      (lead links p.value trek.way && (gates links p trek).all fun g => g.1.passedBy n g.2) := by
  induction links generalizing p trek with
  | nil => cases trek <;> rfl
  | cons link links ih =>
    obtain ⟨part, marked⟩ := link
    cases part with
    | filter f =>
      have hrest := ih hp ht
      simp only [lead, gates, List.all_cons, Passage.holds_upTo hp, hrest]
      -- a filter that is passed by then holds anyway
      cases hf : f.passedBy n p with
      | true => rw [Passage.holds_of_passedBy hf, Bool.true_and, Bool.true_and, Bool.true_and]
      | false => rw [Bool.false_and, Bool.false_and, Bool.and_false]
    | selector s =>
      cases trek with
      | nil => rfl
      | cons c trek =>
        rw [List.forall_mem_cons] at ht
        have hrest := ih ht.1 ht.2
        simp only [Trek.upTo, Trek.way, List.map_cons, lead, gates] at hrest ⊢
        rw [hrest, Bool.and_assoc]

/-! ## Findings

A finding keeps what is needed to say when it is decided: the links, the passage that it is for
and the gates it has to pass. Up to a place, the findings that are decided are the matches in
what has started and is complete; in the whole document, they are the matches of the reference
semantics. -/

/-- A match, and where it comes from. The match alone does not say by which place it is decided;
for that the value and the filters are needed with their places. -/
structure Finding where
  /-- the number of the path in its session -/
  owner : Nat
  /-- the links of the path up to the mark -/
  links : List Link
  /-- the value that the match is for -/
  passage : Passage
  /-- the filters on the way to it, each with the value it stands on -/
  gates : List (Filter × Passage)
  /-- the match -/
  found : Match

/-- The match with the number of its path. -/
def Finding.owned (f : Finding) : Nat × Match :=
  (f.owner, f.found)

/-- Whether a match is decided by a place: its value is complete, and all filters are passed.
Later places decide no less. -/
def Finding.decidedBy (n : Nat) (f : Finding) : Bool :=
  f.passage.last.stop ≤ n && f.gates.all fun g => g.1.passedBy n g.2

/-- What a path finds at one site of a passage: a match for each mark that the links lead to it with.
The first link selects the value that stands in no container, and is no filter. -/
def Path.findingsAt (owner : Nat) (p : Passage) (site : Trek × Passage) (path : Path) :
    List Finding :=
  ((Link.untilMarks path.links).filter fun links => Link.reach links p.value site.1.way).map
    fun links =>
      { owner, links, passage := site.2, gates := Link.gates links.tail p site.1
        found := { path := path.text, value := site.2.value.text, kind := site.2.value.kind
                   route := site.1.way.route } }

/-- What paths find in a passage: site by site, and path by path at each site. -/
def Passage.findings (paths : List Path) (p : Passage) : List Finding :=
  p.sites.flatMap fun site => paths.zipIdx.flatMap fun x => x.1.findingsAt x.2 p site

namespace Link

/-- Only a root can be in front of all links. -/
theorem reach_upTo (n : Nat) (links : List Link) {p : Passage} {trek : Trek} (hp : p.Sorted)
    (ht : ∀ c ∈ trek, c.2.Sorted) :
    reach links (p.upTo n) (trek.upTo n) =
      (reach links p.value trek.way && (gates links.tail p trek).all fun g => g.1.passedBy n g.2) := by
  unfold reach
  split
  · exact lead_upTo n _ hp ht
  · rfl

end Link

namespace Passage

variable {n : Nat} {p : Passage}

/-- The matches of a path at a site that is complete, with nothing there but what has started up to a
place, are those that are decided by then. -/
theorem matchesAt_upTo (h : p.Sorted) {site : Trek × Passage} (hs : site ∈ p.sites)
    (hn : site.2.last.stop ≤ n) (owner : Nat) (path : Path) :
    path.matchesAt (p.upTo n) (site.1.upTo n, site.2.upTo n) =
      ((path.findingsAt owner p site).filter (·.decidedBy n)).map (·.found) := by
  obtain ⟨hsorted, htrek⟩ := sorted_of_mem_sites h hs
  rw [Path.matchesAt, Path.findingsAt, List.filter_map, List.map_map, List.filter_filter,
    upTo_eq_value hsorted hn, Trek.route_upTo]
  simp only [Link.reach_upTo n _ h htrek]
  congr 1
  refine List.filter_congr fun links _ => ?_
  rw [Function.comp_apply, Finding.decidedBy, decide_eq_true hn, Bool.true_and, Bool.and_comm]

/-- What paths find in a passage up to a place, each match with the number of its path. -/
theorem findings_upTo (h : p.Sorted) (n : Nat) (paths : List Path) :
    ((p.findings paths).filter (·.decidedBy n)).map Finding.owned =
      (p.completed n).flatMap fun place =>
        paths.zipIdx.flatMap fun x => (x.1.matchesAt (p.upTo n) place).map (x.2, ·) := by
  have howner : ∀ (x : Path × Nat) (site : Trek × Passage) (fs : List Finding),
      fs.Sublist (x.1.findingsAt x.2 p site) →
        fs.map Finding.owned = (fs.map (·.found)).map (x.2, ·) := by
    intro x site fs hfs
    rw [List.map_map]
    refine List.map_congr_left fun f hf => ?_
    obtain ⟨links, -, rfl⟩ := List.mem_map.1 (hfs.subset hf)
    rfl
  rw [findings, List.filter_flatMap, List.map_flatMap, completed, List.flatMap_map,
    flatMap_filter_eq]
  refine List.flatMap_congr fun site hs => ?_
  rw [List.filter_flatMap, List.map_flatMap]
  split
  · next hn =>
    refine List.flatMap_congr fun x _ => ?_
    rw [howner x site _ List.filter_sublist, matchesAt_upTo h hs (of_decide_eq_true hn) x.2 x.1]
  · next hn =>
    refine List.flatMap_eq_nil_iff.2 fun x _ => ?_
    rw [List.map_eq_nil_iff, List.filter_eq_nil_iff]
    intro f hf hd
    obtain ⟨links, -, rfl⟩ := List.mem_map.1 hf
    exact hn (Bool.and_eq_true_iff.1 hd).1

/-- What paths find in a passage is what they ask for in its value. So findings are the matches of
the reference, each with its reasons. -/
theorem map_found_findings (p : Passage) (paths : List Path) :
    (p.findings paths).map (·.found) = Path.matchesIn p.value paths := by
  have hat : ∀ (site : Trek × Passage) (x : Path × Nat),
      (x.1.findingsAt x.2 p site).map (·.found) = x.1.matchesAt p.value (site.1.way, site.2.value) := by
    intro site x
    rw [Path.findingsAt, Path.matchesAt, List.map_map]
    rfl
  rw [findings, Path.matchesIn, places_value, List.flatMap_map, List.map_flatMap]
  refine List.flatMap_congr fun site _ => ?_
  simp only [List.map_flatMap, hat]
  rw [← List.flatMap_map Prod.fst, List.zipIdx_map_fst]

/-- Behind a value, all that is found in it is decided. -/
theorem decidedBy_of_last_le (h : p.Sorted) (hn : p.last.stop ≤ n) {paths : List Path} {f : Finding}
    (hf : f ∈ p.findings paths) : f.decidedBy n = true := by
  obtain ⟨site, hs, hf⟩ := List.mem_flatMap.1 hf
  obtain ⟨x, -, hf⟩ := List.mem_flatMap.1 hf
  obtain ⟨links, hlinks, rfl⟩ := List.mem_map.1 hf
  obtain ⟨hlast, -, hway⟩ := upTo_of_mem_sites h hn hs
  have hreach := (List.mem_filter.1 hlinks).2
  have hgates := Link.reach_upTo n links h (sorted_of_mem_sites h hs).2
  rw [upTo_eq_value h hn, hway, hreach, Bool.true_and] at hgates
  exact Bool.and_eq_true_iff.2 ⟨decide_eq_true hlast, hgates.symm⟩

end Passage

end JsonExtract
