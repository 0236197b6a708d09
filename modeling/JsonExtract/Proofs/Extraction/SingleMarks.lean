import JsonExtract.Proofs.Extraction.Several
import JsonExtract.Proofs.Paths.SingleMarks

/-!
# A path with several marks in a session

All marks of a path are followed down the document at once, by one set of filters that they share up to
a point. This cannot be told from following a path for each of the marks: of any bytes, both sessions
give out the same values, and reading ends in the same way.

* `Link.opens` — whether links lead to a value and are decided by a place; marks play no part in it;
* `Link.untilMarks_singlyMarked` — links with one mark each lead up to the same marks;
* `Path.decided_congr` — paths that lead up to the same marks find the same;
* `Session.rest_singlyMarked` — sessions of a path, and of its texts with one mark each.
-/

namespace JsonExtract

/-! ## Links

Marks tell where matches are wanted and have no part in where the links lead. The links up to
the marks of a path are, without their marks, the same as the links up to the one mark of each
of its single-mark variants. -/

namespace Link

/-- The parts of links, without their marks. -/
def parts (links : List Link) : List Part :=
  links.map (·.part)

variable {links links' : List Link}

theorem exists_of_parts_cons {link : Link} (h : parts (link :: links) = parts links') :
    ∃ marked more, links' = ⟨link.part, marked⟩ :: more ∧ parts links = parts more := by
  obtain ⟨⟨part, marked⟩, more, rfl, rfl, hparts⟩ := List.map_eq_cons_iff.1 h.symm
  exact ⟨marked, more, rfl, hparts.symm⟩

theorem lead_congr (h : parts links = parts links') (v : Tree) (way : Way) :
    lead links v way = lead links' v way := by
  induction links generalizing links' v way with
  | nil => rw [List.map_eq_nil_iff.1 h.symm]
  | cons link links ih =>
    obtain ⟨part, marked⟩ := link
    obtain ⟨marked', links', rfl, hparts⟩ := exists_of_parts_cons h
    cases part with
    | filter f => simp only [lead, ih hparts]
    | selector s =>
      cases way with
      | nil => rfl
      | cons => simp only [lead, ih hparts]

theorem gates_congr (h : parts links = parts links') (p : Passage) (trek : Trek) :
    gates links p trek = gates links' p trek := by
  induction links generalizing links' p trek with
  | nil => rw [List.map_eq_nil_iff.1 h.symm]
  | cons link links ih =>
    obtain ⟨part, marked⟩ := link
    obtain ⟨marked', links', rfl, hparts⟩ := exists_of_parts_cons h
    cases part with
    | filter f => simp only [gates, ih hparts]
    | selector s =>
      cases trek with
      | nil => rfl
      | cons => simp only [gates, ih hparts]

theorem reach_congr (h : parts links = parts links') (t : Tree) (way : Way) :
    reach links t way = reach links' t way := by
  cases links with
  | nil => rw [List.map_eq_nil_iff.1 h.symm]
  | cons link links =>
    obtain ⟨part, marked⟩ := link
    obtain ⟨marked', links', rfl, hparts⟩ := exists_of_parts_cons h
    cases part with
    | filter => rfl
    | selector s =>
      cases s with
      | root => exact lead_congr hparts t way
      | wildcard | key | index | slice => rfl

/-- Whether links lead to a site of a passage, which is complete and past all filters by a place.
This is what it takes for a finding of these links to be decided by the place. -/
def opens (n : Nat) (p : Passage) (site : Trek × Passage) (links : List Link) : Bool :=
  reach links p.value site.1.way &&
    (site.2.last.stop ≤ n && (gates links.tail p site.1).all fun g => g.1.passedBy n g.2)

/-- Marks play no part in it. -/
theorem opens_congr (h : parts links = parts links') (n : Nat) (p : Passage)
    (site : Trek × Passage) : opens n p site links = opens n p site links' := by
  have htail : parts links.tail = parts links'.tail := by
    rw [parts, parts, List.map_tail, List.map_tail]
    exact congrArg List.tail h
  rw [opens, opens, reach_congr h, gates_congr htail]

theorem untilMarks_unmarked (links : List Link) : untilMarks (links.map unmarked) = [] := by
  induction links with
  | nil => rfl
  | cons link links ih =>
    rw [List.map_cons, untilMarks, ih]
    rfl

/-- Links with one mark each lead up to the same marks as the links with all of them. The shortest
comes first on both sides. -/
theorem untilMarks_singlyMarked (links : List Link) :
    ((singlyMarked links).flatMap untilMarks).map parts = (untilMarks links).map parts := by
  induction links with
  | nil => rfl
  | cons link links ih =>
    have hfirst : (if link.marked then [link :: links.map unmarked] else []).flatMap untilMarks =
        if link.marked then [[link]] else [] := by
      split
      · next hm =>
        rw [List.flatMap_singleton, untilMarks, if_pos hm, untilMarks_unmarked]
        rfl
      · rfl
    have hlater : ((singlyMarked links).map (link.unmarked :: ·)).flatMap untilMarks =
        ((singlyMarked links).flatMap untilMarks).map (link.unmarked :: ·) := by
      rw [List.flatMap_map, List.map_flatMap]
      rfl
    have hparts : ∀ ls : List (List Link), (ls.map (link.unmarked :: ·)).map parts =
        (ls.map parts).map (link.part :: ·) := by
      intro ls
      rw [List.map_map, List.map_map]
      rfl
    rw [singlyMarked, List.flatMap_append, hfirst, hlater, untilMarks, List.map_append,
      List.map_append, hparts, ih, List.map_map, List.map_map]
    rfl

end Link

/-! ## Findings

A finding is decided by the parts of its links and by the place. So paths that lead up to the
same marks decide the same findings in the same order, though the findings have other owners. -/

/-- What a match says of its value, without the path. -/
def Match.about (m : Match) : Bytes × Kind × Route :=
  (m.value, m.kind, m.route)

namespace Path

variable {n : Nat} {p : Passage}

/-- Whether links lead to a site does not depend on their marks, so they may be counted without. -/
theorem countP_opens (n : Nat) (p : Passage) (site : Trek × Passage) {ls ls' : List (List Link)}
    (h : ls.map Link.parts = ls'.map Link.parts) :
    ls.countP (Link.opens n p site) = ls'.countP (Link.opens n p site) := by
  have hparts : ∀ links : List Link, Link.opens n p site links =
      (fun parts : List Part => Link.opens n p site (parts.map (⟨·, false⟩))) (Link.parts links) := by
    intro links
    refine Link.opens_congr ?_ n p site
    rw [Link.parts, Link.parts, List.map_map, List.map_map]
    rfl
  have hcount : ∀ ls : List (List Link), ls.countP (Link.opens n p site) =
      (ls.map Link.parts).countP fun parts => Link.opens n p site (parts.map (⟨·, false⟩)) := by
    intro ls
    rw [List.countP_map]
    exact List.countP_congr fun links _ => by rw [hparts links]; rfl
  rw [hcount, hcount, h]

/-- What paths find at a site by a place, counted by their links up to a mark. -/
theorem decidedAt_eq (site : Trek × Passage) (paths : List Path) :
    ((paths.zipIdx.flatMap fun x => x.1.findingsAt x.2 p site).filter (·.decidedBy n)).map
        (·.found.about) =
      List.replicate (((paths.map (·.links)).flatMap Link.untilMarks).countP (Link.opens n p site))
        (site.2.value.text, site.2.value.kind, site.1.way.route) := by
  have hone : ∀ x : Path × Nat, ((x.1.findingsAt x.2 p site).filter (·.decidedBy n)).map
        (·.found.about) =
      (Link.untilMarks x.1.links).flatMap fun links =>
        if Link.opens n p site links then
          [(site.2.value.text, site.2.value.kind, site.1.way.route)] else [] := by
    intro x
    have hfilter : ((Link.untilMarks x.1.links).filter fun links =>
          Link.reach links p.value site.1.way).filter (fun links => site.2.last.stop ≤ n &&
            (Link.gates links.tail p site.1).all fun g => g.1.passedBy n g.2) =
        (Link.untilMarks x.1.links).filter (Link.opens n p site) := by
      rw [List.filter_filter]
      exact List.filter_congr fun links _ => Bool.and_comm ..
    rw [findingsAt, List.filter_map, List.map_map, flatMap_ite_singleton, List.countP_eq_length_filter,
      ← hfilter, ← List.map_const']
    rfl
  rw [List.filter_flatMap, List.map_flatMap]
  simp only [hone]
  rw [← List.flatMap_map Prod.fst fun path : Path => (Link.untilMarks path.links).flatMap _,
    List.zipIdx_map_fst, ← List.flatMap_assoc, flatMap_ite_singleton, List.flatMap_map]

/-- Paths that lead up to the same marks find the same. The two lists of paths may have different
lengths. -/
theorem decided_congr {paths paths' : List Path}
    (h : ((paths.map (·.links)).flatMap Link.untilMarks).map Link.parts =
      ((paths'.map (·.links)).flatMap Link.untilMarks).map Link.parts) (n : Nat)
    (values : List Passage) :
    ((values.flatMap (Passage.findings paths)).filter (·.decidedBy n)).map (·.found.about) =
      ((values.flatMap (Passage.findings paths')).filter (·.decidedBy n)).map (·.found.about) := by
  rw [List.filter_flatMap, List.filter_flatMap, List.map_flatMap, List.map_flatMap]
  refine List.flatMap_congr fun p _ => ?_
  rw [Passage.findings, Passage.findings, List.filter_flatMap, List.filter_flatMap,
    List.map_flatMap, List.map_flatMap]
  refine List.flatMap_congr fun site _ => ?_
  rw [decidedAt_eq, decidedAt_eq, countP_opens n p site h]

end Path

/-! ## Sessions

The variants are paths of one session. What is compared is what a match says of its value, since
the texts of the variants differ from that of the path. -/

/-- The texts that leave one mark of a path each are paths, too. A session of all of them gives out the
same values in the same order as a session of the path, whatever the bytes of the document are, and
ends in the same way. -/
theorem Session.rest_singlyMarked {text : String} {path : Path} (h : Path.parse text = .ok path) :
    ∃ paths, Path.parseAll (Path.singlyMarked text) = .ok paths ∧
      paths.length = path.markCount ∧ (∀ q ∈ paths, q.markCount = 1) ∧
      ∀ (options : Options) (d : Bytes),
        (ofDocument paths options d).map (fun s => (s.rest.1.map Match.about, s.rest.2.failure?)) =
          (ofDocument [path] options d).map
            (fun s => (s.rest.1.map Match.about, s.rest.2.failure?)) := by
  obtain ⟨paths, hpaths, hlinks⟩ := Path.parseAll_singlyMarked h
  refine ⟨paths, hpaths, ?_, ?_, ?_⟩
  · rw [← List.length_map (·.links), hlinks, Link.length_singlyMarked, Path.markCount]
  · intro q hq
    have hmem : q.links ∈ Link.singlyMarked path.links := hlinks ▸ List.mem_map_of_mem hq
    exact Link.countP_of_mem_singlyMarked hmem
  · intro options d
    cases hc : options.check with
    | error failure => rw [ofDocument, ofDocument, start, start, hc]
    | ok _ =>
      obtain ⟨s, hs⟩ := exists_ofDocument hc paths d
      obtain ⟨s', hs'⟩ := exists_ofDocument hc [path] d
      obtain ⟨values, n, hsorted, htokens⟩ := Lexer.exists_values options d
      have hone : ∀ q ∈ [path], ∃ text, Path.parse text = .ok q := by
        rw [List.forall_mem_singleton]
        exact ⟨text, h⟩
      have hmarks : ((paths.map (·.links)).flatMap Link.untilMarks).map Link.parts =
          (([path].map (·.links)).flatMap Link.untilMarks).map Link.parts := by
        rw [hlinks, Link.untilMarks_singlyMarked, List.map_singleton, List.flatMap_singleton]
      have hsame := Path.decided_congr hmarks n values
      rw [hs, hs', Except.map, Except.map, (rest_ofDocument hs).2, (rest_ofDocument hs').2,
        (rest_eq_decided (Path.forall_of_parseAll hpaths) hs hsorted htokens).2,
        (rest_eq_decided hone hs' hsorted htokens).2, List.map_map, List.map_map]
      exact congrArg (fun found => Except.ok (found, _)) hsame

/-- A path with two marks and a plus sign in a literal. -/
theorem Session.rest_singlyMarked_with_literal :
    ∃ path paths, Path.parse "$.a+[\"+\"]+" = .ok path ∧
      Path.parseAll ["$.a+[\"+\"]", "$.a[\"+\"]+"] = .ok paths ∧
      ∀ (options : Options) (d : Bytes),
        (ofDocument paths options d).map (fun s => (s.rest.1.map Match.about, s.rest.2.failure?)) =
          (ofDocument [path] options d).map
            (fun s => (s.rest.1.map Match.about, s.rest.2.failure?)) := by
  have hparse : Path.parse "$.a+[\"+\"]+" = .ok (.ofLinks "$.a+[\"+\"]+"
      [⟨.selector .root, false⟩, ⟨.selector (.key (Bytes.ofString "a")), true⟩,
        ⟨.selector (.key (Bytes.ofString "+")), true⟩]) := by
    decide +kernel
  have htexts : Path.singlyMarked "$.a+[\"+\"]+" = ["$.a+[\"+\"]", "$.a[\"+\"]+"] := by
    decide +kernel
  obtain ⟨paths, hpaths, -, -, hsame⟩ := rest_singlyMarked hparse
  exact ⟨_, paths, hparse, htexts ▸ hpaths, hsame⟩

end JsonExtract
