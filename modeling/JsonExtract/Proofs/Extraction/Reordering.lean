import JsonExtract.Proofs.Document.Reordering
import JsonExtract.Proofs.Extraction.Landings
import JsonExtract.Proofs.Extraction.Survival
import Mathlib.Data.Multiset.Bind

/-!
# Matches do not depend on the order of members

Members of objects may change their order, as long as no object repeats a name. A filter holds of a value
in any order, whether the member that decides it stands in front of the values that wait for it or behind
them. So the same values are matches, in another order, and the text of a container has its members in
another order, too.

* `Tree.Distinct` — no object repeats a name;
* `Tree.Reordered.holds_eq` — filters hold of a value in any order;
* `Part.outlines`, `Part.outlines_perm` — where parts lead;
* `Path.matchesIn_perm` — matches, mark by mark and not place by place;
* `Session.rest_of_reordered` — sessions over a document and over a reordered one.
-/

namespace JsonExtract

/-! ## Names

If an object repeats a name, a filter on this name is decided by the first member that has it,
and which one is the first would depend on the order. So names are not to be repeated, in any
object of the document. -/

namespace Tree

/-- Whether no object in a document repeats a name. The condition is put on the value itself and
on all values in it. -/
def Distinct (t : Tree) : Prop :=
  ∀ place ∈ t.places, (place.2.members.map (·.1)).Nodup

theorem forall_children_object {P : Tree → Prop} {members : List (Bytes × Tree)} :
    (∀ c ∈ (object members).children, P c.2) ↔ ∀ m ∈ members, P m.2 :=
  List.forall_mem_map

theorem forall_children_array {P : Tree → Prop} {elements : List Tree} :
    (∀ c ∈ (array elements).children, P c.2) ↔ ∀ e ∈ elements, P e := by
  have hvalues : (array elements).children.map (·.2) = elements := by
    rw [children, List.map_map]
    exact List.zipIdx_map_fst 0 elements
  rw [← List.forall_mem_map (f := Prod.snd) (P := P), hvalues]

theorem distinct_iff {t : Tree} :
    t.Distinct ↔ (t.members.map (·.1)).Nodup ∧ ∀ c ∈ t.children, c.2.Distinct := by
  constructor
  · intro h
    refine ⟨h ([], t) (mem_places_iff.2 (.inl rfl)), ?_⟩
    intro c hc place hplace
    exact h (c :: place.1, place.2) (mem_places_iff.2 (.inr ⟨c, hc, place, hplace, rfl⟩))
  · rintro ⟨htop, hbelow⟩ place hplace
    obtain rfl | ⟨c, hc, inner, hinner, rfl⟩ := mem_places_iff.1 hplace
    · exact htop
    · exact hbelow c hc inner hinner

/-- In another order, names are not repeated either. -/
theorem Reordered.distinct {t t' : Tree} (h : t.Reordered t') (hd : t.Distinct) : t'.Distinct := by
  induction h with
  | refl => exact hd
  | trans _ _ ih ih' => exact ih' (ih hd)
  | members h =>
    rw [distinct_iff, forall_children_object] at hd ⊢
    exact ⟨(h.map (·.1)).nodup_iff.1 hd.1, fun m hm => hd.2 m (h.mem_iff.2 hm)⟩
  | member _ ih =>
    rw [distinct_iff, forall_children_object, List.forall_mem_append, List.forall_mem_cons] at hd ⊢
    obtain ⟨hnames, hbefore, hvalue, hafter⟩ := hd
    refine ⟨?_, hbefore, ih hvalue, hafter⟩
    rw [Tree.members, List.map_append, List.map_cons] at hnames ⊢
    exact hnames
  | element _ ih =>
    rw [distinct_iff, forall_children_array, List.forall_mem_append, List.forall_mem_cons] at hd ⊢
    obtain ⟨-, hbefore, hvalue, hafter⟩ := hd
    exact ⟨List.nodup_nil, hbefore, ih hvalue, hafter⟩

end Tree

/-! ## Filters

A filter asks for some member with a name and a text. If names are not repeated it does not
matter whether the first member of a name is meant or any of them. -/

/-- Whether a field is one of the members of a name. -/
def Field.names (name : Bytes) : Field → Bool
  | named wanted => name == wanted
  | any => true

/-- If no name is repeated, it does not matter which member of a name is the first. On the right
the order of the members is immaterial. -/
theorem Field.equals_eq_any {members : List (Bytes × Tree)} (h : (members.map (·.1)).Nodup)
    (literal : Bytes) (field : Field) :
    field.equals literal members =
      members.any fun m => field.names m.1 && m.2.text? == some literal := by
  cases field with
  | any => rfl
  | named wanted =>
    rw [equals]
    induction members with
    | nil => rfl
    | cons m members ih =>
      rw [List.map_cons, List.nodup_cons] at h
      rw [List.find?_cons, List.any_cons, names]
      cases hm : m.1 == wanted with
      | false => exact ih h.2
      | true =>
        -- the other members have other names
        have hothers : (members.any fun m => (named wanted).names m.1 && m.2.text? == some literal) =
            false := by
          rw [List.any_eq_false]
          intro other hother
          have hne : other.1 ≠ wanted := by
            intro hsame
            exact h.1 (List.mem_map.2 ⟨other, hother, hsame.trans (eq_of_beq hm).symm⟩)
          rw [names, beq_false_of_ne hne, Bool.false_and]
          exact Bool.false_ne_true
        rw [hothers, Bool.or_false]
        rfl

theorem Tree.text?_shell (t : Tree) : t.shell.text? = t.text? := by
  cases t <;> rfl

namespace Tree.Reordered

variable {t t' : Tree}

theorem text?_eq (h : t.Reordered t') : t'.text? = t.text? := by
  rw [← text?_shell, h.shell_eq, text?_shell]

/-- A filter holds of a value in any order of its members. -/
theorem holds_eq (h : t.Reordered t') (hd : t.Distinct) (f : Filter) : f.holds t' = f.holds t := by
  cases f with
  | literals left right => rfl
  | member field literal =>
    have hd' := h.distinct hd
    induction h with
    | refl => rfl
    | trans h h' ih ih' => exact (ih' (h.distinct hd) hd').trans (ih hd (h.distinct hd))
    | members h =>
      rw [Filter.holds, Filter.holds, Field.equals_eq_any (distinct_iff.1 hd).1,
        Field.equals_eq_any (distinct_iff.1 hd').1]
      exact h.symm.any_eq
    | member h ih =>
      rw [Filter.holds, Filter.holds, Field.equals_eq_any (distinct_iff.1 hd).1,
        Field.equals_eq_any (distinct_iff.1 hd').1]
      simp only [Tree.members, List.any_append, List.any_cons, h.text?_eq]
    | element => rfl

end Tree.Reordered

/-! ## Places

A reordering changes ways, because these hold the values that are passed through, and it changes
the order of places. What it does not change are routes, and of the value at the end of a way the
kind and, for a scalar, the text. These are kept in the outline of a place, and lists of outlines
are compared up to permutation. -/

/-- What of a place does not depend on the order of members. -/
def Tree.outline (place : Way × Tree) : Route × Tree :=
  (place.1.route, place.2.shell)

/-- Where something changes in one item of a list, it changes in what comes from this item. -/
theorem flatMap_perm_of_item {α β : Type} {f : α → List β} {x x' : α} (before after : List α)
    (h : (f x).Perm (f x')) :
    ((before ++ x :: after).flatMap f).Perm ((before ++ x' :: after).flatMap f) := by
  rw [List.flatMap_append, List.flatMap_append, List.flatMap_cons, List.flatMap_cons]
  exact (h.append_right _).append_left _

namespace Part

/-- The outlines of the places that parts lead to. They are listed in the order of the document,
which is what a reordering changes. -/
def outlines (parts : List Part) (t : Tree) : List (Route × Tree) :=
  (landings parts t).map Tree.outline

/-- The outlines of the places that parts lead to through one child. -/
def outlinesBelow (s : Selector) (parts : List Part) (c : Child × Tree) : List (Route × Tree) :=
  if s.selects c.1 then (outlines parts c.2).map fun o => (c.1.step :: o.1, o.2) else []

theorem outlines_selector (s : Selector) (parts : List Part) (t : Tree) :
    outlines (.selector s :: parts) t = t.children.flatMap (outlinesBelow s parts) := by
  have hbelow : ∀ c : Child × Tree,
      ((landings parts c.2).map fun place => (c :: place.1, place.2)).map Tree.outline =
        (outlines parts c.2).map fun o => (c.1.step :: o.1, o.2) := by
    intro c
    rw [outlines, List.map_map, List.map_map]
    rfl
  simp only [outlines, landings, List.map_flatMap, hbelow]
  exact flatMap_filter_eq ..

/-- In another order of the members parts lead to the same places, up to the order, if all selectors do. -/
theorem outlines_perm_of_children {t t' : Tree} (h : t.Reordered t') (hd : t.Distinct)
    (hchildren : ∀ s parts, (t.children.flatMap (outlinesBelow s parts)).Perm
      (t'.children.flatMap (outlinesBelow s parts)))
    (parts : List Part) : (outlines parts t).Perm (outlines parts t') := by
  induction parts with
  | nil =>
    rw [outlines, outlines, landings, landings, List.map_singleton, List.map_singleton, Tree.outline,
      Tree.outline, h.shell_eq]
  | cons part parts ih =>
    cases part with
    | filter f =>
      rw [outlines, outlines, landings, landings, h.holds_eq hd]
      split
      · exact ih
      · exact .nil
    | selector s =>
      rw [outlines_selector, outlines_selector]
      exact hchildren s parts

/-- A child in which something changes leads to the same places, up to the order. -/
theorem outlinesBelow_perm {v v' : Tree} (h : ∀ parts, (outlines parts v).Perm (outlines parts v'))
    (s : Selector) (parts : List Part) (c : Child) :
    (outlinesBelow s parts (c, v)).Perm (outlinesBelow s parts (c, v')) := by
  rw [outlinesBelow, outlinesBelow]
  split
  · exact (h parts).map _
  · exact .nil

/-- In any order of the members parts lead to the same places. -/
theorem outlines_perm {t t' : Tree} (h : t.Reordered t') (hd : t.Distinct) (parts : List Part) :
    (outlines parts t).Perm (outlines parts t') := by
  induction h generalizing parts with
  | refl => exact .refl _
  | trans h _ ih ih' => exact (ih hd parts).trans (ih' (h.distinct hd) parts)
  | members h =>
    refine outlines_perm_of_children (.members h) hd (fun s parts => ?_) parts
    exact (h.map _).flatMap_right _
  | @member before after name v v' h ih =>
    refine outlines_perm_of_children (.member h) hd (fun s parts => ?_) parts
    rw [Tree.distinct_iff, Tree.forall_children_object, List.forall_mem_append,
      List.forall_mem_cons] at hd
    rw [Tree.children, Tree.children, List.map_append, List.map_append]
    exact flatMap_perm_of_item _ _ (outlinesBelow_perm (ih hd.2.2.1) s parts (.member name))
  | @element before after v v' h ih =>
    refine outlines_perm_of_children (.element h) hd (fun s parts => ?_) parts
    rw [Tree.distinct_iff, Tree.forall_children_array, List.forall_mem_append,
      List.forall_mem_cons] at hd
    rw [Tree.children, Tree.children, List.zipIdx_append, List.zipIdx_append, List.map_append,
      List.map_append]
    exact flatMap_perm_of_item _ _ (outlinesBelow_perm (ih hd.2.2.1) s parts (.element _))

end Part

/-- In any order of the members the links of a path lead to the same places. -/
theorem Link.reached_perm {t t' : Tree} (h : t.Reordered t') (hd : t.Distinct) (links : List Link) :
    ((t.places.filter fun place => reach links t place.1).map Tree.outline).Perm
      ((t'.places.filter fun place => reach links t' place.1).map Tree.outline) := by
  -- only links that start at the top lead anywhere
  have hnone : (∀ v way, reach links v way = false) →
      ∀ v : Tree, v.places.filter (fun place => reach links v place.1) = [] := by
    intro hreach v
    exact List.filter_eq_nil_iff.2 fun place _ => by rw [hreach]; exact Bool.false_ne_true
  match links with
  | ⟨.selector .root, _⟩ :: links =>
    have hplaces := Part.outlines_perm h hd (links.map (·.part))
    rw [Part.outlines, Part.outlines, ← filter_places, ← filter_places] at hplaces
    exact hplaces
  | [] | ⟨.filter _, _⟩ :: _ | ⟨.selector .wildcard, _⟩ :: _ | ⟨.selector (.key _), _⟩ :: _
  | ⟨.selector (.index _), _⟩ :: _ | ⟨.selector (.slice ..), _⟩ :: _ =>
    rw [hnone (fun _ _ => rfl), hnone (fun _ _ => rfl)]

/-! ## Matches

Matches are listed place by place, and for a permutation they have to be compared mark by mark.
So the two nested lists are exchanged first. -/

/-- What comes from pairs of items comes in any order of the two lists. -/
theorem flatMap_flatMap_perm {α β γ : Type} (f : α → β → List γ) (xs : List α) (ys : List β) :
    (xs.flatMap fun x => ys.flatMap (f x)).Perm (ys.flatMap fun y => xs.flatMap (f · y)) := by
  rw [← Multiset.coe_eq_coe]
  simp only [← Multiset.coe_bind]
  exact Multiset.bind_bind _ _

namespace Path

/-- The matches of paths, mark by mark. -/
theorem matchesIn_perm (t : Tree) (paths : List Path) :
    (matchesIn t paths).Perm (paths.flatMap fun p => (Link.untilMarks p.links).flatMap fun links =>
      (t.places.filter fun place => Link.reach links t place.1).map (Match.ofPlace p.text)) := by
  let found (place : Way × Tree) (p : Path) (links : List Link) : List Match :=
    if Link.reach links t place.1 then [Match.ofPlace p.text place] else []
  have hat : ∀ place p, matchesAt t place p = (Link.untilMarks p.links).flatMap (found place p) := by
    intro place p
    rw [matchesAt, List.map_eq_flatMap, flatMap_filter_eq]
    rfl
  have hmark : ∀ (p : Path) (links : List Link),
      (t.places.filter fun place => Link.reach links t place.1).map (Match.ofPlace p.text) =
        t.places.flatMap (found · p links) := by
    intro p links
    rw [List.map_eq_flatMap, flatMap_filter_eq]
  simp only [matchesIn, funext fun place => funext (hat place), hmark]
  refine (flatMap_flatMap_perm _ _ _).trans (List.Perm.flatMap_left _ fun p _ => ?_)
  exact flatMap_flatMap_perm ..

end Path

namespace Match

/-- What of a match does not depend on the order of members: everything but the text of a
container. For a scalar, nothing is left out. -/
def outline (m : Match) : Match :=
  if m.kind.isContainer then { m with value := [] } else m

/-- The match of a value at a place, as far as it does not depend on the order of members. -/
def ofOutline (text : String) (o : Route × Tree) : Match :=
  { path := text, value := if o.2.kind.isContainer then [] else o.2.text, kind := o.2.kind, route := o.1 }

theorem outline_ofPlace (text : String) (place : Way × Tree) :
    (ofPlace text place).outline = ofOutline text (Tree.outline place) := by
  obtain ⟨way, v⟩ := place
  cases v with
  | scalar s => cases s <;> rfl
  | array | object => rfl

theorem kind_outline (m : Match) : m.outline.kind = m.kind := by
  rw [outline]
  split <;> rfl

/-- Matches that are the same in outline are the same apart from the texts of containers. -/
theorem perm_of_outline {ms ms' : List Match} (h : (ms.map outline).Perm (ms'.map outline)) :
    (ms.filter (!·.kind.isContainer)).Perm (ms'.filter (!·.kind.isContainer)) ∧
      ((ms.filter (·.kind.isContainer)).map fun m => (m.path, m.kind, m.route)).Perm
        ((ms'.filter (·.kind.isContainer)).map fun m => (m.path, m.kind, m.route)) := by
  have hscalars : ∀ ms : List Match,
      (ms.map outline).filter (!·.kind.isContainer) = ms.filter (!·.kind.isContainer) := by
    intro ms
    rw [List.filter_map]
    simp only [Function.comp_def, kind_outline]
    refine (List.map_congr_left fun m hm => ?_).trans (List.map_id _)
    have hscalar := (List.mem_filter.1 hm).2
    rw [Bool.not_eq_true'] at hscalar
    rw [outline, hscalar]
    rfl
  have hcontainers : ∀ ms : List Match,
      ((ms.map outline).filter (·.kind.isContainer)).map (fun m => (m.path, m.kind, m.route)) =
        (ms.filter (·.kind.isContainer)).map fun m => (m.path, m.kind, m.route) := by
    intro ms
    rw [List.filter_map, List.map_map]
    simp only [Function.comp_def, kind_outline]
    refine List.map_congr_left fun m _ => ?_
    rw [outline]
    split <;> rfl
  have hperm := (h.filter (·.kind.isContainer)).map fun m => (m.path, m.kind, m.route)
  rw [hcontainers, hcontainers] at hperm
  have hperm' := h.filter (!·.kind.isContainer)
  rw [hscalars, hscalars] at hperm'
  exact ⟨hperm', hperm⟩

end Match

namespace Path

/-- In any order of the members the matches are the same in outline. -/
theorem outline_matchesIn_perm {t t' : Tree} (h : t.Reordered t') (hd : t.Distinct)
    (paths : List Path) :
    ((matchesIn t paths).map Match.outline).Perm ((matchesIn t' paths).map Match.outline) := by
  refine ((matchesIn_perm t paths).map _).trans (.trans ?_ ((matchesIn_perm t' paths).map _).symm)
  simp only [List.map_flatMap, List.map_map]
  refine List.Perm.flatMap_left _ fun p _ => List.Perm.flatMap_left _ fun links _ => ?_
  have hplaces := (Link.reached_perm h hd links).map (Match.ofOutline p.text)
  rw [List.map_map, List.map_map] at hplaces
  simpa only [Function.comp_def, Match.outline_ofPlace] using hplaces

/-- This is so for several values, too. -/
theorem outline_series_perm {values values' : List Tree}
    (h : List.Forall₂ Tree.Reordered values values') (hd : ∀ t ∈ values, t.Distinct) (paths : List Path) :
    ((values.flatMap (matchesIn · paths)).map Match.outline).Perm
      ((values'.flatMap (matchesIn · paths)).map Match.outline) := by
  induction h with
  | nil => exact .nil
  | cons h _ ih =>
    rw [List.forall_mem_cons] at hd
    rw [List.flatMap_cons, List.flatMap_cons, List.map_append, List.map_append]
    exact (outline_matchesIn_perm h hd.1 paths).append (ih hd.2)

end Path

/-! ## Sessions

Sessions over two documents that differ by a reordering give out the same in outline. For
scalars the outline is the whole match. -/

namespace Session

/-- A session over a document of any number of values gives out what its paths ask for in each of them, to
the end. -/
theorem exists_of_reads {paths : List Path} {options : Options} {values : List Tree} {d : Bytes}
    (hp : ∀ p ∈ paths, ∃ text, Path.parse text = .ok p) (ho : options.check = .ok ())
    (hd : Grammar.Reads options values d) (hdepth : ∀ t ∈ values, t.depth ≤ options.maxDepth) :
    ∃ s, ofDocument paths options d = .ok s ∧
      s.rest.1 = values.flatMap (Path.matchesIn · paths) ∧ s.rest.2.failure? = none := by
  obtain ⟨s, hs⟩ := exists_ofDocument ho paths d
  obtain ⟨tokens, htokens, hfeed⟩ := Lexer.feed_reads hd hdepth
  obtain ⟨passages, rfl, rfl⟩ := Passage.exists_of_series htokens
  refine ⟨s, hs, ?_, by rw [(rest_ofDocument hs).2, hfeed]⟩
  rw [rest_eq_findings hp hs (by rw [Lexer.scan_buffer, hfeed]), List.map_flatMap, List.flatMap_map]
  exact List.flatMap_congr fun p _ => p.map_found_findings paths

/-- The members of any objects of a document, in which no object repeats a name, change their order. A
session over the reordered document gives out the same matches of scalars, in some order, and matches of
containers at the same places for the same paths. -/
theorem rest_of_reordered {texts : List String} {paths : List Path} {options : Options}
    {values values' : List Tree} {d d' : Bytes} (hp : Path.parseAll texts = .ok paths)
    (ho : options.check = .ok ()) (hd : Grammar.Reads options values d)
    (hdepth : ∀ t ∈ values, t.depth ≤ options.maxDepth) (hdistinct : ∀ t ∈ values, t.Distinct)
    (hr : List.Forall₂ Tree.Reordered values values') (hd' : Grammar.Reads options values' d') :
    ∃ s s', ofDocument paths options d = .ok s ∧ ofDocument paths options d' = .ok s' ∧
      s.rest.2.failure? = none ∧ s'.rest.2.failure? = none ∧
      (s.rest.1.filter (!·.kind.isContainer)).Perm (s'.rest.1.filter (!·.kind.isContainer)) ∧
      ((s.rest.1.filter (·.kind.isContainer)).map fun m => (m.path, m.kind, m.route)).Perm
        ((s'.rest.1.filter (·.kind.isContainer)).map fun m => (m.path, m.kind, m.route)) := by
  have hpaths := Path.forall_of_parseAll hp
  obtain ⟨s, hs, hrest, hfailure⟩ := exists_of_reads hpaths ho hd hdepth
  obtain ⟨s', hs', hrest', hfailure'⟩ :=
    exists_of_reads hpaths ho hd' (Tree.Reordered.forall_depth_le hr hdepth)
  refine ⟨s, s', hs, hs', hfailure, hfailure', Match.perm_of_outline ?_⟩
  rw [hrest, hrest']
  exact Path.outline_series_perm hr hdistinct paths

/-- A member that decides a filter moves in front of the object that waits for it, and the members of this
object change places. -/
theorem rest_of_reordered_filter :
    ∃ s s' : Session Buffer,
      ofDocument [.ofLinks "$?(@.k == \"x\").a+.c+" [⟨.selector .root, false⟩,
          ⟨.filter (.member (.named (Bytes.ofString "k")) (Bytes.ofString "x")), false⟩,
          ⟨.selector (.key (Bytes.ofString "a")), true⟩,
          ⟨.selector (.key (Bytes.ofString "c")), true⟩]] {}
        (Bytes.ofString r#"{"a":{"b":1,"c":2},"k":"x"}"#) = .ok s ∧
      ofDocument [.ofLinks "$?(@.k == \"x\").a+.c+" [⟨.selector .root, false⟩,
          ⟨.filter (.member (.named (Bytes.ofString "k")) (Bytes.ofString "x")), false⟩,
          ⟨.selector (.key (Bytes.ofString "a")), true⟩,
          ⟨.selector (.key (Bytes.ofString "c")), true⟩]] {}
        (Bytes.ofString r#"{"k":"x","a":{"c":2,"b":1}}"#) = .ok s' ∧
      s.rest.1.filter (!·.kind.isContainer) =
        [⟨"$?(@.k == \"x\").a+.c+", Bytes.ofString "2", .number,
          [.key (Bytes.ofString "a"), .key (Bytes.ofString "c")]⟩] ∧
      (s.rest.1.filter (!·.kind.isContainer)).Perm (s'.rest.1.filter (!·.kind.isContainer)) ∧
      ((s.rest.1.filter (·.kind.isContainer)).map fun m => (m.path, m.kind, m.route)).Perm
        ((s'.rest.1.filter (·.kind.isContainer)).map fun m => (m.path, m.kind, m.route)) := by
  let path : Path := .ofLinks "$?(@.k == \"x\").a+.c+" [⟨.selector .root, false⟩,
    ⟨.filter (.member (.named (Bytes.ofString "k")) (Bytes.ofString "x")), false⟩,
    ⟨.selector (.key (Bytes.ofString "a")), true⟩,
    ⟨.selector (.key (Bytes.ofString "c")), true⟩]
  let one : Tree := .scalar (.number [0x31])
  let two : Tree := .scalar (.number [0x32])
  let x : Tree := .scalar (.string [0x78])
  let t : Tree := .object [([0x61], .object [([0x62], one), ([0x63], two)]), ([0x6b], x)]
  let t' : Tree := .object [([0x6b], x), ([0x61], .object [([0x63], two), ([0x62], one)])]
  have hparse : Path.parseAll ["$?(@.k == \"x\").a+.c+"] = .ok [path] := by
    decide +kernel
  have hname (b : UInt8) (h : 0x20 ≤ b ∧ b ≠ Ascii.quote ∧ b ≠ Ascii.backslash) :
      Grammar.IsStringBody [b] :=
    .plain h.1 h.2.1 h.2.2 .nil
  have hdigit (b : UInt8) (h : Ascii.isDigit b = true ∧ b ≠ Ascii.zero) : Grammar.IsNumber [b] :=
    @Grammar.IsNumber.mk [] [b] [] [] (.inl rfl)
      (.digits h.1 h.2 fun _ h => absurd h List.not_mem_nil) .none .none
  have hpair {n m text text' : Bytes} {v w : Tree} (hn : Grammar.IsStringBody n)
      (hm : Grammar.IsStringBody m) (hv : Grammar.Spells false v text)
      (hw : Grammar.Spells false w text') :=
    Grammar.Spells.object (.moreMembers .nil hn .nil .nil hv .nil (.lastMember .nil hm .nil .nil hw .nil))
  have hone : Grammar.Spells false one _ := .scalar (hdigit 0x31 (by decide))
  have htwo : Grammar.Spells false two _ := .scalar (hdigit 0x32 (by decide))
  have hx : Grammar.Spells false x _ := .scalar (hname 0x78 (by decide))
  have ha := hname 0x61 (by decide)
  have hk := hname 0x6b (by decide)
  have hdocument : Grammar.IsDocument false t _ :=
    .mk .nil (hpair ha hk (hpair (hname 0x62 (by decide)) (hname 0x63 (by decide)) hone htwo) hx) .nil
  have hdocument' : Grammar.IsDocument false t' _ :=
    .mk .nil (hpair hk ha hx (hpair (hname 0x63 (by decide)) (hname 0x62 (by decide)) htwo hone)) .nil
  have hreads : ∀ (t : Tree) (d : Bytes), Grammar.IsDocument false t d → Grammar.Reads {} [t] d := by
    intro t d h
    rw [Grammar.Reads, if_neg Bool.false_ne_true]
    exact ⟨t, rfl, h⟩
  have hinner := @Tree.Reordered.member [] [([0x6b], x)] [0x61] _ _
    (.members (.swap ([0x63], two) ([0x62], one) []))
  have hreordered : t.Reordered t' := hinner.trans (.members (.swap _ _ _))
  have hshallow : t.depth ≤ ({} : Options).maxDepth := by
    decide +kernel
  have hdistinct : ∀ place ∈ t.places, (place.2.members.map (·.1)).Nodup := by
    decide +kernel
  obtain ⟨s, s', hs, hs', -, -, hscalars, hcontainers⟩ :=
    rest_of_reordered hparse rfl (hreads _ _ hdocument) (List.forall_mem_singleton.2 hshallow)
      (List.forall_mem_singleton.2 hdistinct) (.cons hreordered .nil) (hreads _ _ hdocument')
  obtain ⟨found, hfound, hrest, -⟩ :=
    exists_of_document (Path.forall_of_parseAll hparse) rfl hdocument hshallow
  cases hs.symm.trans hfound
  refine ⟨s, s', hs, hs', ?_, hscalars, hcontainers⟩
  rw [hrest]
  decide +kernel

end Session

end JsonExtract
