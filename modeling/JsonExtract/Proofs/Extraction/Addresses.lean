import JsonExtract.Proofs.Extraction.Landings
import Mathlib.Data.List.Nodup

/-!
# Routes are addresses

The route of a match can be written as a path again: its names in quotes and its positions in digits, each
between brackets. The name of a member is copied as it is written in the document, and whatever escapes
and punctuation it holds, the path reads it as the same name. The path leads to the values that have this
route, which is a single one unless an object repeats a name.

* `Step.part`, `Step.segment`, `Route.address` — a route as a path;
* `Grammar.isLiteral_of_isStringBody`, `Path.Grammar.isInteger_toString` — names and positions are read
  back;
* `Link.lead_route` — the path leads to the places that have the route;
* `Tree.nodup_routes` — without repeated names, places differ in their routes;
* `Session.extract_address` — the address of a match.
-/

namespace JsonExtract

/-! ## Addresses

A step of a route and a segment of a path are two notations of the same thing: one child of a
container. Brackets are used for both kinds of step, since a name in quotes may hold any bytes
that a string of the document may hold. -/

namespace Step

/-- The selector that takes the same step. -/
def selector : Step → Selector
  | key name => .key name
  | index position => .index position

/-- The part of a path that takes the same step. -/
def part (step : Step) : Part :=
  .selector step.selector

/-- The segment of a path that takes the same step. -/
def segment : Step → Bytes
  | key name => Ascii.openBracket :: (Bytes.quoted name ++ [Ascii.closeBracket])
  | index position => Ascii.openBracket :: (Bytes.ofString (toString position) ++ [Ascii.closeBracket])

end Step

/-- The path that follows a route, with a mark at its end. No segment carries a mark of its own,
so it asks for what the last one leads to. -/
def Route.address (route : Route) : Bytes :=
  Bytes.ofChars ['$'] ++ (route.flatMap Step.segment ++ [Ascii.plus])

/-! ## Reading addresses

What has to be seen is that the grammar of paths takes the names of the document as they are. A
string body escapes every quote in it, and an escape of the document is an escape of a literal.
A position is written in decimal digits and read back as the same number. -/

/-- What may stand between the quotes of a string may stand between those of a literal. -/
theorem Grammar.isLiteral_of_isStringBody {inner : Bytes} (h : IsStringBody inner) :
    Path.Grammar.IsLiteral inner := by
  induction h with
  | nil => exact .nil
  | plain _ hq hs _ ih => exact .plain hq hs ih
  | escape _ _ ih => exact .escape ih
  | unicode _ hhex _ ih =>
    -- hexadecimal digits stand for themselves
    refine .escape (Path.Parser.isLiteral_append (fun b hb => ⟨?_, ?_⟩) ih)
    · rintro rfl
      exact absurd (hhex _ hb) (by decide)
    · rintro rfl
      exact absurd (hhex _ hb) (by decide)

namespace Path.Grammar

/-- The decimal digits of a position are read as this position. The bound is that of positions in
paths. -/
theorem isInteger_toString {n : Nat} (h : n < UInt64.size) :
    IsInteger n (Bytes.ofString (toString n)) := by
  have hdigits : (toString n).toList = Nat.toDigits 10 n := Nat.toList_repr
  have hall : ∀ c ∈ Nat.toDigits 10 n, c.isDigit = true := fun c hc =>
    Nat.isDigit_of_mem_toDigits (by decide) (by decide) hc
  rw [Bytes.ofString, hdigits]
  refine ⟨?_, ?_, ?_, h⟩
  · rw [Ne, Bytes.ofChars_eq_nil_iff]
    exact Nat.toDigits_ne_nil
  · exact Path.Parser.forall_mem_ofChars Path.Parser.agrees_isDigit hall
  · rw [Path.Parser.value_ofChars hall]
    exact Nat.ofDigitChars_ten_toDigits

/-- A step whose name is a literal, or whose position has 64 bits, is a segment. -/
theorem spellsSegment_step {step : Step} (hname : ∀ name, step = .key name → IsLiteral name)
    (hposition : ∀ i, step = .index i → i < UInt64.size) : SpellsSegment [step.part] step.segment := by
  have hgap : IsSpace [] := fun b hb => absurd hb List.not_mem_nil
  cases step with
  | key name => exact .index hgap (.key (hname name rfl)) hgap
  | index position => exact .index hgap (.position (isInteger_toString (hposition position rfl))) hgap

theorem spellsSegments_route {route : Route} (hname : ∀ name, Step.key name ∈ route → IsLiteral name)
    (hposition : ∀ i, Step.index i ∈ route → i < UInt64.size) :
    SpellsSegments (route.map fun step => ⟨step.part, false⟩) (route.flatMap Step.segment) := by
  induction route with
  | nil => exact .nil
  | cons step route ih =>
    have hfirst : SpellsSegment [step.part] step.segment :=
      spellsSegment_step (fun name h => hname name (h ▸ List.mem_cons_self)) fun i h =>
        hposition i (h ▸ List.mem_cons_self)
    have hmore := ih (fun name h => hname name (List.mem_cons_of_mem step h)) fun i h =>
      hposition i (List.mem_cons_of_mem step h)
    exact .cons hfirst .none hmore

end Path.Grammar

/-- Steps to members whose names are texts make up a text. -/
theorem Route.exists_text {route : Route}
    (h : ∀ name, Step.key name ∈ route → ∃ k : String, name = Bytes.ofString k) :
    ∃ text : String, Bytes.ofString text = route.address := by
  obtain ⟨cs, hcs⟩ : ∃ cs, Bytes.ofChars cs = route.flatMap Step.segment := by
    induction route with
    | nil => exact ⟨[], rfl⟩
    | cons step route ih =>
      obtain ⟨cs, hcs⟩ := ih fun name hname => h name (List.mem_cons_of_mem step hname)
      rw [List.flatMap_cons, ← hcs]
      cases step with
      | key name =>
        obtain ⟨k, rfl⟩ := h name List.mem_cons_self
        refine ⟨['[', '"'] ++ k.toList ++ ['"', ']'] ++ cs, ?_⟩
        simp only [Bytes.ofChars_append]
        simp only [Step.segment, Bytes.quoted, Bytes.ofString, List.append_assoc, List.cons_append]
        rfl
      | index position =>
        refine ⟨['['] ++ (toString position).toList ++ [']'] ++ cs, ?_⟩
        simp only [Bytes.ofChars_append, Step.segment, Bytes.ofString]
        rfl
  refine ⟨String.ofList ('$' :: (cs ++ ['+'])), ?_⟩
  rw [Bytes.ofString, String.toList_ofList, Route.address, ← hcs, Bytes.ofChars_cons,
    Bytes.ofChars_append]
  rfl

/-! ## Where addresses lead

A selector with a name, or with a position, selects exactly the children to which that step
leads. So a chain of such selectors leads to a place just if the place has this route, without
any reference to the values on the way. -/

/-- A step is taken to the children at which it arrives. Names are compared byte by byte, as
filters and selectors compare them. -/
theorem Step.selects_selector (step : Step) (child : Child) :
    step.selector.selects child = (child.step == step) := by
  cases step with
  | key name => cases child <;> simp [selector, Selector.selects, Child.step]
  | index position =>
    cases child with
    | member name => rfl
    | element position' =>
      rw [Bool.eq_iff_iff, beq_iff_eq]
      exact beq_iff_eq.trans ⟨fun h => h ▸ rfl, fun h => (Step.index.inj h).symm⟩

/-- The address of a route leads along this route only. -/
theorem Link.lead_route (route : Route) (v : Tree) (way : Way) :
    lead (route.map fun step => ⟨step.part, false⟩) v way = (way.route == route) := by
  induction route generalizing v way with
  | nil => cases way <;> rfl
  | cons step route ih =>
    cases way with
    | nil => rfl
    | cons c way =>
      have hroute : Way.route (c :: way) = c.1.step :: Way.route way := rfl
      rw [hroute, List.cons_beq_cons, ← ih c.2 way, ← Step.selects_selector]
      rfl

/-! ## Without repeated names

Two places with the same route must part at some container into two children with the same step.
Elements always differ in their steps, so the container is an object that repeats a name. -/

namespace Tree

/-- The children of a value differ in their steps unless it repeats a name. -/
theorem nodup_steps {t : Tree} (h : (t.members.map (·.1)).Nodup) :
    (t.children.map (·.1.step)).Nodup := by
  cases t with
  | scalar s => exact List.nodup_nil
  | array elements =>
    have hsteps : (array elements).children.map (·.1.step) =
        (List.range' 0 elements.length).map Step.index := by
      rw [← List.zipIdx_map_snd, children, List.map_map, List.map_map]
      rfl
    rw [hsteps]
    exact List.Nodup.map (fun _ _ he => Step.index.inj he) List.nodup_range'
  | object members =>
    have hsteps : (object members).children.map (·.1.step) = (members.map (·.1)).map Step.key := by
      rw [children, List.map_map, List.map_map]
      rfl
    rw [hsteps]
    exact h.map fun _ _ he => Step.key.inj he

/-- If no object repeats a name, no two places have the same route. The condition is put on all
values of the document at once, scalars and arrays have no members. -/
theorem nodup_routes {t : Tree} (h : ∀ place ∈ t.places, (place.2.members.map (·.1)).Nodup) :
    (t.places.map (·.1.route)).Nodup := by
  induction t using child_induction with
  | h t ih =>
    have hchildren := nodup_steps (h ([], t) (mem_places_iff.2 (.inl rfl)))
    have hbelow : t.places.map (·.1.route) =
        [] :: t.children.flatMap fun c => (c.2.places.map (·.1.route)).map (c.1.step :: ·) := by
      rw [places_eq, List.map_cons, List.map_flatMap]
      simp only [List.map_map, Function.comp_def]
      rfl
    rw [hbelow, List.nodup_cons, List.nodup_flatMap]
    refine ⟨?_, ?_, ?_⟩
    · -- the route of a place below the top is not empty
      intro hmem
      obtain ⟨c, -, hc⟩ := List.mem_flatMap.1 hmem
      obtain ⟨route, -, hroute⟩ := List.mem_map.1 hc
      cases hroute
    · intro c hc
      refine List.Nodup.map (fun _ _ he => (List.cons.inj he).2) (ih c hc fun place hplace => ?_)
      exact h (c :: place.1, place.2) (mem_places_iff.2 (.inr ⟨c, hc, place, hplace, rfl⟩))
    · -- routes through different children differ in their first step
      refine (List.pairwise_map.1 hchildren).imp fun hne route hroute hroute' => hne ?_
      obtain ⟨_, -, rfl⟩ := List.mem_map.1 hroute
      obtain ⟨_, -, hsame⟩ := List.mem_map.1 hroute'
      exact (List.cons.inj hsame).1.symm

end Tree

/-! ## Sessions

The address of a match is a path again, and may be used in a session of its own over the same
document. -/

/-- A match is of a value of the document. -/
theorem Path.exists_place_of_mem_matchesIn {t : Tree} {paths : List Path} {m : Match}
    (h : m ∈ matchesIn t paths) : ∃ place ∈ t.places, ∃ text, m = Match.ofPlace text place := by
  obtain ⟨place, hplace, hm⟩ := List.mem_flatMap.1 h
  obtain ⟨p, -, hm⟩ := List.mem_flatMap.1 hm
  obtain ⟨_, -, rfl⟩ := List.mem_map.1 hm
  exact ⟨place, hplace, p.text, rfl⟩

namespace Session

/-- The route of a match, written as a path with a mark at its end, is a path that selects along this
route. In the document of the match it gives out all values that have the same route, in their order, of
which the match is one. If no object of the document repeats a name, it is the only one. -/
theorem extract_address {texts : List String} {paths : List Path} {options : Options} {t : Tree}
    {d : Bytes} {s : Session Buffer} {m : Match} (hp : Path.parseAll texts = .ok paths)
    (hd : Grammar.IsDocument options.unicodeSpace t d) (hdepth : t.depth ≤ options.maxDepth)
    (hs : ofDocument paths options d = .ok s) (hm : m ∈ s.rest.1)
    (hname : ∀ name, Step.key name ∈ m.route → ∃ k : String, name = Bytes.ofString k)
    (hposition : ∀ i, Step.index i ∈ m.route → i < UInt64.size) :
    ∃ (text : String) (p : Path) (found : List Match),
      Bytes.ofString text = m.route.address ∧ Path.parse text = .ok p ∧
      p.links = Link.ofParts true (.selector .root :: m.route.map Step.part) ∧
      extract p options d = .ok found ∧
      found = (t.places.filter fun place => place.1.route == m.route).map (Match.ofPlace text) ∧
      (∃ m' ∈ found, m'.value = m.value ∧ m'.kind = m.kind) ∧
      ((∀ place ∈ t.places, (place.2.members.map (·.1)).Nodup) →
        found = [⟨text, m.value, m.kind, m.route⟩]) := by
  have hpaths := Path.forall_of_parseAll hp
  have ho := check_of_ofDocument hs
  obtain ⟨s', hs', hrest, -⟩ := exists_of_document hpaths ho hd hdepth
  cases hs.symm.trans hs'
  obtain ⟨place, hplace, text₀, rfl⟩ := Path.exists_place_of_mem_matchesIn (hrest ▸ hm)
  change ∀ name, Step.key name ∈ place.1.route → _ at hname
  change ∀ i, Step.index i ∈ place.1.route → _ at hposition
  have hliteral : ∀ name, Step.key name ∈ place.1.route → Path.Grammar.IsLiteral name := by
    obtain ⟨-, hspells, -⟩ := hd
    intro name hmem
    exact Grammar.isLiteral_of_isStringBody ((Tree.spells_place hspells hplace).2.2 name hmem)
  obtain ⟨text, htext⟩ := Route.exists_text hname
  have hparse := Path.parse_chain (Path.Grammar.spellsSegments_route hliteral hposition)
    (List.countP_eq_zero.2 fun link hlink => by
      obtain ⟨_, -, rfl⟩ := List.mem_map.1 hlink
      exact Bool.false_ne_true) htext
  have hextract := extract_chain hparse ho hd hdepth
  rw [← Link.filter_places, funext fun other : Way × Tree => Link.lead_route place.1.route t other.1]
    at hextract
  refine ⟨text, _, _, htext, hparse, ?_, hextract, rfl, ?_, ?_⟩
  · rw [Path.chain, Path.ofLinks, List.map_map]
    rfl
  · refine ⟨Match.ofPlace text place, List.mem_map_of_mem (List.mem_filter.2 ⟨hplace, ?_⟩), rfl, rfl⟩
    exact beq_self_eq_true _
  · intro hunique
    have hone := @filter_eq_singleton _ _ _ (fun place : Way × Tree => place.1.route) _ _ hplace
      (Tree.nodup_routes hunique)
    simp only [← beq_eq_decide] at hone
    rw [hone]
    rfl

/-- A name that holds an escaped quote, a bracket and a plus. -/
theorem extract_address_with_quote :
    ∃ text p, Bytes.ofString text = Bytes.ofString "$[\"\\\"]+\"][0]+" ∧ Path.parse text = .ok p ∧
      extract p {} (Bytes.ofString r#"{"\"]+":[7]}"#) =
        .ok [⟨text, Bytes.ofString "7", .number, [.key (Bytes.ofString r#"\"]+"#), .index 0]⟩] := by
  let t : Tree := .object [(Bytes.ofString r#"\"]+"#, .array [.scalar (.number [0x37])])]
  let path : Path := .ofLinks "$.*.*+" [⟨.selector .root, false⟩, ⟨.selector .wildcard, false⟩,
    ⟨.selector .wildcard, true⟩]
  have hparse : Path.parseAll ["$.*.*+"] = .ok [path] := by
    decide +kernel
  have hname : Grammar.IsStringBody (Bytes.ofString r#"\"]+"#) :=
    .escape (b := 0x22) (by decide)
      (.plain (by decide) (by decide) (by decide) (.plain (by decide) (by decide) (by decide) .nil))
  have hseven : Grammar.IsScalar (.number [0x37]) :=
    @Grammar.IsNumber.mk [] [0x37] [] [] (.inl rfl) (.digits (by decide) (by decide)
      (fun _ h => absurd h List.not_mem_nil)) .none .none
  have hdocument : Grammar.IsDocument false t _ :=
    .mk .nil (.object (.lastMember .nil hname .nil .nil
      (.array (.last .nil (.scalar hseven) .nil)) .nil)) .nil
  have hshallow : t.depth ≤ ({} : Options).maxDepth := by
    decide +kernel
  obtain ⟨s, hs, hrest, -⟩ := exists_of_document (Path.forall_of_parseAll hparse) rfl hdocument hshallow
  let m : Match := ⟨"$.*.*+", Bytes.ofString "7", .number, [.key (Bytes.ofString r#"\"]+"#), .index 0]⟩
  have hm : m ∈ s.rest.1 := by
    rw [hrest]
    decide +kernel
  have htexts : ∀ name, Step.key name ∈ m.route → ∃ k : String, name = Bytes.ofString k := by
    intro name hmem
    obtain rfl : name = Bytes.ofString r#"\"]+"# := by simpa [m] using hmem
    exact ⟨"\\\"]+", by decide +kernel⟩
  have hpositions : ∀ i, Step.index i ∈ m.route → i < UInt64.size := by
    intro i hmem
    obtain rfl : i = 0 := by simpa [m] using hmem
    decide
  obtain ⟨text, p, found, htext, hp, -, hextract, -, -, hone⟩ :=
    extract_address hparse hdocument hshallow hs hm htexts hpositions
  have hunique : ∀ place ∈ t.places, (place.2.members.map (·.1)).Nodup := by
    decide +kernel
  refine ⟨text, p, htext.trans (by decide +kernel), hp, ?_⟩
  rw [← hone hunique]
  exact hextract

end Session

end JsonExtract
