import JsonExtract.Proofs.Document.Compact
import JsonExtract.Proofs.Extraction.Answer
import JsonExtract.Proofs.Paths.Concatenation

/-!
# Paths in paths

The places that a path gets to are found step by step: the first part gets to some children of a value, or
stays at it if a filter holds, and the other parts go on from there. So a path whose segments stand behind
those of another one does what it would do in each of the values that the other one gets to, where each of
them is taken as a document of its own.

* `Part.landings` — where parts lead from a value;
* `Link.filter_places` — these are the places that links lead to;
* `Part.landings_append` — parts behind parts;
* `Session.extract`, `Session.extract_chain` — all matches of a path with one mark at its end;
* `Session.extract_append` — the segments of one path behind those of another one.
-/

namespace JsonExtract

/-! ## Places below a value

The list of places is defined with the values on the way. For a path behind another one it has
to be taken apart at the place in the middle, so it is described here by its members: the top,
and the places in each child. -/

theorem Child.eq_member_of_step {c : Child} {name : Bytes} (h : c.step = .key name) :
    c = .member name := by
  cases c with
  | element position => cases h
  | member other =>
    cases h
    rfl

namespace Tree

/-- What holds of a value if it holds of the values in it holds of every value. It is the
recursion of `places` as a principle of proof. -/
theorem child_induction {P : Tree → Prop} (h : ∀ t, (∀ c ∈ t.children, P c.2) → P t) (t : Tree) : P t :=
  h t fun c _ => child_induction h c.2
termination_by sizeOf t
decreasing_by exact sizeOf_child_lt ‹_›

/-- A place is the top of the document, or a place in a value of a container that is the top. -/
theorem mem_places_iff {t : Tree} {place : Way × Tree} :
    place ∈ t.places ↔ place = ([], t) ∨
      ∃ c ∈ t.children, ∃ inner ∈ c.2.places, (c :: inner.1, inner.2) = place := by
  rw [places_eq, List.mem_cons, List.mem_flatMap]
  simp only [List.mem_map]

/-- A value in a document is spelled, is nested no deeper, and is got to by names that are string
bodies. -/
theorem spells_place {wide : Bool} {t : Tree} {text : Bytes} (h : Grammar.Spells wide t text)
    {place : Way × Tree} (hplace : place ∈ t.places) :
    (∃ text', Grammar.Spells wide place.2 text') ∧ place.2.depth ≤ t.depth ∧
      ∀ name, Step.key name ∈ place.1.route → Grammar.IsStringBody name := by
  induction t using child_induction generalizing text place with
  | h t ih =>
    obtain rfl | ⟨c, hc, inner, hinner, rfl⟩ := mem_places_iff.1 hplace
    · exact ⟨⟨text, h⟩, Nat.le_refl _, fun name hname => by cases hname⟩
    · obtain ⟨⟨text', hchild⟩, hbody⟩ := Grammar.spells_child h hc
      obtain ⟨hspells, hdepth, hnames⟩ := ih c hc hchild hinner
      refine ⟨hspells, Nat.le_trans hdepth (Nat.le_of_lt (depth_child_lt hc)), ?_⟩
      intro name hname
      obtain hfirst | hlater := List.mem_cons.1 hname
      · exact hbody name (Child.eq_member_of_step hfirst.symm)
      · exact hnames name hlater

end Tree

/-! ## Where parts lead

`landings` follows the parts of a path and gathers the places that they reach, in the order of
the document. Unlike a condition on a place it can be appended to: what follows starts at the
places reached so far. -/

namespace Part

/-- The places that parts lead to from a value, in the order in which they start. A filter that
does not hold leads nowhere, and the top of a document is reached by no parts at all. -/
def landings : List Part → Tree → List (Way × Tree)
  | [], v => [([], v)]
  | .filter f :: parts, v => if f.holds v then landings parts v else []
  | .selector s :: parts, v =>
    (v.children.filter fun c => s.selects c.1).flatMap fun c =>
      (landings parts c.2).map fun place => (c :: place.1, place.2)

/-- Parts behind other parts go on from where these lead. -/
theorem landings_append (parts more : List Part) (v : Tree) :
    landings (parts ++ more) v =
      (landings parts v).flatMap fun outer =>
        (landings more outer.2).map fun inner => (outer.1 ++ inner.1, inner.2) := by
  induction parts generalizing v with
  | nil => simp [landings]
  | cons part parts ih =>
    cases part with
    | filter f =>
      rw [List.cons_append, landings, landings]
      split
      · exact ih v
      · rfl
    | selector s =>
      simp only [List.cons_append, landings, ih, List.flatMap_assoc, List.flatMap_map, List.map_flatMap,
        List.map_map, Function.comp_def]

end Part

/-- Which places are left by a condition: the top, and places in the values of a container. -/
theorem Tree.filter_places_eq (t : Tree) (q : Way → Bool) :
    t.places.filter (fun place => q place.1) =
      (if q [] then [([], t)] else []) ++ t.children.flatMap fun c =>
        (c.2.places.filter fun place => q (c :: place.1)).map fun place => (c :: place.1, place.2) := by
  rw [places_eq, List.filter_cons, List.filter_flatMap]
  simp only [List.filter_map]
  split <;> rfl

/-- The places that links lead to are where their parts lead. The order is that of the document on
both sides. -/
theorem Link.filter_places (links : List Link) (v : Tree) :
    v.places.filter (fun place => lead links v place.1) = Part.landings (links.map (·.part)) v := by
  induction links generalizing v with
  | nil =>
    rw [Tree.filter_places_eq v (lead [] v)]
    simp [lead, Part.landings]
  | cons link links ih =>
    obtain ⟨part, marked⟩ := link
    cases part with
    | filter f =>
      rw [List.map_cons, Part.landings, ← ih]
      cases hf : f.holds v <;> simp [lead, hf]
    | selector s =>
      have htop : lead (⟨.selector s, marked⟩ :: links) v [] = false := rfl
      rw [List.map_cons, Part.landings, flatMap_filter_eq, Tree.filter_places_eq v (lead _ v), htop,
        if_neg Bool.false_ne_true, List.nil_append]
      refine List.flatMap_congr fun c _ => ?_
      rw [← ih]
      cases hs : s.selects c.1 <;> simp [lead, hs]

/-! ## Paths with one mark

If a path has a single mark, at its end, then its matches are the landings of its parts, each of
them once. -/

/-- The match of a value at a place. -/
def Match.ofPlace (text : String) (place : Way × Tree) : Match :=
  { path := text, value := place.2.text, kind := place.2.kind, route := place.1.route }

theorem Link.untilMarks_ofParts {parts : List Part} (h : parts ≠ []) :
    untilMarks (ofParts true parts) = [ofParts true parts] := by
  induction parts with
  | nil => exact absurd rfl h
  | cons part parts ih =>
    cases parts with
    | nil => rfl
    | cons next rest =>
      rw [ofParts, untilMarks, ih (List.cons_ne_nil next rest)]
      · rfl
      · exact fun hnil => List.cons_ne_nil next rest hnil

/-- The matches of a path with one mark at its end are the values that its parts lead to. -/
theorem Path.matchesIn_chain (text : String) (parts : List Part) (t : Tree) :
    matchesIn t [chain text parts] = (Part.landings parts t).map (Match.ofPlace text) := by
  have hreach : ∀ way, Link.reach (Link.ofParts true (.selector .root :: parts)) t way =
      Link.lead (Link.ofParts true parts) t way := by
    intro way
    cases parts <;> rfl
  have hat : ∀ place, matchesAt t place (chain text parts) =
      if Link.lead (Link.ofParts true parts) t place.1 then [Match.ofPlace text place] else [] := by
    intro place
    rw [matchesAt, chain, ofLinks, Link.untilMarks_ofParts (List.cons_ne_nil _ _), List.filter_singleton,
      hreach]
    cases Link.lead (Link.ofParts true parts) t place.1 <;> rfl
  have hplaces := Link.filter_places (Link.ofParts true parts) t
  rw [Link.parts_ofParts] at hplaces
  rw [matchesIn, ← hplaces, List.map_eq_flatMap, flatMap_filter_eq]
  exact List.flatMap_congr fun place _ => by rw [List.flatMap_singleton, hat]

/-! ## Sessions of one path

With a session for each step, the statement about landings becomes one about sessions: the
matches of the first path are extracted, and the second path is run over each of their values as
a document. -/

namespace Session

/-- All matches of one path in a document, if a session starts and ends without a failure. A
failure is the result wherever it comes, and whatever was given out before it. -/
def extract (path : Path) (options : Options) (d : Bytes) : Except Failure (List Match) :=
  (ofDocument [path] options d).bind fun s => s.collect.1

variable {options : Options} {t : Tree} {d : Bytes}

/-- A session over a document that is one value gives out what its paths ask for, to the end. -/
theorem exists_of_document {paths : List Path} (hp : ∀ p ∈ paths, ∃ text, Path.parse text = .ok p)
    (ho : options.check = .ok ()) (hd : Grammar.IsDocument options.unicodeSpace t d)
    (hdepth : t.depth ≤ options.maxDepth) :
    ∃ s, ofDocument paths options d = .ok s ∧ s.rest.1 = Path.matchesIn t paths ∧
      s.rest.2.failure? = none := by
  obtain ⟨s, hs⟩ := exists_ofDocument ho paths d
  obtain ⟨hrest, hfailure⟩ := rest_ofDocument hs
  obtain ⟨tokens, htokens, hfeed⟩ := Lexer.feed_document hd .initial trivial rfl
    (Nat.le_trans (Nat.le_of_eq (Nat.zero_add _)) hdepth)
  rw [hfeed] at hrest hfailure
  exact ⟨s, hs, hrest.trans (Walk.held_run hp htokens), hfailure⟩

/-- A path with one mark at its end extracts the values that its parts lead to. -/
theorem extract_chain {text : String} {parts : List Part}
    (hp : Path.parse text = .ok (Path.chain text parts)) (ho : options.check = .ok ())
    (hd : Grammar.IsDocument options.unicodeSpace t d) (hdepth : t.depth ≤ options.maxDepth) :
    extract (Path.chain text parts) options d =
      .ok ((Part.landings parts t).map (Match.ofPlace text)) := by
  have hpaths : ∀ p ∈ [Path.chain text parts], ∃ text, Path.parse text = .ok p := by
    intro p hmem
    obtain rfl := List.mem_singleton.1 hmem
    exact ⟨text, hp⟩
  obtain ⟨s, hs, hrest, hfailure⟩ := exists_of_document hpaths ho hd hdepth
  rw [extract, hs, ← Path.matchesIn_chain, ← hrest]
  simp only [Except.bind, collect, hfailure]

/-- The values that parts lead to are values of the document. -/
theorem mem_places_of_landings {parts : List Part} {place : Way × Tree}
    (h : place ∈ Part.landings parts t) : place ∈ t.places := by
  rw [← Link.parts_ofParts true parts, ← Link.filter_places] at h
  exact List.mem_of_mem_filter h

/-- Where the segments of one path stand behind those of another one, with a mark behind them and none
before, a document gives out what its values that the first path asks for give out for the other one, one
after the other. Each of these values is taken as a document of its own, and the routes go on from it. -/
theorem extract_append {a b : String} {p q : Path} (hp : Path.parse ("$" ++ a) = .ok p)
    (hpm : p.markCount = 0) (hq : Path.parse ("$" ++ b) = .ok q) (hqm : q.markCount = 0) :
    ∃ outer inner whole : Path,
      Path.parse ("$" ++ a ++ "+") = .ok outer ∧ Path.parse ("$" ++ b ++ "+") = .ok inner ∧
      Path.parse ("$" ++ a ++ b ++ "+") = .ok whole ∧
      ∀ (options : Options) (t : Tree) (d : Bytes), options.check = .ok () →
        Grammar.IsDocument options.unicodeSpace t d → t.depth ≤ options.maxDepth →
        ∃ (found : List Match) (within : Match → List Match),
          extract outer options d = .ok found ∧
          (∀ m ∈ found, extract inner options m.value = .ok (within m)) ∧
          extract whole options d = .ok (found.flatMap fun m => (within m).map fun m' =>
            { m' with path := whole.text, route := m.route ++ m'.route }) := by
  obtain ⟨links, hlinks, hm⟩ := Path.exists_segments hp hpm
  obtain ⟨more, hmore, hm'⟩ := Path.exists_segments hq hqm
  have htext : ∀ c : String, Bytes.ofString ("$" ++ c ++ "+") =
      Bytes.ofChars ['$'] ++ (Bytes.ofString c ++ [Ascii.plus]) := by
    intro c
    simp only [Bytes.ofString, String.toList_append, Bytes.ofChars_append, List.append_assoc]
    rfl
  have houter := Path.parse_chain hlinks hm (htext a)
  have hinner := Path.parse_chain hmore hm' (htext b)
  have hwhole : Path.parse ("$" ++ a ++ b ++ "+") =
      .ok (Path.chain ("$" ++ a ++ b ++ "+") (links.map (·.part) ++ more.map (·.part))) := by
    rw [← List.map_append]
    refine Path.parse_chain (hlinks.append hmore) (by rw [List.countP_append, hm, hm']) ?_
    rw [@String.append_assoc "$" a b, htext, Bytes.ofString, String.toList_append, Bytes.ofChars_append]
    rfl
  refine ⟨_, _, _, houter, hinner, hwhole, ?_⟩
  intro options t d ho hd hdepth
  have hwithin : ∀ place ∈ Part.landings (links.map (·.part)) t,
      extract (Path.chain ("$" ++ b ++ "+") (more.map (·.part))) options place.2.text =
        .ok ((Part.landings (more.map (·.part)) place.2).map (Match.ofPlace ("$" ++ b ++ "+"))) := by
    intro place hplace
    obtain ⟨hbefore, hspells, hbehind⟩ := hd
    obtain ⟨⟨text', hvalue⟩, hless, -⟩ := Tree.spells_place hspells (mem_places_of_landings hplace)
    exact extract_chain hinner ho (Grammar.isDocument_text hvalue) (Nat.le_trans hless hdepth)
  refine ⟨_, fun m => (extract (Path.chain ("$" ++ b ++ "+") (more.map (·.part))) options
    m.value).toOption.getD [], extract_chain houter ho hd hdepth, ?_, ?_⟩
  · intro m hfound
    obtain ⟨place, hplace, rfl⟩ := List.mem_map.1 hfound
    change extract _ _ place.2.text = .ok ((extract _ _ place.2.text).toOption.getD [])
    rw [hwithin place hplace]
    rfl
  · rw [extract_chain hwhole ho hd hdepth, Part.landings_append, List.map_flatMap, List.flatMap_map]
    refine congrArg Except.ok (List.flatMap_congr fun place hplace => ?_)
    change _ = ((extract _ _ place.2.text).toOption.getD []).map _
    rw [hwithin place hplace]
    change _ = List.map _ (List.map _ _)
    rw [List.map_map, List.map_map]
    refine List.map_congr_left fun inner _ => ?_
    have hroute : Way.route (place.1 ++ inner.1) = place.1.route ++ inner.1.route := List.map_append
    simp only [Function.comp_apply, Match.ofPlace, hroute]
    rfl

/-- A filter that stands at the level of a wildcard when it is put behind it. -/
theorem extract_append_filter :
    ∃ whole, Path.parse "$.*?(@.k == \"x\").a+" = .ok whole ∧
      extract whole {} (Bytes.ofString r#"[{"a":2,"k":"x"}]"#) =
        .ok [⟨"$.*?(@.k == \"x\").a+", Bytes.ofString "2", .number,
          [.index 0, .key (Bytes.ofString "a")]⟩] := by
  let v : Tree := .object [([0x61], .scalar (.number [0x32])), ([0x6b], .scalar (.string [0x78]))]
  let filter : Part := .filter (.member (.named (Bytes.ofString "k")) (Bytes.ofString "x"))
  let member : Part := .selector (.key (Bytes.ofString "a"))
  have hbody : ∀ b : UInt8, 0x20 ≤ b → b ≠ Ascii.quote → b ≠ Ascii.backslash →
      Grammar.IsStringBody [b] := fun b hc hq hs => .plain hc hq hs .nil
  have htwo : Grammar.IsScalar (.number [0x32]) :=
    @Grammar.IsNumber.mk [] [0x32] [] [] (.inl rfl) (.digits (by decide) (by decide)
      (fun _ h => absurd h List.not_mem_nil)) .none .none
  have hx : Grammar.IsScalar (.string [0x78]) := hbody 0x78 (by decide) (by decide) (by decide)
  have hvalue : Grammar.Spells false v _ :=
    .object (.moreMembers .nil (hbody 0x61 (by decide) (by decide) (by decide)) .nil .nil
      (.scalar htwo) .nil (.lastMember .nil (hbody 0x6b (by decide) (by decide) (by decide)) .nil .nil
        (.scalar hx) .nil))
  have hdocument : Grammar.IsDocument false (.array [v]) _ := .mk .nil (.array (.last .nil hvalue .nil)) .nil
  have hp : Path.parse ("$" ++ ".*") = .ok (.ofLinks "$.*" [⟨.selector .root, false⟩,
      ⟨.selector .wildcard, false⟩]) := by
    decide +kernel
  have hq : Path.parse ("$" ++ "?(@.k == \"x\").a") = .ok (.ofLinks "$?(@.k == \"x\").a"
      [⟨.selector .root, false⟩, ⟨filter, false⟩, ⟨member, false⟩]) := by
    decide +kernel
  have houter : Path.parse "$.*+" = .ok (.chain "$.*+" [.selector .wildcard]) := by
    decide +kernel
  have hinner : Path.parse "$?(@.k == \"x\").a+" =
      .ok (.chain "$?(@.k == \"x\").a+" [filter, member]) := by
    decide +kernel
  have hwhole : Path.parse "$.*?(@.k == \"x\").a+" =
      .ok (.chain "$.*?(@.k == \"x\").a+" [.selector .wildcard, filter, member]) := by
    decide +kernel
  obtain ⟨_, _, _, houter', hinner', hwhole', hextract⟩ := extract_append hp rfl hq rfl
  cases houter.symm.trans houter'
  cases hinner.symm.trans hinner'
  cases hwhole.symm.trans hwhole'
  obtain ⟨found, within, hfound, hwithin, h⟩ := hextract {} _ _ rfl hdocument (by decide +kernel)
  obtain rfl := Except.ok.inj ((extract_chain houter rfl hdocument (by decide +kernel)).symm.trans hfound)
  have hone := hwithin (.ofPlace "$.*+" ([(.element 0, v)], v)) (List.mem_singleton_self _)
  have hshallow : v.depth ≤ ({} : Options).maxDepth := by
    decide +kernel
  have hchain := extract_chain hinner (rfl : ({} : Options).check = .ok ())
    (Grammar.isDocument_text hvalue) hshallow
  refine ⟨_, hwhole, h.trans ?_⟩
  change Except.ok ((within (.ofPlace "$.*+" ([(.element 0, v)], v))).map _ ++ []) = _
  rw [← Except.ok.inj (hchain.symm.trans hone)]
  decide +kernel

end Session

end JsonExtract
