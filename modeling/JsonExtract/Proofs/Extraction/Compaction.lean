import JsonExtract.Proofs.Extraction.Addresses

/-!
# The text of a document

The path `$+` asks for a document as a whole. What it gives out is the text of the document without the
space between its tokens, and nothing is lost by that: all paths ask for the same matches in this text. The
value of every match is such a text already, so that the path gives it out once more as it stands.

* `Path.whole`, `Session.extract_whole` — a document as a whole;
* `Session.rest_text` — paths ask for the same in a document and in its text;
* `Session.extract_compact` — both together, for the document and for all values that are found in it.
-/

namespace JsonExtract

/-- The path that asks for a document as a whole. -/
def Path.whole : Path :=
  .chain "$+" []

theorem Path.parse_whole : parse "$+" = .ok whole := by
  decide +kernel

namespace Session

variable {options : Options} {t : Tree} {d : Bytes}

/-- The text of a document is the only match of the document as a whole. -/
theorem extract_whole (ho : options.check = .ok ()) (hd : Grammar.IsDocument options.unicodeSpace t d)
    (hdepth : t.depth ≤ options.maxDepth) :
    extract Path.whole options d = .ok [⟨"$+", t.text, t.kind, []⟩] :=
  extract_chain Path.parse_whole ho hd hdepth

/-- The text of a document is a document of the same value, in which paths ask for the same matches. -/
theorem rest_text {paths : List Path} (hp : ∀ p ∈ paths, ∃ text, Path.parse text = .ok p)
    (ho : options.check = .ok ()) (hd : Grammar.IsDocument options.unicodeSpace t d)
    (hdepth : t.depth ≤ options.maxDepth) :
    ∃ s compact, ofDocument paths options d = .ok s ∧ ofDocument paths options t.text = .ok compact ∧
      compact.rest.1 = s.rest.1 ∧ s.rest.2.failure? = none ∧ compact.rest.2.failure? = none := by
  obtain ⟨s, hs, hrest, hfailure⟩ := exists_of_document hp ho hd hdepth
  obtain ⟨-, hspells, -⟩ := hd
  obtain ⟨compact, hcompact, hrest', hfailure'⟩ :=
    exists_of_document hp ho (Grammar.isDocument_text hspells) hdepth
  exact ⟨s, compact, hs, hcompact, hrest'.trans hrest.symm, hfailure, hfailure'⟩

/-- The value of a match is the only match of itself as a whole. -/
theorem extract_value {paths : List Path} (ho : options.check = .ok ())
    (hd : Grammar.IsDocument options.unicodeSpace t d) (hdepth : t.depth ≤ options.maxDepth) {m : Match}
    (hm : m ∈ Path.matchesIn t paths) :
    extract Path.whole options m.value = .ok [⟨"$+", m.value, m.kind, []⟩] := by
  obtain ⟨place, hplace, text, rfl⟩ := Path.exists_place_of_mem_matchesIn hm
  obtain ⟨-, hspells, -⟩ := hd
  obtain ⟨⟨text', hvalue⟩, hless, -⟩ := Tree.spells_place hspells hplace
  exact extract_whole ho (Grammar.isDocument_text hvalue) (Nat.le_trans hless hdepth)

/-- A document as a whole is one match `c`. Every list of paths gives out the same matches for the value
of `c` as for the document, and each of these matches is given out once more by the path for a whole
document if its value is taken as a document, now with an empty route. -/
theorem extract_compact (ho : options.check = .ok ())
    (hd : Grammar.IsDocument options.unicodeSpace t d) (hdepth : t.depth ≤ options.maxDepth) :
    ∃ (whole : Path) (c : Match), Path.parse "$+" = .ok whole ∧ extract whole options d = .ok [c] ∧
      ∀ (texts : List String) (paths : List Path), Path.parseAll texts = .ok paths →
        ∃ s compact, ofDocument paths options d = .ok s ∧
          ofDocument paths options c.value = .ok compact ∧ compact.rest.1 = s.rest.1 ∧
          s.rest.2.failure? = none ∧ compact.rest.2.failure? = none ∧
          ∀ m ∈ s.rest.1, extract whole options m.value = .ok [⟨"$+", m.value, m.kind, []⟩] := by
  refine ⟨Path.whole, _, Path.parse_whole, extract_whole ho hd hdepth, ?_⟩
  intro texts paths hparse
  have hp := Path.forall_of_parseAll hparse
  obtain ⟨s, hs, hrest, -⟩ := exists_of_document hp ho hd hdepth
  obtain ⟨s', compact, hs', hcompact, hsame, hfailure, hfailure'⟩ := rest_text hp ho hd hdepth
  cases hs.symm.trans hs'
  refine ⟨s, compact, hs, hcompact, hsame, hfailure, hfailure', ?_⟩
  intro m hm
  exact extract_value ho hd hdepth (hrest ▸ hm)

/-- An empty array and space around every token. -/
theorem extract_compact_of_spaced :
    ∃ (whole path : Path) (c : Match) (s compact : Session Buffer),
      Path.parse "$+" = .ok whole ∧ Path.parse "$.*+" = .ok path ∧
      extract whole {} (Bytes.ofString " [ 1 , [ ] ]\n") = .ok [c] ∧ c.value = Bytes.ofString "[1,[]]" ∧
      ofDocument [path] {} (Bytes.ofString " [ 1 , [ ] ]\n") = .ok s ∧
      ofDocument [path] {} c.value = .ok compact ∧
      s.rest.1 = [⟨"$.*+", Bytes.ofString "1", .number, [.index 0]⟩,
        ⟨"$.*+", Bytes.ofString "[]", .array, [.index 1]⟩] ∧
      compact.rest.1 = s.rest.1 ∧
      extract whole {} (Bytes.ofString "[]") = .ok [⟨"$+", Bytes.ofString "[]", .array, []⟩] := by
  let t : Tree := .array [.scalar (.number [0x31]), .array []]
  let path : Path := .ofLinks "$.*+" [⟨.selector .root, false⟩, ⟨.selector .wildcard, true⟩]
  have hblank : Grammar.IsGap false [0x20] := .cons (.ascii (by decide)) .nil
  have hbreak : Grammar.IsGap false [0x0a] := .cons (.ascii (by decide)) .nil
  have hone : Grammar.IsScalar (.number [0x31]) :=
    @Grammar.IsNumber.mk [] [0x31] [] [] (.inl rfl) (.digits (by decide) (by decide)
      (fun _ h => absurd h List.not_mem_nil)) .none .none
  have hdocument : Grammar.IsDocument false t _ :=
    .mk hblank (.array (.more hblank (.scalar hone) hblank (.last hblank (.emptyArray hblank) hblank)))
      hbreak
  have hshallow : t.depth ≤ ({} : Options).maxDepth := by
    decide +kernel
  have hparse : Path.parse "$.*+" = .ok path := by
    decide +kernel
  have hpaths : Path.parseAll ["$.*+"] = .ok [path] := by
    decide +kernel
  obtain ⟨whole, c, hwhole, hc, hall⟩ := @extract_compact {} _ _ rfl hdocument hshallow
  obtain ⟨s, compact, hs, hcompact, hsame, -, -, hvalues⟩ := hall _ _ hpaths
  obtain ⟨s', hs', hrest, -⟩ :=
    exists_of_document (Path.forall_of_parseAll hpaths) rfl hdocument hshallow
  cases hs.symm.trans hs'
  have hmatches : Path.matchesIn t [path] =
      [⟨"$.*+", Bytes.ofString "1", .number, [.index 0]⟩,
        ⟨"$.*+", Bytes.ofString "[]", .array, [.index 1]⟩] := by
    decide +kernel
  cases hwhole.symm.trans Path.parse_whole
  have hvalue : c = ⟨"$+", t.text, t.kind, []⟩ :=
    List.singleton_inj.1 (Except.ok.inj (hc.symm.trans (extract_whole rfl hdocument hshallow)))
  refine ⟨_, path, c, s, compact, hwhole, hparse, hc, ?_, hs, hcompact, hrest.trans hmatches, hsame, ?_⟩
  · rw [hvalue]
    decide +kernel
  · refine hvalues ⟨"$.*+", Bytes.ofString "[]", .array, [.index 1]⟩ ?_
    rw [hrest, hmatches]
    exact List.mem_cons_of_mem _ (List.mem_singleton_self _)

end Session

end JsonExtract
