import JsonExtract.Proofs.Extraction.Several
import JsonExtract.Proofs.Scan.Shift
import JsonExtract.Proofs.Walk.Unplaced

/-!
# One document behind another

Where any number of values is asked for, nothing is left of a value once it is read: a document that
ends well, a line feed and any other bytes give out what the one gives out, and then what the other
gives out alone. The other may fail at any place, and does so in the same way, further down.

* `Walk.frames_run_series` — behind whole values nothing is open;
* `Walk.owned_run_upTo` — what is read behind whole values is found as in front of all;
* `Session.rest_behind_document` — the session of both.
-/

namespace JsonExtract

namespace Walk

variable {paths : List Path} {w : Walk}

/-- Behind whole values no container is open. -/
theorem frames_run_series (paths : List Path) {ps : List Passage}
    (h : Lexed.Sorted (ps.flatMap Passage.tokens)) (hb : w.Balanced) (hw : w.frames = []) :
    (w.run paths (ps.flatMap Passage.tokens)).frames = [] := by
  induction ps generalizing w with
  | nil => exact hw
  | cons p ps ih =>
    rw [List.flatMap_cons, Lexed.Sorted, List.pairwise_append] at h
    obtain ⟨hsorted, hbehind, -⟩ := h
    have hall : Lexed.upTo p.last.stop p.tokens = p.tokens :=
      Lexed.upTo_eq_self fun l hl => Passage.le_last_stop hsorted hl
    have hopen := frames_run_top paths hsorted (Nat.le_refl p.last.stop) hb hw
    rw [hall] at hopen
    rw [List.flatMap_cons, run_append]
    exact ih hbehind (run_advances _ _ hb).balanced hopen

/-- Behind a walk with nothing open, the slots hold in addition what they hold behind the same tokens in
front of a document. -/
theorem owned_run_upTo (hp : ∀ path ∈ paths, ∃ text, Path.parse text = .ok path) {ps : List Passage}
    (h : Lexed.Sorted (ps.flatMap Passage.tokens)) (hb : w.Balanced) (hw : w.frames = []) (n : Nat) :
    (w.run paths (Lexed.upTo n (ps.flatMap Passage.tokens))).slots.owned =
      w.slots.owned ++
        (({} : Walk).run paths (Lexed.upTo n (ps.flatMap Passage.tokens))).slots.owned := by
  obtain ⟨news, hnews, hwon⟩ := outlook_run_upTo hp h hb hw n
  rw [owned_eq_outlook (run_advances _ _ hb).balanced, hnews, List.filterMap_append,
    List.filterMap_append, hwon, ← owned_eq_outlook hb, owned_upTo hp h, List.filter_flatMap,
    List.map_flatMap]

end Walk

namespace Session

/-- A document that is read to its end where one value is asked for, a line feed, and any other bytes:
where several values are asked for, the session gives out the matches of the document, and then those
that a session of the other bytes alone gives out. It is ended by the same failure as that session, if
by any, further down by the bytes and the lines of the document. -/
theorem rest_behind_document {texts : List String} {paths : List Path}
    (hp : Path.parseAll texts = .ok paths) {options : Options} {d : Bytes} {single : Session Buffer}
    (hs : ofDocument paths { options with multipleValues := false } d = .ok single)
    (hvalid : single.rest.2.failure? = none) (x : Bytes) :
    ∃ both alone : Session Buffer,
      ofDocument paths { options with multipleValues := true } (d ++ Ascii.lineFeed :: x) = .ok both ∧
      ofDocument paths { options with multipleValues := true } x = .ok alone ∧
      both.rest.1 = single.rest.1 ++ alone.rest.1 ∧
      both.rest.2.failure? = alone.rest.2.failure?.map (·.shift (.over d)) := by
  have hpaths := Path.forall_of_parseAll hp
  have hsettings := check_of_ofDocument hs
  have hcheck : ({ options with multipleValues := true } : Options).check = .ok () := hsettings
  obtain ⟨both, hboth⟩ := exists_ofDocument hcheck paths (d ++ Ascii.lineFeed :: x)
  obtain ⟨alone, halone⟩ := exists_ofDocument hcheck paths x
  obtain ⟨hsingle, hfailure⟩ := rest_ofDocument hs
  obtain ⟨hrest, hended⟩ := rest_ofDocument hboth
  obtain ⟨hrest', hended'⟩ := rest_ofDocument halone
  have hread : (Lexer.initial.feed { options with multipleValues := false } .gap d).failure? = none :=
    hfailure.symm.trans hvalid
  have hfeed := Lexer.feed_behind_document hread x
  refine ⟨both, alone, hboth, halone, ?_, ?_⟩
  · -- the document is a series of values, and the other bytes start one
    obtain ⟨ps, -, hfronted⟩ := Lexer.exists_series hread
    have hsorted : Lexed.Sorted (ps.flatMap Passage.tokens) := by
      have hrow := Lexer.row_scan { options with multipleValues := false } d
      rw [Lexer.scan_buffer, hfronted] at hrow
      exact hrow.sorted
    obtain ⟨values, n, hlater, htokens⟩ :=
      Lexer.exists_values { options with multipleValues := true } x
    rw [Lexer.scan_buffer] at htokens
    have hplain : (Lexer.initial.feed { options with multipleValues := true } .gap
          (d ++ Ascii.lineFeed :: x)).tokens.map (·.token) =
        (ps.flatMap Passage.tokens ++
          Lexed.upTo n (values.flatMap Passage.tokens)).map (·.token) := by
      rw [hfeed, hfronted, Scanned.tokens_prepend, List.map_append, List.map_append, ← htokens,
        Scanned.shift, List.map_map]
      rfl
    have hbalanced := (Walk.run_advances paths (ps.flatMap Passage.tokens) Walk.balanced_initial).balanced
    have hopen := Walk.frames_run_series paths hsorted Walk.balanced_initial rfl
    rw [hrest, hsingle, hrest', ← Slots.map_snd_owned, ← Slots.map_snd_owned, ← Slots.map_snd_owned,
      Walk.owned_run_congr paths {} hplain, Walk.run_append, hfronted, htokens,
      Walk.owned_run_upTo hpaths hlater hbalanced hopen, List.map_append]
  · rw [hended, hended', hfeed]
    rfl

/-- An array, and behind it one that is at fault behind its first element. -/
theorem rest_behind_array :
    ∃ both : Session Buffer,
      ofDocument [.ofLinks "$.*+" [⟨.selector .root, false⟩, ⟨.selector .wildcard, true⟩]]
        { multipleValues := true } (Bytes.ofString "[1]\n[2,]") = .ok both ∧
      both.rest.1 = [⟨"$.*+", Bytes.ofString "1", .number, [.index 0]⟩,
        ⟨"$.*+", Bytes.ofString "2", .number, [.index 0]⟩] ∧
      both.rest.2.failure? = some (.malformed ⟨.character 0x5d, ⟨7, 2, 4⟩⟩) := by
  have hparse : Path.parseAll ["$.*+"] =
      .ok [.ofLinks "$.*+" [⟨.selector .root, false⟩, ⟨.selector .wildcard, true⟩]] := by
    decide +kernel
  obtain ⟨single, hs⟩ := exists_ofDocument (rfl : ({} : Options).check = .ok ())
    [.ofLinks "$.*+" [⟨.selector .root, false⟩, ⟨.selector .wildcard, true⟩]] (Bytes.ofString "[1]")
  have hvalid : single.rest.2.failure? = none := by
    rw [(rest_ofDocument hs).2, ← Lexer.scan_buffer {} Lexer.initial ⟨Bytes.ofString "[1]"⟩]
    decide +kernel
  have hfound : single.rest.1 = [⟨"$.*+", Bytes.ofString "1", .number, [.index 0]⟩] := by
    rw [(rest_ofDocument hs).1, ← Lexer.scan_buffer {} Lexer.initial ⟨Bytes.ofString "[1]"⟩]
    decide +kernel
  obtain ⟨both, alone, hboth, halone, hrest, hfailure⟩ :=
    @rest_behind_document ["$.*+"] _ hparse {} (Bytes.ofString "[1]") single hs hvalid
      (Bytes.ofString "[2,]")
  have hlater : alone.rest.1 = [⟨"$.*+", Bytes.ofString "2", .number, [.index 0]⟩] := by
    rw [(rest_ofDocument halone).1, ← Lexer.scan_buffer _ Lexer.initial ⟨Bytes.ofString "[2,]"⟩]
    decide +kernel
  have hended : alone.rest.2.failure? = some (.malformed ⟨.character 0x5d, ⟨3, 1, 4⟩⟩) := by
    rw [(rest_ofDocument halone).2, ← Lexer.scan_buffer _ Lexer.initial ⟨Bytes.ofString "[2,]"⟩]
    decide +kernel
  refine ⟨both, hboth, ?_, ?_⟩
  · rw [hrest, hfound, hlater]
    rfl
  · rw [hfailure, hended]
    rfl

end Session

end JsonExtract
