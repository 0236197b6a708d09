import JsonExtract.Proofs.Extraction.Halt
import JsonExtract.Proofs.Scan.Cut

/-!
# What survives a document that is cut off

A document that ends too early, or is at fault somewhere, still gives out what was decided by then: the
matches whose value is complete, and whose filters were all passed by members in front of that place.
What is not decided is dropped, even where what stands behind it is given out.

* `Session.rest_eq_decided` — what a session gives out, by the place at which reading ends;
* `Session.rest_of_cut` — a document that is cut off gives out what is decided in the whole document.
-/

namespace JsonExtract.Session

variable {paths : List Path} {options : Options} {d d' : Bytes} {n : Nat} {s s' : Session Buffer}

/-- Of a document that is read up to a place, the slots of a session hold in the end what is decided by
the place, and this is what the session gives out. -/
theorem rest_eq_decided (hp : ∀ path ∈ paths, ∃ text, Path.parse text = .ok path)
    (hs : ofDocument paths options d = .ok s) {values : List Passage}
    (hsorted : Lexed.Sorted (values.flatMap Passage.tokens))
    (htokens : (Lexer.initial.scan options (Buffer.mk d)).tokens =
      Lexed.upTo n (values.flatMap Passage.tokens)) :
    s.rest.2.walk.slots.owned =
        ((values.flatMap (Passage.findings paths)).filter (·.decidedBy n)).map Finding.owned ∧
      s.rest.1 =
        ((values.flatMap (Passage.findings paths)).filter (·.decidedBy n)).map (·.found) := by
  obtain ⟨hb, -, hlast⟩ := last_ofDocument hs
  have howned : s.rest.2.walk.slots.owned =
      ((values.flatMap (Passage.findings paths)).filter (·.decidedBy n)).map Finding.owned := by
    rw [slots_rest hb, hlast, ← Walk.owned_upTo hp hsorted, ← htokens, Lexer.scan_buffer]
  exact ⟨howned, by rw [← map_snd_owned_rest hs, howned, List.map_map]; rfl⟩

/-- In a document that is read to its end, all that is found is decided. -/
theorem rest_eq_findings (hp : ∀ path ∈ paths, ∃ text, Path.parse text = .ok path)
    (hs : ofDocument paths options d = .ok s) {values : List Passage}
    (hvalues : values.flatMap Passage.tokens = (Lexer.initial.scan options (Buffer.mk d)).tokens) :
    s.rest.1 = (values.flatMap (Passage.findings paths)).map (·.found) := by
  have hrow := Lexer.row_scan options d
  rw [← hvalues] at hrow
  have hstop : ∀ l ∈ values.flatMap Passage.tokens, l.stop ≤ d.length := fun l hl => (hrow.mem hl).2.2
  have hdecided : ∀ f ∈ values.flatMap (Passage.findings paths), f.decidedBy d.length = true := by
    intro f hf
    obtain ⟨p, hp, hf⟩ := List.mem_flatMap.1 hf
    have hin : p.tokens.Sublist (values.flatMap Passage.tokens) :=
      List.sublist_flatten_of_mem (List.mem_map_of_mem hp)
    exact Passage.decidedBy_of_last_le (hrow.sorted.sublist hin)
      (hstop _ (hin.subset p.last_mem_tokens)) hf
  rw [(rest_eq_decided hp hs hrow.sorted (hvalues.symm.trans (Lexed.upTo_eq_self hstop).symm)).2,
    List.filter_eq_self.2 hdecided]

/-- A document that is cut off at a place, or at fault there, gives out those matches of the whole
document that are decided by the place. The place is not inside of a number, which may end anywhere. -/
theorem rest_of_cut {texts : List String} (hp : Path.parseAll texts = .ok paths)
    (hs : ofDocument paths options d = .ok s) (hvalid : s.rest.2.failure? = none)
    (hn : ∀ l ∈ (Lexer.initial.scan options (Buffer.mk d)).tokens, ∀ raw,
      l.token = .scalar .number raw → ¬ (l.start < n ∧ n < l.stop))
    (hs' : ofDocument paths options d' = .ok s')
    (hd' : d' = d.take n ∨ d'.take n = d.take n ∧
      ∃ e, s'.rest.2.failure? = some (.malformed e) ∧ e.location.offset = n) :
    (∃ values : List Passage, Grammar.Reads options (values.map Passage.value) d ∧
      values.flatMap Passage.tokens = (Lexer.initial.scan options (Buffer.mk d)).tokens) ∧
    ∀ values : List Passage,
      values.flatMap Passage.tokens = (Lexer.initial.scan options (Buffer.mk d)).tokens →
        s.rest.1 = (values.flatMap (Passage.findings paths)).map (·.found) ∧
        s'.rest.1 =
          ((values.flatMap (Passage.findings paths)).filter (·.decidedBy n)).map (·.found) := by
  have hpaths := Path.forall_of_parseAll hp
  have hread : (Lexer.initial.feed options .gap d).failure? = none :=
    (rest_ofDocument hs).2.symm.trans hvalid
  refine ⟨?_, fun values hvalues => ⟨rest_eq_findings hpaths hs hvalues, ?_⟩⟩
  · obtain ⟨values, hreads, hdepth⟩ := Lexer.reads_of_feed hread
    obtain ⟨tokens, htokens, hfeed⟩ := Lexer.feed_reads hreads hdepth
    obtain ⟨passages, rfl, rfl⟩ := Passage.exists_of_series htokens
    exact ⟨passages, hreads, by rw [Lexer.scan_buffer, hfeed]⟩
  · have hsorted := (Lexer.row_scan options d).sorted
    rw [← hvalues] at hsorted
    refine (rest_eq_decided hpaths hs' hsorted ?_).2
    rw [hvalues, Lexer.scan_buffer, Lexer.scan_buffer]
    rw [Lexer.scan_buffer] at hn
    refine Lexer.tokens_of_cut hread (fun l hl raw hraw hstart => ?_) ?_
    · exact Nat.le_of_not_lt fun hstop => hn l hl raw hraw ⟨hstart, hstop⟩
    · rwa [(rest_ofDocument hs').2] at hd'

/-- A document is cut off behind its second member, or at fault there. What stands in the first was
waiting for a third, and is dropped; what stands in the second is given out. -/
theorem rest_of_cut_in_front_of_filter :
    ∃ s : Session Buffer,
      ofDocument [.ofLinks "$?(@.k == \"x\").a+" [⟨.selector .root, false⟩,
          ⟨.filter (.member (.named (Bytes.ofString "k")) (Bytes.ofString "x")), false⟩,
          ⟨.selector (.key (Bytes.ofString "a")), true⟩],
        .ofLinks "$.c+" [⟨.selector .root, false⟩, ⟨.selector (.key (Bytes.ofString "c")), true⟩]] {}
        (Bytes.ofString r#"{"a":1,"c":2,"k":"x"}"#) = .ok s ∧
      s.rest.1 = [⟨"$?(@.k == \"x\").a+", Bytes.ofString "1", .number, [.key (Bytes.ofString "a")]⟩,
        ⟨"$.c+", Bytes.ofString "2", .number, [.key (Bytes.ofString "c")]⟩] ∧
      ∀ d' ∈ [Bytes.ofString r#"{"a":1,"c":2"#, Bytes.ofString r#"{"a":1,"c":2]"#],
        ∃ s' : Session Buffer,
          ofDocument [.ofLinks "$?(@.k == \"x\").a+" [⟨.selector .root, false⟩,
              ⟨.filter (.member (.named (Bytes.ofString "k")) (Bytes.ofString "x")), false⟩,
              ⟨.selector (.key (Bytes.ofString "a")), true⟩],
            .ofLinks "$.c+" [⟨.selector .root, false⟩,
              ⟨.selector (.key (Bytes.ofString "c")), true⟩]] {} d' = .ok s' ∧
          s'.rest.1 = [⟨"$.c+", Bytes.ofString "2", .number, [.key (Bytes.ofString "c")]⟩] := by
  let paths : List Path := [.ofLinks "$?(@.k == \"x\").a+" [⟨.selector .root, false⟩,
      ⟨.filter (.member (.named (Bytes.ofString "k")) (Bytes.ofString "x")), false⟩,
      ⟨.selector (.key (Bytes.ofString "a")), true⟩],
    .ofLinks "$.c+" [⟨.selector .root, false⟩, ⟨.selector (.key (Bytes.ofString "c")), true⟩]]
  let d : Bytes := Bytes.ofString r#"{"a":1,"c":2,"k":"x"}"#
  let value : Passage := .object ⟨0, 1⟩
    [(⟨[0x61], ⟨1, 4⟩⟩, .scalar (.number [0x31]) ⟨5, 6⟩),
      (⟨[0x63], ⟨7, 10⟩⟩, .scalar (.number [0x32]) ⟨11, 12⟩),
      (⟨[0x6b], ⟨13, 16⟩⟩, .scalar (.string [0x78]) ⟨17, 20⟩)] ⟨20, 21⟩
  have hparse : Path.parseAll ["$?(@.k == \"x\").a+", "$.c+"] = .ok paths := by decide +kernel
  have hfeed : Lexer.initial.feed {} .gap d = ⟨value.tokens, none⟩ := by
    rw [← Lexer.scan_buffer {} Lexer.initial ⟨d⟩]
    decide +kernel
  obtain ⟨s, hs⟩ := exists_ofDocument (rfl : ({} : Options).check = .ok ()) paths d
  have hvalid : s.rest.2.failure? = none := by rw [(rest_ofDocument hs).2, hfeed]
  have htokens : [value].flatMap Passage.tokens = (Lexer.initial.scan {} (Buffer.mk d)).tokens := by
    rw [Lexer.scan_buffer, hfeed, List.flatMap_singleton]
  have hnumbers : ∀ l ∈ value.tokens, ¬ (l.start < 12 ∧ 12 < l.stop) := by decide +kernel
  have hn : ∀ l ∈ (Lexer.initial.scan {} (Buffer.mk d)).tokens, ∀ raw,
      l.token = .scalar .number raw → ¬ (l.start < 12 ∧ 12 < l.stop) := by
    rw [← htokens, List.flatMap_singleton]
    exact fun l hl _ _ => hnumbers l hl
  have hfound : ([value].flatMap (Passage.findings paths)).map (·.found) =
      [⟨"$?(@.k == \"x\").a+", Bytes.ofString "1", .number, [.key (Bytes.ofString "a")]⟩,
        ⟨"$.c+", Bytes.ofString "2", .number, [.key (Bytes.ofString "c")]⟩] := by decide +kernel
  have hdecided : (([value].flatMap (Passage.findings paths)).filter (·.decidedBy 12)).map (·.found) =
      [⟨"$.c+", Bytes.ofString "2", .number, [.key (Bytes.ofString "c")]⟩] := by decide +kernel
  obtain ⟨s₁, hs₁⟩ := exists_ofDocument (rfl : ({} : Options).check = .ok ()) paths (d.take 12)
  obtain ⟨s₂, hs₂⟩ :=
    exists_ofDocument (rfl : ({} : Options).check = .ok ()) paths (d.take 12 ++ [0x5d])
  have hfault : ∃ e, s₂.rest.2.failure? = some (.malformed e) ∧ e.location.offset = 12 := by
    refine ⟨⟨.bracket 0x5d, ⟨12, 1, 13⟩⟩, ?_, rfl⟩
    rw [(rest_ofDocument hs₂).2, ← Lexer.scan_buffer {} Lexer.initial ⟨d.take 12 ++ [0x5d]⟩]
    decide +kernel
  obtain ⟨hrest, hrest₁⟩ := (rest_of_cut hparse hs hvalid hn hs₁ (.inl rfl)).2 [value] htokens
  obtain ⟨-, hrest₂⟩ := (rest_of_cut hparse hs hvalid hn hs₂ (.inr ⟨rfl, hfault⟩)).2 [value] htokens
  refine ⟨s, hs, hrest.trans hfound, ?_⟩
  rw [List.forall_mem_cons, List.forall_mem_singleton]
  exact ⟨⟨s₁, hs₁, hrest₁.trans hdecided⟩, ⟨s₂, hs₂, hrest₂.trans hdecided⟩⟩

end JsonExtract.Session
