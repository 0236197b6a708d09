import JsonExtract.Proofs.Extraction.Survival

/-!
# Several paths in one session

Paths of one session share everything that the walk keeps, but none of them can tell that the others
are there. What a session gives out is the findings of each path alone, merged by the places of their
values; this holds of any bytes, since what is read of a document that ends early starts one that is
complete.

* `Finding.Before` — findings by their value, then by their path, then by their mark;
* `Finding.ComesFrom` — a finding and the path that it belongs to;
* `Passage.pairwise_findings`, `Passage.filter_findings` — findings in order, and those of one path;
* `Lexer.exists_series`, `Lexer.exists_values` — what is read of a document are the tokens of its values,
  and what is read of any bytes starts such tokens;
* `Session.Merges`, `Session.merges_paths` — a session of several paths, and the sessions of each.
-/

namespace JsonExtract

/-! ## The order of findings

A session gives out matches by the order of slots, which is first that of values, then that of
paths, then that of marks. The order is stated for findings, where the place of the value and
the links up to the mark can be seen. -/

namespace Finding

/-- A finding stands before another one by the start of its value. For the same value the number
of the path decides, and for the same path the number of links up to the mark. Two different
findings of a session are always in this order, one way or the other. -/
def Before (f g : Finding) : Prop :=
  f.passage.first.start < g.passage.first.start ∨
    f.passage.first.start = g.passage.first.start ∧
      (f.owner < g.owner ∨ f.owner = g.owner ∧ f.links.length < g.links.length)

/-- A finding comes from a mark of the path with its number, and gives out the value it is for.
The links of the finding are those of the path up to the mark. -/
def ComesFrom (paths : List Path) (f : Finding) : Prop :=
  ∃ path, paths[f.owner]? = some path ∧ f.links ∈ Link.untilMarks path.links ∧
    f.found.path = path.text ∧ f.found.kind = f.passage.value.kind ∧
      f.found.value = f.passage.value.text

end Finding

theorem Link.ne_nil_of_mem_untilMarks {links ls : List Link} (h : ls ∈ untilMarks links) : ls ≠ [] := by
  cases links with
  | nil => cases h
  | cons link links =>
    rw [untilMarks, List.mem_append] at h
    obtain h | h := h
    · split at h
      · rw [List.mem_singleton.1 h]
        exact List.cons_ne_nil _ _
      · cases h
    · obtain ⟨more, -, rfl⟩ := List.mem_map.1 h
      exact List.cons_ne_nil _ _

/-- The links up to a later mark are more. -/
theorem Link.pairwise_untilMarks (links : List Link) :
    (untilMarks links).Pairwise fun ls ls' => ls.length < ls'.length := by
  induction links with
  | nil => exact .nil
  | cons link links ih =>
    rw [untilMarks, List.pairwise_append]
    refine ⟨?_, List.pairwise_map.2 (ih.imp fun h => Nat.succ_lt_succ h), ?_⟩
    · split
      · exact List.pairwise_singleton ..
      · exact .nil
    · intro ls hls ls' hls'
      obtain ⟨more, hmore, rfl⟩ := List.mem_map.1 hls'
      split at hls
      · obtain rfl := List.mem_singleton.1 hls
        exact Nat.succ_lt_succ (List.length_pos_iff.2 (ne_nil_of_mem_untilMarks hmore))
      · cases hls

namespace Passage

variable {p : Passage} {paths : List Path}

theorem start_first_lt (h : p.Sorted) {container : Container}
    (hc : p.value.kind.container? = some container) {l : Lexed}
    (hl : l ∈ p.contents.flatMap Content.tokens) : p.first.start < l.start := by
  rw [Sorted, tokens_eq hc, Lexed.Sorted, List.pairwise_cons] at h
  exact (h.1 l (List.mem_append_left _ hl)).1

/-- Sites start one behind the other. -/
theorem pairwise_sites (h : p.Sorted) :
    p.sites.Pairwise fun site site' => site.2.first.start < site'.2.first.start := by
  induction p using induction with | step p ih =>
  obtain ⟨s, span, rfl⟩ | ⟨container, hc⟩ := p.scalar_or_container
  · rw [sites_eq]
    exact List.pairwise_singleton ..
  have hfirst : ∀ x ∈ p.contents, ∀ site ∈ x.passage.sites, site.2.first ∈ x.tokens :=
    fun x _ site hs => List.mem_append_right _
      ((sublist_of_mem_sites hs).1.subset site.2.first_mem_tokens)
  rw [sites_eq, List.pairwise_cons]
  refine ⟨fun site hs => ?_, List.pairwise_flatMap.2 ⟨fun x hx => ?_, ?_⟩⟩
  · obtain ⟨x, hx, hs⟩ := List.mem_flatMap.1 hs
    obtain ⟨below, hbelow, rfl⟩ := List.mem_map.1 hs
    exact start_first_lt h hc (List.mem_flatMap_of_mem hx (hfirst x hx below hbelow))
  · exact List.pairwise_map.2 (ih x hx (h.content hx))
  · refine h.pairwise_contents.imp_of_mem fun {x y} hx hy hxy => ?_
    intro site hs site' hs'
    obtain ⟨below, hbelow, rfl⟩ := List.mem_map.1 hs
    obtain ⟨below', hbelow', rfl⟩ := List.mem_map.1 hs'
    exact (hxy _ (hfirst x hx below hbelow) _ (hfirst y hy below' hbelow')).1

/-- A finding is for the value of its site, and comes from a mark of its path. -/
theorem comesFrom_of_mem {f : Finding} (hf : f ∈ p.findings paths) :
    f.ComesFrom paths ∧ ∃ site ∈ p.sites, f.passage = site.2 := by
  obtain ⟨site, hs, hf⟩ := List.mem_flatMap.1 hf
  obtain ⟨⟨path, owner⟩, hx, hf⟩ := List.mem_flatMap.1 hf
  obtain ⟨links, hlinks, rfl⟩ := List.mem_map.1 hf
  exact ⟨⟨path, (List.mk_mem_zipIdx_iff_getElem?).1 hx, (List.mem_filter.1 hlinks).1, rfl, rfl, rfl⟩,
    site, hs, rfl⟩

theorem passage_sublist_of_mem {f : Finding} (hf : f ∈ p.findings paths) :
    f.passage.tokens.Sublist p.tokens := by
  obtain ⟨-, site, hs, hpassage⟩ := comesFrom_of_mem hf
  exact hpassage ▸ (sublist_of_mem_sites hs).1

/-- Findings stand in order. -/
theorem pairwise_findings (h : p.Sorted) (paths : List Path) :
    (p.findings paths).Pairwise Finding.Before := by
  have hat : ∀ (x : Path × Nat) (site : Trek × Passage), ∀ f ∈ x.1.findingsAt x.2 p site,
      f.passage = site.2 ∧ f.owner = x.2 := by
    intro x site f hf
    obtain ⟨links, -, rfl⟩ := List.mem_map.1 hf
    exact ⟨rfl, rfl⟩
  have howners : paths.zipIdx.Pairwise fun x y => x.2 < y.2 := by
    rw [← List.pairwise_map (f := Prod.snd) (R := (· < ·)), List.zipIdx_map_snd]
    exact List.pairwise_lt_range'
  refine List.pairwise_flatMap.2 ⟨fun site _ => List.pairwise_flatMap.2 ⟨fun x _ => ?_, ?_⟩, ?_⟩
  · rw [Path.findingsAt, List.pairwise_map]
    exact ((Link.pairwise_untilMarks _).filter _).imp fun hlt => .inr ⟨rfl, .inr ⟨rfl, hlt⟩⟩
  · refine howners.imp fun {x y} hlt f hf g hg => ?_
    obtain ⟨hpf, hof⟩ := hat x site f hf
    obtain ⟨hpg, hog⟩ := hat y site g hg
    exact .inr ⟨by rw [hpf, hpg], .inl (by rwa [hof, hog])⟩
  · refine (pairwise_sites h).imp fun {site site'} hlt f hf g hg => ?_
    obtain ⟨x, -, hf⟩ := List.mem_flatMap.1 hf
    obtain ⟨y, -, hg⟩ := List.mem_flatMap.1 hg
    rw [Finding.Before, (hat x site f hf).1, (hat y site' g hg).1]
    exact .inl hlt

/-! ## The findings of one path

At each site the findings of the paths stand one behind the other. So picking those with one
owner leaves what this path finds alone, up to the owner's number. -/

/-- The findings of one path among several are those of the path alone. -/
theorem filter_findings {i : Nat} {path : Path} (hi : paths[i]? = some path) (p : Passage) :
    (p.findings paths).filter (·.owner = i) =
      (p.findings [path]).map fun f => { f with owner := i } := by
  have hone : paths.zipIdx.filter (fun x => x.2 = i) = [(path, i)] := by
    have hnodup : (paths.zipIdx.map Prod.snd).Nodup := by
      rw [List.zipIdx_map_snd]
      exact List.nodup_range'
    exact filter_eq_singleton (List.mk_mem_zipIdx_iff_getElem?.2 hi) hnodup
  have hat : ∀ (site : Trek × Passage) (x : Path × Nat),
      (x.1.findingsAt x.2 p site).filter (·.owner = i) =
        if decide (x.2 = i) then x.1.findingsAt x.2 p site else [] := by
    intro site x
    rw [Path.findingsAt, List.filter_map]
    by_cases hx : x.2 = i
    · rw [if_pos (decide_eq_true hx)]
      exact congrArg _ (List.filter_eq_self.2 fun _ _ => decide_eq_true hx)
    · rw [if_neg (by simpa using hx)]
      exact List.map_eq_nil_iff.2 (List.filter_eq_nil_iff.2 fun _ _ => by simpa using hx)
  rw [findings, findings, List.filter_flatMap, List.map_flatMap]
  refine List.flatMap_congr fun site _ => ?_
  rw [List.filter_flatMap]
  simp only [hat]
  rw [← flatMap_filter_eq, hone, List.flatMap_singleton, List.zipIdx_cons, List.zipIdx_nil,
    List.flatMap_singleton, Path.findingsAt, Path.findingsAt, List.map_map]
  rfl

end Passage

/-! ## What is read of any bytes

Bytes that are no document have no values. But what is read of them can be completed to a
document that has, and the tokens read are those of its values up to some place. So a statement
about findings up to a place covers all bytes. -/

/-- Tokens in front of others end in front of some place. -/
theorem Lexed.exists_upTo {first last : Nat} {xs ys : List Lexed} (h : Row first (xs ++ ys) last) :
    ∃ n, upTo n (xs ++ ys) = xs := by
  cases ys with
  | nil => exact ⟨last, by
      rw [upTo_eq_self fun l hl => (h.mem hl).2.2, List.append_nil]⟩
  | cons y ys =>
    have hsorted := List.pairwise_append.1 h.sorted
    have hy := (h.mem (List.mem_append_right _ List.mem_cons_self)).2.1
    refine ⟨y.stop - 1, ?_⟩
    rw [upTo_append, upTo_eq_self fun l hl => ?_, upTo_eq_nil fun l hl => ?_, List.append_nil]
    · rcases List.mem_cons.1 hl with rfl | hl
      · omega
      · have := ((List.pairwise_cons.1 hsorted.2.1).1 l hl).2
        omega
    · have := (hsorted.2.2 l hl y List.mem_cons_self).2
      omega

/-- What is read of a document without a failure are the tokens of its values. -/
theorem Lexer.exists_series {options : Options} {d : Bytes}
    (h : (initial.feed options .gap d).failure? = none) :
    ∃ values : List Passage, Grammar.Reads options (values.map Passage.value) d ∧
      initial.feed options .gap d = ⟨values.flatMap Passage.tokens, none⟩ := by
  obtain ⟨trees, hreads, hdepth⟩ := reads_of_feed h
  obtain ⟨tokens, htokens, hfeed⟩ := feed_reads hreads hdepth
  obtain ⟨values, rfl, rfl⟩ := Passage.exists_of_series htokens
  exact ⟨values, hreads, hfeed⟩

/-- What is read of any bytes is what is read of some values up to some place. The values are
those of a document that goes on from what was read. -/
theorem Lexer.exists_values (options : Options) (d : Bytes) :
    ∃ (values : List Passage) (n : Nat), Lexed.Sorted (values.flatMap Passage.tokens) ∧
      (initial.scan options (Buffer.mk d)).tokens =
        Lexed.upTo n (values.flatMap Passage.tokens) := by
  obtain ⟨front, tokens, m, more, -, h, hlast, htokens, -⟩ :=
    Midway.exists_scan options .initial d
  have hspace : ¬ Midway.initial.InSpace := by
    rintro ⟨_, _, _, _, hu⟩
    cases hu
  obtain ⟨d', hread, ys, hprefix⟩ :=
    h.exists_extension (Midway.fits_initial options) hspace hlast
  obtain ⟨values, -, hfeed⟩ := exists_series hread
  have hrow := row_scan options d'
  rw [scan_buffer, hfeed] at hrow
  have hsplit : values.flatMap Passage.tokens = (initial.scan options (Buffer.mk d)).tokens ++ ys := by
    rw [scan_buffer]
    exact ((congrArg Scanned.tokens hfeed).symm.trans hprefix.symm).trans (by rw [← htokens]; rfl)
  rw [hsplit] at hrow
  obtain ⟨n, hn⟩ := Lexed.exists_upTo hrow
  exact ⟨values, n, hsplit ▸ hrow.sorted, hsplit ▸ hn.symm⟩

/-! ## Sessions

The list of findings that is common to all sessions is that of the completed document. Which of
them are decided depends on the place, and not on the paths. -/

namespace Passage

variable {values : List Passage} (h : Lexed.Sorted (values.flatMap Passage.tokens))

include h

theorem pairwise_series (paths : List Path) :
    (values.flatMap (findings paths)).Pairwise Finding.Before := by
  obtain ⟨hvalues, hpairs⟩ := List.pairwise_flatMap.1 h
  refine List.pairwise_flatMap.2 ⟨fun p hp => pairwise_findings (hvalues p hp) paths, ?_⟩
  refine hpairs.imp fun {p q} hpq f hf g hg => .inl ?_
  exact (hpq _ ((passage_sublist_of_mem hf).subset f.passage.first_mem_tokens) _
    ((passage_sublist_of_mem hg).subset g.passage.first_mem_tokens)).1

/-- The value of a finding that is decided by a place stands in front of the place. -/
theorem sublist_of_decidedBy {n : Nat} {paths : List Path} {f : Finding}
    (hf : f ∈ values.flatMap (findings paths)) (hn : f.decidedBy n = true) :
    f.passage.tokens.Sublist (Lexed.upTo n (values.flatMap tokens)) := by
  obtain ⟨p, hp, hf⟩ := List.mem_flatMap.1 hf
  have hin : f.passage.tokens.Sublist (values.flatMap tokens) :=
    (passage_sublist_of_mem hf).trans (List.sublist_flatten_of_mem (List.mem_map_of_mem hp))
  have hlast : f.passage.last.stop ≤ n := of_decide_eq_true (Bool.and_eq_true_iff.1 hn).1
  have hall : Lexed.upTo n f.passage.tokens = f.passage.tokens :=
    Lexed.upTo_eq_self fun l hl => Nat.le_trans (le_last_stop (h.sublist hin) hl) hlast
  exact hall ▸ hin.filter _

omit h in
/-- What is decided of the findings of one path is so whether the path is alone or not. -/
theorem filter_decided {n i : Nat} {paths : List Path} {path : Path} (hi : paths[i]? = some path) :
    (((values.flatMap (findings paths)).filter (·.decidedBy n)).filter (·.owner = i)).map
        (·.found) =
      ((values.flatMap (findings [path])).filter (·.decidedBy n)).map (·.found) := by
  rw [List.filter_comm, List.filter_flatMap]
  simp only [filter_findings hi]
  rw [← List.map_flatMap, List.filter_map, List.map_map]
  rfl

end Passage

namespace Session

/-- What sessions over one document give out for paths together, and for each of them alone, is
told by one list of findings. From such a list one reads off the matches of all paths together,
those of each path, and their order. -/
structure Merges (paths : List Path) (options : Options) (d : Bytes) (finds : List Finding) : Prop where
  /-- findings come from the paths, and their values stand in what is read of the document -/
  comesFrom : ∀ f ∈ finds, f.ComesFrom paths ∧
    f.passage.tokens.Sublist (Lexer.initial.scan options (Buffer.mk d)).tokens
  /-- a session of all paths gives out the findings, each from a slot that its path owns -/
  together : ∃ s, ofDocument paths options d = .ok s ∧ s.rest.1 = finds.map (·.found) ∧
    s.rest.2.walk.slots.owned = finds.map Finding.owned
  /-- a session of one path gives out the findings of this path -/
  alone : ∀ i path, paths[i]? = some path → ∃ s, ofDocument [path] options d = .ok s ∧
    s.rest.1 = (finds.filter (·.owner = i)).map (·.found)
  /-- findings stand in order -/
  ordered : finds.Pairwise Finding.Before
  /-- with any paths the reading of the document ends in the same way -/
  failure : ∀ paths' : List Path, ∃ s, ofDocument paths' options d = .ok s ∧
    s.rest.2.failure? = (Lexer.initial.scan options (Buffer.mk d)).failure?

/-- A session gives out the findings of its paths in order: by the start of the value, then by the
number of the path, then by the mark. Those of one path are what a session of this path alone gives out,
and how the reading ends is not up to the paths. This holds of any bytes: what is read of them stands up
to some place in a series of values, and the findings are those that are decided by this place. -/
theorem merges_paths {texts : List String} {paths : List Path} {options : Options}
    (hp : Path.parseAll texts = .ok paths) (ho : options.check = .ok ()) (d : Bytes) :
    ∃ (values : List Passage) (n : Nat),
      (Lexer.initial.scan options (Buffer.mk d)).tokens =
        Lexed.upTo n (values.flatMap Passage.tokens) ∧
      Merges paths options d ((values.flatMap (Passage.findings paths)).filter (·.decidedBy n)) := by
  have hpaths := Path.forall_of_parseAll hp
  obtain ⟨values, n, hsorted, htokens⟩ := Lexer.exists_values options d
  refine ⟨values, n, htokens, ?comesFrom, ?together, ?alone, ?ordered, ?failure⟩
  case comesFrom =>
    intro f hf
    obtain ⟨hf, hn⟩ := List.mem_filter.1 hf
    obtain ⟨p, -, hfound⟩ := List.mem_flatMap.1 hf
    exact ⟨(Passage.comesFrom_of_mem hfound).1,
      htokens ▸ Passage.sublist_of_decidedBy hsorted hf hn⟩
  case together =>
    obtain ⟨s, hs⟩ := exists_ofDocument ho paths d
    obtain ⟨howned, hrest⟩ := rest_eq_decided hpaths hs hsorted htokens
    exact ⟨s, hs, hrest, howned⟩
  case alone =>
    intro i path hi
    obtain ⟨s, hs⟩ := exists_ofDocument ho [path] d
    have hone : ∀ q ∈ [path], ∃ text, Path.parse text = .ok q := by
      rw [List.forall_mem_singleton]
      exact hpaths path (List.mem_of_getElem? hi)
    exact ⟨s, hs, (rest_eq_decided hone hs hsorted htokens).2.trans (Passage.filter_decided hi).symm⟩
  case ordered => exact (Passage.pairwise_series hsorted paths).filter _
  case failure =>
    intro paths'
    obtain ⟨s, hs⟩ := exists_ofDocument ho paths' d
    exact ⟨s, hs, by rw [(rest_ofDocument hs).2, Lexer.scan_buffer]⟩

/-- A document is cut off behind its second member, which lets the first through for one of two paths.
The other takes any member. -/
theorem merges_paths_with_filter :
    ∃ finds, Merges [.ofLinks "$?(@.k == \"x\").a+" [⟨.selector .root, false⟩,
          ⟨.filter (.member (.named (Bytes.ofString "k")) (Bytes.ofString "x")), false⟩,
          ⟨.selector (.key (Bytes.ofString "a")), true⟩],
        .ofLinks "$.*+" [⟨.selector .root, false⟩, ⟨.selector .wildcard, true⟩]] {}
        (Bytes.ofString r#"{"a":1,"k":"x""#) finds ∧
      finds.map Finding.owned =
        [(0, ⟨"$?(@.k == \"x\").a+", Bytes.ofString "1", .number, [.key (Bytes.ofString "a")]⟩),
          (1, ⟨"$.*+", Bytes.ofString "1", .number, [.key (Bytes.ofString "a")]⟩),
          (1, ⟨"$.*+", Bytes.ofString r#""x""#, .string, [.key (Bytes.ofString "k")]⟩)] := by
  have hparse : Path.parseAll ["$?(@.k == \"x\").a+", "$.*+"] =
      .ok [.ofLinks "$?(@.k == \"x\").a+" [⟨.selector .root, false⟩,
          ⟨.filter (.member (.named (Bytes.ofString "k")) (Bytes.ofString "x")), false⟩,
          ⟨.selector (.key (Bytes.ofString "a")), true⟩],
        .ofLinks "$.*+" [⟨.selector .root, false⟩, ⟨.selector .wildcard, true⟩]] := by
    decide +kernel
  obtain ⟨values, n, -, h⟩ := merges_paths hparse (rfl : ({} : Options).check = .ok ())
    (Bytes.ofString r#"{"a":1,"k":"x""#)
  obtain ⟨s, hs, -, howned⟩ := h.together
  obtain ⟨hb, -, hlast⟩ := last_ofDocument hs
  refine ⟨_, h, ?_⟩
  rw [← howned, slots_rest hb, hlast, ← Lexer.scan_buffer {} Lexer.initial
    ⟨Bytes.ofString r#"{"a":1,"k":"x""#⟩]
  decide +kernel

end Session

end JsonExtract
