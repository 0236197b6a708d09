import JsonExtract.Proofs.Extraction.Answer
import JsonExtract.Proofs.Extraction.Findings

/-!
# Walks that are stopped

A document may end anywhere, or be at fault there. Behind the tokens up to such a place some containers
are still open, and no more members come in them. The slots hold what is complete by then and let
through by filters that have been passed by then.

* `Walk.Halts` — the walk behind what is there of a value up to a place;
* `Walk.halts_content` — the child that the place is in;
* `Walk.halting` — every value, up to every place;
* `Walk.owned_upTo` — the matches behind what is there of a document.
-/

namespace JsonExtract

/-- Slots for a value hold no match while the value is not complete. -/
theorem Arrival.filterMap_owned?_prospects (sequel : Sequel) (sequels : List Sequel)
    (frames : List Frame) (v : Value) (arrivals : List Arrival) :
    ((arrivals.flatMap (prospects sequel sequels frames v)).filterMap id).filterMap
      Prospect.owned? = [] := by
  rw [List.filterMap_eq_nil_iff, List.filterMap_flatMap]
  intro p hp
  obtain ⟨a, -, hp⟩ := List.mem_flatMap.1 hp
  rw [prospects, List.filterMap_flatMap] at hp
  obtain ⟨count, -, hp⟩ := List.mem_flatMap.1 hp
  rw [filterMap_prospectsAt] at hp
  split at hp
  · cases List.mem_singleton.1 hp
    rfl
  · cases hp

namespace Walk

/-! ## Values

The statement is the one for values that are read to their end, with what is there up to a
place: new slots hold what is found in the part that has started and is complete. If the value
itself is complete, this is what was shown for values before. -/

/-- A value was read up to a place, from its arrivals on. Whether the frames are those of before
is said only for a value that is complete. -/
structure Halts (n : Nat) (p : Passage) (arrivals : List Arrival) (w w' : Walk) : Prop where
  /-- behind a value that is complete the same containers are open -/
  frames : p.last.stop ≤ n → w'.frames.map Frame.outline = w.frames.map Frame.outline
  /-- new slots win what the arrivals win, as far as it is complete -/
  outlook : ∃ news, w'.outlook = w.outlook ++ news ∧
    (news.filterMap id).filterMap Prospect.owned? =
      ((p.completed n).flatMap fun place =>
        (arrivals.filter fun a => Frames.pass w.frames (Frames.spent w.frames) a.owner).flatMap
          (Arrival.prizes (Frames.route w.frames) (p.upTo n) place)).filterMap Prospect.owned?

/-- What is there of a value is always read like this, wherever it is entered. -/
def Halting (n : Nat) (p : Passage) : Prop :=
  ∀ (paths : List Path) (arrivals : List Arrival) (w : Walk), w.Balanced →
    (arrivals.map (·.owner)).Nodup → (∀ a ∈ arrivals, Frames.Clear w.frames a.owner) →
      Halts n p arrivals w
        ((w.begin (p.value.value p.first.start p.first.stop) arrivals).run paths
          (Lexed.upTo n p.tokens.tail))

variable {n : Nat} {p : Passage}

/-- The first token of a value starts it. -/
theorem token_first (p : Passage) (paths : List Path) (w : Walk) :
    w.token paths p.first = w.arrive paths (p.value.value p.first.start p.first.stop) := by
  obtain ⟨more, hmore⟩ := p.exists_tokens_eq_cons
  have hvalue : p.value.tokens = p.first.token :: more.map (·.token) := by
    rw [← Passage.map_token_tokens, hmore, List.map_cons]
  exact Tree.token_first hvalue paths w

/-- A value that has started is entered with its first token, and the tokens behind it are read from
there. -/
theorem run_of_started (hstarted : p.hasStarted n = true) (paths : List Path) (w : Walk) :
    let v := p.value.value p.first.start p.first.stop
    w.run paths (Lexed.upTo n p.tokens) =
      ((w.enter paths v).2.begin v (w.enter paths v).1).run paths (Lexed.upTo n p.tokens.tail) := by
  rw [Passage.upTo_tokens_of_started hstarted, run, List.foldl_cons, token_first, arrive_eq_begin]
  rfl

/-- A value that is complete is settled. -/
theorem halting_of_last_le (h : p.Sorted) (hn : p.last.stop ≤ n) : Halting n p := by
  intro paths arrivals w hb hnodup hclear
  have htail : Lexed.upTo n p.tokens.tail = p.tokens.tail :=
    Lexed.upTo_eq_self fun l hl =>
      Nat.le_trans (Passage.le_last_stop h (List.mem_of_mem_tail hl)) hn
  have hmore : p.tokens.tail.map (·.token) = p.value.tokens.tail := by
    rw [← Passage.map_token_tokens, List.map_tail]
  obtain ⟨hframes, -, -, news, hnews, hwon⟩ := settling p.value paths (Frames.spent w.frames)
    arrivals w p.first.start p.first.stop p.tokens.tail hb hnodup hclear hmore
  rw [htail]
  refine ⟨fun _ => hframes, news, ?_, ?_⟩
  · rw [outlook, Frames.spent_congr hframes, hnews, outlook]
  · rw [hwon, Passage.completed_of_last_le h hn, Passage.upTo_eq_value h hn]

/-! ## Children

Up to a place, some children are complete, one may have started, and of the next one there may
be nothing but its name. The complete ones are passed as before; for the one in the middle the
statement is assumed, and the name alone changes nothing. -/

section

variable {w : Walk} {f : Frame} {outer : List Frame} {x : Content}

/-- Behind its name, if it has one, a child is awaited, and nothing else has changed. The two
kinds of containers are taken together here, so that the lemmas behind need not distinguish them. -/
theorem exists_awaits (hx : x ∈ p.contents) (paths : List Path) (hw : w.frames = f :: outer)
    {cs : List (Child × Tree)} (hfit : Child.Fit f.container f.count (x.value :: cs)) :
    ∃ name, (w.run paths x.lead).frames = { f with name } :: outer ∧
      (w.run paths x.lead).slots = w.slots ∧ ∀ u, Frame.Awaits (x.child, u) { f with name } := by
  obtain ⟨hlead, position, hchild⟩ | ⟨l, hlead, hchild⟩ := Passage.lead_of_mem_contents hx
  · rw [hlead]
    refine ⟨f.name, hw, rfl, fun u => .inr ?_⟩
    rw [Frame.child]
    cases hcontainer : f.container with
    | array =>
      rw [hcontainer] at hfit
      exact hfit.1.symm
    | object =>
      rw [hcontainer] at hfit
      obtain ⟨⟨_, hname⟩, -⟩ := hfit
      cases hchild.symm.trans hname
  · have hobject : f.container = .object := by
      cases hcontainer : f.container with
      | array =>
        rw [hcontainer] at hfit
        cases hchild.symm.trans hfit.1
      | object => rfl
    have hrun : w.run paths x.lead = w.name (Bytes.quoted l.name) := by
      rw [hlead]
      rfl
    have hname : Bytes.stripQuotes (Bytes.quoted l.name) = l.name := Bytes.stripQuotes_quoted l.name
    have hnamed : ∃ name, named l.name f = { f with name } := by
      rw [named]
      split
      · exact ⟨f.name, rfl⟩
      · exact ⟨l.name, rfl⟩
    obtain ⟨name, hnamed⟩ := hnamed
    have hframes := frames_name hw (Bytes.quoted l.name)
    rw [hname, hnamed] at hframes
    rw [hrun, hchild]
    exact ⟨name, hframes, slots_name hw _, fun u => hnamed ▸ awaits_named _ hobject u⟩

/-- The name of a child leaves all prospects as they are. -/
theorem prospects_lead (hx : x ∈ p.contents) (paths : List Path) (hw : w.frames = f :: outer)
    {cs : List (Child × Tree)} (hfit : Child.Fit f.container f.count (x.value :: cs))
    (sequels : List Sequel) : (w.run paths x.lead).prospects sequels = w.prospects sequels := by
  obtain ⟨name, hframes, hslots, -⟩ := exists_awaits hx paths hw hfit
  rw [prospects, prospects, hslots, hframes, hw]
  cases sequels <;> rfl

/-- Of a child whose value has not started there may be the name, and that changes no prospects. -/
theorem outlook_run_lead (hx : x ∈ p.contents) (hsorted : x.passage.Sorted)
    (hstarted : x.passage.hasStarted n = false) (paths : List Path) (hw : w.frames = f :: outer)
    {cs : List (Child × Tree)} (hfit : Child.Fit f.container f.count (x.value :: cs)) :
    (w.run paths (Lexed.upTo n x.tokens)).outlook = w.prospects (.closed :: Frames.spent outer) := by
  rw [Content.tokens, Lexed.upTo_append, Passage.upTo_tokens_of_not_started hsorted hstarted,
    List.append_nil]
  obtain h | h := Passage.upTo_lead hx n
  · rw [h, run, List.foldl_nil, outlook, hw]
    rfl
  · obtain ⟨name, hframes, -⟩ := exists_awaits hx paths hw hfit
    rw [h, outlook, prospects_lead hx paths hw hfit, hframes]
    rfl

/-- A child whose value has started: its name is read, the value is entered, and read as far as it
goes. -/
theorem run_content_of_started (hsorted : Lexed.Sorted x.tokens)
    (hstarted : x.passage.hasStarted n = true) (paths : List Path) (w : Walk) :
    let v := x.passage.value.value x.passage.first.start x.passage.first.stop
    w.run paths (Lexed.upTo n x.tokens) =
      (((w.run paths x.lead).enter paths v).2.begin v
        ((w.run paths x.lead).enter paths v).1).run paths (Lexed.upTo n x.passage.tokens.tail) := by
  rw [Passage.upTo_tokens_content_of_started hsorted hstarted, run_append]
  exact run_of_started hstarted paths _

theorem halts_content (hx : x ∈ p.contents) (hsorted : Lexed.Sorted x.tokens)
    (hs : Halting n x.passage) (hstarted : x.passage.hasStarted n = true) (paths : List Path)
    (hb : w.Balanced) (hw : w.frames = f :: outer) (hd : f.Distinct)
    (hclear : ∀ t ∈ f.trails, Frames.Clear outer t.owner) {cs : List (Child × Tree)}
    (hfit : Child.Fit f.container f.count (x.value :: cs)) :
    ∃ news, (w.run paths (Lexed.upTo n x.tokens)).outlook =
        w.prospects (Sequel.closed.behind (x.upTo n) :: Frames.spent outer) ++ news ∧
      (news.filterMap id).filterMap Prospect.owned? =
        ((x.passage.completed n).flatMap fun place =>
          ((f.leads (Sequel.closed.behind (x.upTo n))).filter fun l =>
            l.passes && Frames.pass outer (Frames.spent outer) l.owner).flatMap
            (Lead.prizes (Frames.route outer) (x.upTo n) place)).filterMap Prospect.owned? := by
  let v := x.passage.value.value x.passage.first.start x.passage.first.stop
  obtain ⟨name, hframes, -, hawaits⟩ := exists_awaits hx paths hw hfit
  have hb' := (run_advances paths x.lead hb).balanced
  have hd' : Frame.Distinct { f with name } := hd
  have hv : v.text? = (x.upTo n).2.text? :=
    (Tree.text?_value ..).trans (Passage.text?_upTo n x.passage).symm
  have harrivals := arrivals_enter paths v hframes hv
  have hentered := frames_entered paths v hframes hv
  obtain ⟨-, news, hnews, hwon⟩ := hs paths ((w.run paths x.lead).enter paths v).1
    ((w.run paths x.lead).enter paths v).2 (enter_advances paths v hb').balanced
    (harrivals ▸ Frame.nodup_arrivals hd')
    (fun a ha => hentered ▸ Frame.clear_of_mem_arrivals hd' hclear (harrivals ▸ ha))
  refine ⟨news, ?_, ?_⟩
  · rw [run_content_of_started hsorted hstarted, hnews, outlook, hentered, Frames.spent, List.map_cons,
      prospects_enter paths .closed _ hframes (hawaits _) hv, prospects_lead hx paths hw hfit]
    rfl
  · rw [hwon, harrivals, hentered]
    congr 1
    exact List.flatMap_congr fun place _ => Frame.prizes_arrivals hd' (hawaits _) place

/-- The children that a place stands in front of, apart from the first, which it may stand in. Of
the children behind the first there is nothing. -/
theorem halts_rest {done rest : List Content} (h : p.Sorted) (hcut : p.Cut n done rest)
    (hs : ∀ x ∈ p.contents, x.passage.hasStarted n = true → Halting n x.passage)
    (paths : List Path) (hb : w.Balanced) (hw : w.frames = f :: outer) (hd : f.Distinct)
    (hclear : ∀ t ∈ f.trails, Frames.Clear outer t.owner)
    (hfit : Child.Fit f.container f.count (rest.map Content.value)) {members : Members}
    (hmembers : members = Passage.startedMembers n rest) :
    ∃ news, (w.run paths (Lexed.upTo n (rest.flatMap Content.tokens))).outlook =
        w.prospects (.ofMembers members :: Frames.spent outer) ++ news ∧
      (news.filterMap id).filterMap Prospect.owned? =
        (rest.flatMap fun x => (x.passage.completed n).flatMap fun place =>
          ((f.leads (.ofMembers members)).filter fun l =>
            l.passes && Frames.pass outer (Frames.spent outer) l.owner).flatMap
            (Lead.prizes (Frames.route outer) (x.upTo n) place)).filterMap Prospect.owned? := by
  have hin : ∀ x ∈ rest, x ∈ p.contents := fun x => hcut.mem_of_mem_rest
  obtain rfl | ⟨x, later, rfl, hlater⟩ := hcut.rest
  · refine ⟨[], ?_, rfl⟩
    rw [hmembers, List.append_nil, outlook, List.flatMap_nil]
    change _ = w.prospects (.ofMembers [] :: _)
    rw [Sequel.ofMembers_nil]
    exact congrArg (fun frames => w.prospects (Frames.spent frames)) hw
  have hx : x ∈ p.contents := hin x List.mem_cons_self
  -- nothing is there of the children behind the first
  have hnone := fun g : Content → Way × Tree → List Prospect => Passage.completed_later hlater
    (fun y hy => h.content (hin y (List.mem_cons_of_mem _ hy))) g
  rw [Passage.startedMembers_cons hlater] at hmembers
  rw [List.flatMap_cons, Lexed.upTo_append, Passage.upTo_tokens_later hlater, List.append_nil,
    List.flatMap_cons, hnone, List.append_nil]
  cases hstarted : x.passage.hasStarted n with
  | true =>
    rw [hstarted, if_pos rfl] at hmembers
    rw [hmembers, ← List.append_nil (Child.asMember _), ← Sequel.behind_ofMembers, Sequel.ofMembers_nil]
    exact halts_content hx (h.sublist (Passage.tokens_content_sublist hx)) (hs x hx hstarted) hstarted
      paths hb hw hd hclear hfit
  | false =>
    rw [hstarted, if_neg Bool.false_ne_true] at hmembers
    have hlt : n < x.passage.first.stop := Nat.lt_of_not_le (of_decide_eq_false hstarted)
    refine ⟨[], ?_, ?_⟩
    · rw [outlook_run_lead hx (h.content hx) hstarted paths hw hfit, hmembers, Sequel.ofMembers_nil,
        List.append_nil]
    · rw [Passage.completed_of_lt_first (h.content hx) hlt]
      rfl

end

/-! ## Containers

An open container at the place of the cut has its frame still there. If nothing comes any more,
its filters that are undecided have failed, which is also how the value that has started judges
them. -/

/-- What the trails of a container win in a child is what its arrivals win, also behind others. -/
theorem prizes_leads_passed {t : Tree} {container : Container} {arrivals : List Arrival} {w : Walk}
    {start stop : Nat} {f : Frame} {outer : List Frame} {sequel : Sequel}
    (hleads : f.leads sequel =
      ((w.placed (t.value start stop) arrivals).frame container).leads (.ofMembers t.members))
    (haround : outer.map Frame.outline =
      (w.placed (t.value start stop) arrivals).walk.frames.map Frame.outline)
    (sequels : List Sequel) (c : Child × Tree) (place : Way × Tree) :
    (((f.leads sequel).filter fun l => l.passes && Frames.pass outer sequels l.owner).flatMap
        (Lead.prizes (Frames.route outer) c place)) =
      (arrivals.filter fun a => Frames.pass w.frames sequels a.owner).flatMap
        (Arrival.prizes (Frames.route w.frames) t (c :: place.1, place.2)) := by
  rw [hleads, Frames.route_congr haround]
  simp only [Frames.pass_congr sequels _ haround]
  exact prizes_frame_placed container arrivals w sequels c place

/-- A container that is open at the place. -/
theorem halting_container (h : p.Sorted)
    (hs : ∀ x ∈ p.contents, x.passage.hasStarted n = true → Halting n x.passage)
    (hn : n < p.last.stop) {container : Container} (hc : p.value.kind.container? = some container) :
    Halting n p := by
  intro paths arrivals w hb hnodup hclear
  let start := p.first.start
  let stop := p.first.stop
  let opened := openFrame container (w.placed ((p.upTo n).value start stop) arrivals)
  obtain ⟨done, rest, hcut⟩ := Passage.exists_cut h n
  have ht : (p.upTo n).kind.container? = some container := (Passage.kind_upTo n p).symm ▸ hc
  have hbegin : w.begin (p.value.value start stop) arrivals = opened := by
    rw [begin, ← Passage.value_upTo n, show ((p.upTo n).value start stop).kind.container? = _ from ht]
  -- slots for the container itself, then for its first children, then for the one that the place is in
  obtain ⟨hown, -⟩ := placed_reserves (v := (p.upTo n).value start stop)
    (.ofMembers (p.upTo n).members) (Frames.spent w.frames) hb hclear
  obtain ⟨f, outer, hpasses⟩ := passes_open ht (fun c _ => settling c.2) (hcut.fit hc).1 paths
    (Frames.spent w.frames) (.ofMembers (Passage.startedMembers n rest)) start stop hb hnodup hclear
    (Passage.map_token_contents p done fun x => hcut.mem_of_mem_done)
  obtain ⟨news, hnews, hgain⟩ := hpasses.prospects
  have hmembers : (Sequel.ofMembers (Passage.startedMembers n rest)).behindAll
      (done.map Content.value) = .ofMembers (p.upTo n).members := by
    rw [Sequel.behindAll_ofMembers, hcut.members_upTo h]
  rw [hmembers] at hnews hgain
  have hleads := hpasses.leads
  rw [hmembers] at hleads
  have haround : outer.map Frame.outline = w.frames.map Frame.outline :=
    hpasses.around.trans (placed_like ..).frames
  have howners : f.trails.map (·.owner) = arrivals.map (·.owner) := by
    rw [← Frame.owners_leads, hleads, Frame.owners_leads, owners_frame_placed]
  have hbalanced : (opened.run paths (done.flatMap Content.tokens)).Balanced :=
    (run_advances _ _ (hbegin ▸ (begin_advances _ arrivals hb).balanced)).balanced
  obtain ⟨news', hnews', hgain'⟩ := halts_rest h hcut hs paths hbalanced hpasses.frames
    (by rw [Frame.Distinct, howners]; exact hnodup)
    (fun t ht => by
      obtain ⟨a, ha, ho⟩ := List.mem_map.1 (howners ▸ List.mem_map_of_mem ht)
      exact ho ▸ (Frames.clear_congr haround).2 (hclear a ha))
    (by rw [hpasses.container, hpasses.count]; exact (hcut.fit hc).2) rfl
  let own := arrivals.flatMap (Arrival.prospects (.ofMembers (p.upTo n).members)
    (Frames.spent w.frames) w.frames ((p.upTo n).value start stop))
  refine ⟨fun hle => absurd hle (Nat.not_le_of_lt hn), own ++ news ++ news', ?_, ?_⟩
  · rw [hcut.tail_upTo hc hn, hbegin, run_append, hnews', Frames.spent_congr haround, hnews,
      prospects_openFrame, hown, outlook, List.append_assoc, List.append_assoc, List.append_assoc]
  · have hprizes := prizes_leads_passed hleads hpasses.around (Frames.spent w.frames)
    rw [Frames.spent_congr haround] at hgain'
    simp only [prizes_frame_placed] at hgain
    simp only [hprizes] at hgain'
    rw [List.filterMap_append, List.filterMap_append, List.filterMap_append, List.filterMap_append,
      Arrival.filterMap_owned?_prospects, List.nil_append, hgain, hgain', ← List.filterMap_append,
      hcut.completed h hn, List.flatMap_append, List.flatMap_assoc, List.flatMap_assoc]
    simp only [List.flatMap_map]

/-- A value that has started is always read as far as it goes. -/
theorem halting {n : Nat} {p : Passage} (h : p.Sorted) (hstarted : p.hasStarted n = true) :
    Halting n p := by
  induction p using Passage.induction with | step p ih =>
  by_cases hn : p.last.stop ≤ n
  · exact halting_of_last_le h hn
  · obtain ⟨s, span, rfl⟩ | ⟨container, hc⟩ := p.scalar_or_container
    -- a scalar that has started is complete
    · exact absurd (of_decide_eq_true hstarted) hn
    · exact halting_container h (fun x hx => ih x hx (h.content hx)) (Nat.lt_of_not_le hn) hc

/-! ## Documents

A document of several values is read value by value up to the place, and nothing is open between
them. What the slots hold then is what is decided by the place. -/

/-- At the top, new slots win what the paths find in a value, as far as it is decided. -/
theorem filterMap_prizes_arrivals {paths : List Path}
    (hp : ∀ path ∈ paths, ∃ text, Path.parse text = .ok path) (h : p.Sorted) :
    ((p.completed n).flatMap fun place =>
      ((arrivals paths).filter fun a => Frames.pass [] (Frames.spent []) a.owner).flatMap
        (Arrival.prizes (Frames.route []) (p.upTo n) place)).filterMap Prospect.owned? =
      ((p.findings paths).filter (·.decidedBy n)).map Finding.owned := by
  have hall : (arrivals paths).filter (fun a => Frames.pass [] (Frames.spent []) a.owner) =
      arrivals paths :=
    List.filter_eq_self.2 fun _ _ => rfl
  rw [hall, List.filterMap_flatMap, Passage.findings_upTo h]
  exact List.flatMap_congr fun place _ => flatMap_prizes_arrivals hp (p.upTo n) place

/-- A value that stands in no container and has started. -/
theorem halts_top (paths : List Path) (h : p.Sorted) (hstarted : p.hasStarted n = true) {w : Walk}
    (hb : w.Balanced) (hw : w.frames = []) :
    Halts n p (arrivals paths) w (w.run paths (Lexed.upTo n p.tokens)) := by
  rw [run_of_started hstarted, enter_top paths _ hw]
  exact halting h hstarted paths (arrivals paths) w hb (nodup_arrivals paths)
    (fun a _ f hf => absurd (hw ▸ hf) List.not_mem_nil)

/-- Behind a value that stands in no container and is complete, nothing is open. -/
theorem frames_run_top (paths : List Path) (h : p.Sorted) (hn : p.last.stop ≤ n) {w : Walk}
    (hb : w.Balanced) (hw : w.frames = []) :
    (w.run paths (Lexed.upTo n p.tokens)).frames = [] := by
  have hframes := (halts_top paths h (Passage.hasStarted_of_last_le h hn) hb hw).frames hn
  rwa [hw, List.map_nil, List.map_eq_nil_iff] at hframes

/-- Nothing is decided about a value that has not started. -/
theorem owned_findings_of_not_started (paths : List Path) (h : p.Sorted)
    (hstarted : p.hasStarted n = false) :
    ((p.findings paths).filter (·.decidedBy n)).map Finding.owned = [] := by
  have hfirst : n < p.first.stop := Nat.lt_of_not_le (of_decide_eq_false hstarted)
  rw [Passage.findings_upTo h, Passage.completed_of_lt_first h hfirst, List.flatMap_nil]

/-- A value that stands in no container, up to a place: the slots that it adds hold what is decided
of its findings. -/
theorem outlook_run_top {paths : List Path} (hp : ∀ path ∈ paths, ∃ text, Path.parse text = .ok path)
    (h : p.Sorted) {w : Walk} (hb : w.Balanced) (hw : w.frames = []) (n : Nat) :
    ∃ news, (w.run paths (Lexed.upTo n p.tokens)).outlook = w.outlook ++ news ∧
      (news.filterMap id).filterMap Prospect.owned? =
        ((p.findings paths).filter (·.decidedBy n)).map Finding.owned := by
  cases hstarted : p.hasStarted n with
  | true =>
    obtain ⟨-, news, hnews, hwon⟩ := halts_top paths h hstarted hb hw
    refine ⟨news, hnews, ?_⟩
    rw [hwon, hw, filterMap_prizes_arrivals hp h]
  | false =>
    rw [owned_findings_of_not_started paths h hstarted, Passage.upTo_tokens_of_not_started h hstarted]
    exact ⟨[], (List.append_nil _).symm, rfl⟩

/-- Values that stand in no container, one behind the other, up to a place. -/
theorem outlook_run_upTo {paths : List Path}
    (hp : ∀ path ∈ paths, ∃ text, Path.parse text = .ok path) {ps : List Passage}
    (h : Lexed.Sorted (ps.flatMap Passage.tokens)) {w : Walk} (hb : w.Balanced)
    (hw : w.frames = []) (n : Nat) :
    ∃ news, (w.run paths (Lexed.upTo n (ps.flatMap Passage.tokens))).outlook = w.outlook ++ news ∧
      (news.filterMap id).filterMap Prospect.owned? =
        ps.flatMap fun p => ((p.findings paths).filter (·.decidedBy n)).map Finding.owned := by
  induction ps generalizing w with
  | nil => exact ⟨[], (List.append_nil _).symm, rfl⟩
  | cons p ps ih =>
    rw [List.flatMap_cons] at h
    obtain ⟨hsorted, hbehind, -⟩ := List.pairwise_append.1 h
    obtain ⟨news, hnews, hwon⟩ := outlook_run_top hp hsorted hb hw n
    rw [List.flatMap_cons, Lexed.upTo_append, run_append, List.flatMap_cons]
    by_cases hn : p.last.stop ≤ n
    -- nothing is open behind a value that is complete, and what follows is read from there
    · have hopen := frames_run_top paths hsorted hn hb hw
      obtain ⟨news', hnews', hwon'⟩ := ih hbehind (run_advances _ _ hb).balanced hopen
      refine ⟨news ++ news', by rw [hnews', hnews, List.append_assoc], ?_⟩
      rw [List.filterMap_append, List.filterMap_append, hwon, hwon']
    -- nothing is there behind a value that is not
    · obtain ⟨hnone, hlate⟩ := Passage.upTo_series_of_lt_last h (Nat.lt_of_not_le hn)
      rw [hnone, List.flatMap_eq_nil_iff.2 fun q hq =>
        owned_findings_of_not_started paths (hlate q hq).1 (hlate q hq).2, List.append_nil]
      exact ⟨news, hnews, hwon⟩

/-- Behind the tokens up to a place, the slots hold the matches that are decided by then. It is
about the tokens in front of the place, whatever the reason why no more of them were read. -/
theorem owned_upTo {paths : List Path} (hp : ∀ path ∈ paths, ∃ text, Path.parse text = .ok path)
    {ps : List Passage} (h : Lexed.Sorted (ps.flatMap Passage.tokens)) (n : Nat) :
    (({} : Walk).run paths (Lexed.upTo n (ps.flatMap Passage.tokens))).slots.owned =
      ((ps.flatMap (Passage.findings paths)).filter (·.decidedBy n)).map Finding.owned := by
  obtain ⟨news, hnews, hwon⟩ := outlook_run_upTo hp h balanced_initial rfl n
  rw [owned_eq_outlook (run_advances _ _ balanced_initial).balanced, hnews, List.filterMap_append,
    List.filterMap_append, hwon, List.filter_flatMap, List.map_flatMap]
  rfl

end Walk

end JsonExtract
