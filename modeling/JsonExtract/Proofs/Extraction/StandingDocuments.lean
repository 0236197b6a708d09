import JsonExtract.Proofs.Extraction.StandingChildren
import JsonExtract.Proofs.Walk.Upkeep

/-!
# Every value is watched

A value gets slots of its own, a container then has those of its children, and they all wait for the
filters on it. So what is known of them is what is known of stakes, by induction on the value. In a
document of several values the slots come one value behind the other.

* `Arrival.unfailed`, `Walk.standing_begin_sequel` — the slots for a value itself;
* `Stake.behind`, `Passage.stakes_eq` — stakes in a container by those in its children;
* `Walk.watching` — every value, up to every place;
* `Walk.Adds`, `Walk.ready_upTo` — the slots behind what is there of a document.
-/

namespace JsonExtract

/-! ## The value itself

When a value starts, a slot is reserved for each mark in front of which no filter has failed.
That it stands, with what is known at the place, says the same as that its stake is foreseen to
hold: the value is complete or guessed to be, and each of its own filters is passed or guessed
to be. -/

/-- The stakes of an arrival for the value itself, where no filter has failed at its start. A mark
behind a filter that fails at once gets no slot, so its stake is left out on this side, too. -/
def Arrival.unfailed (v : Value) (p : Passage) (a : Arrival) : List Stake :=
  a.level.marks.flatMap fun count =>
    if ((a.trail v).checks.take count).any (·.isFailed) then []
    else [⟨a.owner, p, (a.level.guards.take count).map fun g => (g.filter, p)⟩]

namespace Walk

variable {n : Nat} {p : Passage} {start stop : Nat}

theorem all_outcome_trail (h : p.Sorted) (n start stop : Nat) (b : Bool) (a : Arrival) (count : Nat) :
    ((a.trail (p.value.value start stop)).checks.take count).all (·.outcome (p.sequel n b)) =
      ((a.level.guards.take count).map fun g => (g.filter, p)).all fun g => g.1.foreseen n b g.2 := by
  rw [Arrival.trail, ← List.map_take, List.all_map, List.all_map]
  exact congrArg (List.all _) (funext fun g => Check.outcome_start_sequel h g.filter)

/-- The slots for a value stand if that is known of their stakes. -/
theorem arrivalStands_eq (h : p.Sorted) (b : Bool) (sequels : Nat → Sequel) (frames : List Frame)
    (a : Arrival) :
    arrivalStands sequels (p.sequel n b) frames (p.value.value start stop) a =
      (a.unfailed (p.value.value start stop) p).map fun s =>
        Frames.lets sequels s.owner frames && s.foreseen n b := by
  rw [arrivalStands, Arrival.unfailed, List.map_flatMap]
  refine List.flatMap_congr fun count _ => ?_
  split
  · rfl
  · rw [List.map_singleton, all_outcome_trail h, Passage.ends_sequel, Stake.foreseen_eq,
      Bool.and_assoc, Bool.and_comm (List.all _ _)]

/-- Stakes of a mark behind a filter that has failed are known to fail. -/
theorem filter_unfailed (h : p.Sorted) (a : Arrival) :
    (a.unfailed (p.value.value start stop) p).filter (·.foreseen n true) =
      (a.stakesAt p ([], p)).filter (·.foreseen n true) := by
  have hat : a.stakesAt p ([], p) = a.level.marks.flatMap fun count =>
      [⟨a.owner, p, (a.level.guards.take count).map fun g => (g.filter, p)⟩] := by
    rw [Arrival.stakesAt, Level.gates, List.map_map, List.map_eq_flatMap]
    rfl
  rw [hat, Arrival.unfailed, List.filter_flatMap, List.filter_flatMap]
  refine List.flatMap_congr fun count _ => ?_
  split
  · next hfailed =>
    obtain ⟨c, hc, hf⟩ := List.any_eq_true.1 hfailed
    have hlost := all_outcome_trail h n start stop true a count
    rw [List.all_eq_false.2 ⟨c, hc, by rw [c.outcome_of_isFailed _ hf]; exact Bool.false_ne_true⟩]
      at hlost
    rw [List.filter_singleton, Stake.foreseen_eq, ← hlost, Bool.and_false]
    rfl
  · rfl

end Walk

/-! ## Values in a container

A stake in a child has the filters on the container among its gates, in front of those from the
child on. So what is known of it is what is known of the same stake in the child, and of the
filters on the container. -/

/-- The filters that arrivals of a path put on a value. These are all guards on the level of the
arrival, since the way leads on below them. -/
def Arrival.fences (arrivals : List Arrival) (p : Passage) (owner : Nat) : List (Filter × Passage) :=
  (arrivals.filter (·.owner = owner)).flatMap fun a => a.level.guards.map fun g => (g.filter, p)

/-- A stake in a container is also behind the filters on the container. -/
def Stake.behind (arrivals : List Arrival) (p : Passage) (s : Stake) : Stake :=
  { s with gates := Arrival.fences arrivals p s.owner ++ s.gates }

theorem Stake.foreseen_behind (n : Nat) (b : Bool) (arrivals : List Arrival) (p : Passage)
    (s : Stake) : (s.behind arrivals p).foreseen n b =
      (((Arrival.fences arrivals p s.owner).all fun g => g.1.foreseen n b g.2) && s.foreseen n b) := by
  rw [foreseen_eq, foreseen_eq, behind, List.all_append, Bool.and_left_comm]

/-- Where an arrival leads at a child. -/
def Arrival.aim? (child : Child) (a : Arrival) : Option Arrival :=
  Trail.aim? child ⟨a.owner, a.path, a.below, []⟩

/-- The stakes of an arrival below its value are those where it leads. -/
theorem Arrival.stakesAt_cons (p : Passage) (x : Content) (site : Trek × Passage) (a : Arrival) :
    a.stakesAt p ((x.child, x.passage) :: site.1, site.2) =
      ((a.aim? x.child).toList.flatMap (Arrival.stakesAt x.passage site)).map fun s =>
        { s with gates := (a.level.guards.map fun g => (g.filter, p)) ++ s.gates } := by
  rw [stakesAt, Level.gates_cons, Level.gatesBelow, aim?, Trail.aim?]
  cases a.below with
  | nil => rfl
  | cons level below =>
    rw [List.head?_cons, Option.any_some]
    dsimp only
    split
    · rw [Option.toList_some, List.flatMap_singleton, stakesAt, List.map_map, List.map_map]
      rfl
    · rfl

/-- The stakes of arrivals are those for the value itself, and those in its children. The order is
that in which the sites of the passage are listed. -/
theorem Passage.stakes_eq {arrivals : List Arrival} (h : (arrivals.map (·.owner)).Nodup) (p : Passage) :
    p.stakes arrivals = arrivals.flatMap (Arrival.stakesAt p ([], p)) ++
      p.contents.flatMap fun x =>
        (x.passage.stakes (arrivals.filterMap (·.aim? x.child))).map (Stake.behind arrivals p) := by
  rw [stakes, sites_eq, List.flatMap_cons, List.flatMap_assoc]
  refine congrArg (_ ++ ·) (List.flatMap_congr fun x _ => ?_)
  rw [List.flatMap_map, stakes, List.map_flatMap]
  refine List.flatMap_congr fun site _ => ?_
  rw [flatMap_filterMap_eq, List.map_flatMap]
  refine List.flatMap_congr fun a ha => ?_
  rw [Arrival.stakesAt_cons]
  refine List.map_congr_left fun s hs => ?_
  obtain ⟨below, hbelow, hs⟩ := List.mem_flatMap.1 hs
  obtain ⟨gates, -, rfl⟩ := List.mem_map.1 hs
  have howner : below.owner = a.owner := Trail.owner_of_aim? (Option.mem_toList.1 hbelow)
  rw [Stake.behind, Arrival.fences]
  dsimp only
  rw [howner, filter_eq_singleton ha h, List.flatMap_singleton]

namespace Walk

section

variable {n : Nat} {p : Passage} (container : Container) (arrivals : List Arrival) (w : Walk)
  (start stop : Nat)

/-- The paths into a container lead at a child where its arrivals lead. -/
theorem aims_frame_placed (child : Child) :
    ((w.placed (p.value.value start stop) arrivals).frame container).aims child =
      arrivals.filterMap (·.aim? child) := by
  rw [← Frame.aims_outline, Frame.aims, trails_frame_placed, List.filterMap_map]
  rfl

/-- The filters on a container come out as it is known. -/
theorem passes_frame_placed (h : p.Sorted) (b : Bool) (owner : Nat) :
    ((w.placed (p.value.value start stop) arrivals).frame container).passes (p.sequel n b) owner =
      (Arrival.fences arrivals p owner).all fun g => g.1.foreseen n b g.2 := by
  rw [← Frame.passes_outline, Frame.passes, Frame.checksOf, trails_frame_placed, List.filter_map,
    List.flatMap_map, List.all_flatMap, Arrival.fences, List.all_flatMap]
  refine congrArg (List.all _) (funext fun a => ?_)
  have hall := all_outcome_trail h n start stop b a a.level.guards.length
  rwa [List.take_length, List.take_of_length_le (by simp [Arrival.trail])] at hall

end

/-! ## Every value

The two parts are joined by induction over the passage: a container is opened, its children are
watched, and its end is reached or not. -/

section

variable {n : Nat} {p : Passage} {arrivals : List Arrival} {w : Walk}

/-- The slots for a value itself, with what has become of it up to a place. -/
theorem standing_begin_sequel (h : p.Sorted) (hstarted : p.hasStarted n = true) (hb : w.Balanced)
    (hclear : ∀ a ∈ arrivals, Frames.Clear w.frames a.owner) (start stop : Nat) (b : Bool)
    (sequels : Nat → Sequel) :
    (w.begin (p.value.value start stop) arrivals).standing
        (Function.update sequels w.frames.length (p.sequel n b)) =
      w.standing sequels ++ (arrivals.flatMap (Arrival.unfailed (p.value.value start stop) p)).map
        fun s => Frames.lets sequels s.owner w.frames && s.foreseen n b := by
  have hinside : ∀ depth < w.frames.length,
      Function.update sequels w.frames.length (p.sequel n b) depth = sequels depth := fun depth hd =>
    Function.update_of_ne (Nat.ne_of_lt hd) ..
  have hends : (p.value.value start stop).kind.container? = none → (p.sequel n b).ends = true := by
    intro hnone
    rw [Passage.ends_sequel]
    obtain ⟨s, span, rfl⟩ | ⟨container, hc⟩ := p.scalar_or_container
    -- a scalar that has started is complete
    · have hlast : (Passage.scalar s span).last.stop ≤ n := of_decide_eq_true hstarted
      rw [decide_eq_true hlast, Bool.true_or]
    · cases hnone.symm.trans hc
  rw [standing_begin _ hb hclear (by rw [Function.update_self]; exact hends), Function.update_self,
    standing_congr sequels hinside, List.map_flatMap]
  refine congrArg (_ ++ ·) (List.flatMap_congr fun a _ => ?_)
  rw [arrivalStands_eq h]
  simp only [Frames.lets_congr hinside]

/-- The stakes of arrivals for the value itself, apart from those that are known to fail. -/
theorem filter_flatMap_unfailed (h : p.Sorted) (hstarted : p.hasStarted n = true) (start stop : Nat) :
    (arrivals.flatMap (Arrival.unfailed (p.value.value start stop) p)).filter (·.foreseen n true) =
      (arrivals.flatMap (Arrival.stakesAt p ([], p))).filter fun s =>
        s.passage.hasStarted n && s.foreseen n true := by
  rw [List.filter_flatMap, List.filter_flatMap]
  refine List.flatMap_congr fun a _ => ?_
  rw [filter_unfailed h]
  refine List.filter_congr fun s hs => ?_
  obtain ⟨gates, -, rfl⟩ := List.mem_map.1 hs
  rw [hstarted, Bool.true_and]

/-- A scalar that has started is complete. -/
theorem watching_scalar {s : Scalar} {span : Span} (h : (Passage.scalar s span).Sorted)
    (hstarted : (Passage.scalar s span).hasStarted n = true) : Watching n (.scalar s span) := by
  intro paths arrivals w hb hnodup hclear
  let v := (Passage.scalar s span).value.value span.start span.stop
  have hrun : (w.begin v arrivals).run paths (Lexed.upTo n (Passage.scalar s span).tokens.tail) =
      w.begin v arrivals := by
    rw [Passage.tokens]
    rfl
  have hkind : v.kind.container? = none := by
    have hvalue : (Passage.scalar s span).value.kind.container? = none := by
      rw [Passage.value]
      cases s <;> rfl
    exact hvalue
  have hframes : (w.begin v arrivals).frames.map Frame.outline = w.frames.map Frame.outline := by
    rw [begin, hkind]
    dsimp only
    rw [completeScalar, frames_write]
    exact (placed_like ..).frames
  change Watches _ _ _ _ ((w.begin v arrivals).run _ _)
  rw [hrun]
  refine ⟨fun _ => hframes, arrivals.flatMap (Arrival.unfailed v (.scalar s span)),
    fun b sequels _ => ?_, ?_⟩
  · rw [← standing_begin_sequel h hstarted hb hclear]
    refine standing_congr _ fun depth hd => ?_
    rw [Frames.length_congr hframes] at hd
    exact (Function.update_of_ne (Nat.ne_of_lt hd) ..).symm
  · have hcontents : (Passage.scalar s span).contents = [] := rfl
    rw [Passage.stakes_eq hnodup, hcontents, List.flatMap_nil, List.append_nil]
    exact filter_flatMap_unfailed h hstarted span.start span.stop

/-- The end of a container decides what is still undecided, if it has been reached. -/
theorem standing_run_tail (h : p.Sorted) {container : Container}
    (hc : p.value.kind.container? = some container) (paths : List Path) {f : Frame} {outer : List Frame}
    (hinside : WatchesInside n p.contents w f outer
      (w.run paths (Lexed.upTo n (p.contents.flatMap Content.tokens)))) :
    (p.last.stop ≤ n → (w.run paths (Lexed.upTo n p.tokens.tail)).frames.map Frame.outline =
      outer.map Frame.outline) ∧
    ∀ (b : Bool) (sequels : Nat → Sequel), sequels outer.length = .const b →
      (w.run paths (Lexed.upTo n p.tokens.tail)).standing sequels =
        (w.run paths (Lexed.upTo n (p.contents.flatMap Content.tokens))).standing
          (Function.update sequels outer.length
            (if p.last.stop ≤ n then Sequel.closed else .const b)) := by
  rw [Passage.tokens_eq hc, List.tail_cons, Lexed.upTo_append, run_append]
  by_cases hn : p.last.stop ≤ n
  · obtain ⟨f', outer', hframes, houter, -⟩ := hinside.frames fun x hx =>
      Nat.le_trans (Passage.last_stop_content_le h hx) hn
    have hclose : ∀ w' : Walk, w'.run paths (Lexed.upTo n [p.last]) = w'.close := by
      intro w'
      rw [Lexed.upTo_eq_self fun l hl => List.mem_singleton.1 hl ▸ hn, run, List.foldl_cons,
        List.foldl_nil, token, Passage.token_last hc]
    refine ⟨fun _ => ?_, fun b sequels _ => ?_⟩
    · rw [hclose, frames_close, hframes]
      exact houter
    · rw [hclose, standing_close sequels hframes, Frames.length_congr houter, if_pos hn]
  · have hnone : Lexed.upTo n [p.last] = [] :=
      Lexed.upTo_eq_nil fun l hl => List.mem_singleton.1 hl ▸ Nat.lt_of_not_le hn
    refine ⟨fun hle => absurd hle hn, fun b sequels hb => ?_⟩
    rw [hnone, if_neg hn, ← hb, Function.update_eq_self]
    rfl

/-- A container is opened, and its children are watched. -/
theorem watchesInside_begin (h : p.Sorted)
    (hs : ∀ x ∈ p.contents, x.passage.hasStarted n = true → Watching n x.passage)
    {container : Container} (hc : p.value.kind.container? = some container) (paths : List Path)
    (hb : w.Balanced) (hnodup : (arrivals.map (·.owner)).Nodup)
    (hclear : ∀ a ∈ arrivals, Frames.Clear w.frames a.owner) (start stop : Nat) :
    let v := p.value.value start stop
    WatchesInside n p.contents (w.begin v arrivals) ((w.placed v arrivals).frame container)
      (w.placed v arrivals).walk.frames
      ((w.begin v arrivals).run paths (Lexed.upTo n (p.contents.flatMap Content.tokens))) := by
  intro v
  have hopened : w.begin v arrivals = openFrame container (w.placed v arrivals) := by
    rw [begin, show v.kind.container? = _ from hc]
  have howners : ((w.placed v arrivals).frame container).trails.map (·.owner) =
      arrivals.map (·.owner) :=
    owners_frame_placed container arrivals w
  refine watches_contents (List.Subset.refl _) h.contents hs paths
    (begin_advances v arrivals hb).balanced (hopened ▸ frames_openFrame container _)
    (by rw [Frame.Distinct, howners]; exact hnodup) (fun owner ho => ?_) ?_
  · obtain ⟨a, ha, rfl⟩ := List.mem_map.1 (howners ▸ ho)
    exact (Frames.clear_congr (placed_like v arrivals w).frames).2 (hclear a ha)
  · rw [← Passage.children_value]
    exact Tree.fit_children hc

/-- A container is watched if its children are. -/
theorem watching_container (h : p.Sorted)
    (hs : ∀ x ∈ p.contents, x.passage.hasStarted n = true → Watching n x.passage)
    (hstarted : p.hasStarted n = true) {container : Container}
    (hc : p.value.kind.container? = some container) : Watching n p := by
  intro paths arrivals w hb hnodup hclear
  let v := p.value.value p.first.start p.first.stop
  let outer := (w.placed v arrivals).walk.frames
  have houter : outer.map Frame.outline = w.frames.map Frame.outline := (placed_like v arrivals w).frames
  have hlength : outer.length = w.frames.length := Frames.length_congr houter
  have hinside := watchesInside_begin h hs hc paths hb hnodup hclear p.first.start p.first.stop
  obtain ⟨hframes, hended⟩ := standing_run_tail h hc paths hinside
  obtain ⟨news, hnews, hstakes⟩ := hinside.standing
  rw [hlength] at hended hnews
  refine ⟨fun hn => (hframes hn).trans houter,
    arrivals.flatMap (Arrival.unfailed v p) ++ news.map (Stake.behind arrivals p),
    fun b sequels hsequels => ?_, ?_⟩
  · have hat : ∀ depth < outer.length, Function.update sequels w.frames.length
        (if p.last.stop ≤ n then Sequel.closed else .const b) depth = sequels depth := fun depth hd =>
      Function.update_of_ne (Nat.ne_of_lt (hlength ▸ hd)) ..
    have habove : ∀ depth, w.frames.length < depth → Function.update sequels w.frames.length
        (if p.last.stop ≤ n then Sequel.closed else .const b) depth = .const b := fun depth hd =>
      (Function.update_of_ne (Nat.ne_of_gt hd) ..).trans (hsequels depth (Nat.le_of_lt hd))
    have hsequel : (if p.last.stop ≤ n then Sequel.closed else .const b).front n p.contents =
        p.sequel n b := rfl
    rw [hended b sequels (hsequels _ (Nat.le_refl _)), hnews b _ habove, Function.update_self,
      Function.update_idem, hsequel, standing_begin_sequel h hstarted hb hclear, List.map_append,
      List.append_assoc, List.map_map]
    refine congrArg (_ ++ ·) (congrArg (_ ++ ·) (List.map_congr_left fun s _ => ?_))
    rw [passes_frame_placed container arrivals w p.first.start p.first.stop h, Frames.lets_congr hat,
      Frames.lets_like houter, Function.comp_apply, Stake.foreseen_behind, Bool.and_left_comm,
      Bool.and_assoc]
    rfl
  · have hbelow := hstakes (if p.last.stop ≤ n then Sequel.closed else .const true)
    have hsequel : (if p.last.stop ≤ n then Sequel.closed else .const true).front n p.contents =
        p.sequel n true := rfl
    simp only [hsequel, passes_frame_placed container arrivals w p.first.start p.first.stop h,
      aims_frame_placed container arrivals w p.first.start p.first.stop, ← Stake.foreseen_behind]
      at hbelow
    rw [List.filter_append, filter_flatMap_unfailed h hstarted, Passage.stakes_eq hnodup,
      List.filter_append, List.filter_map]
    refine congrArg₂ List.append rfl ?_
    have hbehind := congrArg (List.map (Stake.behind arrivals p)) hbelow
    rw [List.filter_flatMap, List.map_flatMap] at hbehind
    rw [List.filter_flatMap]
    simp only [List.filter_map]
    exact hbehind

/-- A value that has started is always watched as far as it goes. By induction on the passage,
with the guess and the sequels left arbitrary. -/
theorem watching {n : Nat} {p : Passage} (h : p.Sorted) (hstarted : p.hasStarted n = true) :
    Watching n p := by
  induction p using Passage.induction with | step p ih =>
  obtain ⟨s, span, rfl⟩ | ⟨container, hc⟩ := p.scalar_or_container
  · exact watching_scalar h hstarted
  · exact watching_container h (fun x hx => ih x hx (h.content hx)) hstarted hc

/-! ## Documents

A document of several values is watched value by value, and each adds its slots behind those
that are there. With both guesses in turn, the slots that are not dead and the slots that are
ready are counted. -/

/-- A value that stands in no container and has started. -/
theorem watches_top (paths : List Path) (h : p.Sorted) (hstarted : p.hasStarted n = true)
    (hb : w.Balanced) (hw : w.frames = []) :
    Watches n p (Walk.arrivals paths) w (w.run paths (Lexed.upTo n p.tokens)) := by
  rw [run_of_started hstarted, enter_top paths _ hw]
  exact watching h hstarted paths _ w hb (nodup_arrivals paths)
    (fun a _ f hf => absurd (hw ▸ hf) List.not_mem_nil)

/-- From one walk to another there are new slots, and what is known of them is what is known of
some stakes. The list of the stakes is compared after those that are known to fail have been taken
out. -/
def Adds (n : Nat) (stakes : List Stake) (w w' : Walk) : Prop :=
  ∃ news : List Stake,
    (∀ b, w'.standing (fun _ => .const b) =
      w.standing (fun _ => .const b) ++ news.map (·.foreseen n b)) ∧
    news.filter (·.foreseen n true) =
      stakes.filter fun s => s.passage.hasStarted n && s.foreseen n true

theorem Adds.append {w₁ w₂ : Walk} {xs ys : List Stake} (h : Adds n xs w w₁) (h' : Adds n ys w₁ w₂) :
    Adds n (xs ++ ys) w w₂ := by
  obtain ⟨news, hnews, hstakes⟩ := h
  obtain ⟨news', hnews', hstakes'⟩ := h'
  refine ⟨news ++ news', fun b => ?_, ?_⟩
  · rw [hnews', hnews, List.map_append, List.append_assoc]
  · rw [List.filter_append, List.filter_append, hstakes, hstakes']

/-- Values that have not started have no slots. -/
theorem adds_of_not_started {stakes : List Stake} (h : ∀ s ∈ stakes, s.passage.hasStarted n = false)
    (w : Walk) : Adds n stakes w w := by
  refine ⟨[], fun b => (List.append_nil _).symm, (List.filter_eq_nil_iff.2 fun s hs => ?_).symm⟩
  rw [h s hs, Bool.false_and]
  exact Bool.false_ne_true

/-- A value that stands in no container, up to a place. -/
theorem adds_top (paths : List Path) (h : p.Sorted) (hb : w.Balanced) (hw : w.frames = []) :
    Adds n (p.stakes (Walk.arrivals paths)) w (w.run paths (Lexed.upTo n p.tokens)) := by
  cases hstarted : p.hasStarted n with
  | true =>
    obtain ⟨-, news, hnews, hstakes⟩ := watches_top paths h hstarted hb hw
    refine ⟨news, fun b => ?_, hstakes⟩
    rw [hnews b _ fun _ _ => rfl, hw]
    rfl
  | false =>
    rw [Passage.upTo_tokens_of_not_started h hstarted]
    exact adds_of_not_started (fun s hs => Passage.hasStarted_of_mem_stakes h hstarted hs) w

/-- Values that stand in no container, one behind the other, up to a place. -/
theorem adds_series (paths : List Path) {ps : List Passage}
    (h : Lexed.Sorted (ps.flatMap Passage.tokens)) (hb : w.Balanced) (hw : w.frames = []) (n : Nat) :
    Adds n (ps.flatMap (Passage.stakes (Walk.arrivals paths))) w
      (w.run paths (Lexed.upTo n (ps.flatMap Passage.tokens))) := by
  induction ps generalizing w with
  | nil => exact adds_of_not_started (fun s hs => absurd hs List.not_mem_nil) w
  | cons p ps ih =>
    rw [List.flatMap_cons] at h
    obtain ⟨hsorted, hbehind, -⟩ := List.pairwise_append.1 h
    rw [List.flatMap_cons, List.flatMap_cons, Lexed.upTo_append, run_append]
    refine (adds_top paths hsorted hb hw).append ?_
    by_cases hn : p.last.stop ≤ n
    -- nothing is open behind a value that is complete, and what follows is read from there
    · exact ih hbehind (run_advances _ _ hb).balanced (frames_run_top paths hsorted hn hb hw)
    -- nothing is there behind a value that is not
    · obtain ⟨hnone, hlate⟩ := Passage.upTo_series_of_lt_last h (Nat.lt_of_not_le hn)
      rw [hnone]
      refine adds_of_not_started (fun s hs => ?_) _
      obtain ⟨q, hq, hs⟩ := List.mem_flatMap.1 hs
      exact Passage.hasStarted_of_mem_stakes (hlate q hq).1 (hlate q hq).2 hs

end

/-! ### Slots -/

/-- Lists that look the same to two functions look the same to one behind the other. -/
theorem filter_map_eq_of_map_eq {α β γ : Type} {p : α → Bool} {q : β → Bool} {f : α → γ} {g : β → γ}
    {xs : List α} {ys : List β} (h : xs.map p = ys.map q) (h' : xs.map f = ys.map g) :
    (xs.filter p).map f = (ys.filter q).map g := by
  induction xs generalizing ys with
  | nil =>
    rw [List.map_nil, eq_comm, List.map_eq_nil_iff] at h
    rw [h]
    rfl
  | cons x xs ih =>
    cases ys with
    | nil => cases h
    | cons y ys =>
      rw [List.map_cons, List.map_cons, List.cons.injEq] at h h'
      rw [List.filter_cons, List.filter_cons, h.1, apply_ite (List.map f), apply_ite (List.map g),
        List.map_cons, List.map_cons, h'.1, ih h.2 h'.2]

/-- If all turns out well, the slots stand that are not dead. -/
theorem standing_const_true (w : Walk) :
    w.standing (fun _ => .const true) = w.slots.toList.map fun s => !s.dead := by
  have hlost : ∀ frames : List Frame,
      Frames.lost frames (Sequel.downFrom (fun _ => .const true) frames.length) = [] := by
    intro frames
    induction frames with
    | nil => rfl
    | cons f outer ih =>
      have hchecks : f.checks.flatMap (Check.lost (.const true)) = [] :=
        List.flatMap_eq_nil_iff.2 fun _ _ => rfl
      rw [List.length_cons, Sequel.downFrom, Frames.lost_cons, ih, Frame.lost, hchecks]
      rfl
  apply List.ext_getElem?
  intro i
  rw [standing, prospects, hlost, Slots.getElem?_isSome_prospects, List.getElem?_map,
    Array.getElem?_toList]
  simp

/-- If all turns out badly, the slots stand that are ready. -/
theorem standing_const_false {w : Walk} (hb : w.Balanced) :
    w.standing (fun _ => .const false) = w.slots.toList.map fun s => s.match?.isSome := by
  have hlost : ∀ i,
      i ∈ Frames.lost w.frames (Sequel.downFrom (fun _ => .const false) w.frames.length) ↔
        i ∈ w.queue ∨ i ∈ w.recorded := by
    intro i
    rw [queue, recorded]
    induction w.frames with
    | nil => simp [Frames.lost]
    | cons f outer ih =>
      have hf : f.lost (.const false) = f.queue ++ f.recorded := rfl
      rw [List.length_cons, Sequel.downFrom, Frames.lost_cons, hf, List.flatMap_cons,
        List.flatMap_cons, List.mem_append, List.mem_append, List.mem_append, List.mem_append, ih]
      exact or_or_or_comm
  apply List.ext_getElem?
  intro i
  rw [standing, prospects, Slots.getElem?_isSome_prospects, List.getElem?_map, Array.getElem?_toList]
  cases hs : w.slots[i]? with
  | none => rfl
  | some s =>
    have honce := hb.once hs
    refine congrArg some (Bool.eq_iff_iff.2 ?_)
    rw [Slot.isSome_match?_iff, Bool.and_eq_true, Bool.not_eq_true', Bool.not_eq_true',
      ← Bool.not_eq_true (List.contains _ _), List.contains_iff_mem, hlost, not_or]
    refine and_congr_right fun hd => ?_
    rw [hb.pending hs hd, ← List.count_eq_zero, ← List.count_eq_zero]
    refine and_congr_right fun _ => ?_
    cases hv : s.value? <;> simp_all

/-- Where no container is open, every slot is ready or dead. -/
theorem isSome_match?_of_frames_nil {w : Walk} (hb : w.Balanced) (hw : w.frames = []) {s : Slot}
    (hs : s ∈ w.slots.toList) : s.match?.isSome = !s.dead := by
  have hsame : (w.slots.toList.map fun s => s.match?.isSome) = w.slots.toList.map fun s => !s.dead := by
    rw [← standing_const_true, ← standing_const_false hb, standing, standing, hw]
    rfl
  exact List.map_inj_left.1 hsame s hs

/-- Behind what is there of a document, the slots that are not dead are those of the candidates
that have started and are not known to fail, and those are ready that are known to be found. The
two lists have the same length and the same order, which is what is needed to count how many slots
are ready in front of one that waits. -/
theorem ready_upTo {paths : List Path} (hp : ∀ path ∈ paths, ∃ text, Path.parse text = .ok path)
    {ps : List Passage} (h : Lexed.Sorted (ps.flatMap Passage.tokens)) (n : Nat) :
    ((({} : Walk).run paths (Lexed.upTo n (ps.flatMap Passage.tokens))).slots.toList.filter
        fun s => !s.dead).map (fun s => s.match?.isSome) =
      ((ps.flatMap (Passage.candidates paths)).filter fun f =>
        f.passage.hasStarted n && f.stake.foreseen n true).map (·.stake.foreseen n false) := by
  obtain ⟨news, hnews, hstakes⟩ := adds_series paths h balanced_initial rfl n
  have hbalanced := (run_advances paths (Lexed.upTo n (ps.flatMap Passage.tokens))
    balanced_initial).balanced
  have hopen := hnews true
  have hready := hnews false
  rw [standing_const_true] at hopen
  rw [standing_const_false hbalanced] at hready
  rw [filter_map_eq_of_map_eq hopen hready, hstakes]
  have hcandidates : ((ps.flatMap (Passage.candidates paths)).filter fun f =>
      f.passage.hasStarted n && f.stake.foreseen n true).map Finding.stake =
        (ps.flatMap (Passage.stakes (Walk.arrivals paths))).filter fun s =>
          s.passage.hasStarted n && s.foreseen n true := by
    have hall : (ps.flatMap (Passage.candidates paths)).map Finding.stake =
        (ps.flatMap (Passage.stakes (Walk.arrivals paths))).filter fun s => !s.failsAtOnce := by
      rw [List.map_flatMap, List.filter_flatMap]
      exact List.flatMap_congr fun p _ => p.map_stake_candidates hp
    have hfilter := List.filter_map (p := fun s : Stake => s.passage.hasStarted n && s.foreseen n true)
      (f := Finding.stake) (l := ps.flatMap (Passage.candidates paths))
    rw [hall, List.filter_filter] at hfilter
    refine hfilter.symm.trans (List.filter_congr fun s _ => ?_)
    -- what fails at once is known to fail
    cases hfails : s.failsAtOnce with
    | true => rw [Stake.foreseen_of_failsAtOnce hfails, Bool.and_false, Bool.false_and]
    | false => exact Bool.and_true _
  rw [← hcandidates, List.map_map]
  rfl

end Walk

end JsonExtract
