import JsonExtract.Proofs.Extraction.StandingSlots
import JsonExtract.Proofs.Extraction.Stakes
import JsonExtract.Proofs.Extraction.Halt

/-!
# What stands of stakes

Up to a place of a document, the children of a container that have started decide some of its filters,
and its end decides the others, if it has been reached. Nothing is known about filters that are still
undecided. So with the same guess for all of them, a slot stands just if that is what is known of its
stake at the place. And apart from stakes that are known to fail, there is a slot for every stake whose
value has started.

* `Sequel.front`, `Passage.sequel` — what has become of a container up to a place;
* `Check.outcome_start_sequel` — what is known of a filter;
* `Walk.Watches` — the walk behind what is there of a value up to a place;
* `Walk.WatchesInside` — the walk behind what is there of some children of a container;
* `Walk.watches_content`, `Walk.watches_contents` — one child, and several.
-/

namespace JsonExtract

/-! ## Containers up to a place

What is known of a container at a place is put into a sequel: the children that have started
come in one by one, and behind them the container is either closed, or the guess is taken. With
this sequel a check comes out as is known of its filter. -/

namespace Sequel

/-- The children that have started up to a place come in first. Children that have not started are
skipped. -/
def front (n : Nat) (xs : List Content) (sequel : Sequel) : Sequel :=
  sequel.behindAll ((xs.takeWhile fun x => x.passage.hasStarted n).map Content.value)

variable {n : Nat} {x : Content} {xs : List Content} {sequel : Sequel}

theorem front_cons_of_started (h : x.passage.hasStarted n = true) :
    front n (x :: xs) sequel = (front n xs sequel).behind x.value := by
  rw [front, List.takeWhile_cons, if_pos h]
  rfl

/-- First one child comes in, then the others. -/
theorem front_front (h : x.passage.hasStarted n = true) :
    (sequel.front n xs).front n [x] = sequel.front n (x :: xs) := by
  rw [front_cons_of_started h, front_cons_of_started h]
  rfl

theorem front_cons_of_not_started (h : x.passage.hasStarted n = false) :
    front n (x :: xs) sequel = sequel := by
  rw [front, List.takeWhile_cons, if_neg (by rw [h]; exact Bool.false_ne_true)]
  rfl

@[simp]
theorem ends_front (n : Nat) (xs : List Content) (sequel : Sequel) :
    (sequel.front n xs).ends = sequel.ends :=
  ends_behindAll ..

/-- Of some members, one decides a filter, or none does. -/
theorem passes_foldr_member (field : Field) (literal : Bytes) (members : List (Bytes × Passage))
    (sequel : Sequel) :
    (members.foldr (fun m sequel => sequel.member m.1 m.2.value.text?) sequel).passes
        (.member field literal) =
      match field.decider? literal members with
      | some m => m.2.value.text? == some literal
      | none => sequel.passes (.member field literal) := by
  induction members with
  | nil => cases field <;> rfl
  | cons m members ih =>
    rw [List.foldr_cons, member]
    dsimp only
    cases field with
    | named name =>
      rw [Filter.decide?, Field.decider?, List.find?_cons]
      by_cases hname : m.1 = name
      · simp [hname]
      · simp only [hname, if_false, Option.getD_none, beq_eq_false_iff_ne.2 hname]
        exact ih
    | any =>
      rw [Filter.decide?, Field.decider?, List.find?_cons]
      by_cases htext : m.2.value.text? = some literal
      · simp [htext]
      · simp only [htext, if_false, Option.getD_none, beq_eq_false_iff_ne.2 htext]
        exact ih

end Sequel

/-- What has become of a container up to a place, and `b` where nothing is known. The guess
matters only for a container that is still open, or has not started. -/
def Passage.sequel (n : Nat) (b : Bool) (p : Passage) : Sequel :=
  (if p.last.stop ≤ n then Sequel.closed else .const b).front n p.contents

theorem Passage.ends_sequel (n : Nat) (b : Bool) (p : Passage) :
    (p.sequel n b).ends = (p.last.stop ≤ n || b) := by
  rw [sequel, Sequel.ends_front]
  split
  · next hn => rw [decide_eq_true hn]; rfl
  · next hn => rw [decide_eq_false hn]; rfl

theorem Passage.exists_mem_contents {p : Passage} {m : Bytes × Passage} (hm : m ∈ p.members) :
    ∃ x ∈ p.contents, x.passage = m.2 := by
  cases p with
  | scalar | array => cases hm
  | object =>
    obtain ⟨e, he, rfl⟩ := List.mem_map.1 hm
    exact ⟨_, List.mem_map_of_mem he, rfl⟩

/-- Filters on members are decided by those that have started, or by the end of the object. -/
theorem Passage.passes_sequel {n : Nat} {b : Bool} {p : Passage} (h : p.Sorted)
    (hobject : p.value.kind = .object) (field : Field) (literal : Bytes) :
    (p.sequel n b).passes (.member field literal) = (Filter.member field literal).foreseen n b p := by
  have hfront : ∀ sequel : Sequel, sequel.front n p.contents =
      (p.members.takeWhile fun m => m.2.hasStarted n).foldr
        (fun m sequel => sequel.member m.1 m.2.value.text?) sequel := by
    intro sequel
    cases p with
    | scalar s => rw [value] at hobject; cases s <;> cases hobject
    | array => rw [value] at hobject; cases hobject
    | object opening members closing =>
      rw [Sequel.front, Sequel.behindAll, contents, Passage.members, List.takeWhile_map,
        List.takeWhile_map, List.foldr_map, List.foldr_map, List.foldr_map]
      rfl
  have hdecider : field.decider? literal (p.members.takeWhile fun m => m.2.hasStarted n) =
      (field.decider? literal p.members).filter fun m => m.2.hasStarted n := by
    cases field <;> exact find?_takeWhile (pairwise_members h n) _
  rw [sequel, hfront, Sequel.passes_foldr_member, hdecider, Filter.foreseen, Filter.decidedAt,
    if_pos hobject, Filter.holds, members_value, Field.equals_eq_any_decider?]
  cases hm : field.decider? literal p.members with
  | none =>
    rw [Option.filter_none, Option.any_none]
    dsimp only
    split <;> rfl
  | some m =>
    rw [Option.filter_some, Option.any_some]
    dsimp only
    cases hstarted : m.2.hasStarted n with
    | true => rw [if_pos rfl, if_pos (of_decide_eq_true hstarted)]
    | false =>
      have hlate : ¬ m.2.first.stop ≤ n := of_decide_eq_false hstarted
      have hlast : ¬ p.last.stop ≤ n := by
        have hmem : m ∈ p.members := by cases field <;> exact List.mem_of_find?_eq_some hm
        obtain ⟨x, hx, hpassage⟩ := exists_mem_contents hmem
        have hle := Nat.le_trans (first_stop_le_last_stop (h.content hx)) (last_stop_content_le h hx)
        rw [hpassage] at hle
        exact fun hn => hlate (Nat.le_trans hle hn)
      rw [if_neg Bool.false_ne_true, if_neg hlate, if_neg hlast]
      rfl

/-- What is known of a filter on a value is what the children that have started say. On the left
the check is as it is when the value starts, and on the right stands no state at all. -/
theorem Check.outcome_start_sequel {n : Nat} {b : Bool} {p : Passage} (h : p.Sorted) (f : Filter) :
    (start (p.value.kind = .object) f).outcome (p.sequel n b) = f.foreseen n b p := by
  rw [outcome_start]
  cases f with
  | literals left right =>
    rw [Filter.foreseen, Filter.decidedAt, if_pos (Nat.zero_le n)]
    rfl
  | member field literal =>
    by_cases hobject : p.value.kind = .object
    · rw [← Passage.passes_sequel h hobject, decide_eq_true hobject]
      rfl
    · have hfails : (Filter.member field literal).failsAtOnce p = true := bne_iff_ne.2 hobject
      rw [Filter.foreseen_of_failsAtOnce hfails, decide_eq_false hobject]
      rfl

/-! ## Stakes that have started

A stake belongs to a value of the passage, so it has not started if the passage has not. -/

/-- In a value that has not started no stake has. -/
theorem Passage.hasStarted_of_mem_stakes {n : Nat} {p : Passage} (h : p.Sorted)
    (hstarted : p.hasStarted n = false) {arrivals : List Arrival} {s : Stake}
    (hs : s ∈ p.stakes arrivals) : s.passage.hasStarted n = false := by
  obtain ⟨site, hsite, hs⟩ := List.mem_flatMap.1 hs
  obtain ⟨a, -, hs⟩ := List.mem_flatMap.1 hs
  obtain ⟨gates, -, rfl⟩ := List.mem_map.1 hs
  have hle := first_stop_le h ((sublist_of_mem_sites hsite).1.subset site.2.first_mem_tokens)
  exact decide_eq_false fun hn => of_decide_eq_false hstarted (Nat.le_trans hle hn)

/-! ## Where trails lead

A blocked trail leads to no child, although its path would select some. Its stakes are known to
fail, so they may be left out or put in. The arrivals are compared with the aims of the trails,
which do not ask for filters. -/

/-- Where a path into a container leads at a child, if no filter has failed. -/
def Trail.aim? (child : Child) (t : Trail) : Option Arrival :=
  match t.below with
  | level :: below =>
    if level.selector.selects child then some ⟨t.owner, t.path, level, below⟩ else none
  | [] => none

theorem Trail.arrival?_eq_aim? (child : Child) (t : Trail) :
    t.arrival? child = if t.isBlocked then none else t.aim? child := by
  rw [arrival?, aim?]
  cases t.below with
  | nil => rw [ite_self]
  | cons level below => cases t.isBlocked <;> rfl

theorem Trail.owner_of_aim? {child : Child} {t : Trail} {a : Arrival} (h : t.aim? child = some a) :
    a.owner = t.owner := by
  rw [aim?] at h
  split at h
  · split at h
    · cases h; rfl
    · cases h
  · cases h

namespace Frame

/-- Where the paths into a container lead at a child. -/
def aims (child : Child) (f : Frame) : List Arrival :=
  f.trails.filterMap (·.aim? child)

theorem aims_outline (child : Child) (f : Frame) : f.outline.aims child = f.aims child := by
  rw [aims, aims, outline, List.filterMap_map]
  rfl

theorem aims_entered (child : Child) (text? : Option Bytes) (f : Frame) :
    (f.entered text?).aims child = f.aims child := by
  rw [aims, aims, entered, see]
  dsimp only
  cases f.container with
  | object => rw [mapChecks, List.filterMap_map]; rfl
  | array => rfl

/-- A path that is blocked is not let through. -/
theorem passes_of_isBlocked {f : Frame} {t : Trail} (ht : t ∈ f.trails) (hb : t.isBlocked = true)
    (sequel : Sequel) : f.passes sequel t.owner = false := by
  obtain ⟨c, hc, hfails⟩ := List.any_eq_true.1 hb
  refine List.all_eq_false.2 ⟨c, List.mem_flatMap.2 ⟨t, ?_, hc⟩, ?_⟩
  · exact List.mem_filter.2 ⟨ht, decide_eq_true rfl⟩
  · rw [c.outcome_of_isFailed sequel hfails]
    exact Bool.false_ne_true

/-- Paths that are let through arrive at a child where they lead to. -/
theorem filter_stakes_arrivals {f : Frame} {c : Child × Tree} (hc : f.Awaits c) (sequel : Sequel)
    (p : Passage) (q : Stake → Bool) :
    ((p.stakes (f.arrivals c.2.text?)).filter fun s =>
        (f.entered c.2.text?).passes sequel s.owner && q s) =
      (p.stakes (f.aims c.1)).filter fun s => (f.entered c.2.text?).passes sequel s.owner && q s := by
  have haims : f.aims c.1 = (f.entered c.2.text?).trails.filterMap (·.aim? c.1) :=
    (aims_entered ..).symm
  rw [Passage.stakes, Passage.stakes, List.filter_flatMap, List.filter_flatMap, haims, arrivals]
  refine List.flatMap_congr fun site _ => ?_
  rw [flatMap_filterMap_eq, flatMap_filterMap_eq, List.filter_flatMap, List.filter_flatMap]
  refine List.flatMap_congr fun t ht => ?_
  rw [child_of_mem_trails hc ht, Trail.arrival?_eq_aim?]
  split
  · next hblocked =>
    rw [Option.toList_none, List.flatMap_nil, List.filter_nil, eq_comm, List.filter_eq_nil_iff]
    intro s hs
    obtain ⟨a, ha, hs⟩ := List.mem_flatMap.1 hs
    obtain ⟨gates, -, rfl⟩ := List.mem_map.1 hs
    have hlost : (f.entered c.2.text?).passes sequel t.owner = false :=
      passes_of_isBlocked (f := f.entered c.2.text?) ht hblocked sequel
    dsimp only
    rw [Trail.owner_of_aim? (Option.mem_toList.1 ha), hlost, Bool.false_and]
    exact Bool.false_ne_true
  · rfl

end Frame

/-- A frame behind some of its children up to a place. Trails lead where they led, and only what
is known of their filters has moved on. -/
structure Frame.Behind (n : Nat) (xs : List Content) (f f' : Frame) : Prop where
  container : f'.container = f.container
  count : f'.count = f.count + xs.length
  owners : f'.trails.map (·.owner) = f.trails.map (·.owner)
  aims : ∀ child, f'.aims child = f.aims child
  /-- the children decide filters -/
  passes : ∀ sequel owner, f'.passes sequel owner = f.passes (sequel.front n xs) owner

theorem Frame.Behind.cons {n : Nat} {x : Content} {xs : List Content} {f f₁ f₂ : Frame}
    (hx : x.passage.hasStarted n = true) (h : Frame.Behind n [x] f f₁)
    (h' : Frame.Behind n xs f₁ f₂) : Frame.Behind n (x :: xs) f f₂ where
  container := h'.container.trans h.container
  count := by
    rw [h'.count, h.count, List.length_singleton, List.length_cons]
    omega
  owners := h'.owners.trans h.owners
  aims child := (h'.aims child).trans (h.aims child)
  passes sequel owner := by rw [h'.passes, h.passes, Sequel.front_front hx]

/-- A frame behind one child differs from the one that was entered by its slots only. -/
theorem Frame.behind_of_outline {n : Nat} {x : Content} {f f' : Frame}
    (hx : x.passage.hasStarted n = true) (hawaits : f.Awaits x.value)
    (hf : f'.outline = (f.entered x.value.2.text?).outline) : Frame.Behind n [x] f f' where
  container := (congrArg Frame.container hf).trans (container_entered ..)
  count := congrArg Frame.count hf
  owners := by
    have howners := congrArg (fun g => g.trails.map (·.owner)) hf
    simp only [outline, List.map_map] at howners
    exact howners.trans (owners_see ..)
  aims child := by rw [← aims_outline, hf, aims_outline, aims_entered]
  passes sequel owner := by
    rw [← passes_outline, hf, passes_outline, passes_entered sequel hawaits,
      Sequel.front_cons_of_started hx]
    rfl

namespace Walk

/-! ## One child

A child that has started is entered, and watched up to the place; a child that has not may have
its name there. Either way the sequels of the containers around it stay what they are, and that
of its own container has moved on. -/

/-- A value was read up to a place, from its arrivals on. -/
structure Watches (n : Nat) (p : Passage) (arrivals : List Arrival) (w w' : Walk) : Prop where
  /-- behind a value that is complete the same containers are open -/
  frames : p.last.stop ≤ n → w'.frames.map Frame.outline = w.frames.map Frame.outline
  /-- new slots stand if that is known of their stakes, with one guess for all that is not known;
  apart from stakes that are known to fail, there is one for each that has started -/
  standing : ∃ news : List Stake,
    (∀ (b : Bool) (sequels : Nat → Sequel),
      (∀ depth, w.frames.length ≤ depth → sequels depth = .const b) →
        w'.standing sequels = w.standing sequels ++
          news.map fun s => Frames.lets sequels s.owner w.frames && s.foreseen n b) ∧
    news.filter (·.foreseen n true) =
      (p.stakes arrivals).filter fun s => s.passage.hasStarted n && s.foreseen n true

/-- What is there of a value is always watched, wherever it is entered. -/
def Watching (n : Nat) (p : Passage) : Prop :=
  ∀ (paths : List Path) (arrivals : List Arrival) (w : Walk), w.Balanced →
    (arrivals.map (·.owner)).Nodup → (∀ a ∈ arrivals, Frames.Clear w.frames a.owner) →
      Watches n p arrivals w
        ((w.begin (p.value.value p.first.start p.first.stop) arrivals).run paths
          (Lexed.upTo n p.tokens.tail))

section

variable {n : Nat} {p : Passage} {w : Walk} {f : Frame} {outer : List Frame} {x : Content}

/-- The name of a child leaves the slots standing. -/
theorem standing_lead (hx : x ∈ p.contents) (paths : List Path) (hw : w.frames = f :: outer)
    {cs : List (Child × Tree)} (hfit : Child.Fit f.container f.count (x.value :: cs))
    (sequels : Nat → Sequel) : (w.run paths x.lead).standing sequels = w.standing sequels := by
  obtain ⟨name, hframes, -⟩ := exists_awaits hx paths hw hfit
  rw [standing, prospects_lead hx paths hw hfit, standing, hframes, hw]
  rfl

/-- Of a child whose value has not started there may be the name. -/
theorem standing_run_lead (hx : x ∈ p.contents) (hsorted : x.passage.Sorted)
    (hstarted : x.passage.hasStarted n = false) (paths : List Path) (hw : w.frames = f :: outer)
    {cs : List (Child × Tree)} (hfit : Child.Fit f.container f.count (x.value :: cs))
    (sequels : Nat → Sequel) :
    (w.run paths (Lexed.upTo n x.tokens)).standing sequels = w.standing sequels := by
  rw [Content.tokens, Lexed.upTo_append, Passage.upTo_tokens_of_not_started hsorted hstarted,
    List.append_nil]
  obtain h | h := Passage.upTo_lead hx n
  · rw [h]
    rfl
  · rw [h, standing_lead hx paths hw hfit]

/-- Some children of the innermost container were read up to a place, from `w` to `w'`. The
sequels of the container and of those around it are arbitrary, and `b` is the guess for all that
are deeper. -/
structure WatchesInside (n : Nat) (xs : List Content) (w : Walk) (f : Frame) (outer : List Frame)
    (w' : Walk) : Prop where
  /-- behind children that are complete the container is open, and differs by them -/
  frames : (∀ x ∈ xs, x.passage.last.stop ≤ n) →
    ∃ f' outer', w'.frames = f' :: outer' ∧ outer'.map Frame.outline = outer.map Frame.outline ∧
      f.Behind n xs f'
  /-- new slots, as behind a value -/
  standing : ∃ news : List Stake,
    (∀ (b : Bool) (sequels : Nat → Sequel), (∀ depth, outer.length < depth → sequels depth = .const b) →
      w'.standing sequels =
        w.standing (Function.update sequels outer.length ((sequels outer.length).front n xs)) ++
          news.map fun s =>
            f.passes ((sequels outer.length).front n xs) s.owner && Frames.lets sequels s.owner outer &&
              s.foreseen n b) ∧
    ∀ sequel : Sequel,
      (news.filter fun s => f.passes (sequel.front n xs) s.owner && s.foreseen n true) =
        (xs.flatMap fun x => x.passage.stakes (f.aims x.child)).filter fun s =>
          s.passage.hasStarted n && (f.passes (sequel.front n xs) s.owner && s.foreseen n true)

/-- A child whose value has started. -/
theorem watches_content (hx : x ∈ p.contents) (hsorted : Lexed.Sorted x.tokens)
    (hs : Watching n x.passage) (hstarted : x.passage.hasStarted n = true) (paths : List Path)
    (hb : w.Balanced) (hw : w.frames = f :: outer) (hd : f.Distinct)
    (hclear : ∀ t ∈ f.trails, Frames.Clear outer t.owner) {cs : List (Child × Tree)}
    (hfit : Child.Fit f.container f.count (x.value :: cs)) :
    WatchesInside n [x] w f outer (w.run paths (Lexed.upTo n x.tokens)) := by
  let v := x.passage.value.value x.passage.first.start x.passage.first.stop
  obtain ⟨name, hframes, -, hawaits⟩ := exists_awaits hx paths hw hfit
  have hb' := (run_advances paths x.lead hb).balanced
  have hd' : Frame.Distinct { f with name } := hd
  have hv : v.text? = x.value.2.text? := Tree.text?_value ..
  have hawaits' : Frame.Awaits x.value { f with name } := hawaits x.passage.value
  have harrivals := arrivals_enter paths v hframes hv
  have hentered := frames_entered paths v hframes hv
  have hfront : ∀ sequel : Sequel, sequel.front n [x] = sequel.behind x.value := fun sequel =>
    Sequel.front_cons_of_started hstarted
  have hpasses : ∀ sequel owner,
      (Frame.entered x.value.2.text? { f with name }).passes sequel owner =
        f.passes (sequel.behind x.value) owner := fun sequel => Frame.passes_entered sequel hawaits'
  obtain ⟨hlike, news, hnews, hstakes⟩ := hs paths ((w.run paths x.lead).enter paths v).1
    ((w.run paths x.lead).enter paths v).2 (enter_advances paths v hb').balanced
    (harrivals ▸ Frame.nodup_arrivals hd')
    (fun a ha => hentered ▸ Frame.clear_of_mem_arrivals hd' hclear (harrivals ▸ ha))
  rw [run_content_of_started hsorted hstarted]
  rw [hentered] at hlike hnews
  refine ⟨fun hlast => ?_, news, fun b sequels hsequels => ?_, fun sequel => ?_⟩
  · obtain ⟨f', outer', hframes', hf, houter⟩ :=
      List.map_eq_cons_iff.1 (hlike (hlast x (List.mem_singleton_self x)))
    have hbehind := Frame.behind_of_outline hstarted hawaits' hf
    exact ⟨f', outer', hframes', houter, hbehind.container, hbehind.count, hbehind.owners, hbehind.aims,
      hbehind.passes⟩
  · rw [hnews b sequels fun depth hd => hsequels depth hd,
      standing_enter sequels paths hframes hawaits' hv, standing_lead hx paths hw hfit, hfront]
    simp only [Frames.lets_cons, hpasses]
  · simp only [hfront, List.flatMap_singleton, ← hpasses]
    have haims : f.aims x.child = Frame.aims x.value.1 { f with name } := rfl
    rw [haims, ← List.filter_filter, hstakes, harrivals, List.filter_filter]
    have hcomm : ∀ s : Stake, (s.passage.hasStarted n &&
        ((Frame.entered x.value.2.text? { f with name }).passes sequel s.owner && s.foreseen n true)) =
          ((Frame.entered x.value.2.text? { f with name }).passes sequel s.owner &&
            (s.passage.hasStarted n && s.foreseen n true)) := fun s => Bool.and_left_comm ..
    simp only [hcomm]
    exact Frame.filter_stakes_arrivals hawaits' sequel x.passage _

/-! ## Several children

The children in front of the place are complete, the next one is watched, and of the others
there is nothing. Put together, this describes the walk behind the last token in front of the
place that belongs to the container. -/

section

variable {xs : List Content} (hnone : ∀ x ∈ xs, x.passage.Sorted ∧ x.passage.hasStarted n = false)

include hnone

theorem front_of_not_started (sequel : Sequel) : sequel.front n xs = sequel := by
  cases xs with
  | nil => rfl
  | cons x xs => exact Sequel.front_cons_of_not_started (hnone x List.mem_cons_self).2

theorem filter_stakes_of_not_started (arrivals : Content → List Arrival) (q : Stake → Bool) :
    ((xs.flatMap fun x => x.passage.stakes (arrivals x)).filter fun s =>
      s.passage.hasStarted n && q s) = [] := by
  rw [List.filter_eq_nil_iff]
  intro s hs
  obtain ⟨x, hx, hs⟩ := List.mem_flatMap.1 hs
  rw [Passage.hasStarted_of_mem_stakes (hnone x hx).1 (hnone x hx).2 hs, Bool.false_and]
  exact Bool.false_ne_true

/-- Nothing is there of children of which none has started. -/
theorem watchesInside_of_not_started {w' : Walk} (hsame : xs = [] → w' = w)
    (hw : w.frames = f :: outer) (hstanding : ∀ sequels, w'.standing sequels = w.standing sequels) :
    WatchesInside n xs w f outer w' := by
  refine ⟨fun hlast => ?_, [], fun b sequels _ => ?_, fun sequel => ?_⟩
  · cases xs with
    | nil =>
      rw [hsame rfl]
      exact ⟨f, outer, hw, rfl, rfl, rfl, rfl, fun _ => rfl, fun _ _ => rfl⟩
    | cons x xs =>
      obtain ⟨hsorted, hstarted⟩ := hnone x List.mem_cons_self
      exact absurd (Nat.le_trans (Passage.first_stop_le_last_stop hsorted)
        (hlast x List.mem_cons_self)) (of_decide_eq_false hstarted)
  · rw [hstanding, front_of_not_started hnone, Function.update_eq_self]
    exact (List.append_nil _).symm
  · rw [filter_stakes_of_not_started hnone]
    rfl

/-- The children behind one that is not complete have not started. -/
theorem watchesInside_of_lt_last {w' : Walk} (hx : x.passage.hasStarted n = true)
    (hn : n < x.passage.last.stop) (h : WatchesInside n [x] w f outer w') :
    WatchesInside n (x :: xs) w f outer w' := by
  have hfront : ∀ sequel : Sequel, sequel.front n (x :: xs) = sequel.front n [x] := fun sequel => by
    rw [← Sequel.front_front hx, front_of_not_started hnone]
  obtain ⟨news, hnews, hstakes⟩ := h.standing
  refine ⟨fun hlast => ?_, news, ?_, fun sequel => ?_⟩
  · exact absurd (hlast x List.mem_cons_self) (Nat.not_le_of_lt hn)
  · simpa only [hfront] using hnews
  · have hfirst := hstakes sequel
    rw [List.flatMap_singleton] at hfirst
    simp only [hfront]
    rw [hfirst, List.flatMap_cons, List.filter_append, filter_stakes_of_not_started hnone,
      List.append_nil]

end

/-- One child after the other. -/
theorem watchesInside_cons {xs : List Content} {w₁ w₂ : Walk} {f₁ : Frame} {outer₁ : List Frame}
    (hx : x.passage.hasStarted n = true) (h : WatchesInside n [x] w f outer w₁)
    (houter : outer₁.map Frame.outline = outer.map Frame.outline) (hf : f.Behind n [x] f₁)
    (h' : WatchesInside n xs w₁ f₁ outer₁ w₂) : WatchesInside n (x :: xs) w f outer w₂ := by
  have hlength := Frames.length_congr houter
  obtain ⟨news, hnews, hstakes⟩ := h.standing
  obtain ⟨news', hnews', hstakes'⟩ := h'.standing
  refine ⟨fun hlast => ?_, news ++ news', fun b sequels hsequels => ?_, fun sequel => ?_⟩
  · obtain ⟨f₂, outer₂, hframes, houter', hf'⟩ :=
      h'.frames fun y hy => hlast y (List.mem_cons_of_mem x hy)
    exact ⟨f₂, outer₂, hframes, houter'.trans houter, hf.cons hx hf'⟩
  · rw [hlength] at hnews'
    have hinside : ∀ depth < outer.length, Function.update sequels outer.length
        ((sequels outer.length).front n xs) depth = sequels depth := fun depth hd =>
      Function.update_of_ne (Nat.ne_of_lt hd) ..
    have habove : ∀ depth, outer.length < depth → Function.update sequels outer.length
        ((sequels outer.length).front n xs) depth = .const b := fun depth hd =>
      (Function.update_of_ne (Nat.ne_of_gt hd) ..).trans (hsequels depth hd)
    rw [hnews' b sequels hsequels, hnews b _ habove, List.map_append, List.append_assoc]
    simp only [Function.update_self, Function.update_idem, Sequel.front_front hx, hf.passes,
      Frames.lets_congr hinside, Frames.lets_like houter]
  · have hfirst := hstakes (sequel.front n xs)
    have hlater := hstakes' sequel
    simp only [Sequel.front_front hx, List.flatMap_singleton] at hfirst
    simp only [hf.passes, hf.aims, Sequel.front_front hx] at hlater
    rw [List.filter_append, hfirst, hlater, List.flatMap_cons, List.filter_append]

/-- Behind a token of one child that is not there, nothing is there of the others. -/
theorem nothing_behind {xs : List Content}
    (hsorted : Lexed.Sorted (x.tokens ++ xs.flatMap Content.tokens)) {l : Lexed} (hl : l ∈ x.tokens)
    (hn : n < l.stop) : Lexed.upTo n (xs.flatMap Content.tokens) = [] ∧
      ∀ y ∈ xs, y.passage.Sorted ∧ y.passage.hasStarted n = false := by
  obtain ⟨-, hlater, hbefore⟩ := List.pairwise_append.1 hsorted
  have hall : ∀ y ∈ xs, ∀ l' ∈ y.tokens, n < l'.stop := fun y hy l' hl' =>
    Nat.lt_trans hn (hbefore l hl l' (List.mem_flatMap_of_mem hy hl')).2
  refine ⟨Passage.upTo_tokens_later hall, fun y hy => ⟨?_, ?_⟩⟩
  · exact ((List.pairwise_flatMap.1 hlater).1 y hy).sublist (List.sublist_append_right ..)
  · exact decide_eq_false (Nat.not_le_of_lt (Passage.lt_first_later hall hy))

/-- Several children, one after the other, up to a place. The induction is on the list of children
that are left. -/
theorem watches_contents {xs : List Content} (hxs : xs ⊆ p.contents)
    (hsorted : Lexed.Sorted (xs.flatMap Content.tokens))
    (hs : ∀ x ∈ xs, x.passage.hasStarted n = true → Watching n x.passage) (paths : List Path)
    (hb : w.Balanced) (hw : w.frames = f :: outer) (hd : f.Distinct)
    (hclear : ∀ owner ∈ f.trails.map (·.owner), Frames.Clear outer owner)
    (hfit : Child.Fit f.container f.count (xs.map Content.value)) :
    WatchesInside n xs w f outer (w.run paths (Lexed.upTo n (xs.flatMap Content.tokens))) := by
  induction xs generalizing w f outer with
  | nil =>
    exact watchesInside_of_not_started (fun x hx => absurd hx List.not_mem_nil) (fun _ => rfl) hw
      fun _ => rfl
  | cons x xs ih =>
    rw [List.flatMap_cons] at hsorted
    obtain ⟨hfirst, hlater, -⟩ := List.pairwise_append.1 hsorted
    have hx : x ∈ p.contents := hxs List.mem_cons_self
    have hpassage : x.passage.Sorted := hfirst.sublist (List.sublist_append_right ..)
    rw [List.flatMap_cons, Lexed.upTo_append, run_append]
    cases hstarted : x.passage.hasStarted n with
    | true =>
      have hchild := watches_content hx hfirst (hs x List.mem_cons_self hstarted) hstarted paths hb hw hd
        (fun t ht => hclear _ (List.mem_map_of_mem ht)) hfit
      by_cases hlast : x.passage.last.stop ≤ n
      · obtain ⟨f₁, outer₁, hframes, houter, hf⟩ :=
          hchild.frames fun y hy => List.mem_singleton.1 hy ▸ hlast
        refine watchesInside_cons hstarted hchild houter hf ?_
        refine ih (fun y hy => hxs (List.mem_cons_of_mem x hy)) hlater
          (fun y hy => hs y (List.mem_cons_of_mem x hy)) (run_advances paths _ hb).balanced hframes
          (by rw [Frame.Distinct, hf.owners]; exact hd)
          (fun owner ho => (Frames.clear_congr houter).2 (hclear owner (hf.owners ▸ ho))) ?_
        rw [hf.container, hf.count]
        exact hfit.2
      · have hlt := Nat.lt_of_not_le hlast
        obtain ⟨hnothing, hnone⟩ :=
          nothing_behind hsorted (List.mem_append_right _ x.passage.last_mem_tokens) hlt
        rw [hnothing]
        exact watchesInside_of_lt_last hnone hstarted hlt hchild
    | false =>
      have hlt := Nat.lt_of_not_le (of_decide_eq_false hstarted)
      obtain ⟨hnothing, hnone⟩ :=
        nothing_behind hsorted (List.mem_append_right _ x.passage.first_mem_tokens) hlt
      rw [hnothing]
      refine watchesInside_of_not_started
        (List.forall_mem_cons.2 ⟨⟨hpassage, hstarted⟩, hnone⟩) (fun hnil => by cases hnil) hw
        fun sequels => ?_
      exact standing_run_lead hx hpassage hstarted paths hw hfit sequels

end

end Walk

end JsonExtract
