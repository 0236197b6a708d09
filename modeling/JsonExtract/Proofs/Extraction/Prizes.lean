import JsonExtract.Proofs.Extraction.Levels
import JsonExtract.Proofs.Extraction.SlotProspects
import Mathlib.Data.List.Basic

/-!
# What paths win

The slots that paths win in a value, place by place, by the levels they have left. The arrivals at a
value win what their marks on the value ask for; below that, they win what the leads into the value
win in its children, and these are the arrivals at the children.

* `Arrival.prizes`, `Lead.prizes` — what a path wins at one place in a value, and in a child;
* `Arrival.complete_prospects` — what arrivals win at the value itself;
* `Arrival.prizes_cons` — what they win below, by their leads;
* `Frame.prizes_arrivals` — what leads win in a child, by the arrivals at the child.
-/

namespace JsonExtract

/-- The prospect of a complete slot for the value at a place. -/
def Way.prospect (owner : Nat) (path : String) (route : Route) (place : Way × Tree) : Prospect :=
  ⟨owner, path, place.2.kind, route ++ place.1.route, some place.2.text⟩

/-- What an arrival at a value wins at a place in it. It wins the same slot as often as its levels
ask for the value at the place. -/
def Arrival.prizes (route : Route) (t : Tree) (place : Way × Tree) (a : Arrival) : List Prospect :=
  List.replicate (Level.hits (a.level :: a.below) t place.1) (Way.prospect a.owner a.path route place)

/-- What a lead wins at a place in a child. -/
def Lead.prizes (route : Route) (c : Child × Tree) (place : Way × Tree) (l : Lead) : List Prospect :=
  List.replicate (Level.hitsBelow l.below c place.1)
    (Way.prospect l.owner l.path route (c :: place.1, place.2))

/-! ## The value itself

The marks on a level are gone through in order, and a mark wins if the guards in front of it
hold in the end. What the guards come to is computed from the sequel of the value, which is made
of all its members. -/

theorem flatMap_ite_singleton {α β : Type} (p : α → Bool) (y : β) (xs : List α) :
    (xs.flatMap fun x => if p x then [y] else []) = List.replicate (xs.countP p) y := by
  induction xs with
  | nil => rfl
  | cons x xs ih =>
    rw [List.flatMap_cons, ih, List.countP_cons]
    split <;> simp [List.replicate_succ]

theorem flatMap_filter_eq {α β : Type} (p : α → Bool) (f : α → List β) (xs : List α) :
    (xs.filter p).flatMap f = xs.flatMap fun x => if p x then f x else [] := by
  induction xs with
  | nil => rfl
  | cons x xs ih =>
    rw [List.filter_cons, List.flatMap_cons, ← ih]
    split <;> rfl

theorem flatMap_filterMap_eq {α β γ : Type} (f : α → Option β) (g : β → List γ) (xs : List α) :
    (xs.filterMap f).flatMap g = xs.flatMap fun x => (f x).toList.flatMap g := by
  induction xs with
  | nil => rfl
  | cons x xs ih =>
    rw [List.filterMap_cons, List.flatMap_cons, ← ih]
    cases f x <;> simp

namespace Arrival

variable {frames : List Frame} {sequels : List Sequel} {t : Tree} {start stop : Nat}

/-- What a mark adds is won if all filters in front of it hold in the end. -/
theorem filterMap_prospectsAt (sequel : Sequel) (sequels : List Sequel) (frames : List Frame)
    (v : Value) (own : List Check) (a : Arrival) :
    (a.prospectsAt sequel sequels frames v own).filterMap id =
      if Frames.pass frames sequels a.owner && own.all (·.outcome sequel) && sequel.ends then
        [⟨a.owner, a.path, v.kind, Frames.route frames, none⟩]
      else [] := by
  rw [prospectsAt]
  split
  -- no slot is added where a filter has failed, and none would have won
  · next hfailed =>
    obtain ⟨c, hc, hf⟩ := List.any_eq_true.1 hfailed
    have hlost : own.all (·.outcome sequel) = false :=
      List.all_eq_false.2 ⟨c, hc, by simp [c.outcome_of_isFailed sequel hf]⟩
    rw [hlost, Bool.and_false]
    rfl
  · split <;> rfl

/-- The filters on a value hold in the end if the value passes them. -/
theorem all_outcome_take (t : Tree) (start stop : Nat) (a : Arrival) (count : Nat) :
    ((a.trail (t.value start stop)).checks.take count).all (·.outcome (.ofMembers t.members)) =
      (a.level.guards.take count).all (·.filter.holds t) := by
  rw [trail, ← List.map_take, List.all_map]
  exact congrArg (List.all _) (funext fun g => Check.outcome_start_ofMembers t g.filter)

/-- What arrivals win at the value itself, once its text is complete. Filters outside of the value
have to come out well, too. -/
theorem complete_prospects (arrivals : List Arrival) :
    ((arrivals.flatMap (prospects (.ofMembers t.members) sequels frames
        (t.value start stop))).filterMap id).map (Prospect.complete t.text) =
      (arrivals.filter fun a => Frames.pass frames sequels a.owner).flatMap
        (prizes (Frames.route frames) t ([], t)) := by
  rw [List.filterMap_flatMap, List.map_flatMap, flatMap_filter_eq]
  refine List.flatMap_congr fun a _ => ?_
  simp only [prospects, List.filterMap_flatMap, filterMap_prospectsAt, all_outcome_take,
    List.map_flatMap]
  split
  · next hpass =>
    rw [prizes, Level.hits, ← flatMap_ite_singleton]
    refine List.flatMap_congr fun count _ => ?_
    rw [hpass, Bool.true_and, Sequel.ofMembers, Bool.and_true]
    split
    · simp [Prospect.complete, Way.prospect, Way.route, Tree.value]
    · rfl
  · next hpass => simp [hpass]

/-! ## Children

Below the value, an arrival goes on as a lead, with the outcome of all filters on the value.
What the lead wins at a place is what the arrival wins there with one step more. -/

/-- The lead of an arrival into its value. -/
def lead (t : Tree) (a : Arrival) : Lead :=
  ⟨a.owner, a.path, a.below, a.level.guards.all (·.filter.holds t)⟩

/-- What arrivals win below the value, their leads win in its children. The order of arrivals is
kept, so prizes are in the order of slots. -/
theorem prizes_cons (arrivals : List Arrival) (route : Route) (c : Child × Tree)
    (place : Way × Tree) :
    (((arrivals.map (lead t)).filter fun l => l.passes && Frames.pass frames sequels l.owner).flatMap
        (Lead.prizes route c place)) =
      (arrivals.filter fun a => Frames.pass frames sequels a.owner).flatMap
        (prizes route t (c :: place.1, place.2)) := by
  rw [flatMap_filter_eq, flatMap_filter_eq, List.flatMap_map]
  apply List.flatMap_congr
  intro a _
  rw [prizes, Level.hits_cons, Lead.prizes, lead]
  cases a.level.guards.all (·.filter.holds t) <;> cases Frames.pass frames sequels a.owner <;> simp

end Arrival

/-! ## Entering a child

The leads of a frame are about all children; the arrivals at a child are computed from the
trails in the state in which the child finds them. A trail that is blocked at that time has a
filter that does not hold in the end, so its lead wins nothing, and the others have arrivals
that win the same. -/

/-- What is left of a list keeps its order. -/
theorem sublist_map_filterMap {α β γ : Type} {pick : α → Option β} {key : α → γ} {key' : β → γ}
    (h : ∀ x y, pick x = some y → key' y = key x) (xs : List α) :
    ((xs.filterMap pick).map key').Sublist (xs.map key) := by
  induction xs with
  | nil => exact .slnil
  | cons x xs ih =>
    rw [List.filterMap_cons, List.map_cons]
    cases hx : pick x with
    | none => exact ih.cons _
    | some y =>
      rw [List.map_cons, h x y hx]
      exact ih.cons_cons _

theorem filter_eq_singleton {α β : Type} [DecidableEq β] {key : α → β} {xs : List α} {x : α}
    (hx : x ∈ xs) (h : (xs.map key).Nodup) : (xs.filter fun y => key y = key x) = [x] := by
  induction xs with
  | nil => cases hx
  | cons y ys ih =>
    rw [List.map_cons, List.nodup_cons] at h
    rcases List.mem_cons.1 hx with rfl | hx
    · rw [List.filter_cons, if_pos (decide_eq_true rfl), List.filter_eq_nil_iff.2]
      intro z hz
      simp only [decide_eq_true_eq]
      exact fun he => h.1 (he ▸ List.mem_map_of_mem hz)
    · have hne : key y ≠ key x := fun he => h.1 (he ▸ List.mem_map_of_mem hx)
      rw [List.filter_cons, if_neg (by simpa using hne), ih hx h.2]

namespace Frame

/-- The frame once a child was entered. -/
def entered (text? : Option Bytes) (f : Frame) : Frame :=
  { f.see text? with count := f.count + 1 }

/-- The arrivals at a child. -/
def arrivals (text? : Option Bytes) (f : Frame) : List Arrival :=
  (f.see text?).trails.filterMap (·.arrival? f.child)

/-- A path leads into a container at most once. Then the filters of a path on the container are
those of its one trail. -/
def Distinct (f : Frame) : Prop :=
  (f.trails.map (·.owner)).Nodup

variable {f : Frame} {text? : Option Bytes} {c : Child × Tree}

theorem owners_leads (sequel : Sequel) (f : Frame) :
    (f.leads sequel).map (·.owner) = f.trails.map (·.owner) := by
  rw [leads, List.map_map]
  rfl

theorem checksOf_of_distinct (h : f.Distinct) {t : Trail} (ht : t ∈ f.trails) :
    f.checksOf t.owner = t.checks := by
  rw [checksOf, filter_eq_singleton ht h, List.flatMap_singleton]

theorem owners_see (text? : Option Bytes) (f : Frame) :
    (f.see text?).trails.map (·.owner) = f.trails.map (·.owner) := by
  rw [see]
  split
  · rw [mapChecks, List.map_map]; rfl
  · rfl

theorem container_entered (text? : Option Bytes) (f : Frame) :
    (f.entered text?).container = f.container := by
  rw [entered, see]
  split <;> rfl

theorem recording?_entered (text? : Option Bytes) (f : Frame) :
    (f.entered text?).recording? = f.recording? := by
  rw [entered, see]
  split <;> rfl

/-- A child makes true what its sequel says of the paths that pass. -/
theorem passes_entered (sequel : Sequel) (hc : f.Awaits c) (owner : Nat) :
    (f.entered c.2.text?).passes sequel owner = f.passes (sequel.behind c) owner :=
  passes_see sequel hc owner

theorem distinct_entered (h : f.Distinct) : (f.entered text?).Distinct := by
  rw [Distinct, entered, owners_see]
  exact h

end Frame

namespace Trail

/-- A trail that is not blocked leads to the children that its next level selects. -/
theorem arrival?_eq_some_iff {child : Child} {t : Trail} {a : Arrival} :
    t.arrival? child = some a ↔
      ∃ level below, t.below = level :: below ∧ t.isBlocked = false ∧
        level.selector.selects child = true ∧ a = ⟨t.owner, t.path, level, below⟩ := by
  rw [arrival?]
  cases t.below with
  | nil => simp
  | cons level below =>
    simp only [List.cons.injEq]
    split
    · next hs =>
      rw [Bool.and_eq_true, Bool.not_eq_true'] at hs
      constructor
      · intro h
        cases h
        exact ⟨_, _, ⟨rfl, rfl⟩, hs.1, hs.2, rfl⟩
      · rintro ⟨_, _, ⟨rfl, rfl⟩, _, _, rfl⟩
        rfl
    · next hs =>
      constructor
      · intro h
        cases h
      · rintro ⟨_, _, ⟨rfl, rfl⟩, hblocked, hselects, _⟩
        simp [hblocked, hselects] at hs

/-- A blocked trail has a filter that does not hold in the end. -/
theorem isBlocked_of_all_outcome {sequel : Sequel} {t : Trail}
    (h : t.checks.all (·.outcome sequel) = true) : t.isBlocked = false := by
  rw [isBlocked, List.any_eq_false]
  intro c hc hf
  have ho := List.all_eq_true.1 h c hc
  rw [c.outcome_of_isFailed sequel hf] at ho
  cases ho

/-- An open trail that does not lead to a child asks for nothing there. -/
theorem hitsBelow_of_arrival?_eq_none {c : Child × Tree} {t : Trail} {way : Way}
    (h : t.arrival? c.1 = none) (hopen : t.isBlocked = false) :
    Level.hitsBelow t.below c way = 0 := by
  rw [Level.hitsBelow]
  cases hb : t.below with
  | nil => rfl
  | cons level below =>
    have hs : level.selector.selects c.1 = false := by
      simpa [arrival?, hb, hopen] using h
    rw [List.head?_cons, Option.any_some, hs]
    rfl

/-- A lead that passes wins nothing in a child that its trail does not lead to. -/
theorem prizes_of_arrival?_eq_none {sequel : Sequel} {c : Child × Tree} {t : Trail} (route : Route)
    (place : Way × Tree) (h : t.arrival? c.1 = none) (hp : (t.lead sequel).passes = true) :
    (t.lead sequel).prizes route c place = [] := by
  rw [Lead.prizes, lead, hitsBelow_of_arrival?_eq_none h (isBlocked_of_all_outcome hp),
    List.replicate_zero]

end Trail

namespace Frame

variable {f : Frame} {text? : Option Bytes} {c : Child × Tree}

/-- A frame that somebody follows a path into stands at the child that it awaits. -/
theorem child_of_mem_trails (hc : f.Awaits c) {t : Trail} (ht : t ∈ (f.see text?).trails) :
    f.child = c.1 := by
  apply hc.resolve_left
  intro hnone
  have hlen := congrArg List.length (owners_see text? f)
  rw [hnone, List.map_nil, List.length_nil, List.length_map] at hlen
  rw [List.length_eq_zero_iff.1 hlen] at ht
  cases ht

theorem nodup_arrivals (h : f.Distinct) : ((f.arrivals text?).map (·.owner)).Nodup := by
  have howner : ∀ t a, Trail.arrival? f.child t = some a → a.owner = t.owner := by
    intro t a ha
    obtain ⟨_, _, _, _, _, rfl⟩ := Trail.arrival?_eq_some_iff.1 ha
    rfl
  refine (sublist_map_filterMap howner _).nodup ?_
  rw [owners_see]
  exact h

/-- No filter on the way to a child has failed so far. -/
theorem clear_of_mem_arrivals {outer : List Frame} (h : f.Distinct)
    (hclear : ∀ t ∈ f.trails, Frames.Clear outer t.owner) {a : Arrival}
    (ha : a ∈ f.arrivals text?) : Frames.Clear (f.entered text? :: outer) a.owner := by
  obtain ⟨t, ht, ha⟩ := List.mem_filterMap.1 ha
  obtain ⟨_, _, _, hblocked, _, rfl⟩ := Trail.arrival?_eq_some_iff.1 ha
  refine List.forall_mem_cons.2 ⟨?_, ?_⟩
  · have hchecks : (f.entered text?).checksOf t.owner = t.checks :=
      checksOf_of_distinct (distinct_entered h) ht
    rw [hchecks]
    simpa [Trail.isBlocked] using hblocked
  · obtain ⟨t', ht', ho⟩ := List.mem_map.1 (owners_see text? f ▸ List.mem_map_of_mem ht)
    exact ho ▸ hclear t' ht'

/-- The step to a child is the last of the route. -/
theorem route_entered (outer : List Frame) (hc : f.child = c.1) (place : Way × Tree) :
    Frames.route (f.entered text? :: outer) ++ place.1.route =
      Frames.route outer ++ Way.route (c :: place.1) := by
  have hstep : (f.entered text?).step = c.1.step := by
    rw [← hc, step, child, entered, see]
    cases hcon : f.container with
    | object => simp [hcon, mapChecks, Child.step]
    | array => simp [hcon, Child.step]
  rw [Frames.route, Frames.route, List.map_cons, List.reverse_cons, hstep, Way.route, Way.route,
    List.map_cons, List.append_assoc]
  rfl

/-- What the leads into a container win in a child, the arrivals at the child win. This is the
step from a container to its child in the induction over values. -/
theorem prizes_arrivals {sequel : Sequel} {sequels : List Sequel} {outer : List Frame}
    (h : f.Distinct) (hc : f.Awaits c) (place : Way × Tree) :
    ((f.arrivals c.2.text?).filter fun a =>
        Frames.pass (f.entered c.2.text? :: outer) (sequel :: sequels) a.owner).flatMap
        (Arrival.prizes (Frames.route (f.entered c.2.text? :: outer)) c.2 place) =
      (((f.leads (sequel.behind c)).filter fun l =>
        l.passes && Frames.pass outer sequels l.owner).flatMap
          (Lead.prizes (Frames.route outer) c place)) := by
  rw [← leads_see sequel hc, flatMap_filter_eq, flatMap_filter_eq, leads, List.flatMap_map,
    arrivals, flatMap_filterMap_eq]
  refine List.flatMap_congr fun t ht => ?_
  have hchild := child_of_mem_trails hc ht
  have hpasses : (f.entered c.2.text?).passes sequel t.owner = (t.lead sequel).passes := by
    rw [passes, checksOf_of_distinct (distinct_entered h) ht]
    rfl
  have hpass : Frames.pass (f.entered c.2.text? :: outer) (sequel :: sequels) t.owner =
      ((t.lead sequel).passes && Frames.pass outer sequels t.owner) := by
    rw [Frames.pass_cons, hpasses]
  -- a trail without an arrival is blocked, and does not pass, or selects another child
  cases ha : t.arrival? f.child with
  | some a =>
    obtain ⟨level, below, hbelow, _, hselects, rfl⟩ := Trail.arrival?_eq_some_iff.1 ha
    rw [Option.toList_some, List.flatMap_singleton]
    simp only [hpass]
    refine ite_congr rfl (fun _ => ?_) fun _ => rfl
    rw [Arrival.prizes, Lead.prizes, Level.hitsBelow, Trail.lead, hbelow, List.head?_cons,
      Option.any_some, ← hchild, hselects, if_pos rfl, Way.prospect, Way.prospect,
      route_entered outer hchild]
  | none =>
    rw [Option.toList_none, List.flatMap_nil]
    split
    · next hwin =>
      rw [Bool.and_eq_true] at hwin
      rw [Trail.prizes_of_arrival?_eq_none _ _ (hchild ▸ ha) hwin.1]
    · rfl

end Frame

end JsonExtract
