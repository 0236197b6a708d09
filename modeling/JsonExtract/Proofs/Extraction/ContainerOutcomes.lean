import JsonExtract.Proofs.Extraction.FilterOutcomes

/-!
# The outcomes of containers

What an open container does to the slots inside of it is known under a sequel: it loses the slots that
wait for a filter on it that will fail, and those that wait for its text if it is never closed. It lets
a path pass if all filters of the path on it hold in the end.

A child makes true what its sequel says, here too. A slot that starts to wait for the filters of a path
is lost by the container just if the container does not let the path pass, as long as none of these
filters has failed so far. A walk never looks behind a filter that has failed, so that is given.

* `Frame.lost`, `Frame.passes` — the slots that a container loses, and the paths that pass it;
* `Frame.leads`, `Frame.leads_see` — what the paths into a container mean for its children;
* `Frames.lost`, `Frames.pass`, `Frames.Clear` — the same for all open containers at once;
* `Frames.mem_lost_await` — the slots that are lost once a new one waits.
-/

namespace JsonExtract

/-! ## One container -/

namespace Frame

/-- The slots that a container loses: those that wait for a filter that will fail, and those that wait
for the text of a container that is never closed. -/
def lost (sequel : Sequel) (f : Frame) : List Nat :=
  f.checks.flatMap (Check.lost sequel) ++ if sequel.ends then [] else f.recorded

/-- Whether the filters of a path on a container hold in the end. -/
def passes (sequel : Sequel) (owner : Nat) (f : Frame) : Bool :=
  (f.checksOf owner).all (·.outcome sequel)

theorem checksOf_outline (owner : Nat) (f : Frame) :
    f.outline.checksOf owner = (f.checksOf owner).map Check.outline := by
  simp only [checksOf, outline, List.filter_map, List.flatMap_map, List.map_flatMap]
  rfl

theorem passes_outline (sequel : Sequel) (owner : Nat) (f : Frame) :
    f.outline.passes sequel owner = f.passes sequel owner := by
  rw [passes, passes, checksOf_outline, Check.all_outcome_outline]

theorem lost_subset {sequel : Sequel} {f : Frame} {i : Nat} (h : i ∈ f.lost sequel) :
    i ∈ f.queue ∨ i ∈ f.recorded := by
  rw [lost, List.mem_append] at h
  refine h.imp (Check.mem_queues_of_lost sequel) fun hi => ?_
  split at hi
  · cases hi
  · exact hi

/-- The end of a container refuses the slots that still wait for filters on it. -/
theorem lost_closed (f : Frame) : f.lost .closed = f.queue := by
  rw [lost, funext Check.lost_closed]
  exact List.append_nil _

/-- A slot that starts to wait for the filters of a path is lost if they do not let the path pass. -/
theorem mem_lost_await (sequel : Sequel) (owner number i : Nat) {f : Frame}
    (h : ∀ c ∈ f.checksOf owner, c.isFailed = false) :
    i ∈ (f.await owner number).lost sequel ↔
      i ∈ f.lost sequel ∨ i = number ∧ f.passes sequel owner = false := by
  have hrecorded : (f.await owner number).recorded = f.recorded := rfl
  have hchecks : i ∈ (f.await owner number).checks.flatMap (Check.lost sequel) ↔
      i ∈ f.checks.flatMap (Check.lost sequel) ∨ i = number ∧ f.passes sequel owner = false := by
    simp only [passes, checks, checksOf, await, List.flatMap_map] at h ⊢
    generalize f.trails = trails at h
    induction trails with
    | nil => simp
    | cons t ts ih =>
      by_cases ho : t.owner = owner
      · simp only [List.filter_cons, ho, decide_true, if_true, List.flatMap_cons] at h ih ⊢
        rw [List.forall_mem_append] at h
        simp only [List.flatMap_append, List.mem_append, List.all_append]
        rw [ih h.2, Check.mem_lost_map_await sequel number i h.1, Bool.and_eq_false_iff]
        grind
      · simp only [List.filter_cons, ho, decide_false, Bool.false_eq_true, if_false,
          List.flatMap_cons, List.flatMap_append, List.mem_append] at h ih ⊢
        rw [ih h, or_assoc]
  rw [lost, lost, hrecorded, List.mem_append, List.mem_append, hchecks]
  grind

end Frame

/-! ### Leads

Of a path that leads into a container, its children only need to know which levels it has left, and
whether the filters on the container let it pass. -/

/-- A path that leads into a container, as far as its children are concerned. -/
structure Lead where
  /-- the number of the path in its session -/
  owner : Nat
  /-- the text of the path -/
  path : String
  /-- the levels of the path below the container -/
  below : List Level
  /-- whether all filters on the container hold in the end -/
  passes : Bool
  deriving DecidableEq, Repr

/-- What a trail means for the children. -/
def Trail.lead (sequel : Sequel) (t : Trail) : Lead :=
  ⟨t.owner, t.path, t.below, t.checks.all (·.outcome sequel)⟩

namespace Frame

/-- What the trails into a container mean for its children. -/
def leads (sequel : Sequel) (f : Frame) : List Lead :=
  f.trails.map (Trail.lead sequel)

theorem leads_outline (sequel : Sequel) (f : Frame) : f.outline.leads sequel = f.leads sequel := by
  rw [leads, leads, outline, List.map_map]
  refine List.map_congr_left fun t _ => ?_
  rw [Function.comp_apply, Trail.lead, Trail.lead, Trail.outline, Check.all_outcome_outline]

/-! ### Children

A child is seen by a frame that stands in front of it. A frame that nobody follows a path into does not
keep track of names, so it may stand anywhere; it has no filters either. -/

/-- A child stands where the frame says, unless nobody asks. -/
def Awaits (c : Child × Tree) (f : Frame) : Prop :=
  f.trails = [] ∨ f.child = c.1

/-- A frame stands in front of the child that its container asks for. -/
theorem child_cases {f : Frame} {c : Child × Tree} (h : f.child = c.1) :
    f.container = .object ∧ c.1 = .member f.name ∨ f.container = .array ∧ c.1 = .element f.count := by
  rw [child] at h
  cases hc : f.container with
  | object => rw [hc] at h; exact .inl ⟨rfl, h.symm⟩
  | array => rw [hc] at h; exact .inr ⟨rfl, h.symm⟩

variable {f : Frame} {c : Child × Tree} (sequel : Sequel) (h : f.Awaits c)

include h

/-- A child makes true what its sequel says of the trails. -/
theorem leads_see : (f.see c.2.text?).leads sequel = f.leads (sequel.behind c) := by
  rcases h with hnone | hchild
  · cases hc : f.container <;> simp [leads, see, mapChecks, hnone, hc]
  · rcases child_cases hchild with ⟨hc, hm⟩ | ⟨hc, hm⟩
    · simp only [leads, see, hc, mapChecks, List.map_map, Sequel.behind, hm]
      refine List.map_congr_left fun t _ => ?_
      simp only [Function.comp_def, Trail.lead, List.all_map, Check.outcome_see]
    · simp only [leads, see, hc, Sequel.behind, hm]

/-- A child makes true what its sequel says of the paths that pass. -/
theorem passes_see (owner : Nat) :
    (f.see c.2.text?).passes sequel owner = f.passes (sequel.behind c) owner := by
  rcases h with hnone | hchild
  · cases hc : f.container <;> simp [passes, checksOf, see, mapChecks, hnone, hc]
  · rcases child_cases hchild with ⟨hc, hm⟩ | ⟨hc, hm⟩
    · have hchecks : (f.see c.2.text?).checksOf owner =
          (f.checksOf owner).map (·.see f.name c.2.text?) := by
        simp only [checksOf, see, hc, mapChecks, List.filter_map, List.flatMap_map, List.map_flatMap]
        rfl
      rw [passes, passes, hchecks, List.all_map, Sequel.behind, hm]
      exact congrArg (List.all _) (funext fun d => d.outcome_see sequel f.name c.2.text?)
    · simp only [passes, checksOf, see, hc, Sequel.behind, hm]

/-- The slots that a child refuses were lost under its sequel. -/
theorem mem_lost_child (i : Nat) :
    i ∈ f.lost (sequel.behind c) ↔
      i ∈ Ruling.refused (f.rulings c.2.text?) ∨ i ∈ (f.see c.2.text?).lost sequel := by
  have hrecorded : (f.see c.2.text?).recorded = f.recorded := by
    rw [recorded, recorded, see]
    split <;> rfl
  rw [lost, lost, hrecorded, Sequel.ends_behind, List.mem_append, List.mem_append, ← or_assoc]
  refine or_congr ?_ Iff.rfl
  rcases h with hnone | hchild
  · cases hc : f.container <;> simp [checks, rulings, see, mapChecks, hnone, hc, Ruling.refused]
  · rcases child_cases hchild with ⟨hc, hm⟩ | ⟨hc, hm⟩
    · rw [checks_see_object f hc, rulings, hc, Sequel.behind, hm]
      simp only [List.mem_flatMap, List.mem_map, Check.mem_lost_member, Ruling.refused]
      constructor
      · rintro ⟨d, hd, ⟨r, hr, hi⟩ | hi⟩
        · exact .inl ⟨r, ⟨d, hd, hr⟩, hi⟩
        · exact .inr ⟨_, ⟨d, hd, rfl⟩, hi⟩
      · rintro (⟨r, ⟨d, hd, hr⟩, hi⟩ | ⟨_, ⟨d, hd, rfl⟩, hi⟩)
        · exact ⟨d, hd, .inl ⟨r, hr, hi⟩⟩
        · exact ⟨d, hd, .inr hi⟩
    · simp [rulings, see, hc, Sequel.behind, hm, Ruling.refused]

end Frame

/-! ## All open containers

Each open container goes with a sequel of its own, the innermost one first. -/

namespace Frames

/-- The slots that the open containers lose. -/
def lost (frames : List Frame) (sequels : List Sequel) : List Nat :=
  (frames.zip sequels).flatMap fun open' => open'.1.lost open'.2

/-- Whether all filters of a path on the open containers hold in the end. -/
def pass (frames : List Frame) (sequels : List Sequel) (owner : Nat) : Bool :=
  (frames.zip sequels).all fun open' => open'.1.passes open'.2 owner

/-- No filter of a path on the open containers has failed so far. -/
def Clear (frames : List Frame) (owner : Nat) : Prop :=
  ∀ f ∈ frames, ∀ c ∈ f.checksOf owner, c.isFailed = false

@[simp]
theorem lost_cons (f : Frame) (outer : List Frame) (sequel : Sequel) (sequels : List Sequel) :
    lost (f :: outer) (sequel :: sequels) = f.lost sequel ++ lost outer sequels := by
  rw [lost, List.zip_cons_cons, List.flatMap_cons]
  rfl

@[simp]
theorem pass_cons (f : Frame) (outer : List Frame) (sequel : Sequel) (sequels : List Sequel)
    (owner : Nat) :
    pass (f :: outer) (sequel :: sequels) owner =
      (f.passes sequel owner && pass outer sequels owner) := by
  rw [pass, List.zip_cons_cons, List.all_cons]
  rfl

variable {frames frames' : List Frame} (sequels : List Sequel) (owner : Nat)

theorem pass_outline :
    pass (frames.map Frame.outline) sequels owner = pass frames sequels owner := by
  rw [pass, pass, List.zip_map_left, List.all_map]
  simp only [Function.comp_def, Prod.map_fst, Prod.map_snd, Frame.passes_outline, id]

theorem pass_congr (h : frames'.map Frame.outline = frames.map Frame.outline) :
    pass frames' sequels owner = pass frames sequels owner := by
  rw [← pass_outline, h, pass_outline]

variable {owner}

theorem clear_outline : Clear (frames.map Frame.outline) owner ↔ Clear frames owner := by
  simp only [Clear, List.forall_mem_map, Frame.checksOf_outline, Check.isFailed_outline]

theorem clear_congr (h : frames'.map Frame.outline = frames.map Frame.outline) :
    Clear frames' owner ↔ Clear frames owner := by
  rw [← clear_outline, h, clear_outline]

theorem length_congr (h : frames'.map Frame.outline = frames.map Frame.outline) :
    frames'.length = frames.length := by
  simpa using congrArg List.length h

/-- A new slot of a path is lost if the open containers do not let the path pass. -/
theorem mem_lost_await (number i : Nat) (h : Clear frames owner) :
    i ∈ lost (frames.map (·.await owner number)) sequels ↔
      i ∈ lost frames sequels ∨ i = number ∧ pass frames sequels owner = false := by
  induction frames generalizing sequels with
  | nil => simp [lost, pass]
  | cons f outer ih =>
    cases sequels with
    | nil => simp [lost, pass]
    | cons sequel sequels =>
      rw [Clear, List.forall_mem_cons] at h
      rw [List.map_cons, lost_cons, lost_cons, pass_cons, List.mem_append, List.mem_append,
        ih sequels h.2, Frame.mem_lost_await sequel owner number i h.1, Bool.and_eq_false_iff]
      grind

theorem lost_subset {sequels : List Sequel} {i : Nat} (h : i ∈ lost frames sequels) :
    i ∈ frames.flatMap Frame.queue ∨ i ∈ frames.flatMap Frame.recorded := by
  obtain ⟨⟨f, sequel⟩, hf, hi⟩ := List.mem_flatMap.1 h
  have hmem : f ∈ frames := (List.of_mem_zip hf).1
  exact (Frame.lost_subset hi).imp (List.mem_flatMap_of_mem hmem) (List.mem_flatMap_of_mem hmem)

/-! ### The way to a value -/

/-- The route to a value that stands in the open containers. -/
def route (frames : List Frame) : Route :=
  (frames.map (·.step)).reverse

theorem route_congr (h : frames'.map Frame.outline = frames.map Frame.outline) :
    route frames' = route frames := by
  have hr : ∀ fs, route (fs.map Frame.outline) = route fs := by
    intro fs
    rw [route, List.map_map]
    rfl
  rw [← hr, h, hr]

end Frames

end JsonExtract
