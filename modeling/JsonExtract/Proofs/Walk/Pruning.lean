import JsonExtract.Proofs.Extraction.Answer

/-!
# Levels that ask for nothing

Levels below the deepest mark of a path only lead to places that nobody asks for. A walk that follows
them keeps more trails and more names, and decides more filters. But no slot waits for any of these
filters, so the walk writes the same tape and has the same slots as one that does not follow them.

* `Path.upTo`, `Trail.upTo?`, `Arrival.upTo?` — what is left when only some levels are kept;
* `Trail.Spares`, `Arrival.Spares` — what is dropped asks for nothing;
* `Walk.Prunes` — a walk that follows all levels beside one that follows those that are kept;
* `Walk.prunes_token` — a token leaves them side by side.
-/

namespace JsonExtract

/-! ## What is left of paths

How many levels are kept is given for each path by a number, so that one path may be cut and
another not. A trail into a container at some depth is dropped altogether when the levels down
to that depth are not kept, and otherwise loses the levels below those that are. What is dropped
has no marks. -/

/-- No level asks for anything. Levels like these can be followed or not, without a difference to
what is given out. -/
def Level.Unmarked (levels : List Level) : Prop :=
  ∀ level ∈ levels, level.marks = []

/-- A path that is followed down its first `n` levels only. The text of the path stays, as matches
report it. -/
def Path.upTo (n : Nat) (p : Path) : Path :=
  { p with levels := p.levels.take n }

section

/- `kept` is the number of levels of each path that are kept. -/
variable (kept : Nat → Nat) (depth : Nat)

/-- What is left of a trail into a container at some depth. -/
def Trail.upTo? (t : Trail) : Option Trail :=
  if depth < kept t.owner then some { t with below := t.below.take (kept t.owner - (depth + 1)) }
  else none

/-- What is left of an arrival at a value at some depth. -/
def Arrival.upTo? (a : Arrival) : Option Arrival :=
  if depth < kept a.owner then some { a with below := a.below.take (kept a.owner - (depth + 1)) }
  else none

/-- What is dropped of a trail asks for nothing, and no slot waits for its filters if all of it is
dropped. Slots wait for the filters above their marks, so below the deepest mark nobody does. -/
structure Trail.Spares (t : Trail) : Prop where
  below : Level.Unmarked (t.below.drop (kept t.owner - (depth + 1)))
  checks : kept t.owner ≤ depth → ∀ c ∈ t.checks, c.waiting = []

/-- What is dropped of an arrival asks for nothing. -/
def Arrival.Spares (a : Arrival) : Prop :=
  Level.Unmarked ((a.level :: a.below).drop (kept a.owner - depth))

end

section

variable {kept : Nat → Nat} {depth : Nat}

theorem Trail.upTo?_of_lt {t : Trail} (h : depth < kept t.owner) :
    t.upTo? kept depth = some { t with below := t.below.take (kept t.owner - (depth + 1)) } :=
  if_pos h

theorem Trail.upTo?_of_le {t : Trail} (h : kept t.owner ≤ depth) : t.upTo? kept depth = none :=
  if_neg (Nat.not_lt.2 h)

theorem Arrival.upTo?_of_lt {a : Arrival} (h : depth < kept a.owner) :
    a.upTo? kept depth = some { a with below := a.below.take (kept a.owner - (depth + 1)) } :=
  if_pos h

theorem Arrival.upTo?_of_le {a : Arrival} (h : kept a.owner ≤ depth) : a.upTo? kept depth = none :=
  if_neg (Nat.not_lt.2 h)

/-- A trail leads to the same children as what is left of it, as far as they are kept. Either side
may be taken first: cutting the trail and going on to the child, or going on and cutting the
arrival. -/
theorem Trail.arrival?_upTo? (child : Child) (t : Trail) :
    (t.upTo? kept depth).bind (·.arrival? child) =
      (t.arrival? child).bind (·.upTo? kept (depth + 1)) := by
  have hdropped (h : kept t.owner ≤ depth + 1) :
      (t.arrival? child).bind (·.upTo? kept (depth + 1)) = none := by
    rw [Option.bind_eq_none_iff]
    intro a ha
    obtain ⟨level, below, -, -, -, rfl⟩ := arrival?_eq_some_iff.1 ha
    exact Arrival.upTo?_of_le h
  rcases Nat.lt_or_ge depth (kept t.owner) with hdepth | hdepth
  · rw [upTo?_of_lt hdepth, Option.bind_some]
    rcases Nat.lt_or_ge (depth + 1) (kept t.owner) with hnext | hnext
    · -- the next level is the first of those below
      obtain ⟨n, hn⟩ : ∃ n, kept t.owner - (depth + 1) = n + 1 := ⟨kept t.owner - (depth + 2), by omega⟩
      have hn' : kept t.owner - (depth + 1 + 1) = n := by omega
      rw [arrival?, arrival?, hn]
      cases t.below with
      | nil => rfl
      | cons level below =>
        rw [List.take_succ_cons]
        dsimp only
        rw [show ({ t with below := level :: below.take n } : Trail).isBlocked = t.isBlocked from rfl]
        split
        · rw [Option.bind_some, Arrival.upTo?_of_lt hnext, hn']
        · rfl
    · rw [hdropped hnext, show kept t.owner - (depth + 1) = 0 by omega, List.take_zero]
      rfl
  · rw [upTo?_of_le hdepth, hdropped (by omega), Option.bind_none]

theorem Trail.Spares.arrival {child : Child} {t : Trail} {a : Arrival} (h : t.Spares kept depth)
    (ha : t.arrival? child = some a) : a.Spares kept (depth + 1) := by
  obtain ⟨level, below, hbelow, -, -, rfl⟩ := arrival?_eq_some_iff.1 ha
  have hdropped := h.below
  rw [hbelow] at hdropped
  exact hdropped

/-- The trail of an arrival spares what the arrival spares. -/
theorem Arrival.Spares.trail {a : Arrival} (h : a.Spares kept depth) {checks : List Check}
    (hidle : kept a.owner ≤ depth → ∀ c ∈ checks, c.waiting = []) :
    Trail.Spares kept depth ⟨a.owner, a.path, a.below, checks⟩ := by
  refine ⟨fun level hlevel => h level ?_, hidle⟩
  rcases Nat.lt_or_ge depth (kept a.owner) with hdepth | hdepth
  · rwa [show kept a.owner - depth = kept a.owner - (depth + 1) + 1 by omega, List.drop_succ_cons]
  · rw [show kept a.owner - depth = 0 by omega, List.drop_zero]
    exact List.mem_cons_of_mem _ (List.mem_of_mem_drop hlevel)

/-- An arrival that is not kept reserves nothing. -/
theorem Arrival.Spares.marks_eq_nil {a : Arrival} (h : a.Spares kept depth)
    (hdepth : kept a.owner ≤ depth) : a.level.marks = [] := by
  refine h _ ?_
  rw [show kept a.owner - depth = 0 by omega, List.drop_zero]
  exact List.mem_cons_self

end

/-- Paths, beside what is kept of them. What is dropped asks for nothing. -/
structure Paths.Prunes (kept : Nat → Nat) (paths paths' : List Path) : Prop where
  eq : paths' = paths.mapIdx fun owner p => p.upTo (kept owner)
  spares : ∀ (owner : Nat) (p : Path), paths[owner]? = some p → Level.Unmarked (p.levels.drop (kept owner))

namespace Paths.Prunes

variable {kept : Nat → Nat} {paths paths' : List Path}

/-- At the top, what is left of a path arrives if a level is left of it. -/
theorem arrivals_eq (h : Prunes kept paths paths') :
    Walk.arrivals paths' = (Walk.arrivals paths).filterMap (Arrival.upTo? kept 0) := by
  have hzip : paths'.zipIdx = paths.zipIdx.map fun x => (x.1.upTo (kept x.2), x.2) := by
    rw [h.eq]
    apply List.ext_getElem?
    intro owner
    simp only [List.getElem?_zipIdx, List.getElem?_mapIdx, List.getElem?_map, Option.map_map,
      Nat.zero_add]
    rfl
  rw [Walk.arrivals, Walk.arrivals, hzip, List.filterMap_map, List.filterMap_filterMap]
  refine List.filterMap_congr fun x _ => ?_
  obtain ⟨p, owner⟩ := x
  dsimp only [Function.comp_apply]
  rw [Path.arrival?, Path.arrival?, Path.upTo]
  cases p.levels with
  | nil => rw [List.take_nil]; rfl
  | cons level below =>
    cases hn : kept owner with
    | zero => exact (Arrival.upTo?_of_le (Nat.le_of_eq hn)).symm
    | succ n =>
      refine Eq.trans ?_ (Arrival.upTo?_of_lt (by dsimp only; omega)).symm
      simp only [hn, List.take_succ_cons, Nat.zero_add, Nat.add_sub_cancel]

theorem spares_arrivals (h : Prunes kept paths paths') :
    ∀ a ∈ Walk.arrivals paths, a.Spares kept 0 := by
  intro a ha
  obtain ⟨⟨p, owner⟩, hmem, ha⟩ := List.mem_filterMap.1 ha
  have hdropped := h.spares owner p (List.mem_zipIdx_iff_getElem?.1 hmem)
  dsimp only at ha
  rw [Path.arrival?] at ha
  split at ha
  · next hlevels =>
    cases ha
    rwa [hlevels] at hdropped
  · cases ha

end Paths.Prunes

/-! ## Frames

The frame of the pruned walk has fewer trails, so it may have lost all that it knows but the
number of children and the place of its text. That is enough as long as nobody is led there: the
name is needed for routes and selectors only, and the checks of a dropped trail list no slots.
The relation is stated for all open containers together, since a kept path must find the names
of all containers on its way. -/

/-- The numbers of the paths that lead into a container. -/
def Frame.owners (f : Frame) : List Nat :=
  f.trails.map (·.owner)

/-- A path leads into each of several containers. -/
def Frames.Led (owner : Nat) (frames : List Frame) : Prop :=
  ∀ f ∈ frames, owner ∈ f.owners

/-- A frame at some depth, beside the frame of the same container with the trails that are kept.
The name is the same while one of them leads there. The trails that are kept are the same to the
last slot that waits in them. -/
structure Frame.Prunes (kept : Nat → Nat) (depth : Nat) (f f' : Frame) : Prop where
  container : f'.container = f.container
  count : f'.count = f.count
  recording : f'.recording? = f.recording?
  trails : f'.trails = f.trails.filterMap (Trail.upTo? kept depth)
  name : f'.trails = [] ∨ f'.name = f.name
  spares : ∀ t ∈ f.trails, t.Spares kept depth

/-- All frames, beside those with the trails that are kept. A path that leads into a container leads
into all containers around it. -/
def Frames.Prunes (kept : Nat → Nat) : List Frame → List Frame → Prop
  | [], [] => True
  | f :: outer, f' :: outer' =>
    f.Prunes kept outer.length f' ∧ (∀ owner ∈ f.owners, Frames.Led owner outer) ∧
      Prunes kept outer outer'
  | _, _ => False

section

variable {kept : Nat → Nat} {depth : Nat}

/-- Filters that no slot waits for may be left out of a round of rulings. The rule may be the
ruling of a member or that of the end of the container. -/
theorem Trail.foldl_checks {β : Type} (rule : β → Check → β)
    (hidle : ∀ b c, c.waiting = [] → rule b c = b) {trails : List Trail}
    (h : ∀ t ∈ trails, t.Spares kept depth) (b : β) :
    ((trails.filterMap (upTo? kept depth)).flatMap (·.checks)).foldl rule b =
      (trails.flatMap (·.checks)).foldl rule b := by
  induction trails generalizing b with
  | nil => rfl
  | cons t ts ih =>
    obtain ⟨ht, hts⟩ := List.forall_mem_cons.1 h
    rw [List.flatMap_cons, List.foldl_append]
    rcases Nat.lt_or_ge depth (kept t.owner) with hdepth | hdepth
    · rw [List.filterMap_cons_some (upTo?_of_lt hdepth), List.flatMap_cons, List.foldl_append, ih hts]
    · have hunruled : t.checks.foldl rule b = b :=
        List.foldlRecOn t.checks rule (motive := (· = b)) rfl fun b' hb c hc =>
          (hidle b' c (ht.checks hdepth c hc)).trans hb
      rw [List.filterMap_cons_none (upTo?_of_le hdepth), hunruled, ih hts]

namespace Frame.Prunes

variable {f f' : Frame}

theorem decided_eq (h : f.Prunes kept depth f') (text? : Option Bytes) (slots : Slots) :
    f'.decided text? slots = f.decided text? slots := by
  rw [decided, decided, h.container]
  cases f.container with
  | array => rfl
  | object =>
    dsimp only
    have hname : f'.checks.foldl (fun slots c => c.decided f'.name text? slots) slots =
        f'.checks.foldl (fun slots c => c.decided f.name text? slots) slots := by
      rcases h.name with hnone | hname
      · rw [checks, hnone]
        rfl
      · rw [hname]
    rw [hname, checks, h.trails]
    refine Trail.foldl_checks _ (fun b c hc => ?_) h.spares slots
    rw [Check.decided, hc]
    split <;> rfl

theorem closed_eq (h : f.Prunes kept depth f') (slots : Slots) :
    f'.closed slots = f.closed slots := by
  rw [closed, closed, checks, h.trails]
  refine Trail.foldl_checks _ (fun b c hc => ?_) h.spares slots
  rw [Check.closed, hc]
  split <;> rfl

/-- The filters of trails may change. -/
theorem recheck (h : f.Prunes kept depth f') (change : Nat → Check → Check)
    (hidle : ∀ owner c, kept owner ≤ depth → c.waiting = [] → (change owner c).waiting = []) :
    Frame.Prunes kept depth
      { f with trails := f.trails.map fun t => { t with checks := t.checks.map (change t.owner) } }
      { f' with
        trails := f'.trails.map fun t => { t with checks := t.checks.map (change t.owner) } } where
  container := h.container
  count := h.count
  recording := h.recording
  trails := by
    dsimp only
    rw [h.trails, List.map_filterMap, List.filterMap_map]
    refine List.filterMap_congr fun t _ => ?_
    simp only [Trail.upTo?, Function.comp_apply]
    split <;> rfl
  name := h.name.imp_left fun hnone => by rw [hnone]; rfl
  spares := List.forall_mem_map.2 fun t ht =>
    ⟨(h.spares t ht).below, fun hdepth => List.forall_mem_map.2 fun c hc =>
      hidle t.owner c hdepth ((h.spares t ht).checks hdepth c hc)⟩

theorem see (h : f.Prunes kept depth f') (text? : Option Bytes) :
    (f.see text?).Prunes kept depth (f'.see text?) := by
  rw [Frame.see, Frame.see, h.container]
  cases f.container with
  | array => exact h
  | object =>
    have hname : f'.mapChecks (·.see f'.name text?) = f'.mapChecks (·.see f.name text?) := by
      rcases h.name with hnone | hname
      · rw [mapChecks, mapChecks, hnone]
        rfl
      · rw [hname]
    dsimp only
    rw [hname]
    refine h.recheck (fun _ c => c.see f.name text?) fun _ c _ hc => ?_
    rw [Check.see]
    split
    · rfl
    · exact hc

/-- A name is kept while one of the trails is. -/
theorem named (h : f.Prunes kept depth f')
    (name : Bytes) : (Walk.named name f).Prunes kept depth (Walk.named name f') where
  container := by rw [Walk.container_named, Walk.container_named, h.container]
  count := by rw [Walk.count_named, Walk.count_named, h.count]
  recording := by rw [Walk.recording?_named, Walk.recording?_named, h.recording]
  trails := by rw [Walk.trails_named, Walk.trails_named, h.trails]
  name := by
    by_cases hnone : f'.trails = []
    · exact .inl (by rw [Walk.trails_named, hnone])
    · have : f.trails ≠ [] := fun hf => hnone (by rw [h.trails, hf]; rfl)
      right
      rw [Walk.named, Walk.named, if_neg (by simpa using hnone), if_neg (by simpa using this)]
  spares := by rw [Walk.trails_named]; exact h.spares

/-- What is kept of the arrivals at a child. -/
theorem arrivals_eq (h : f.Prunes kept depth f') (text? : Option Bytes) :
    (f'.see text?).trails.filterMap (·.arrival? f'.child) =
      ((f.see text?).trails.filterMap (·.arrival? f.child)).filterMap
        (Arrival.upTo? kept (depth + 1)) := by
  have hseen := h.see text?
  have hchild : (f'.see text?).trails.filterMap (·.arrival? f'.child) =
      (f'.see text?).trails.filterMap (·.arrival? f.child) := by
    rcases h.name with hnone | hname
    · have hempty : (f'.see text?).trails = [] :=
        List.map_eq_nil_iff.1 ((owners_see text? f').trans (by rw [hnone]; rfl))
      rw [hempty]
      rfl
    · rw [child, child, h.container, h.count, hname]
  rw [hchild, hseen.trails, List.filterMap_filterMap, List.filterMap_filterMap]
  exact List.filterMap_congr fun t _ => Trail.arrival?_upTo? f.child t

/-- A slot of a path that is still kept may wait. Slots are only ever reserved by kept paths, on
which no trail was dropped so far. -/
theorem await (h : f.Prunes kept depth f') {owner : Nat} (hdepth : depth < kept owner)
    (number : Nat) : (f.await owner number).Prunes kept depth (f'.await owner number) := by
  have hawait : ∀ g : Frame, g.await owner number =
      { g with
        trails := g.trails.map fun t =>
          { t with checks := t.checks.map fun c => if t.owner = owner then c.await number else c } } := by
    intro g
    rw [Frame.await]
    congr 2
    funext t
    split <;> simp
  rw [hawait, hawait]
  refine h.recheck (fun o c => if o = owner then c.await number else c) fun o c hkept hc => ?_
  have : o ≠ owner := by
    rintro rfl
    omega
  rw [if_neg this]
  exact hc

/-- A path that is kept still leads into the containers on its way. -/
theorem trails_ne_nil (h : f.Prunes kept depth f') {owner : Nat} (hdepth : depth < kept owner)
    (ho : owner ∈ f.owners) : f'.trails ≠ [] := by
  obtain ⟨t, ht, rfl⟩ := List.mem_map.1 ho
  rw [h.trails]
  exact List.ne_nil_of_mem (List.mem_filterMap.2 ⟨t, ht, Trail.upTo?_of_lt hdepth⟩)

theorem step_eq (h : f.Prunes kept depth f') {owner : Nat} (hdepth : depth < kept owner)
    (ho : owner ∈ f.owners) : f'.step = f.step := by
  rw [step, step, h.container, h.count, h.name.resolve_left (h.trails_ne_nil hdepth ho)]

theorem checksOf_eq (h : f.Prunes kept depth f') {owner : Nat} (hdepth : depth < kept owner) :
    f'.checksOf owner = f.checksOf owner := by
  rw [checksOf, checksOf, h.trails]
  induction f.trails with
  | nil => rfl
  | cons t ts ih =>
    by_cases ho : t.owner = owner
    · subst ho
      rw [List.filterMap_cons_some (Trail.upTo?_of_lt hdepth), List.filter_cons_of_pos (by simp),
        List.filter_cons_of_pos (by simp), List.flatMap_cons, List.flatMap_cons, ih]
    · rw [List.filter_cons_of_neg (by simpa using ho), ← ih]
      rcases Nat.lt_or_ge depth (kept t.owner) with hkept | hkept
      · rw [List.filterMap_cons_some (Trail.upTo?_of_lt hkept),
          List.filter_cons_of_neg (by simpa using ho)]
      · rw [List.filterMap_cons_none (Trail.upTo?_of_le hkept)]

end Frame.Prunes

end

namespace Frames

/-- Where paths lead does not depend on the slots that wait. -/
theorem led_congr {frames frames' : List Frame} {owner : Nat}
    (h : frames'.map Frame.outline = frames.map Frame.outline) : Led owner frames' ↔ Led owner frames := by
  have howners : ∀ f : Frame, f.outline.owners = f.owners := fun f => by
    rw [Frame.owners, Frame.outline, List.map_map]
    rfl
  have houtline : ∀ fs : List Frame, Led owner (fs.map Frame.outline) ↔ Led owner fs := fun fs => by
    rw [Led, List.forall_mem_map]
    exact forall₂_congr fun f _ => by rw [howners]
  rw [← houtline, h, houtline]

theorem owners_await (owner number : Nat) (f : Frame) : (f.await owner number).owners = f.owners := by
  rw [Frame.owners, Frame.await, List.map_map]
  refine List.map_congr_left fun t _ => ?_
  rw [Function.comp_apply]
  split <;> rfl

namespace Prunes

variable {kept : Nat → Nat} {frames frames' : List Frame}

/-- Either both are outside of all containers, or there are two innermost ones. -/
theorem nil_or_cons (h : Prunes kept frames frames') :
    (frames = [] ∧ frames' = []) ∨
      ∃ f outer f' outer', frames = f :: outer ∧ frames' = f' :: outer' ∧
        f.Prunes kept outer.length f' ∧ (∀ owner ∈ f.owners, Led owner outer) ∧
        Prunes kept outer outer' := by
  cases frames with
  | nil =>
    cases frames' with
    | nil => exact .inl ⟨rfl, rfl⟩
    | cons => exact h.elim
  | cons f outer =>
    cases frames' with
    | nil => exact h.elim
    | cons f' outer' => exact .inr ⟨f, outer, f', outer', rfl, rfl, h⟩

variable {owner : Nat} (hkept : frames.length ≤ kept owner)

include hkept

theorem await (h : Prunes kept frames frames') (number : Nat) :
    Prunes kept (frames.map (·.await owner number)) (frames'.map (·.await owner number)) := by
  fun_induction Prunes kept frames frames' with
  | case1 => exact h
  | case2 f outer f' outer' ih =>
    rw [List.length_cons] at hkept
    rw [List.map_cons, List.map_cons, Prunes, List.length_map, owners_await]
    refine ⟨h.1.await (by omega) number, fun o ho => ?_, ih (by omega) h.2.2⟩
    refine (led_congr ?_).2 (h.2.1 o ho)
    rw [List.map_map]
    exact List.map_congr_left fun g _ => Frame.outline_await owner number g
  | case3 => exact h.elim

theorem steps_eq (h : Prunes kept frames frames') (hl : Led owner frames) :
    frames'.map (·.step) = frames.map (·.step) := by
  fun_induction Prunes kept frames frames' with
  | case1 => rfl
  | case2 f outer f' outer' ih =>
    rw [List.length_cons] at hkept
    obtain ⟨ho, hl⟩ := List.forall_mem_cons.1 hl
    rw [List.map_cons, List.map_cons, h.1.step_eq (by omega) ho, ih (by omega) h.2.2 hl]
  | case3 => exact h.elim

theorem checksOf_eq (h : Prunes kept frames frames') :
    frames'.flatMap (·.checksOf owner) = frames.flatMap (·.checksOf owner) := by
  fun_induction Prunes kept frames frames' with
  | case1 => rfl
  | case2 f outer f' outer' ih =>
    rw [List.length_cons] at hkept
    rw [List.flatMap_cons, List.flatMap_cons, h.1.checksOf_eq (by omega), ih (by omega) h.2.2]
  | case3 => exact h.elim

end Prunes

end Frames

/-! ## Walks

Two walks side by side have the same slots, the same tape and the same number of recordings;
they differ in frames as described. Each part of a step is taken by both of them: where the
larger walk does more, it does so for trails that no slot waits for, and the other walk does
nothing. -/

namespace Walk

/-- A walk that follows all levels of paths, beside one that follows those that are kept. -/
structure Prunes (kept : Nat → Nat) (w w' : Walk) : Prop where
  frames : Frames.Prunes kept w.frames w'.frames
  slots : w'.slots = w.slots
  tape : w'.tape = w.tape
  recordings : w'.recordings = w.recordings

namespace Prunes

variable {kept : Nat → Nat} {w w' : Walk}

theorem write (h : w.Prunes kept w') (bytes : Bytes) :
    (w.write bytes).Prunes kept (w'.write bytes) := by
  rw [Walk.write, Walk.write, h.recordings]
  split
  · exact h
  · exact ⟨h.frames, h.slots, by dsimp only; rw [h.tape], rfl⟩

theorem writeComma (h : w.Prunes kept w') {f f' : Frame} (hf : f'.count = f.count) :
    (w.writeComma f).Prunes kept (w'.writeComma f') := by
  rw [Walk.writeComma, Walk.writeComma, hf]
  split
  · exact h
  · exact h.write _

end Prunes

/-! ### Reserving slots -/

/-- The same for walks that reserve slots for an arrival that is kept. -/
structure Staging.Prunes (kept : Nat → Nat) (s s' : Staging) : Prop where
  walk : s.walk.Prunes kept s'.walk
  checks : s'.checks = s.checks
  reserved : s'.reserved = s.reserved

/-- The same for walks with the slots of a value at some depth. -/
structure Placement.Prunes (kept : Nat → Nat) (depth : Nat) (p p' : Placement) : Prop where
  depth_eq : p.walk.frames.length = depth
  walk : p.walk.Prunes kept p'.walk
  trails : p'.trails = p.trails.filterMap (Trail.upTo? kept depth)
  spares : ∀ t ∈ p.trails, t.Spares kept depth
  led : ∀ t ∈ p.trails, Frames.Led t.owner p.walk.frames
  reserved : p'.reserved = p.reserved

section

variable {kept : Nat → Nat} {depth : Nat} {v : Value} {a : Arrival}

theorem Staging.Prunes.mark {s s' : Staging} (h : s.Prunes kept s')
    (hkept : s.walk.frames.length ≤ kept a.owner) (hl : Frames.Led a.owner s.walk.frames) (count : Nat) :
    (s.mark v a count).Prunes kept (s'.mark v a count) := by
  rw [Staging.mark, Staging.mark, h.checks]
  split
  · exact h
  · refine ⟨⟨?_, ?_, h.walk.tape, h.walk.recordings⟩, ?_, ?_⟩
    · dsimp only
      rw [h.walk.slots]
      exact h.walk.frames.await hkept _
    · dsimp only
      rw [h.walk.slots, h.walk.frames.checksOf_eq hkept, h.walk.frames.steps_eq hkept hl]
    · dsimp only
      rw [h.walk.slots]
    · dsimp only
      rw [h.walk.slots, h.reserved]

theorem Staging.Prunes.foldl_mark {s s' : Staging} (h : s.Prunes kept s')
    (hkept : s.walk.frames.length ≤ kept a.owner) (hl : Frames.Led a.owner s.walk.frames)
    (counts : List Nat) :
    (counts.foldl (Staging.mark v a) s).Prunes kept (counts.foldl (Staging.mark v a) s') := by
  induction counts generalizing s s' with
  | nil => exact h
  | cons count counts ih =>
    have hframes := (walk_mark_like v a s count).frames
    have hlength := congrArg List.length hframes
    rw [List.length_map, List.length_map] at hlength
    exact ih (h.mark hkept hl count) (hlength ▸ hkept) ((Frames.led_congr hframes).2 hl)

theorem Placement.Prunes.arrive {p p' : Placement} (h : p.Prunes kept depth p')
    (ha : a.Spares kept depth) (hl : Frames.Led a.owner p.walk.frames) :
    (p.arrive v a).Prunes kept depth
      ((a.upTo? kept depth).elim p' (Placement.arrive v p')) := by
  have hframes := (walk_arrive_like v p a).frames
  have hlength := congrArg List.length hframes
  rw [List.length_map, List.length_map, h.depth_eq] at hlength
  have hled : ∀ t ∈ (p.arrive v a).trails, Frames.Led t.owner (p.arrive v a).walk.frames :=
    List.forall_mem_cons.2 ⟨(Frames.led_congr hframes).2 hl, fun t ht =>
      (Frames.led_congr hframes).2 (h.led t ht)⟩
  rcases Nat.lt_or_ge depth (kept a.owner) with hdepth | hdepth
  · rw [Arrival.upTo?_of_lt hdepth, Option.elim_some]
    have hstaged : Staging.Prunes kept
        (a.level.marks.foldl (Staging.mark v a)
          ⟨p.walk, a.level.guards.map fun g => Check.start (v.kind = .object) g.filter, p.reserved⟩)
        (a.level.marks.foldl (Staging.mark v a)
          ⟨p'.walk, a.level.guards.map fun g => Check.start (v.kind = .object) g.filter, p'.reserved⟩) := by
      apply Staging.Prunes.foldl_mark
      · exact ⟨h.walk, rfl, h.reserved⟩
      · exact h.depth_eq ▸ Nat.le_of_lt hdepth
      · exact hl
    refine ⟨hlength, hstaged.walk, ?_, List.forall_mem_cons.2 ⟨ha.trail ?_, h.spares⟩, hled,
      hstaged.reserved⟩
    · rw [Placement.arrive, Placement.arrive]
      dsimp only
      rw [List.filterMap_cons_some (Trail.upTo?_of_lt hdepth), ← h.trails, ← hstaged.checks]
      rfl
    · exact fun hle => absurd hle (Nat.not_le.2 hdepth)
  · rw [Arrival.upTo?_of_le hdepth, Option.elim_none]
    have harrive : p.arrive v a = ⟨p.walk, a.trail v :: p.trails, p.reserved⟩ := by
      rw [Placement.arrive, ha.marks_eq_nil hdepth]
      rfl
    rw [harrive] at hled ⊢
    refine ⟨h.depth_eq, h.walk, ?_, List.forall_mem_cons.2 ⟨ha.trail ?_, h.spares⟩, hled, h.reserved⟩
    · rw [List.filterMap_cons_none (Trail.upTo?_of_le hdepth), h.trails]
    · exact fun _ => List.forall_mem_map.2 fun g _ =>
        (congrArg Check.waiting (Check.outline_start _ g.filter)).symm

theorem Placement.Prunes.foldl_arrive {p p' : Placement} (h : p.Prunes kept depth p')
    {arrivals : List Arrival} (ha : ∀ a ∈ arrivals, a.Spares kept depth)
    (hl : ∀ a ∈ arrivals, Frames.Led a.owner p.walk.frames) :
    (arrivals.foldl (Placement.arrive v) p).Prunes kept depth
      ((arrivals.filterMap (Arrival.upTo? kept depth)).foldl (Placement.arrive v) p') := by
  induction arrivals generalizing p p' with
  | nil => exact h
  | cons a as ih =>
    obtain ⟨ha, has⟩ := List.forall_mem_cons.1 ha
    obtain ⟨hl, hls⟩ := List.forall_mem_cons.1 hl
    have hfirst := h.arrive (v := v) ha hl
    have hrest := ih hfirst has fun b hb =>
      (Frames.led_congr (walk_arrive_like v p a).frames).2 (hls b hb)
    rw [List.foldl_cons]
    cases hkept : a.upTo? kept depth with
    | none =>
      rw [hkept, Option.elim_none] at hrest
      rwa [List.filterMap_cons_none hkept]
    | some a' =>
      rw [hkept, Option.elim_some] at hrest
      rwa [List.filterMap_cons_some hkept, List.foldl_cons]

end

/-! ### Tokens -/

section

variable {kept : Nat → Nat} {v : Value} {w w' : Walk}

/-- The arrivals at a value in the innermost of some containers, beside those that are kept. -/
structure Arrivals.Prunes (kept : Nat → Nat) (frames : List Frame) (arrivals arrivals' : List Arrival) :
    Prop where
  eq : arrivals' = arrivals.filterMap (Arrival.upTo? kept frames.length)
  spares : ∀ a ∈ arrivals, a.Spares kept frames.length
  led : ∀ a ∈ arrivals, Frames.Led a.owner frames

theorem Prunes.begin (h : w.Prunes kept w') {arrivals arrivals' : List Arrival}
    (ha : Arrivals.Prunes kept w.frames arrivals arrivals') :
    (w.begin v arrivals).Prunes kept (w'.begin v arrivals') := by
  have hempty : Placement.Prunes kept w.frames.length { walk := w } { walk := w' } :=
    ⟨rfl, h, rfl, fun t ht => absurd ht List.not_mem_nil, fun t ht => absurd ht List.not_mem_nil, rfl⟩
  have hplaced : (w.placed v arrivals).Prunes kept w.frames.length (w'.placed v arrivals') :=
    ha.eq ▸ hempty.foldl_arrive ha.spares ha.led
  rw [Walk.begin, Walk.begin]
  split
  · next c _ =>
    rw [openFrame, openFrame, hplaced.reserved, hplaced.walk.tape, hplaced.walk.recordings]
    apply Prunes.write
    refine ⟨⟨?_, ?_, hplaced.walk.frames⟩, hplaced.walk.slots, hplaced.walk.tape, rfl⟩
    · rw [hplaced.depth_eq]
      refine ⟨rfl, rfl, rfl, ?_, .inr rfl, ?_⟩
      · rw [hplaced.trails, List.filterMap_reverse]
      · exact fun t ht => hplaced.spares t (List.mem_reverse.1 ht)
    · intro owner ho
      obtain ⟨t, ht, rfl⟩ := List.mem_map.1 ho
      exact hplaced.led t (List.mem_reverse.1 ht)
  · rw [completeScalar, completeScalar]
    apply Prunes.write
    refine ⟨hplaced.walk.frames, ?_, hplaced.walk.tape, hplaced.walk.recordings⟩
    rw [hplaced.walk.slots, hplaced.reserved]

variable {paths paths' : List Path}

/-- The arrivals at a child of two containers. -/
theorem arrivals_prunes {f f' : Frame} {outer outer' : List Frame} (hw : w.frames = f :: outer)
    (hw' : w'.frames = f' :: outer') (hf : f.Prunes kept outer.length f')
    (hl : ∀ owner ∈ f.owners, Frames.Led owner outer) (v : Value) :
    Arrivals.Prunes kept (w.enter paths v).2.frames (w.enter paths v).1 (w'.enter paths' v).1 := by
  have hlength : (w.enter paths v).2.frames.length = outer.length + 1 := by
    rw [frames_enter paths v hw]
    rfl
  refine ⟨?_, ?_, ?_⟩
  · rw [hlength, enter_fst paths v hw, enter_fst paths' v hw', hf.arrivals_eq v.text?]
  · rw [hlength, enter_fst paths v hw]
    intro a ha
    obtain ⟨t, ht, hta⟩ := List.mem_filterMap.1 ha
    exact ((hf.see v.text?).spares t ht).arrival hta
  · rw [frames_enter paths v hw, enter_fst paths v hw]
    intro a ha
    obtain ⟨t, ht, hta⟩ := List.mem_filterMap.1 ha
    obtain ⟨level, below, -, -, -, rfl⟩ := Trail.arrival?_eq_some_iff.1 hta
    have ho : t.owner ∈ (f.see v.text?).owners := List.mem_map_of_mem ht
    have howners : (f.see v.text?).owners = f.owners := Frame.owners_see v.text? f
    exact List.forall_mem_cons.2 ⟨ho, hl t.owner (howners ▸ ho)⟩

/-- A child is seen by two containers. -/
theorem Prunes.seen (h : w.Prunes kept w') {f f' : Frame} {outer outer' : List Frame}
    (hw : w.frames = f :: outer) (hw' : w'.frames = f' :: outer') (hf : f.Prunes kept outer.length f')
    (hl : ∀ owner ∈ f.owners, Frames.Led owner outer) (houter : Frames.Prunes kept outer outer')
    (v : Value) : (w.enter paths v).2.Prunes kept (w'.enter paths' v).2 := by
  have hseen := hf.see v.text?
  have howners : (f.see v.text?).owners = f.owners := Frame.owners_see v.text? f
  have hwritten : (w'.enter paths' v).2.tape = (w.enter paths v).2.tape ∧
      (w'.enter paths' v).2.recordings = (w.enter paths v).2.recordings := by
    simp only [Walk.enter, hw, hw', hf.container]
    cases f.container with
    | object => exact ⟨h.tape, h.recordings⟩
    | array => exact ⟨(h.writeComma hf.count).tape, (h.writeComma hf.count).recordings⟩
  refine ⟨?_, ?_, hwritten.1, hwritten.2⟩
  · rw [frames_enter paths v hw, frames_enter paths' v hw']
    refine ⟨⟨hseen.container, ?_, hseen.recording, hseen.trails, hseen.name, hseen.spares⟩, ?_, houter⟩
    · dsimp only
      rw [hf.count]
    · exact fun owner ho => hl owner (howners ▸ ho)
  · rw [slots_enter paths v hw, slots_enter paths' v hw', h.slots, hf.decided_eq]

variable (hpaths : Paths.Prunes kept paths paths')

include hpaths

theorem Prunes.enter (h : w.Prunes kept w') (v : Value) :
    (w.enter paths v).2.Prunes kept (w'.enter paths' v).2 ∧
      Arrivals.Prunes kept (w.enter paths v).2.frames (w.enter paths v).1 (w'.enter paths' v).1 := by
  obtain ⟨hw, hw'⟩ | ⟨f, outer, f', outer', hw, hw', hf, hl, houter⟩ := h.frames.nil_or_cons
  · rw [enter_top paths v hw, enter_top paths' v hw', hw]
    exact ⟨h, hpaths.arrivals_eq, hpaths.spares_arrivals, fun _ _ _ hf => absurd hf List.not_mem_nil⟩
  · exact ⟨h.seen hw hw' hf hl houter v, arrivals_prunes hw hw' hf hl v⟩

theorem Prunes.arrive (h : w.Prunes kept w') (v : Value) :
    (w.arrive paths v).Prunes kept (w'.arrive paths' v) := by
  obtain ⟨hentered, ha⟩ := h.enter hpaths v
  rw [arrive_eq_begin, arrive_eq_begin]
  exact hentered.begin ha

omit hpaths

theorem tape_name_eq {f : Frame} {outer : List Frame} (hw : w.frames = f :: outer) (raw : Bytes) :
    (w.name raw).tape = (((w.writeComma f).write raw).write [Ascii.colon]).tape := by
  simp only [Walk.name, hw]
  split <;> rfl

theorem Prunes.name (h : w.Prunes kept w') (raw : Bytes) : (w.name raw).Prunes kept (w'.name raw) := by
  obtain ⟨hw, hw'⟩ | ⟨f, outer, f', outer', hw, hw', hf, hl, houter⟩ := h.frames.nil_or_cons
  · simp only [Walk.name, hw, hw']
    exact h
  · have hwritten := ((h.writeComma hf.count).write raw).write [Ascii.colon]
    refine ⟨?_, ?_, ?_, ?_⟩
    · rw [frames_name hw, frames_name hw']
      refine ⟨hf.named _, ?_, houter⟩
      rw [Frame.owners, trails_named]
      exact hl
    · rw [slots_name hw, slots_name hw', h.slots]
    · rw [tape_name_eq hw, tape_name_eq hw', hwritten.tape]
    · rw [recordings_name hw, recordings_name hw', h.recordings]

theorem Prunes.close (h : w.Prunes kept w') : w.close.Prunes kept w'.close := by
  obtain ⟨hw, hw'⟩ | ⟨f, outer, f', outer', hw, hw', hf, -, houter⟩ := h.frames.nil_or_cons
  · simp only [Walk.close, hw, hw']
    exact h
  · have hclosed : Prunes kept { w with frames := outer, slots := f.closed w.slots }
        { w' with frames := outer', slots := f'.closed w'.slots } :=
      ⟨houter, by dsimp only; rw [h.slots, hf.closed_eq], h.tape, h.recordings⟩
    have hwritten := hclosed.write [f.container.closing]
    simp only [Walk.close, hw, hw', hf.container, hf.recording]
    cases f.recording? with
    | none => exact hwritten
    | some recording =>
      refine ⟨hwritten.frames, ?_, ?_, ?_⟩
      · dsimp only
        rw [hwritten.slots, hwritten.tape]
      · dsimp only
        rw [hwritten.tape, hwritten.recordings]
      · dsimp only
        rw [hwritten.recordings]

end

/-- A token leaves the walks side by side. By induction a whole document leaves them side by side,
so they have the same slots in the end. -/
theorem prunes_token {kept : Nat → Nat} {paths paths' : List Path} (hpaths : Paths.Prunes kept paths paths')
    {w w' : Walk} (h : w.Prunes kept w') (l : Lexed) :
    (w.token paths l).Prunes kept (w'.token paths' l) := by
  rw [token, token]
  cases l.token with
  | name raw => exact h.name raw
  | scalar kind raw => exact h.arrive hpaths _
  | opening c => exact h.arrive hpaths _
  | closing c => exact h.close

end Walk

end JsonExtract
