import JsonExtract.Proofs.Extraction.ContainerOutcomes

/-!
# What will become of slots

A slot waits for filters and for the text of its value. Given a sequel for each open container, it is
known what will become of it: it is lost, or its prospect is to be a match of a certain path, at a
certain place, with the value that is there already or is still to come.

A walk never revises the prospects of a slot. Deciding filters, as a child or the end of a container
does, kills the slots whose prospects were lost before. A mark adds one slot behind those that are
there, and its prospects follow from the filters in front of the mark and from the open containers. So
behind a token there are the prospects of the slots in front of it, under the sequels in front, and
then those of the new ones.

* `Prospect`, `Slots.prospects` — what will become of each slot;
* `Walk.prospects` — the same for the slots of a walk, given a sequel for each open container;
* `Arrival.prospects`, `Reserves` — what an arrival adds, and slots that were reserved for it;
* `Staging.mark_reserves`, `Walk.placed_reserves` — the slots for a mark, and for all arrivals at a
  value;
* `Walk.prospects_enter`, `Walk.prospects_closed` — deciding filters leaves the prospects as they are.
-/

namespace JsonExtract

/-! ## Slots

The slots of a walk are never removed, so their prospects are a list in the order of the slots, with
nothing for those that are dead or lost. -/

/-- What will become of a slot that is not lost; its value may be still to come. -/
structure Prospect where
  /-- the number of the path in its session -/
  owner : Nat
  /-- the text of the path -/
  path : String
  /-- the kind of the value -/
  kind : Kind
  /-- the way to the value -/
  route : Route
  /-- the text of the value, once it is complete -/
  value? : Option Bytes
  deriving DecidableEq, Repr

/-- The prospect once the value is complete. -/
def Prospect.complete (value : Bytes) (p : Prospect) : Prospect :=
  { p with value? := some value }

/-- The prospect of a slot, unless it is lost. What it waits for is left out, as it was taken into
account by the list of lost slots. -/
def Slot.prospect? (lost : Bool) (s : Slot) : Option Prospect :=
  if s.dead || lost then none else some ⟨s.owner, s.path, s.kind, s.route, s.value?⟩

namespace Slots

/-- The prospects of all slots, given those that are lost. -/
def prospects (lost : List Nat) (slots : Slots) : List (Option Prospect) :=
  slots.toList.mapIdx fun i s => s.prospect? (lost.contains i)

variable {lost lost' : List Nat} {slots : Slots}

theorem getElem?_prospects (lost : List Nat) (slots : Slots) (i : Nat) :
    (slots.prospects lost)[i]? = slots[i]?.map (Slot.prospect? (lost.contains i)) := by
  rw [prospects, List.getElem?_mapIdx, Array.getElem?_toList]

theorem length_prospects (lost : List Nat) (slots : Slots) :
    (slots.prospects lost).length = slots.size := by
  rw [prospects, List.length_mapIdx, Array.length_toList]

theorem contains_eq {i : Nat} (h : i ∈ lost' ↔ i ∈ lost) :
    lost'.contains i = lost.contains i := by
  rw [Bool.eq_iff_iff, List.contains_iff_mem, List.contains_iff_mem]
  exact h

theorem prospects_congr (h : ∀ i, i ∈ lost' ↔ i ∈ lost) :
    slots.prospects lost' = slots.prospects lost := by
  simp only [prospects, contains_eq (h _)]

/-- Rulings kill slots that were lost before. -/
theorem prospects_judge {rulings : List Ruling}
    (h : ∀ i, i ∈ lost ↔ i ∈ Ruling.refused rulings ∨ i ∈ lost') :
    (slots.judge rulings).prospects lost' = slots.prospects lost := by
  apply List.ext_getElem?
  intro i
  rw [getElem?_prospects, getElem?_prospects, getElem?_judge, Option.map_map]
  congr 1
  funext s
  have hi : lost.contains i =
      ((Ruling.refused rulings).count i != 0 || lost'.contains i) := by
    rw [Bool.eq_iff_iff, Bool.or_eq_true, List.contains_iff_mem, List.contains_iff_mem, h i,
      bne_iff_ne, Nat.ne_zero_iff_zero_lt, List.count_pos_iff]
  simp only [Function.comp_apply, Slot.prospect?, hi, Slot.judge_path, Slot.judge_kind,
    Slot.judge_route, Slot.judge_value?]
  simp only [Slot.judge, Bool.or_assoc]

/-- A new slot is the only one whose prospects are new. -/
theorem prospects_push (slots : Slots) (slot : Slot) {wins : Bool} (hlt : ∀ i ∈ lost, i < slots.size)
    (h : ∀ i, i ∈ lost' ↔ i ∈ lost ∨ i = slots.size ∧ wins = false) :
    prospects lost' (slots.push slot) = slots.prospects lost ++ [slot.prospect? !wins] := by
  apply List.ext_getElem?
  intro i
  rw [getElem?_prospects, Array.getElem?_push]
  -- a slot from before, the new one, or none
  rcases Nat.lt_trichotomy i slots.size with hi | rfl | hi
  · have hmem : i ∈ lost' ↔ i ∈ lost := by
      rw [h]
      exact ⟨fun hi' => hi'.resolve_right fun he => absurd he.1 (Nat.ne_of_lt hi), .inl⟩
    rw [List.getElem?_append_left (by rwa [length_prospects]), getElem?_prospects,
      if_neg (Nat.ne_of_lt hi), contains_eq hmem]
  · have hnew : lost'.contains slots.size = !wins := by
      rw [Bool.eq_iff_iff, List.contains_iff_mem, h, Bool.not_eq_true']
      exact ⟨fun hi => (hi.resolve_left fun hi => Nat.lt_irrefl _ (hlt _ hi)).2,
        fun hw => .inr ⟨rfl, hw⟩⟩
    rw [if_pos rfl, List.getElem?_append_right (Nat.le_of_eq (length_prospects _ _)),
      length_prospects, Nat.sub_self, hnew]
    rfl
  · rw [if_neg (Nat.ne_of_gt hi), List.getElem?_eq_none (by simp [length_prospects]; omega),
      Array.getElem?_eq_none (by omega)]
    rfl

/-- A value that is complete goes to the slots that were reserved for it. -/
theorem prospects_complete {before own behind : List (Option Prospect)} (value : Bytes)
    (h : slots.prospects lost = before ++ own ++ behind) :
    (slots.complete value (List.range' before.length own.length)).prospects lost =
      before ++ own.map (·.map (Prospect.complete value)) ++ behind := by
  have hset : ∀ i, ((slots.complete value (List.range' before.length own.length)).prospects
      lost)[i]? = (before ++ own ++ behind)[i]?.map fun p =>
        if before.length ≤ i ∧ i < before.length + own.length then
          p.map (Prospect.complete value) else p := by
    intro i
    rw [← h, getElem?_prospects, getElem?_prospects, getElem?_complete, Option.map_map,
      Option.map_map]
    congr 1
    funext s
    simp only [Function.comp_apply, List.mem_range'_1]
    split
    · rw [Slot.prospect?, Slot.prospect?, Slot.complete]
      split <;> rfl
    · rfl
  apply List.ext_getElem?
  intro i
  rw [hset]
  simp only [List.getElem?_append, List.length_append, List.length_map, List.getElem?_map]
  by_cases hbefore : i < before.length
  · have hlt : ¬ before.length ≤ i := Nat.not_le_of_lt hbefore
    simp [hbefore, hlt, Nat.lt_add_right]
  · by_cases hown : i < before.length + own.length
    · have hle : before.length ≤ i := Nat.le_of_not_lt hbefore
      simp [hbefore, hown, hle]
    · simp [hown]

end Slots

/-! ## New slots

A mark asks for a slot of its own, unless a filter in front of it has failed by then. The filters in
front of a mark are those of its arrival up to some count, so all marks of one arrival look at the same
list of filters. -/

/-- The prospects of the slot for an arrival at a mark, with certain filters on the value in front of
it. There is no slot if one of them has failed already. -/
def Arrival.prospectsAt (sequel : Sequel) (sequels : List Sequel) (frames : List Frame) (v : Value)
    (own : List Check) (a : Arrival) : List (Option Prospect) :=
  if own.any (·.isFailed) then []
  else [if Frames.pass frames sequels a.owner && own.all (·.outcome sequel) && sequel.ends then
    some ⟨a.owner, a.path, v.kind, Frames.route frames, none⟩ else none]

/-- The prospects of all slots for an arrival. -/
def Arrival.prospects (sequel : Sequel) (sequels : List Sequel) (frames : List Frame) (v : Value)
    (a : Arrival) : List (Option Prospect) :=
  a.level.marks.flatMap fun count =>
    a.prospectsAt sequel sequels frames v ((a.trail v).checks.take count)

/-- Slots were reserved, and these are their prospects. -/
def Reserves (before after : List (Option Prospect)) (reserved reserved' : List Nat)
    (news : List (Option Prospect)) : Prop :=
  after = before ++ news ∧
    reserved' = (List.range' before.length news.length).reverse ++ reserved

namespace Reserves

variable {before between after news news' : List (Option Prospect)}
  {reserved reserved' reserved'' : List Nat}

theorem refl (before : List (Option Prospect)) (reserved : List Nat) :
    Reserves before before reserved reserved [] :=
  ⟨(List.append_nil _).symm, rfl⟩

theorem trans (h : Reserves before between reserved reserved' news)
    (h' : Reserves between after reserved' reserved'' news') :
    Reserves before after reserved reserved'' (news ++ news') := by
  obtain ⟨rfl, rfl⟩ := h
  obtain ⟨rfl, rfl⟩ := h'
  refine ⟨List.append_assoc .., ?_⟩
  rw [List.length_append, List.length_append, ← List.range'_append_1, List.reverse_append,
    List.append_assoc]

end Reserves

namespace Walk

/-- The prospects of all slots, given a sequel for each open container. -/
def prospects (sequels : List Sequel) (w : Walk) : List (Option Prospect) :=
  w.slots.prospects (Frames.lost w.frames sequels)

/-! ### Marks -/

namespace Staging

variable (sequel : Sequel) (sequels : List Sequel) (extra : List Nat) {v : Value} {a : Arrival}

/-- The slots that are lost while slots are reserved for an arrival; `extra` are lost elsewhere. -/
def lost (s : Staging) : List Nat :=
  s.checks.flatMap (Check.lost sequel) ++
    (extra ++ ((if sequel.ends then [] else s.reserved) ++ Frames.lost s.walk.frames sequels))

/-- The prospects of all slots while slots are reserved for an arrival. -/
def prospects (s : Staging) : List (Option Prospect) :=
  s.walk.slots.prospects (s.lost sequel sequels extra)

variable {s : Staging} {others : List Nat} (hextra : ∀ i ∈ extra, i ∈ others)

include hextra

theorem lt_of_lost (hb : s.Balanced others) {i : Nat} (hi : i ∈ s.lost sequel sequels extra) :
    i < s.walk.slots.size := by
  rw [lost, List.mem_append, List.mem_append, List.mem_append] at hi
  rcases hi with hi | hi | hi | hi
  · exact hb.lt_of_queue (List.mem_append_left _ (Check.mem_queues_of_lost sequel hi))
  · exact hb.lt_of_queue (List.mem_append_right _ (List.mem_append_left _ (hextra i hi)))
  · refine hb.lt_of_recorded (List.mem_append_left _ ?_)
    split at hi
    · cases hi
    · exact hi
  · rcases Frames.lost_subset hi with hi | hi
    · exact hb.lt_of_queue (List.mem_append_right _ (List.mem_append_right _ hi))
    · exact hb.lt_of_recorded (List.mem_append_right _ hi)

/-- A mark adds a slot, unless one of the filters in front of it has failed. -/
theorem mark_reserves (count : Nat) (hb : s.Balanced others)
    (hclear : Frames.Clear s.walk.frames a.owner) :
    Reserves (s.prospects sequel sequels extra) ((s.mark v a count).prospects sequel sequels extra)
      s.reserved (s.mark v a count).reserved
      (a.prospectsAt sequel sequels s.walk.frames v (s.checks.take count)) := by
  rw [mark, Arrival.prospectsAt]
  split
  · exact .refl ..
  · next hfailed =>
    have hopen : ∀ c ∈ s.checks.take count, c.isFailed = false := by simpa using hfailed
    -- the new slot waits for the filters in front of the mark, for those of its path on the open
    -- containers and for its text, so it is lost if one of them turns out badly
    have hlost : ∀ i, i ∈ ((s.checks.take count).map (·.await s.walk.slots.size) ++
          s.checks.drop count).flatMap (Check.lost sequel) ++
          (extra ++ ((if sequel.ends then [] else s.walk.slots.size :: s.reserved) ++
            Frames.lost (s.walk.frames.map (·.await a.owner s.walk.slots.size)) sequels)) ↔
        i ∈ s.lost sequel sequels extra ∨ i = s.walk.slots.size ∧
          (Frames.pass s.walk.frames sequels a.owner &&
            (s.checks.take count).all (·.outcome sequel) && sequel.ends) = false := by
      intro i
      have hsplit : i ∈ s.checks.flatMap (Check.lost sequel) ↔
          i ∈ (s.checks.take count).flatMap (Check.lost sequel) ∨
            i ∈ (s.checks.drop count).flatMap (Check.lost sequel) := by
        rw [← List.mem_append, ← List.flatMap_append, List.take_append_drop]
      have hreserved : i ∈ (if sequel.ends then [] else s.walk.slots.size :: s.reserved) ↔
          i ∈ (if sequel.ends then [] else s.reserved) ∨
            i = s.walk.slots.size ∧ sequel.ends = false := by
        cases sequel.ends <;> simp [or_comm]
      simp only [lost, List.flatMap_append, List.mem_append, hsplit, hreserved, Bool.and_eq_false_iff,
        Check.mem_lost_map_await sequel _ i hopen, Frames.mem_lost_await sequels _ i hclear]
      grind
    have hpush := Slots.prospects_push s.walk.slots
      { owner := a.owner, path := a.path, kind := v.kind, route := Frames.route s.walk.frames
        start := v.start, stop := v.stop
        awaited := (s.walk.frames.flatMap (·.checksOf a.owner) ++ s.checks.take count).countP
          (·.isUndecided)
        pending := (s.walk.frames.flatMap (·.checksOf a.owner) ++ s.checks.take count).countP
          (·.isUndecided) }
      (fun i hi => lt_of_lost sequel sequels extra hextra hb hi) hlost
    refine ⟨hpush.trans (congrArg (_ ++ [·]) ?_), ?_⟩
    · rw [Slot.prospect?, Bool.false_or]
      cases Frames.pass s.walk.frames sequels a.owner &&
        (s.checks.take count).all (·.outcome sequel) && sequel.ends <;> rfl
    · simp [prospects, Slots.length_prospects]

/-- Several marks add their slots one after the other. -/
theorem foldl_mark_reserves (counts : List Nat) (hb : s.Balanced others)
    (hclear : Frames.Clear s.walk.frames a.owner) :
    Reserves (s.prospects sequel sequels extra)
      ((counts.foldl (mark v a) s).prospects sequel sequels extra)
      s.reserved (counts.foldl (mark v a) s).reserved
      (counts.flatMap fun count =>
        a.prospectsAt sequel sequels s.walk.frames v (s.checks.take count)) := by
  induction counts generalizing s with
  | nil => exact .refl ..
  | cons n ns ih =>
    -- the first mark changes who waits, but not what is known of the filters
    have hlike := (walk_mark_like v a s n).frames
    have hchecks := outline_checks_mark v a s n
    have hsame : ∀ count, a.prospectsAt sequel sequels (s.mark v a n).walk.frames v
        ((s.mark v a n).checks.take count) =
          a.prospectsAt sequel sequels s.walk.frames v (s.checks.take count) := by
      intro count
      rw [Arrival.prospectsAt, Arrival.prospectsAt, Frames.pass_congr sequels _ hlike,
        Frames.route_congr hlike, Check.all_outcome_take sequel count hchecks,
        Check.any_isFailed_take count hchecks]
    have hrest := ih (mark_balanced (v := v) (a := a) n hb).1 ((Frames.clear_congr hlike).2 hclear)
    simp only [hsame] at hrest
    exact (mark_reserves sequel sequels extra hextra n hb hclear).trans hrest

end Staging

/-! ### Values -/

namespace Placement

variable (sequel : Sequel) (sequels : List Sequel) {v : Value} {p : Placement}

/-- The slots that are lost by the filters on the value. -/
def lost (p : Placement) : List Nat :=
  p.trails.flatMap fun t => t.checks.flatMap (Check.lost sequel)

/-- The prospects of all slots while slots are reserved for a value. -/
def prospects (p : Placement) : List (Option Prospect) :=
  p.walk.slots.prospects
    (p.lost sequel ++ ((if sequel.ends then [] else p.reserved) ++ Frames.lost p.walk.frames sequels))

theorem mem_queue_of_lost {i : Nat} (h : i ∈ p.lost sequel) : i ∈ p.queue := by
  obtain ⟨t, ht, hi⟩ := List.mem_flatMap.1 h
  exact List.mem_flatMap.2 ⟨t, ht, Check.mem_queues_of_lost sequel hi⟩

/-- A value that has no undecided filters on it, and is complete at once, loses no slots. -/
theorem prospects_eq_walk (hq : p.queue = []) (hends : sequel.ends = true) :
    p.prospects sequel sequels = p.walk.prospects sequels := by
  have hlost : p.lost sequel = [] := by
    refine List.eq_nil_iff_forall_not_mem.2 fun i hi => ?_
    have hqueue := mem_queue_of_lost sequel hi
    rw [hq] at hqueue
    cases hqueue
  rw [prospects, hlost, hends]
  rfl

theorem arrive_reserves (a : Arrival) (hb : p.Balanced)
    (hclear : Frames.Clear p.walk.frames a.owner) :
    Reserves (p.prospects sequel sequels) ((p.arrive v a).prospects sequel sequels) p.reserved
      (p.arrive v a).reserved (a.prospects sequel sequels p.walk.frames v) := by
  let s : Staging := ⟨p.walk, (a.trail v).checks, p.reserved⟩
  -- nobody waits yet for the filters on the value
  have hnone : s.checks.flatMap (Check.lost sequel) = [] := by
    refine List.eq_nil_iff_forall_not_mem.2 fun i hi => ?_
    have hc : s.checks.map Check.outline = s.checks := by
      simp [s, Arrival.trail, Function.comp_def]
    have hqueue := Check.mem_queues_of_lost sequel hi
    rw [← hc, Check.queues_outline] at hqueue
    cases hqueue
  have hbefore : s.prospects sequel sequels (p.lost sequel) = p.prospects sequel sequels := by
    rw [Staging.prospects, Staging.lost, hnone]
    rfl
  have hafter : (p.arrive v a).prospects sequel sequels =
      (a.level.marks.foldl (Staging.mark v a) s).prospects sequel sequels (p.lost sequel) := by
    rw [prospects, lost, arrive, List.flatMap_cons, List.append_assoc]
    rfl
  rw [hafter, ← hbefore]
  exact Staging.foldl_mark_reserves sequel sequels (p.lost sequel) (s := s)
    (fun i => mem_queue_of_lost sequel) a.level.marks (staging_balanced a hb) hclear

theorem foldl_arrive_reserves (arrivals : List Arrival) (hb : p.Balanced)
    (hclear : ∀ a ∈ arrivals, Frames.Clear p.walk.frames a.owner) :
    Reserves (p.prospects sequel sequels)
      ((arrivals.foldl (Placement.arrive v) p).prospects sequel sequels) p.reserved
      (arrivals.foldl (Placement.arrive v) p).reserved
      (arrivals.flatMap (Arrival.prospects sequel sequels p.walk.frames v)) := by
  induction arrivals generalizing p with
  | nil => exact .refl ..
  | cons a as ih =>
    rw [List.forall_mem_cons] at hclear
    have hlike := (walk_arrive_like v p a).frames
    have hsame : Arrival.prospects sequel sequels (p.arrive v a).walk.frames v =
        Arrival.prospects sequel sequels p.walk.frames v := by
      funext b
      simp only [Arrival.prospects, Arrival.prospectsAt, Frames.pass_congr sequels _ hlike,
        Frames.route_congr hlike]
    have hrest := ih (arrive_balanced (v := v) a hb).1 fun b hb' =>
      (Frames.clear_congr hlike).2 (hclear.2 b hb')
    rw [hsame] at hrest
    exact (arrive_reserves sequel sequels a hb hclear.1).trans hrest

end Placement

section

variable {v : Value} {arrivals : List Arrival} {w : Walk}

/-- The slots for all arrivals at a value. -/
theorem placed_reserves (sequel : Sequel) (sequels : List Sequel) (hb : w.Balanced)
    (hclear : ∀ a ∈ arrivals, Frames.Clear w.frames a.owner) :
    Reserves (w.prospects sequels) ((w.placed v arrivals).prospects sequel sequels) []
      (w.placed v arrivals).reserved
      (arrivals.flatMap (Arrival.prospects sequel sequels w.frames v)) := by
  have hfirst : ({ walk := w } : Placement).prospects sequel sequels = w.prospects sequels := by
    rw [Placement.prospects, Placement.lost, ite_self]
    rfl
  have h := Placement.foldl_arrive_reserves sequel sequels (v := v) (p := { walk := w }) arrivals hb
    hclear
  rw [hfirst] at h
  exact h

end

/-! ## Deciding filters -/

/-- Slots keep their prospects when their container is opened. -/
theorem prospects_openFrame (sequel : Sequel) (sequels : List Sequel) (container : Container)
    (p : Placement) :
    (openFrame container p).prospects (sequel :: sequels) = p.prospects sequel sequels := by
  rw [prospects, openFrame, slots_write, frames_write]
  refine Slots.prospects_congr fun i => ?_
  rw [Frames.lost_cons, Frame.lost, List.append_assoc, List.mem_append, List.mem_append,
    List.mem_append, List.mem_append]
  refine or_congr ?_ (or_congr ?_ Iff.rfl)
  · rw [Frame.checks, List.flatMap_assoc, Placement.lost]
    simp only [List.mem_flatMap, List.mem_reverse]
  · rw [Frame.recorded]
    cases p.reserved <;> simp [or_comm]

/-- Slots keep their prospects when their container is closed. -/
theorem prospects_closed {w : Walk} {f : Frame} {outer : List Frame} (sequels : List Sequel)
    (hw : w.frames = f :: outer) :
    (f.closed w.slots).prospects (Frames.lost outer sequels) = w.prospects (.closed :: sequels) := by
  rw [Frame.closed_eq_judge]
  refine Slots.prospects_judge fun i => ?_
  rw [hw, Ruling.refused_refusal, Frames.lost_cons, Frame.lost_closed, List.mem_append]
  rfl

/-- Slots keep their prospects when a child comes in. -/
theorem prospects_enter {w : Walk} {parent : Frame} {outer : List Frame} {c : Child × Tree}
    {v : Value} (paths : List Path) (sequel : Sequel) (sequels : List Sequel)
    (hw : w.frames = parent :: outer) (hc : parent.Awaits c) (hv : v.text? = c.2.text?) :
    (w.enter paths v).2.prospects (sequel :: sequels) =
      w.prospects (sequel.behind c :: sequels) := by
  rw [prospects, frames_enter paths v hw, slots_enter paths v hw, Frame.decided_eq_judge, hv]
  refine Slots.prospects_judge fun i => ?_
  rw [hw, Frames.lost_cons, Frames.lost_cons, List.mem_append, List.mem_append,
    Frame.mem_lost_child sequel hc, or_assoc]
  rfl

end Walk

end JsonExtract
