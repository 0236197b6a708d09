import JsonExtract.Proofs.Paths.Completeness
import JsonExtract.Proofs.Scan.Follow
import JsonExtract.Proofs.Walk.Waiting
import Mathlib.Algebra.Order.BigOperators.Group.List
import Mathlib.Algebra.Order.Ring.Nat
import Mathlib.Data.List.Perm.Subperm

/-!
# What is known about slots from the start

What a journal tells about a slot is known when the slot is reserved, and nothing that happens to the slot
later changes it. So the notices of all slots only grow from token to token, by those of the slots that are
reserved for the value that a token starts.

* `Notice`, `Slots.notices` — what is told about slots;
* `Arrival.notices`, `Walk.notices` — about the slots that are reserved for a value;
* `Walk.notices_token`, `Walk.notices_run` — tokens add notices;
* `Walk.length_notices_le` — a token adds no more of them than there are marks.
-/

namespace JsonExtract

/-! ## Slots

A slot keeps what it was reserved with beside what happens to it. A notice is the first part, in
the form in which it is told to a listener. Judging and completing touch the second part only,
so the list of notices changes in one way: a new slot adds its own at the end. -/

/-- What is told about a slot, with the number of its path. These are the fields that a slot is
born with; none of them is ever written again. -/
structure Notice where
  /-- the number of the path in its session -/
  owner : Nat
  /-- the text of the path -/
  path : String
  /-- the kind of the value -/
  kind : Kind
  /-- number of bytes in front of the value -/
  start : Nat
  /-- number of bytes up to the end of the token that starts the value -/
  stop : Nat
  /-- number of filters that were undecided when the value started -/
  awaited : Nat
  deriving DecidableEq, Repr

/-- What is told about a slot. -/
def Slot.notice (s : Slot) : Notice :=
  ⟨s.owner, s.path, s.kind, s.start, s.stop, s.awaited⟩

namespace Slots

/-- What is told about all slots, in their order. -/
def notices (slots : Slots) : List Notice :=
  slots.toList.map Slot.notice

variable (slots : Slots)

theorem getElem?_notices (i : Nat) : slots.notices[i]? = slots[i]?.map Slot.notice := by
  rw [notices, List.getElem?_map, Array.getElem?_toList]

theorem length_notices : slots.notices.length = slots.size := by
  rw [notices, List.length_map, Array.length_toList]

theorem notices_judge (rulings : List Ruling) : (judge rulings slots).notices = slots.notices := by
  apply List.ext_getElem?
  intro i
  rw [getElem?_notices, getElem?_notices, getElem?_judge, Option.map_map]
  rfl

theorem notices_complete (value : Bytes) (numbers : List Nat) :
    (slots.complete value numbers).notices = slots.notices := by
  apply List.ext_getElem?
  intro i
  rw [getElem?_notices, getElem?_notices, getElem?_complete, Option.map_map]
  congr 1
  funext s
  rw [Function.comp_apply]
  split <;> rfl

theorem notices_push (s : Slot) : notices (slots.push s) = slots.notices ++ [s.notice] := by
  simp [notices]

end Slots

/-! ## Undecided filters

How many filters a new slot waits for is read off the frames. The count goes by the outlines, so
it is the same before and after other slots have begun to wait. -/

/-- The number of filters of a path on open containers that are undecided. -/
def Frames.undecided (owner : Nat) (frames : List Frame) : Nat :=
  (frames.flatMap (·.checksOf owner)).countP (·.isUndecided)

namespace Frames

variable (owner : Nat) {frames frames' : List Frame}

theorem undecided_cons (f : Frame) (outer : List Frame) :
    undecided owner (f :: outer) = (f.checksOf owner).countP (·.isUndecided) + undecided owner outer := by
  rw [undecided, List.flatMap_cons, List.countP_append, undecided]

/-- Slots that wait change nothing in what is undecided. -/
theorem undecided_outline : undecided owner (frames.map Frame.outline) = undecided owner frames := by
  simp only [undecided, List.flatMap_map, Frame.checksOf_outline, ← List.map_flatMap, List.countP_map]
  rfl

theorem undecided_congr (h : frames'.map Frame.outline = frames.map Frame.outline) :
    undecided owner frames' = undecided owner frames := by
  rw [← undecided_outline, h, undecided_outline]

end Frames

/-! ## Reserving slots

The slots for a value are reserved one by one, arrival by arrival and mark by mark, and each of
these steps changes the frames a little, as the slot begins to wait. What is told about a slot
can be said in advance nevertheless, from the frames as they are when the value is entered. The
lemmas go from a mark over an arrival to a token, and from a token to a run. -/

namespace Arrival

variable (v : Value) (frames : List Frame) (a : Arrival)

/-- What is told about the slot for a mark behind `count` filters, unless one of these has failed.
The number of undecided filters is that of the containers around the value and of the first
`count` filters on the value itself. -/
def notice? (count : Nat) : Option Notice :=
  let own := (a.trail v).checks.take count
  if own.any (·.isFailed) then none
  else
    some
      { owner := a.owner, path := a.path, kind := v.kind, start := v.start, stop := v.stop
        awaited := Frames.undecided a.owner frames + own.countP (·.isUndecided) }

/-- What is told about the slots that are reserved for an arrival inside of `frames`. -/
def notices : List Notice :=
  a.level.marks.filterMap (a.notice? v frames)

end Arrival

namespace Walk

variable {v : Value} {a : Arrival} {frames : List Frame}

/-- A mark adds the notice about its slot, if it gets one. The staging may already hold other
slots; only the outlines of its checks and frames matter. -/
theorem Staging.notices_mark (s : Staging) (hchecks : s.checks.map Check.outline = (a.trail v).checks)
    (hframes : s.walk.frames.map Frame.outline = frames.map Frame.outline) (count : Nat) :
    (s.mark v a count).walk.slots.notices =
      s.walk.slots.notices ++ (a.notice? v frames count).toList := by
  -- no slot that waits is seen by either side
  have hfailed : ((a.trail v).checks.take count).any (·.isFailed) =
      (s.checks.take count).any (·.isFailed) := by
    rw [← hchecks, ← List.map_take, List.any_map]
    rfl
  have hown : ((a.trail v).checks.take count).countP (·.isUndecided) =
      (s.checks.take count).countP (·.isUndecided) := by
    rw [← hchecks, ← List.map_take, List.countP_map]
    rfl
  rw [Arrival.notice?, hfailed, hown, ← Frames.undecided_congr a.owner hframes, mark]
  dsimp only
  split
  · rw [Option.toList_none, List.append_nil]
  · rw [Option.toList_some, Slots.notices_push, Slot.notice, List.countP_append, Frames.undecided]

/-- All marks of an arrival add their notices. -/
theorem Staging.notices_foldl_mark (s : Staging)
    (hchecks : s.checks.map Check.outline = (a.trail v).checks)
    (hframes : s.walk.frames.map Frame.outline = frames.map Frame.outline) (counts : List Nat) :
    (counts.foldl (mark v a) s).walk.slots.notices =
      s.walk.slots.notices ++ counts.filterMap (a.notice? v frames) := by
  induction counts generalizing s with
  | nil => rw [List.foldl_nil, List.filterMap_nil, List.append_nil]
  | cons count counts ih =>
    rw [List.foldl_cons, ih _ ((outline_checks_mark v a s count).trans hchecks)
      ((walk_mark_like v a s count).frames.trans hframes), notices_mark s hchecks hframes,
      List.append_assoc, List.filterMap_cons]
    cases a.notice? v frames count <;> rfl

/-- So do all arrivals at a value. -/
theorem notices_foldl_arrive (p : Placement)
    (hframes : p.walk.frames.map Frame.outline = frames.map Frame.outline) (arrivals : List Arrival) :
    (arrivals.foldl (Placement.arrive v) p).walk.slots.notices =
      p.walk.slots.notices ++ arrivals.flatMap (Arrival.notices v frames) := by
  induction arrivals generalizing p with
  | nil => rw [List.foldl_nil, List.flatMap_nil, List.append_nil]
  | cons a arrivals ih =>
    have hchecks : ((a.trail v).checks).map Check.outline = (a.trail v).checks := by
      simp [Arrival.trail, Function.comp_def]
    rw [List.foldl_cons, ih _ ((Placement.walk_arrive_like v p a).frames.trans hframes), List.flatMap_cons,
      ← List.append_assoc]
    congr 1
    exact Staging.notices_foldl_mark ⟨p.walk, _, p.reserved⟩ hchecks hframes a.level.marks

/-- The slots reserved for a value add their notices. The frames on the right are those in front
of the value: what later marks see of earlier ones is not part of an outline. -/
theorem notices_begin (v : Value) (arrivals : List Arrival) (w : Walk) :
    (w.begin v arrivals).slots.notices =
      w.slots.notices ++ arrivals.flatMap (Arrival.notices v w.frames) := by
  have hplaced := @notices_foldl_arrive v w.frames { walk := w } rfl arrivals
  rw [begin]
  split
  · rw [openFrame, slots_write]
    exact hplaced
  · rw [completeScalar, slots_write, Slots.notices_complete]
    exact hplaced

variable (paths : List Path) (w : Walk)

/-- A member that decides filters of its object adds no notices. -/
theorem notices_enter (v : Value) : (w.enter paths v).2.slots.notices = w.slots.notices := by
  cases hw : w.frames with
  | nil => simp only [enter, hw]
  | cons parent outer => rw [slots_enter paths v hw, Frame.decided_eq_judge, Slots.notices_judge]

/-- What is told about the slots that are reserved for a value. -/
def notices (v : Value) : List Notice :=
  (w.enter paths v).1.flatMap (Arrival.notices v (w.enter paths v).2.frames)

theorem notices_arrive (v : Value) :
    (w.arrive paths v).slots.notices = w.slots.notices ++ w.notices paths v := by
  rw [arrive_eq_begin, notices_begin, notices_enter, notices]

theorem notices_name (raw : Bytes) : (w.name raw).slots.notices = w.slots.notices := by
  cases hw : w.frames with
  | nil => simp only [name, hw]
  | cons f outer => rw [slots_name hw]

theorem notices_close : w.close.slots.notices = w.slots.notices := by
  rw [close]
  split
  · rfl
  · split
    · simp only [slots_write, Frame.closed_eq_judge, Slots.notices_judge]
    · simp only [Slots.notices_complete, slots_write, Frame.closed_eq_judge, Slots.notices_judge]

end Walk

/-- A value stands at the token that starts it. -/
theorem Lexed.place_of_value? {l : Lexed} {v : Value} (h : l.value? = some v) :
    v.start = l.start ∧ v.stop = l.stop := by
  rw [value?] at h
  split at h <;> cases h <;> exact ⟨rfl, rfl⟩

theorem start_of_notice? {a : Arrival} {v : Value} {frames : List Frame} {count : Nat} {n : Notice}
    (h : a.notice? v frames count = some n) : n.start = v.start := by
  rw [Arrival.notice?] at h
  split at h <;> cases h
  rfl

namespace Walk

variable (paths : List Path)

/-- A token adds the notices about the slots for the value that it starts. A name, a separator or
the end of a container starts no value and so adds none. -/
theorem notices_token (w : Walk) (l : Lexed) :
    (w.token paths l).slots.notices = w.slots.notices ++ l.value?.toList.flatMap (w.notices paths) := by
  rw [token, Lexed.value?]
  cases l.token with
  | name raw => simpa using notices_name w raw
  | closing c => simpa using notices_close w
  | scalar kind raw => simpa using notices_arrive paths w _
  | opening c => simpa using notices_arrive paths w _

/-- What is told of a value stands where the value stands. -/
theorem of_mem_notices {w : Walk} {v : Value} {n : Notice} (h : n ∈ w.notices paths v) :
    ∃ a ∈ (w.enter paths v).1, ∃ count ∈ a.level.marks,
      a.notice? v (w.enter paths v).2.frames count = some n := by
  obtain ⟨a, ha, hn⟩ := List.mem_flatMap.1 h
  obtain ⟨count, hcount, hn⟩ := List.mem_filterMap.1 hn
  exact ⟨a, ha, count, hcount, hn⟩

/-- Tokens in order add notices in order. This is why the journal of a document lists the slots by
where their values start. -/
theorem notices_run {first last : Nat} {tokens : List Lexed} (h : Lexed.Row first tokens last) (w : Walk) :
    ∃ more, (w.run paths tokens).slots.notices = w.slots.notices ++ more ∧
      more.Pairwise (·.start ≤ ·.start) ∧ ∀ n ∈ more, first ≤ n.start := by
  induction tokens generalizing first w with
  | nil => exact ⟨[], (List.append_nil _).symm, .nil, by simp⟩
  | cons l tokens ih =>
    obtain ⟨hfirst, hlt, hrest⟩ := h
    obtain ⟨more, hmore, hordered, hbehind⟩ := ih hrest (w.token paths l)
    -- all slots for one value stand at its token
    have hhere : ∀ n ∈ l.value?.toList.flatMap (w.notices paths), n.start = l.start := by
      intro n hn
      obtain ⟨v, hv, hn⟩ := List.mem_flatMap.1 hn
      obtain ⟨a, -, count, -, hn⟩ := of_mem_notices paths hn
      rw [start_of_notice? hn, (Lexed.place_of_value? (Option.mem_toList.1 hv)).1]
    refine ⟨l.value?.toList.flatMap (w.notices paths) ++ more, ?_, ?_, ?_⟩
    · rw [← List.append_assoc, ← notices_token]
      exact hmore
    · refine List.pairwise_append.2 ⟨List.pairwise_of_forall_mem_list ?_, hordered, ?_⟩
      · intro n hn n' hn'
        exact Nat.le_of_eq ((hhere n hn).trans (hhere n' hn').symm)
      · intro n hn n' hn'
        rw [hhere n hn]
        exact Nat.le_trans (Nat.le_of_lt hlt) (hbehind n' hn')
    · intro n hn
      rcases List.mem_append.1 hn with hn | hn
      · rw [hhere n hn]
        exact hfirst
      · exact Nat.le_trans (Nat.le_trans hfirst (Nat.le_of_lt hlt)) (hbehind n hn)

end Walk

/-! ## Marks

The number of slots is bounded by what was marked in the texts of the paths. The links of a path
are collected into levels and no mark is lost or doubled on the way; a value is reached by a
path at one level at most, so it has no more slots than the paths have marks. -/

namespace Level

/-- A level has as many marks as its links. -/
theorem length_marksOf (marked : Bool) (waiting : List Waiting) :
    (marksOf marked waiting).length = (if marked then 1 else 0) + waiting.countP (·.marked) := by
  have hlater : ∀ n, ((waiting.zipIdx n).filterMap fun p =>
      if p.1.marked then some p.2 else none).length = waiting.countP (·.marked) := by
    induction waiting with
    | nil => exact fun n => rfl
    | cons w waiting ih =>
      intro n
      rw [List.zipIdx_cons, List.filterMap_cons, List.countP_cons, ← ih (n + 1)]
      cases w.marked <;> simp
  rw [marksOf, List.length_append]
  refine congrArg₂ (· + ·) ?_ (hlater 1)
  cases marked <;> rfl

/-- Links are put into levels with all their marks. The marks on the filters in front of the first
selector are left to the caller, and all others are on the levels that are collected. -/
theorem sum_length_collect (place : Nat) (links : List Link) :
    (collect place links).1.countP (·.marked) + ((collect place links).2.map (·.marks.length)).sum =
      links.countP (·.marked) := by
  induction links generalizing place with
  | nil => rfl
  | cons link links ih =>
    have hrest := ih (place + 1)
    rw [collect, List.countP_cons, ← hrest]
    cases link.part with
    | filter f =>
      simp only [List.countP_cons]
      omega
    | selector s =>
      simp only [List.countP_nil, List.map_cons, List.sum_cons, length_marksOf]
      omega

/-- No level has more marks than its path. -/
theorem length_marks_le {text : String} {p : Path} (hp : Path.parse text = .ok p) {level : Level}
    (hlevel : level ∈ p.levels) : level.marks.length ≤ p.markCount := by
  obtain ⟨links, -, rfl⟩ := Path.exists_spells_of_parse hp
  have hcollect : level ∈ (collect 0 links).2 := by
    rw [Path.ofLinks, ofLinks] at hlevel
    cases hlevels : (collect 0 links).2 with
    | nil =>
      rw [hlevels] at hlevel
      cases hlevel
    | cons top below =>
      rw [hlevels, trim] at hlevel
      exact List.mem_cons.2 ((List.mem_cons.1 hlevel).imp id ((isPrefix_trimAll below).subset ·))
  have hsum := sum_length_collect 0 links
  have hone : level.marks.length ≤ ((collect 0 links).2.map (·.marks.length)).sum :=
    List.le_sum_of_mem (List.mem_map_of_mem hcollect)
  change level.marks.length ≤ links.countP (·.marked)
  omega

end Level

/-- The number of marks of all paths. -/
def Paths.markCount (paths : List Path) : Nat :=
  (paths.map Path.markCount).sum

/-- What is counted for different paths is counted at most once for each path. -/
theorem Paths.sum_le_markCount {paths : List Path} {owners : List Nat} (hnodup : owners.Nodup)
    (hlt : ∀ owner ∈ owners, owner < paths.length) :
    (owners.map fun owner => (paths[owner]?.map Path.markCount).getD 0).sum ≤ markCount paths := by
  have hall : (List.range paths.length).map (fun owner => (paths[owner]?.map Path.markCount).getD 0) =
      paths.map Path.markCount := by
    apply List.ext_getElem (by simp)
    intro i hi _
    simp only [List.length_map, List.length_range] at hi
    simp [hi]
  obtain ⟨some, hperm, hsub⟩ := List.subperm_of_subset hnodup fun owner h => List.mem_range.2 (hlt owner h)
  rw [markCount, ← hall, ← (hperm.map _).sum_eq]
  exact (hsub.map _).sum_le_sum fun _ _ => Nat.zero_le _

namespace Walk

variable {paths : List Path} {w : Walk}

/-- A token adds no more notices than there are marks: one path leads to a value at one level at
most. Paths are counted by their numbers, and no number is among the arrivals at a value twice. -/
theorem length_notices_le (hp : ∀ p ∈ paths, ∃ text, Path.parse text = .ok p)
    (hf : Frames.Follow paths w.frames) (v : Value) :
    (w.notices paths v).length ≤ Paths.markCount paths := by
  obtain ⟨-, hnodup, hfollows⟩ := follow_enter v hf
  have hone : ∀ a ∈ (w.enter paths v).1, (a.notices v (w.enter paths v).2.frames).length ≤
      (paths[a.owner]?.map Path.markCount).getD 0 := by
    intro a ha
    obtain ⟨p, hpath, -, hdrop⟩ := hfollows a ha
    have hlevel : a.level ∈ p.levels := List.mem_of_mem_drop (hdrop ▸ List.mem_cons_self)
    obtain ⟨text, htext⟩ := hp p (List.mem_of_getElem? hpath)
    rw [hpath]
    exact Nat.le_trans (List.length_filterMap_le _ _) (Level.length_marks_le htext hlevel)
  have hlt : ∀ owner ∈ (w.enter paths v).1.map (·.owner), owner < paths.length := by
    rw [List.forall_mem_map]
    intro a ha
    obtain ⟨p, hpath, -⟩ := hfollows a ha
    exact (List.getElem?_eq_some_iff.1 hpath).1
  have hall := Paths.sum_le_markCount hnodup hlt
  rw [List.map_map] at hall
  rw [notices, List.length_flatMap]
  exact Nat.le_trans (List.sum_le_sum hone) hall

/-- Tokens add no more notices than they have marks to go with. -/
theorem length_notices_run_le (hp : ∀ p ∈ paths, ∃ text, Path.parse text = .ok p)
    (hf : Frames.Follow paths w.frames) (tokens : List Lexed) :
    (w.run paths tokens).slots.notices.length ≤
      w.slots.notices.length + tokens.length * Paths.markCount paths := by
  induction tokens generalizing w with
  | nil => exact Nat.le_add_right _ _
  | cons l tokens ih =>
    have hrest := ih (follow_token l hf)
    have hfirst : (l.value?.toList.flatMap (w.notices paths)).length ≤ Paths.markCount paths := by
      cases l.value? with
      | none => exact Nat.zero_le _
      | some v =>
        rw [Option.toList_some, List.flatMap_singleton]
        exact length_notices_le hp hf v
    rw [notices_token, List.length_append] at hrest
    rw [List.length_cons, Nat.add_mul, Nat.one_mul]
    exact Nat.le_trans hrest (by omega)

end Walk

end JsonExtract
