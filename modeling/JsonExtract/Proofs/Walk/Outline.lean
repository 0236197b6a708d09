import JsonExtract.Session.Walk

/-!
# Outlines of frames

Where a path leads and what is known about its filters does not depend on the slots that wait. The
outline of a frame is the frame without them. Reserving slots for a value changes no outline, and the
trails into the value start out as its arrivals say.

* `Check.outline`, `Trail.outline`, `Frame.outline` — without the slots that wait;
* `Arrival.trail` — the trail of an arrival, before any slot waits;
* `Walk.Like` — walks that differ in slots only;
* `Walk.placed`, `Walk.placed_like`, `Walk.trails_placed` — what reserving slots leaves alone.
-/

namespace JsonExtract

/-! ## Outlines

Only one field of a check changes while the value behind its filter is not there yet: the list
of slots that wait. Everything that a trail is asked, whether it is blocked, where it leads,
which of its filters are undecided, is answered from the other fields, and so it is the same for
the outline. -/

namespace Check

/-- A filter without the slots that wait for it. -/
def outline (c : Check) : Check :=
  { c with waiting := [] }

@[simp]
theorem outline_await (number : Nat) (c : Check) : (c.await number).outline = c.outline := by
  rw [await]
  split <;> rfl

@[simp]
theorem outline_outline (c : Check) : c.outline.outline = c.outline := rfl

@[simp]
theorem isUndecided_outline (c : Check) : c.outline.isUndecided = c.isUndecided := rfl

@[simp]
theorem isFailed_outline (c : Check) : c.outline.isFailed = c.isFailed := rfl

/-- Nothing waits for a filter on a value that just starts. -/
@[simp]
theorem outline_start (isObject : Bool) (filter : Filter) :
    (start isObject filter).outline = start isObject filter := by
  rw [start]
  split <;> rfl

/-- Only a filter on an object can be undecided. -/
theorem isUndecided_start_false (filter : Filter) : (start false filter).isUndecided = false := by
  rw [start]
  cases filter.constant? with
  | none => rfl
  | some outcome => cases outcome <;> rfl

end Check

/-- A trail without the slots that wait for its filters. -/
def Trail.outline (t : Trail) : Trail :=
  { t with checks := t.checks.map Check.outline }

/-- A frame without the slots that wait for its filters. -/
def Frame.outline (f : Frame) : Frame :=
  { f with trails := f.trails.map Trail.outline }

@[simp]
theorem Frame.outline_await (owner number : Nat) (f : Frame) :
    (f.await owner number).outline = f.outline := by
  simp only [outline, await, List.map_map, mk.injEq, true_and, and_true]
  apply List.map_congr_left
  intro t _
  simp only [Function.comp_apply]
  split
  · simp [Trail.outline]
  · rfl

/-! ## Reserving slots

When a value starts, its arrivals are gone through in order, and each reserves its slots. That
makes slots wait, for filters on the containers outside and on the value itself, but it opens no
container and writes nothing. So an arrival further behind finds the same frames as the first
one, as far as outlines go. -/

/-- The trail of an arrival at a value, before any slot waits. Its filters are those of the
arrival's level, decided as far as the kind of the value decides them. -/
def Arrival.trail (v : Value) (a : Arrival) : Trail :=
  ⟨a.owner, a.path, a.below, a.level.guards.map fun g => .start (v.kind = .object) g.filter⟩

namespace Walk

/-- Walks that differ in their slots only. A step that leads from a walk to one like it can be
skipped by every statement that does not speak of slots. -/
structure Like (w w' : Walk) : Prop where
  frames : w'.frames.map Frame.outline = w.frames.map Frame.outline
  tape : w'.tape = w.tape
  recordings : w'.recordings = w.recordings

namespace Like

variable {w w' w'' : Walk}

theorem refl (w : Walk) : w.Like w :=
  ⟨rfl, rfl, rfl⟩

theorem trans (h : w.Like w') (h' : w'.Like w'') : w.Like w'' :=
  ⟨h'.frames.trans h.frames, h'.tape.trans h.tape, h'.recordings.trans h.recordings⟩

end Like

namespace Staging

variable (v : Value) (a : Arrival) (s : Staging) (count : Nat)

theorem walk_mark_like : s.walk.Like (s.mark v a count).walk := by
  rw [mark]
  split
  · exact .refl _
  · exact ⟨by simp, rfl, rfl⟩

/-- The filters on the value are known no better than before. -/
@[simp]
theorem outline_checks_mark :
    (s.mark v a count).checks.map Check.outline = s.checks.map Check.outline := by
  rw [mark]
  split
  · rfl
  · simp only [List.map_append, List.map_map, Function.comp_def, Check.outline_await]
    rw [← List.map_append, List.take_append_drop]

theorem outline_checks_foldl_mark (counts : List Nat) :
    (counts.foldl (mark v a) s).checks.map Check.outline = s.checks.map Check.outline := by
  induction counts generalizing s with
  | nil => rfl
  | cons n ns ih => rw [List.foldl_cons, ih, outline_checks_mark]

theorem walk_foldl_mark_like (counts : List Nat) :
    s.walk.Like (counts.foldl (mark v a) s).walk := by
  induction counts generalizing s with
  | nil => exact .refl _
  | cons n ns ih => exact (walk_mark_like v a s n).trans (ih _)

end Staging

namespace Placement

variable (v : Value) (p : Placement) (a : Arrival)

theorem walk_arrive_like : p.walk.Like (p.arrive v a).walk :=
  Staging.walk_foldl_mark_like v a ⟨p.walk, _, p.reserved⟩ a.level.marks

theorem trails_arrive :
    (p.arrive v a).trails.map Trail.outline = a.trail v :: p.trails.map Trail.outline := by
  simp [arrive, Trail.outline, Arrival.trail, Staging.outline_checks_foldl_mark, Function.comp_def]

end Placement

/-- Slots for all arrivals at a value. The container of the value, if it is one, is not open yet,
and a scalar is not written yet. -/
def placed (v : Value) (arrivals : List Arrival) (w : Walk) : Placement :=
  arrivals.foldl (Placement.arrive v) { walk := w }

variable (v : Value) (arrivals : List Arrival)

theorem foldl_arrive_like (p : Placement) :
    p.walk.Like (arrivals.foldl (Placement.arrive v) p).walk := by
  induction arrivals generalizing p with
  | nil => exact .refl _
  | cons a as ih => exact (Placement.walk_arrive_like v p a).trans (ih _)

theorem placed_like (w : Walk) : w.Like (w.placed v arrivals).walk :=
  foldl_arrive_like v arrivals { walk := w }

theorem trails_foldl_arrive (p : Placement) :
    (arrivals.foldl (Placement.arrive v) p).trails.map Trail.outline =
      (arrivals.map (Arrival.trail v)).reverse ++ p.trails.map Trail.outline := by
  induction arrivals generalizing p with
  | nil => rfl
  | cons a as ih => rw [List.foldl_cons, ih, Placement.trails_arrive]; simp

/-- The trails into a value, the last one first. The order is that of a list that is built from
the front, and is turned round again when the frame is made. -/
theorem trails_placed (w : Walk) :
    (w.placed v arrivals).trails.map Trail.outline = (arrivals.map (Arrival.trail v)).reverse := by
  rw [placed, trails_foldl_arrive, List.map_nil, List.append_nil]

end Walk

end JsonExtract
