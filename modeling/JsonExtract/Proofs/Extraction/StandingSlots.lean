import JsonExtract.Proofs.Extraction.Settlement
import Mathlib.Logic.Function.Basic

/-!
# Slots that stand

In the middle of a document nobody knows how the undecided filters on open containers will come out,
and which containers will be closed. Given a sequel for each depth, a slot stands if it is not dead,
all filters that it waits for will hold, and its value will be complete: that is, if it has a prospect.
All that is known about slots in the middle of a document follows from looking at the same slots under
several sequels.

Containers are opened and closed on the way, so the sequels go by depth here, with the outermost
container at depth zero, and sequels for containers that are not open yet are given in advance. What a
token does is foretold by the sequel in front of it, for every sequel behind it.

* `Sequel.downFrom` — the sequels of open containers, the innermost first;
* `Frames.lets` — the paths that open containers let through;
* `Walk.standing` — which slots stand;
* `Walk.standing_enter`, `Walk.standing_close` — a child, and the end of a container;
* `Walk.standing_begin` — new slots.
-/

namespace JsonExtract

/-! ## Depths -/

namespace Sequel

/-- The sequels of some open containers, given one for each depth, the innermost first. -/
def downFrom (sequels : Nat → Sequel) : Nat → List Sequel
  | 0 => []
  | depth + 1 => sequels depth :: downFrom sequels depth

variable {sequels sequels' : Nat → Sequel} {n : Nat}

theorem downFrom_congr (h : ∀ depth < n, sequels' depth = sequels depth) :
    downFrom sequels' n = downFrom sequels n := by
  induction n with
  | zero => rfl
  | succ n ih =>
    rw [downFrom, downFrom, h n (Nat.lt_succ_self n), ih fun depth hd => h depth (Nat.lt_succ_of_lt hd)]

/-- A sequel for the innermost container, and the others as they are. -/
theorem downFrom_update (sequels : Nat → Sequel) (n : Nat) (sequel : Sequel) :
    downFrom (Function.update sequels n sequel) (n + 1) = sequel :: downFrom sequels n := by
  rw [downFrom, Function.update_self,
    downFrom_congr fun depth hd => Function.update_of_ne (Nat.ne_of_lt hd) sequel sequels]

end Sequel

namespace Frames

/-- Whether all open containers let a path pass, with a sequel for each depth. -/
def lets (sequels : Nat → Sequel) (owner : Nat) (frames : List Frame) : Bool :=
  pass frames (Sequel.downFrom sequels frames.length) owner

variable {sequels sequels' : Nat → Sequel} {frames frames' : List Frame} {owner : Nat}

theorem lets_cons (sequels : Nat → Sequel) (owner : Nat) (f : Frame) (outer : List Frame) :
    lets sequels owner (f :: outer) =
      (f.passes (sequels outer.length) owner && lets sequels owner outer) :=
  pass_cons ..

theorem lets_congr (h : ∀ depth < frames.length, sequels' depth = sequels depth) :
    lets sequels' owner frames = lets sequels owner frames := by
  rw [lets, lets, Sequel.downFrom_congr h]

theorem lets_like (h : frames'.map Frame.outline = frames.map Frame.outline) :
    lets sequels owner frames' = lets sequels owner frames := by
  rw [lets, lets, length_congr h, pass_congr _ _ h]

end Frames

/-! ## Slots

A slot with a prospect stands, whatever its prospect is. So it makes no difference whether the value is
complete already. -/

namespace Slots

variable {slots : Slots}

theorem getElem?_isSome_prospects (lost : List Nat) (slots : Slots) (i : Nat) :
    ((slots.prospects lost).map Option.isSome)[i]? =
      slots[i]?.map fun s => !s.dead && !lost.contains i := by
  rw [List.getElem?_map, getElem?_prospects, Option.map_map]
  congr 1
  funext s
  rw [Function.comp_apply, Slot.prospect?]
  cases s.dead <;> cases lost.contains i <;> rfl

theorem isSome_prospects_complete (lost : List Nat) (value : Bytes) (numbers : List Nat) :
    ((slots.complete value numbers).prospects lost).map Option.isSome =
      (slots.prospects lost).map Option.isSome := by
  apply List.ext_getElem?
  intro i
  rw [getElem?_isSome_prospects, getElem?_isSome_prospects, getElem?_complete, Option.map_map]
  congr 1
  funext s
  rw [Function.comp_apply]
  split <;> rfl

end Slots

/-! ## Walks -/

namespace Walk

/-- Which slots stand, given a sequel for each depth. The sequels are numbered from the outermost
container on, so that opening and closing a container leaves those of the others as they are. -/
def standing (sequels : Nat → Sequel) (w : Walk) : List Bool :=
  (w.prospects (Sequel.downFrom sequels w.frames.length)).map Option.isSome

variable {w : Walk} {f : Frame} {outer : List Frame} (sequels : Nat → Sequel)

theorem standing_congr {sequels' : Nat → Sequel}
    (h : ∀ depth < w.frames.length, sequels' depth = sequels depth) :
    w.standing sequels' = w.standing sequels := by
  rw [standing, standing, Sequel.downFrom_congr h]

/-- A sequel for the innermost container, and the others as they are. -/
theorem standing_update (hw : w.frames = f :: outer) (sequel : Sequel) :
    w.standing (Function.update sequels outer.length sequel) =
      (w.prospects (sequel :: Sequel.downFrom sequels outer.length)).map Option.isSome := by
  rw [standing, hw, List.length_cons, Sequel.downFrom_update]

/-- A child makes true what its sequel says. -/
theorem standing_enter {c : Child × Tree} {v : Value} (paths : List Path)
    (hw : w.frames = f :: outer) (hc : f.Awaits c) (hv : v.text? = c.2.text?) :
    (w.enter paths v).2.standing sequels =
      w.standing (Function.update sequels outer.length ((sequels outer.length).behind c)) := by
  rw [standing_update sequels hw, ← prospects_enter paths _ _ hw hc hv, standing,
    frames_entered paths v hw hv]
  rfl

/-- The end of a container refuses what is undecided, and completes what waits for its text. -/
theorem standing_close (hw : w.frames = f :: outer) :
    w.close.standing sequels = w.standing (Function.update sequels outer.length .closed) := by
  rw [standing_update sequels hw, ← prospects_closed _ hw, close, standing]
  split
  · next hnone => cases hnone.symm.trans hw
  · next hw' =>
    cases hw'.symm.trans hw
    split
    · rw [prospects, slots_write, frames_write]
    · dsimp only
      rw [prospects, slots_write, frames_write, Slots.isSome_prospects_complete]

/-! ### New slots

A value has its own sequel, at the depth behind the open containers. A scalar is complete at once, and
leaves no filter on it undecided, so its sequel does not matter. -/

/-- Which of the new slots for an arrival stand: by the filters in front of their marks, by the
containers around the value, and by the value. -/
def arrivalStands (sequel : Sequel) (frames : List Frame) (v : Value) (a : Arrival) : List Bool :=
  a.level.marks.flatMap fun count =>
    if ((a.trail v).checks.take count).any (·.isFailed) then []
    else [Frames.lets sequels a.owner frames &&
      ((a.trail v).checks.take count).all (·.outcome sequel) && sequel.ends]

theorem isSome_prospects_arrival (sequel : Sequel) (frames : List Frame) (v : Value) (a : Arrival) :
    (a.prospects sequel (Sequel.downFrom sequels frames.length) frames v).map Option.isSome =
      arrivalStands sequels sequel frames v a := by
  rw [Arrival.prospects, List.map_flatMap, arrivalStands]
  refine List.flatMap_congr fun count _ => ?_
  rw [Arrival.prospectsAt]
  split
  · rfl
  · rw [List.map_singleton, Frames.lets]
    congr 1
    split
    · next hpass => exact hpass.symm
    · next hpass => exact (Bool.eq_false_iff.2 hpass).symm

/-- The new slots for a value. -/
theorem standing_begin {v : Value} {arrivals : List Arrival} (hb : w.Balanced)
    (hclear : ∀ a ∈ arrivals, Frames.Clear w.frames a.owner)
    (hends : v.kind.container? = none → (sequels w.frames.length).ends = true) :
    (w.begin v arrivals).standing sequels = w.standing sequels ++
      arrivals.flatMap (arrivalStands sequels (sequels w.frames.length) w.frames v) := by
  let p := w.placed v arrivals
  have hlength : p.walk.frames.length = w.frames.length :=
    Frames.length_congr (placed_like v arrivals w).frames
  have hplaced : (p.prospects (sequels w.frames.length)
      (Sequel.downFrom sequels w.frames.length)).map Option.isSome = w.standing sequels ++
        arrivals.flatMap (arrivalStands sequels (sequels w.frames.length) w.frames v) := by
    rw [(placed_reserves _ _ hb hclear).1, List.map_append, List.map_flatMap]
    simp only [isSome_prospects_arrival]
    rfl
  rw [← hplaced, begin, standing]
  split
  · rw [frames_openFrame, List.length_cons, hlength, Sequel.downFrom, prospects_openFrame]
  · next hc =>
    have hv : v.kind ≠ .object := fun hv => by
      rw [hv] at hc
      cases hc
    rw [Placement.prospects_eq_walk _ _ (queue_placed_eq_nil hv ..) (hends hc), prospects,
      completeScalar, slots_write, frames_write, Slots.isSome_prospects_complete]
    dsimp only
    rw [hlength]
    rfl

end Walk

end JsonExtract
