import JsonExtract.Proofs.Extraction.Answer
import JsonExtract.Proofs.Scan.Step

/-!
# Frames and levels

The frames of a walk are the containers that are open, and the trails into a frame are on the levels
that belong to its depth, one for each path at most. Each token keeps it so.

* `Walk.containers`, `Walk.containers_token` — the open containers;
* `Trail.Follows`, `Arrival.Follows` — trails and arrivals on their levels;
* `Frames.Follow`, `Walk.follow_token`, `Walk.follow_run` — all trails of a walk.
-/

namespace JsonExtract

/-! ## Open containers

The walk keeps its own stack of open containers, beside that of the lexer. Every part of a step
is looked at for what it does to the stack: only an opening bracket and the end of a container
do something, and the whole step does what `Token.nest` does. -/

namespace Walk

/-- The open containers, the innermost first. -/
def containers (w : Walk) : List Container :=
  w.frames.map (·.container)

variable (paths : List Path) (v : Value) (w : Walk)

theorem containers_enter : (w.enter paths v).2.containers = w.containers := by
  cases hw : w.frames with
  | nil => simp only [enter, hw]
  | cons parent outer =>
    rw [containers, containers, frames_enter paths v hw, hw, List.map_cons, List.map_cons]
    exact congrArg (· :: _) (Frame.container_entered _ parent)

theorem containers_placed (arrivals : List Arrival) :
    (w.placed v arrivals).walk.containers = w.containers := by
  have houtline : ∀ frames : List Frame,
      frames.map (·.container) = (frames.map Frame.outline).map (·.container) := by
    intro frames
    rw [List.map_map]
    rfl
  rw [containers, containers, houtline, houtline w.frames, (placed_like v arrivals w).frames]

theorem containers_begin (arrivals : List Arrival) :
    (w.begin v arrivals).containers = v.kind.container?.toList ++ w.containers := by
  rw [begin]
  split
  · next c hc =>
    rw [hc, containers, openFrame, frames_write, List.map_cons, ← containers,
      containers_placed v w arrivals]
    rfl
  · next hc =>
    rw [hc, containers, completeScalar, frames_write]
    exact containers_placed v w arrivals

theorem containers_arrive : (w.arrive paths v).containers = v.kind.container?.toList ++ w.containers := by
  rw [arrive_eq_begin, containers_begin, containers_enter]

theorem containers_name (raw : Bytes) : (w.name raw).containers = w.containers := by
  rw [containers, containers, name]
  split
  · rfl
  · next f outer hw =>
    split
    · simp
    · rw [hw]
      rfl

theorem frames_close : w.close.frames = w.frames.tail := by
  rw [close]
  split
  · next hw => rw [hw]; rfl
  · next f outer hw =>
    rw [hw, List.tail_cons]
    split <;> simp only [frames_write]

theorem containers_close : w.close.containers = w.containers.tail := by
  rw [containers, frames_close, containers, List.map_tail]

/-- Frames are opened and closed by brackets, as containers are. Scalars are of no container's kind. -/
theorem containers_token (lexed : Lexed)
    (hs : ∀ kind raw, lexed.token = .scalar kind raw → kind.container? = none) :
    (w.token paths lexed).containers = lexed.token.nest w.containers := by
  rw [token]
  split
  · next h => rw [h, containers_name]; rfl
  · next kind raw h =>
    rw [h, containers_arrive]
    dsimp only
    rw [hs kind raw h]
    rfl
  · next c h =>
    rw [h, containers_arrive]
    dsimp only
    rw [Kind.container?_kind]
    rfl
  · next h => rw [h, containers_close]; rfl

end Walk

/-! ## Trails and levels

A trail holds the rest of a path from the level of its container on. `Follows` says that this
rest is what is left of the path when as many levels are dropped as there are containers
outside, which ties the trail to the path it came from. As a path has one level for each depth,
it cannot lead into one container by two trails. -/

/-- A trail into a container at some depth is on the level of its path for this depth. The trail's
filters are those of the guards on the level, in their order. -/
def Trail.Follows (paths : List Path) (depth : Nat) (t : Trail) : Prop :=
  ∃ p level, paths[t.owner]? = some p ∧ t.path = p.text ∧ p.levels.drop depth = level :: t.below ∧
    t.checks.map (·.filter) = level.guards.map (·.filter)

/-- An arrival at a value at some depth is on the level of its path for this depth. -/
def Arrival.Follows (paths : List Path) (depth : Nat) (a : Arrival) : Prop :=
  ∃ p, paths[a.owner]? = some p ∧ a.path = p.text ∧ p.levels.drop depth = a.level :: a.below

/-- The trails into open containers are on the levels that belong there, and no path leads twice
into a container. The number of frames further out is the depth of a frame. -/
def Frames.Follow (paths : List Path) : List Frame → Prop
  | [] => True
  | f :: outer =>
    f.Distinct ∧ (∀ t ∈ f.trails, t.Follows paths outer.length) ∧ Follow paths outer

section

variable {paths : List Path} {depth : Nat}

theorem Check.filter_start (isObject : Bool) (filter : Filter) :
    (Check.start isObject filter).filter = filter := by
  rw [start]
  split <;> rfl

theorem Check.filter_see (name : Bytes) (text? : Option Bytes) (c : Check) :
    (c.see name text?).filter = c.filter := by
  rw [see]
  split <;> rfl

theorem Trail.follows_outline {t : Trail} : t.outline.Follows paths depth ↔ t.Follows paths depth := by
  have hfilters : t.outline.checks.map (·.filter) = t.checks.map (·.filter) := by
    rw [outline, List.map_map]
    rfl
  rw [Follows, Follows, hfilters]
  rfl

theorem Arrival.follows_trail {a : Arrival} (h : a.Follows paths depth) (v : Value) :
    (a.trail v).Follows paths depth := by
  obtain ⟨p, hp, htext, hdrop⟩ := h
  refine ⟨p, a.level, hp, htext, hdrop, ?_⟩
  rw [trail, List.map_map]
  exact List.map_congr_left fun g _ => Check.filter_start _ g.filter

/-- A trail leads to the next level. -/
theorem Trail.follows_arrival {child : Child} {t : Trail} {a : Arrival} (h : t.Follows paths depth)
    (ha : t.arrival? child = some a) : a.Follows paths (depth + 1) := by
  obtain ⟨p, level, hp, htext, hdrop, -⟩ := h
  obtain ⟨level', below, hbelow, -, -, rfl⟩ := arrival?_eq_some_iff.1 ha
  refine ⟨p, hp, htext, ?_⟩
  rw [← List.drop_drop, hdrop, List.drop_succ_cons, List.drop_zero, hbelow]

theorem Frame.follows_see {f : Frame} (text? : Option Bytes) (h : ∀ t ∈ f.trails, t.Follows paths depth) :
    ∀ t ∈ (f.see text?).trails, t.Follows paths depth := by
  rw [see]
  split
  · rw [mapChecks, List.forall_mem_map]
    intro t ht
    obtain ⟨p, level, hp, htext, hdrop, hfilters⟩ := h t ht
    refine ⟨p, level, hp, htext, hdrop, ?_⟩
    rw [List.map_map, ← hfilters]
    exact List.map_congr_left fun c _ => Check.filter_see _ _ c
  · exact h

/-- At the top every path is on its first level. -/
theorem Walk.follows_arrivals : ∀ a ∈ Walk.arrivals paths, a.Follows paths 0 := by
  intro a ha
  obtain ⟨⟨p, owner⟩, hmem, ha⟩ := List.mem_filterMap.1 ha
  have hp : paths[owner]? = some p := List.mem_zipIdx_iff_getElem?.1 hmem
  dsimp only at ha
  rw [Path.arrival?] at ha
  split at ha
  · next hlevels =>
    cases ha
    exact ⟨p, hp, rfl, hlevels⟩
  · cases ha

end

namespace Frames

variable {paths : List Path} {frames frames' : List Frame}

theorem follow_outline : Follow paths (frames.map Frame.outline) ↔ Follow paths frames := by
  induction frames with
  | nil => exact Iff.rfl
  | cons f outer ih =>
    have hdistinct : f.outline.Distinct ↔ f.Distinct := by
      rw [Frame.Distinct, Frame.Distinct, Frame.outline, List.map_map]
      rfl
    rw [List.map_cons, Follow, Follow, hdistinct, ih, List.length_map]
    refine and_congr_right fun _ => and_congr_left fun _ => ?_
    rw [Frame.outline, List.forall_mem_map]
    exact forall₂_congr fun _ _ => Trail.follows_outline

/-- Slots that wait change nothing in where trails are. Reserving slots changes nothing but these,
so it needs no lemma of its own. -/
theorem follow_congr (h : frames'.map Frame.outline = frames.map Frame.outline) :
    Follow paths frames' ↔ Follow paths frames := by
  rw [← follow_outline, h, follow_outline]

/-- The frame at a depth, the outermost one at zero. -/
theorem Follow.getElem? {depth : Nat} {f : Frame} (h : Follow paths frames)
    (hf : frames.reverse[depth]? = some f) :
    f.Distinct ∧ ∀ t ∈ f.trails, t.Follows paths depth := by
  induction frames with
  | nil => cases hf
  | cons g outer ih =>
    rw [List.reverse_cons, List.getElem?_append] at hf
    split at hf
    · exact ih h.2.2 hf
    · next hlt =>
      rw [List.length_reverse] at hlt hf
      obtain ⟨hdepth, rfl⟩ : depth = outer.length ∧ g = f := by
        rw [List.getElem?_singleton] at hf
        split at hf
        · exact ⟨by omega, Option.some.inj hf⟩
        · cases hf
      exact ⟨h.1, hdepth ▸ h.2.1⟩

end Frames

namespace Walk

variable {paths : List Path} {w : Walk}

/-- The arrivals at a value are on the level for its depth, one for each path at most. They come
from trails on the levels above, and a trail leads to one level only. -/
theorem follow_enter (v : Value) (h : Frames.Follow paths w.frames) :
    Frames.Follow paths (w.enter paths v).2.frames ∧
      (((w.enter paths v).1).map (·.owner)).Nodup ∧
        ∀ a ∈ (w.enter paths v).1, a.Follows paths (w.enter paths v).2.frames.length := by
  cases hw : w.frames with
  | nil =>
    rw [enter_top paths v hw, hw]
    exact ⟨trivial, nodup_arrivals paths, follows_arrivals⟩
  | cons parent outer =>
    rw [hw] at h
    have hsee := Frame.follows_see v.text? h.2.1
    rw [enter_fst paths v hw, frames_enter paths v hw]
    refine ⟨⟨Frame.distinct_entered h.1, hsee, h.2.2⟩, Frame.nodup_arrivals h.1, ?_⟩
    intro a ha
    obtain ⟨t, ht, hta⟩ := List.mem_filterMap.1 ha
    exact Trail.follows_arrival (hsee t ht) hta

/-- The trails into a container that is opened are those of the arrivals at it. -/
theorem outline_trails_frame (c : Container) (v : Value) (arrivals : List Arrival) (w : Walk) :
    ((w.placed v arrivals).frame c).trails.map Trail.outline = arrivals.map (Arrival.trail v) := by
  rw [Placement.frame, List.map_reverse, trails_placed, List.reverse_reverse]

theorem follow_begin (v : Value) {arrivals : List Arrival} (h : Frames.Follow paths w.frames)
    (hd : (arrivals.map (·.owner)).Nodup) (ha : ∀ a ∈ arrivals, a.Follows paths w.frames.length) :
    Frames.Follow paths (w.begin v arrivals).frames := by
  have hframes := (placed_like v arrivals w).frames
  have hplaced : Frames.Follow paths (w.placed v arrivals).walk.frames :=
    (Frames.follow_congr hframes).2 h
  rw [begin]
  split
  · next c _ =>
    have hlength : (w.placed v arrivals).walk.frames.length = w.frames.length := by
      simpa using congrArg List.length hframes
    have htrails := outline_trails_frame c v arrivals w
    rw [frames_openFrame]
    refine ⟨?_, ?_, hplaced⟩
    · have howners := congrArg (List.map (·.owner)) htrails
      rw [List.map_map, List.map_map] at howners
      exact (howners ▸ hd : (((w.placed v arrivals).frame c).trails.map (·.owner)).Nodup)
    · intro t ht
      rw [hlength, ← Trail.follows_outline]
      have hmem := List.mem_map_of_mem (f := Trail.outline) ht
      rw [htrails] at hmem
      obtain ⟨a, haa, hta⟩ := List.mem_map.1 hmem
      exact hta ▸ Arrival.follows_trail (ha a haa) v
  · rw [completeScalar, frames_write]
    exact hplaced

theorem follow_name (raw : Bytes) (h : Frames.Follow paths w.frames) :
    Frames.Follow paths (w.name raw).frames := by
  cases hw : w.frames with
  | nil =>
    simp only [name, hw]
    trivial
  | cons f outer =>
    rw [hw] at h
    rw [frames_name hw]
    exact ⟨by rw [Frame.Distinct, trails_named]; exact h.1, by rw [trails_named]; exact h.2.1, h.2.2⟩

theorem follow_close (h : Frames.Follow paths w.frames) : Frames.Follow paths w.close.frames := by
  rw [frames_close]
  cases hw : w.frames with
  | nil => trivial
  | cons f outer => exact (hw ▸ h : Frames.Follow paths (f :: outer)).2.2

/-- Each token leaves all trails on their levels. Names and ends of containers leave the trails of
the other frames alone, and a value opens a frame with the trails of its arrivals. -/
theorem follow_token (lexed : Lexed) (h : Frames.Follow paths w.frames) :
    Frames.Follow paths (w.token paths lexed).frames := by
  have harrive : ∀ v, Frames.Follow paths (w.arrive paths v).frames := by
    intro v
    obtain ⟨henter, hd, ha⟩ := follow_enter v h
    exact follow_begin v henter hd ha
  rw [token]
  split
  · exact follow_name _ h
  · exact harrive _
  · exact harrive _
  · exact follow_close h

theorem follow_run (tokens : List Lexed) (h : Frames.Follow paths w.frames) :
    Frames.Follow paths (w.run paths tokens).frames := by
  rw [run]
  induction tokens generalizing w with
  | nil => exact h
  | cons lexed tokens ih => exact ih (follow_token lexed h)

end Walk

end JsonExtract
