import JsonExtract.Proofs.Extraction.Descent

/-!
# Every value is settled

A container is opened, its children are read, and it is closed. If somebody asked for the container,
its text is what stands on the tape since it was opened. With that every value is settled, by induction
on the tree, and the slots of a whole document hold the matches that its paths ask for.

* `Walk.Placement.frame` — the frame of a container that is opened;
* `Walk.passes_open`, `Walk.settles_close` — behind the opening bracket and behind the closing one;
* `Walk.settling_container` — a container of values that are settled;
* `Walk.settling` — every value.
-/

namespace JsonExtract

namespace Walk

/-! ## Opening

When a container is opened, the trails of its frame are those of the arrivals, and the recording
notes the slots that ask for its text. What the frame says about the children is then what the
arrivals say. -/

/-- The frame of a container that is opened. -/
def Placement.frame (container : Container) (p : Placement) : Frame where
  container := container
  trails := p.trails.reverse
  recording? := if p.reserved.isEmpty then none else some ⟨p.walk.tape.size, p.reserved.reverse⟩

section

variable (container : Container) (p : Placement)

theorem frames_openFrame :
    (openFrame container p).frames = p.frame container :: p.walk.frames := by
  rw [openFrame, frames_write]
  rfl

theorem recordings_openFrame : (openFrame container p).recordings =
    if p.reserved.isEmpty then p.walk.recordings else p.walk.recordings + 1 := by
  rw [openFrame, recordings_write]

theorem tape_openFrame (h : (openFrame container p).recordings ≠ 0) :
    (openFrame container p).tape.toList = p.walk.tape.toList ++ [container.opening] := by
  rw [recordings_openFrame] at h
  rw [openFrame, tape_write _ _ h]

variable {t : Tree} {start stop : Nat} (arrivals : List Arrival) (w : Walk)

/-- The trails into a container, without the slots that wait. -/
theorem trails_frame_placed :
    ((w.placed (t.value start stop) arrivals).frame container).outline.trails =
      arrivals.map (Arrival.trail (t.value start stop)) := by
  rw [Frame.outline, Placement.frame, List.map_reverse, trails_placed, List.reverse_reverse]

/-- The trails into a container mean what its arrivals mean. The statuses that the filters have
when the value starts do not matter, only what they come to. -/
theorem leads_frame_placed :
    ((w.placed (t.value start stop) arrivals).frame container).leads (.ofMembers t.members) =
      arrivals.map (Arrival.lead t) := by
  rw [← Frame.leads_outline, Frame.leads, trails_frame_placed, List.map_map]
  refine List.map_congr_left fun a _ => ?_
  have hall := a.all_outcome_take t start stop a.level.guards.length
  rw [List.take_length, List.take_of_length_le (by simp [Arrival.trail])] at hall
  rw [Function.comp_apply, Trail.lead, hall]
  rfl

/-- What the trails into a container win in a child, its arrivals win. -/
theorem prizes_frame_placed (sequels : List Sequel) (c : Child × Tree) (place : Way × Tree) :
    (((((w.placed (t.value start stop) arrivals).frame container).leads
        (.ofMembers t.members)).filter fun l =>
        l.passes && Frames.pass (w.placed (t.value start stop) arrivals).walk.frames sequels
          l.owner).flatMap
        (Lead.prizes (Frames.route (w.placed (t.value start stop) arrivals).walk.frames) c place)) =
      (arrivals.filter fun a => Frames.pass w.frames sequels a.owner).flatMap
        (Arrival.prizes (Frames.route w.frames) t (c :: place.1, place.2)) := by
  have hlike := (placed_like (t.value start stop) arrivals w).frames
  rw [leads_frame_placed, Frames.route_congr hlike]
  simp only [Arrival.prizes_cons, Frames.pass_congr sequels _ hlike]

theorem owners_frame_placed :
    ((w.placed (t.value start stop) arrivals).frame container).trails.map (·.owner) =
      arrivals.map (·.owner) := by
  rw [← Frame.owners_leads (.ofMembers t.members), leads_frame_placed, List.map_map]
  rfl

end

/-! ## Closing

Closing decides the filters that are left and, if the container is recorded, takes its text from
the tape. The text is what was written since the place noted at the opening bracket. -/

section

variable {w : Walk} {f : Frame} {outer : List Frame} (hw : w.frames = f :: outer)

include hw

theorem close_of_recording?_eq_none (h : f.recording? = none) :
    w.close = write [f.container.closing] { w with frames := outer, slots := f.closed w.slots } := by
  simp only [close, hw, h]

theorem close_of_recording?_eq_some {recording : Recording} (h : f.recording? = some recording)
    (hr : w.recordings ≠ 0) :
    w.close =
      { frames := outer
        slots := (f.closed w.slots).complete
          ((w.tape ++ [f.container.closing]).extract recording.start
            (w.tape ++ [f.container.closing]).size).toList recording.slots
        tape := if w.recordings = 1 then #[] else w.tape ++ [f.container.closing]
        recordings := w.recordings - 1 } := by
  simp only [close, hw, h, write, if_neg hr]

end

theorem toList_extract_of_append {xs ys : Array UInt8} {text : Bytes}
    (h : ys.toList = xs.toList ++ text) : (ys.extract xs.size ys.size).toList = text := by
  have hdrop : ys.toList.drop xs.size = text := by
    rw [h, ← Array.length_toList, List.drop_left]
  have hlength := congrArg List.length h
  rw [List.length_append, Array.length_toList, Array.length_toList] at hlength
  rw [Array.toList_extract, List.extract_eq_take_drop, hdrop, List.take_of_length_le (by omega)]

/-! ## Containers

Between the two brackets the children were passed. The slots for the container itself, reserved
at its opening bracket, win now that its text is complete, and those of the children have won
already. With this each value is settled if its children are. -/

section

variable {container : Container} {t : Tree} {start stop : Nat} {arrivals : List Arrival}
  {w w' : Walk} {f : Frame} {outer : List Frame} {sequels : List Sequel}
  (h : Passes sequels t.children .closed (Child.row 0 t.children)
    (openFrame container (w.placed (t.value start stop) arrivals))
    ((w.placed (t.value start stop) arrivals).frame container)
    (w.placed (t.value start stop) arrivals).walk.frames w' f outer)

include h

theorem around_inside : outer.map Frame.outline = w.frames.map Frame.outline :=
  h.around.trans (placed_like ..).frames

theorem recordings_inside : w'.recordings =
    if (w.placed (t.value start stop) arrivals).reserved.isEmpty then w.recordings
    else w.recordings + 1 := by
  rw [h.recordings, recordings_openFrame, (placed_like ..).recordings]

theorem recording?_inside : f.recording? =
    if (w.placed (t.value start stop) arrivals).reserved.isEmpty then none
    else some ⟨w.tape.size, (w.placed (t.value start stop) arrivals).reserved.reverse⟩ := by
  rw [h.recording, Placement.frame, (placed_like ..).tape]

/-- The closing bracket completes the text of a container. -/
theorem tape_inside (ht : t.kind.container? = some container) (hr : w'.recordings ≠ 0) :
    (w'.tape ++ [f.container.closing]).toList = w.tape.toList ++ t.text := by
  rw [h.recordings] at hr
  rw [Array.toList_appendList, h.tape hr, tape_openFrame container _ hr, (placed_like ..).tape,
    h.container, Tree.text_eq ht]
  simp [Placement.frame]

/-- In front of the closing bracket, new slots win what there is to win in a container, up to its
own text: `own` are those for the container itself. They are separated because the text comes only
with the closing bracket. -/
theorem prospects_inside (hb : w.Balanced) (hclear : ∀ a ∈ arrivals, Frames.Clear w.frames a.owner) :
    ∃ own news, w'.prospects (.closed :: sequels) = w.prospects sequels ++ own ++ news ∧
      (w.placed (t.value start stop) arrivals).reserved.reverse =
        List.range' (w.prospects sequels).length own.length ∧
      (own.map (·.map (Prospect.complete t.text)) ++ news).filterMap id =
        t.places.flatMap fun place =>
          (arrivals.filter fun a => Frames.pass w.frames sequels a.owner).flatMap
            (Arrival.prizes (Frames.route w.frames) t place) := by
  obtain ⟨hown, hreserved⟩ := placed_reserves (v := t.value start stop) (.ofMembers t.members) sequels
    hb hclear
  obtain ⟨news, hnews, hwon⟩ := h.prospects
  -- all members of the value come in before its end
  have hmembers : Sequel.closed.behindAll t.children = .ofMembers t.members := by
    rw [← Sequel.ofMembers_nil, Sequel.behindAll_ofMembers, List.append_nil, Tree.members_eq]
  rw [hmembers] at hnews hwon
  have hbelow : news.filterMap id = t.children.flatMap fun c => c.2.places.flatMap fun place =>
      (arrivals.filter fun a => Frames.pass w.frames sequels a.owner).flatMap
        (Arrival.prizes (Frames.route w.frames) t (c :: place.1, place.2)) := by
    rw [hwon]
    simp only [prizes_frame_placed]
  refine ⟨arrivals.flatMap (Arrival.prospects (.ofMembers t.members) sequels w.frames
    (t.value start stop)), news, ?_, ?_, ?_⟩
  · rw [hnews, prospects_openFrame, hown]
  · rw [hreserved, List.append_nil, List.reverse_reverse]
  · -- the container itself is its first place, and all others are places in its children
    rw [List.filterMap_append, filterMap_complete, Arrival.complete_prospects, hbelow,
      Tree.places_eq, List.flatMap_cons, List.flatMap_assoc]
    simp only [List.flatMap_map]

/-- A container is settled once it is closed. -/
theorem settles_close (ht : t.kind.container? = some container) (hb : w.Balanced)
    (hclear : ∀ a ∈ arrivals, Frames.Clear w.frames a.owner) :
    Settles sequels t arrivals w w'.close := by
  obtain ⟨own, news, hprospects, hrange, hgain⟩ := prospects_inside h hb hclear
  have hclosed := prospects_closed sequels h.frames
  rw [hprospects] at hclosed
  have hrecordings := recordings_inside h
  have hrecording := recording?_inside h
  -- whether somebody asks for the text of this container decides who takes it from the tape
  cases hasked : (w.placed (t.value start stop) arrivals).reserved.isEmpty with
  | true =>
    rw [hasked, if_pos rfl] at hrecordings hrecording
    have hlength := congrArg List.length hrange
    rw [List.isEmpty_iff.1 hasked, List.length_range'] at hlength
    have hnone : own = [] := List.length_eq_zero_iff.1 hlength.symm
    rw [hnone, List.append_nil] at hclosed
    rw [hnone, List.map_nil, List.nil_append] at hgain
    rw [close_of_recording?_eq_none h.frames hrecording]
    refine ⟨?_, ?_, ?_, news, ?_, hgain⟩
    · rw [frames_write]
      exact around_inside h
    · rw [recordings_write]
      exact hrecordings
    · intro hr
      have hr' : w'.recordings ≠ 0 := hrecordings ▸ hr
      let closed : Walk := { w' with frames := outer, slots := f.closed w'.slots }
      have hwrite := tape_write closed [f.container.closing] hr'
      rw [hwrite, ← tape_inside h ht hr', Array.toList_appendList]
    · rw [prospects, slots_write, frames_write, hclosed]
  | false =>
    rw [hasked, if_neg Bool.false_ne_true] at hrecordings hrecording
    have hr' : w'.recordings ≠ 0 := by omega
    have htape := tape_inside h ht hr'
    have hvalue := toList_extract_of_append htape
    rw [close_of_recording?_eq_some h.frames hrecording hr']
    refine ⟨around_inside h, ?_, ?_, _, ?_, hgain⟩
    · rw [hrecordings, Nat.add_sub_cancel]
    · intro hr
      have hmore : w'.recordings ≠ 1 := by omega
      simp only [if_neg hmore]
      exact htape
    · rw [prospects, hvalue, hrange, Slots.prospects_complete t.text hclosed, List.append_assoc]

end

/-- The first children of a container are read behind its opening bracket. -/
theorem passes_open {t : Tree} {container : Container} (ht : t.kind.container? = some container)
    {cs : List (Child × Tree)} (hs : ∀ c ∈ cs, Settling c.2) (hfit : Child.Fit container 0 cs)
    (paths : List Path) (sequels : List Sequel) (sequel : Sequel) {arrivals : List Arrival}
    {w : Walk} (start stop : Nat) (hb : w.Balanced) (hnodup : (arrivals.map (·.owner)).Nodup)
    (hclear : ∀ a ∈ arrivals, Frames.Clear w.frames a.owner) {inner : List Lexed}
    (hinner : inner.map (·.token) = cs.flatMap Child.tokens) :
    ∃ f outer, Passes sequels cs sequel (Child.row 0 cs)
      (openFrame container (w.placed (t.value start stop) arrivals))
      ((w.placed (t.value start stop) arrivals).frame container)
      (w.placed (t.value start stop) arrivals).walk.frames
      ((openFrame container (w.placed (t.value start stop) arrivals)).run paths inner) f outer := by
  have hlike := (placed_like (t.value start stop) arrivals w).frames
  have hbegin : w.begin (t.value start stop) arrivals =
      openFrame container (w.placed (t.value start stop) arrivals) := by
    rw [begin, show (t.value start stop).kind.container? = some container from ht]
  have howners : ((w.placed (t.value start stop) arrivals).frame container).trails.map (·.owner) =
      arrivals.map (·.owner) :=
    owners_frame_placed container arrivals w
  refine passes_children paths sequels sequel hs
    (hbegin ▸ (begin_advances _ arrivals hb).balanced) (frames_openFrame container _) ?_ ?_ hfit hinner
  · rw [Frame.Distinct, howners]
    exact hnodup
  · intro owner ho
    rw [howners] at ho
    obtain ⟨a, ha, rfl⟩ := List.mem_map.1 ho
    exact (Frames.clear_congr hlike).2 (hclear a ha)

/-- A container whose children are settled is settled. -/
theorem settling_container {t : Tree} (container : Container)
    (ht : t.kind.container? = some container) (hs : ∀ c ∈ t.children, Settling c.2) :
    Settling t := by
  intro paths sequels arrivals w start stop more hb hnodup hclear hmore
  rw [Tree.tokens_eq ht, List.tail_cons] at hmore
  obtain ⟨inner, tail, rfl, hinner, htail⟩ := List.map_eq_append_iff.1 hmore
  obtain ⟨last, none, rfl, hlast, hnone⟩ := List.map_eq_cons_iff.1 htail
  rw [List.map_eq_nil_iff] at hnone
  obtain rfl := hnone
  obtain ⟨f, outer, h⟩ :=
    passes_open ht hs (Tree.fit_children ht) paths sequels .closed start stop hb hnodup hclear hinner
  have hrun : (w.begin (t.value start stop) arrivals).run paths (inner ++ [last]) =
      ((openFrame container (w.placed (t.value start stop) arrivals)).run paths inner).close := by
    rw [run_append, begin, show (t.value start stop).kind.container? = some container from ht,
      run.eq_def _ [last], List.foldl_cons, List.foldl_nil, token, hlast]
  rw [hrun]
  exact settles_close h ht hb hclear

/-- Every value is settled. The induction is over the tree, and a scalar is its base. -/
theorem settling (t : Tree) : Settling t := by
  induction t using Tree.induction with
  | scalar s => exact settling_scalar s
  | array elements ih =>
    apply settling_container .array rfl
    intro c hc
    obtain ⟨e, he, rfl⟩ := List.mem_map.1 hc
    exact ih e.1 (List.fst_mem_of_mem_zipIdx he)
  | object members ih =>
    apply settling_container .object rfl
    intro c hc
    obtain ⟨m, hm, rfl⟩ := List.mem_map.1 hc
    exact ih m hm

end Walk

end JsonExtract
