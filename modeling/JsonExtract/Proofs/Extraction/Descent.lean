import JsonExtract.Proofs.Extraction.Prizes

/-!
# Down a document and up again

What a walk does between the first token of a value and its last: the open containers are the same
again, the text of the value is on the tape if anybody asked for a container around it, and there are
new slots, of which those win that stand for what paths win in the value.

* `Walk.Settles` — the walk behind a value;
* `Walk.Passes` — the walk behind some children of a container;
* `Walk.settling_scalar` — a scalar, wherever it is entered;
* `Walk.passes_child`, `Walk.passes_children` — one child of a container, and several.
-/

namespace JsonExtract

namespace Walk

/-! ## The tape

While a container that is asked for is open, all that is written stays on the tape. When none is
open, nothing is written, so each statement about the tape has the condition that something is
recorded. -/

section

variable (w : Walk) (bytes : Bytes)

@[simp]
theorem recordings_write : (w.write bytes).recordings = w.recordings := by
  rw [write]
  split <;> rfl

theorem tape_write (h : w.recordings ≠ 0) :
    (w.write bytes).tape.toList = w.tape.toList ++ bytes := by
  rw [write, if_neg h]
  simp

@[simp]
theorem recordings_writeComma (f : Frame) : (w.writeComma f).recordings = w.recordings := by
  rw [writeComma]
  split
  · rfl
  · exact recordings_write ..

theorem tape_writeComma (f : Frame) (h : w.recordings ≠ 0) :
    (w.writeComma f).tape.toList =
      w.tape.toList ++ if f.count = 0 then [] else [Ascii.comma] := by
  rw [writeComma]
  split
  · rw [List.append_nil]
  · exact tape_write _ _ h

end

/-! ## Values

What it means that a value was read, from the state behind its arrivals to the state behind its
last token, is put into one structure: the containers around it are open as before, the tape has
its text, and the new slots win exactly the prizes. The first example is a scalar, where all of
this happens in one token. -/

/-- A value in front of some open containers was read, from its arrivals on. The prospects of the
slots that were there already are the same in front of the value and behind it. -/
structure Settles (sequels : List Sequel) (t : Tree) (arrivals : List Arrival) (w w' : Walk) :
    Prop where
  /-- the same containers are open -/
  frames : w'.frames.map Frame.outline = w.frames.map Frame.outline
  /-- the same containers are asked for -/
  recordings : w'.recordings = w.recordings
  /-- their text grows by the value -/
  tape : w.recordings ≠ 0 → w'.tape.toList = w.tape.toList ++ t.text
  /-- new slots win what the arrivals win -/
  prospects : ∃ news, w'.prospects sequels = w.prospects sequels ++ news ∧
    news.filterMap id = t.places.flatMap fun place =>
      (arrivals.filter fun a => Frames.pass w.frames sequels a.owner).flatMap
        (Arrival.prizes (Frames.route w.frames) t place)

/-- A value is always settled, wherever it is entered. For all sequels of the containers around it
and for all arrivals, as long as no filter outside has failed for them. -/
def Settling (t : Tree) : Prop :=
  ∀ (paths : List Path) (sequels : List Sequel) (arrivals : List Arrival) (w : Walk)
    (start stop : Nat) (more : List Lexed), w.Balanced → (arrivals.map (·.owner)).Nodup →
    (∀ a ∈ arrivals, Frames.Clear w.frames a.owner) → more.map (·.token) = t.tokens.tail →
      Settles sequels t arrivals w ((w.begin (t.value start stop) arrivals).run paths more)

/-- New slots for the value itself, completed with its text. -/
theorem filterMap_complete (text : Bytes) (news : List (Option Prospect)) :
    (news.map (·.map (Prospect.complete text))).filterMap id =
      (news.filterMap id).map (Prospect.complete text) := by
  induction news with
  | nil => rfl
  | cons p ps ih =>
    rw [List.map_cons, List.filterMap_cons, List.filterMap_cons, ih]
    cases p <;> rfl

/-- A scalar is complete at once. -/
theorem settling_scalar (s : Scalar) : Settling (.scalar s) := by
  intro paths sequels arrivals w start stop more hb _ hclear hmore
  rw [Tree.tokens, List.tail_cons, List.map_eq_nil_iff] at hmore
  obtain rfl := hmore
  have hkind : ((Tree.scalar s).value start stop).kind.container? = none := by
    cases s <;> rfl
  have hobject : ((Tree.scalar s).value start stop).kind ≠ .object := by
    cases s <;> intro h <;> cases h
  let p := w.placed ((Tree.scalar s).value start stop) arrivals
  have hbegin : (w.begin ((Tree.scalar s).value start stop) arrivals).run paths [] =
      completeScalar s.raw p := by
    rw [begin, hkind]
    rfl
  have hlike : w.Like p.walk := placed_like ..
  obtain ⟨hnews, hreserved⟩ := placed_reserves (v := (Tree.scalar s).value start stop)
    (.ofMembers (Tree.scalar s).members) sequels hb hclear
  let news := arrivals.flatMap (Arrival.prospects (.ofMembers (Tree.scalar s).members) sequels w.frames
    ((Tree.scalar s).value start stop))
  rw [hbegin]
  refine ⟨?_, ?_, fun hr => ?_, news.map (·.map (Prospect.complete s.raw)), ?_, ?_⟩
  · rw [completeScalar, frames_write]
    exact hlike.frames
  · rw [completeScalar, recordings_write]
    exact hlike.recordings
  · rw [completeScalar, tape_write _ _ (by rw [hlike.recordings]; exact hr), hlike.tape, Tree.text]
  -- no filter on a scalar is undecided, so nothing is lost that was reserved for it
  · rw [Placement.prospects_eq_walk _ _ (queue_placed_eq_nil hobject ..) rfl,
      ← List.append_nil (_ ++ _)] at hnews
    rw [prospects, completeScalar, slots_write, frames_write, hreserved, List.append_nil,
      List.reverse_reverse]
    exact (Slots.prospects_complete s.raw hnews).trans (List.append_nil _)
  · have hplaces : (Tree.scalar s).places = [([], .scalar s)] := by
      rw [Tree.places_eq]
      rfl
    have htext : s.raw = (Tree.scalar s).text := by
      rw [Tree.text]
    rw [filterMap_complete, hplaces, List.flatMap_singleton, htext, Arrival.complete_prospects]

/-! ## Children

The induction over a container needs the same statement for a row of children in the middle of
it. The container is still open then, and what becomes of it behind the children is left open as
a parameter, so that the statements for single children can be put one behind the other. -/

/-- Children of the innermost container were read, from `w` to `w'`. The frames are the innermost
one and those around it, `sequel` is what becomes of the container behind the children, and `text`
is what was written. The frame has moved on by the children, and the slots that wait for a filter
on it are those of before and those of the children. -/
structure Passes (sequels : List Sequel) (cs : List (Child × Tree)) (sequel : Sequel) (text : Bytes)
    (w : Walk) (f : Frame) (outer : List Frame) (w' : Walk) (f' : Frame) (outer' : List Frame) :
    Prop where
  frames : w'.frames = f' :: outer'
  container : f'.container = f.container
  recording : f'.recording? = f.recording?
  count : f'.count = f.count + cs.length
  /-- the trails mean what they meant with the children in front -/
  leads : f'.leads sequel = f.leads (sequel.behindAll cs)
  around : outer'.map Frame.outline = outer.map Frame.outline
  recordings : w'.recordings = w.recordings
  tape : w.recordings ≠ 0 → w'.tape.toList = w.tape.toList ++ text
  /-- new slots win what the trails win -/
  prospects : ∃ news,
    w'.prospects (sequel :: sequels) = w.prospects (sequel.behindAll cs :: sequels) ++ news ∧
    news.filterMap id = cs.flatMap fun c => c.2.places.flatMap fun place =>
      ((f.leads (sequel.behindAll cs)).filter fun l =>
        l.passes && Frames.pass outer sequels l.owner).flatMap (Lead.prizes (Frames.route outer) c place)

/-- The comma that is written with the value of a child; members have it in front of their name. -/
def comma (f : Frame) : Bytes :=
  match f.container with
  | .object => []
  | .array => if f.count = 0 then [] else [Ascii.comma]

section

variable {w : Walk} {f : Frame} {outer : List Frame} {c : Child × Tree} {sequels : List Sequel}
  {sequel : Sequel} {paths : List Path}

theorem tape_enter (v : Value) (hw : w.frames = f :: outer) (h : w.recordings ≠ 0) :
    (w.enter paths v).2.tape.toList = w.tape.toList ++ comma f := by
  simp only [enter, hw, comma]
  cases f.container with
  | object => exact (List.append_nil _).symm
  | array => exact tape_writeComma w f h

theorem recordings_enter (paths : List Path) (v : Value) :
    (w.enter paths v).2.recordings = w.recordings := by
  rw [enter]
  split
  · rfl
  · next parent _ _ => cases parent.container <;> simp

/-- The arrivals at a child are those that the innermost frame gives. -/
theorem arrivals_enter (paths : List Path) (v : Value) (hw : w.frames = f :: outer)
    (hv : v.text? = c.2.text?) : (w.enter paths v).1 = f.arrivals c.2.text? := by
  rw [enter_fst paths v hw, hv]
  rfl

theorem frames_entered (paths : List Path) (v : Value) (hw : w.frames = f :: outer)
    (hv : v.text? = c.2.text?) : (w.enter paths v).2.frames = f.entered c.2.text? :: outer := by
  rw [frames_enter paths v hw, hv]
  rfl

/-- The value of a child is read, once the frame awaits it. Entering decides filters on the
container, and the value is settled with the sequel in which this has been taken into account. -/
theorem passes_value (paths : List Path) (sequels : List Sequel) (sequel : Sequel)
    (hs : Settling c.2) (hb : w.Balanced) (hw : w.frames = f :: outer) (hd : f.Distinct)
    (hclear : ∀ t ∈ f.trails, Frames.Clear outer t.owner) (hc : f.Awaits c)
    {lexeds : List Lexed} (htokens : lexeds.map (·.token) = c.2.tokens) :
    ∃ f' outer', Passes sequels [c] sequel (comma f ++ c.2.text) w f outer (w.run paths lexeds) f'
      outer' := by
  obtain ⟨first, more, rfl⟩ : ∃ first more, lexeds = first :: more := by
    cases lexeds with
    | nil => exact absurd htokens.symm (Tree.tokens_ne_nil c.2)
    | cons first more => exact ⟨first, more, rfl⟩
  rw [List.map_cons] at htokens
  let v := c.2.value first.start first.stop
  have hv : v.text? = c.2.text? := Tree.text?_value ..
  have hrun : w.run paths (first :: more) =
      ((w.enter paths v).2.begin v (w.enter paths v).1).run paths more := by
    rw [run, List.foldl_cons, Tree.token_first htokens.symm, arrive_eq_begin]
    rfl
  have harrivals := arrivals_enter paths v hw hv
  have hframes := frames_entered paths v hw hv
  have hsettles := hs paths (sequel :: sequels) (w.enter paths v).1 (w.enter paths v).2 first.start
    first.stop more (enter_advances paths v hb).balanced
    (harrivals ▸ Frame.nodup_arrivals hd)
    (fun a ha => hframes ▸ Frame.clear_of_mem_arrivals hd hclear (harrivals ▸ ha))
    (by rw [← htokens, List.tail_cons])
  rw [← hrun, harrivals] at hsettles
  obtain ⟨hlike, hrecordings, htape, news, hnews, hwon⟩ := hsettles
  -- behind the value the same frames are open, apart from slots that wait
  rw [hframes, List.map_cons] at hlike
  obtain ⟨f', outer', hframes', hf, houter⟩ := List.map_eq_cons_iff.1 hlike
  refine ⟨f', outer', hframes', ?_, ?_, ?_, ?_, houter, ?_, fun hr => ?_, news, ?_, ?_⟩
  · exact (congrArg Frame.container hf).trans (Frame.container_entered ..)
  · exact (congrArg Frame.recording? hf).trans (Frame.recording?_entered ..)
  · exact congrArg Frame.count hf
  · rw [← Frame.leads_outline, hf, Frame.leads_outline]
    exact Frame.leads_see sequel hc
  · rw [hrecordings, recordings_enter]
  · rw [htape (by rw [recordings_enter]; exact hr), tape_enter v hw hr, List.append_assoc]
  · rw [hnews, prospects_enter paths sequel sequels hw hc hv]
    rfl
  · rw [hwon, List.flatMap_singleton, hframes]
    exact List.flatMap_congr fun place _ => Frame.prizes_arrivals hd hc place

/-! ### Names -/

/-- The frame once the name of a member was read. -/
def named (name : Bytes) (f : Frame) : Frame :=
  if f.trails.isEmpty then f else { f with name }

section

variable (name : Bytes) (f : Frame)

@[simp]
theorem trails_named : (named name f).trails = f.trails := by
  rw [named]
  split <;> rfl

@[simp]
theorem container_named : (named name f).container = f.container := by
  rw [named]
  split <;> rfl

@[simp]
theorem count_named : (named name f).count = f.count := by
  rw [named]
  split <;> rfl

@[simp]
theorem recording?_named : (named name f).recording? = f.recording? := by
  rw [named]
  split <;> rfl

/-- A name leaves what is foretold as it is. -/
theorem leads_named (sequel : Sequel) : (named name f).leads sequel = f.leads sequel := by
  rw [Frame.leads, Frame.leads, trails_named]

theorem lost_named (sequel : Sequel) : (named name f).lost sequel = f.lost sequel := by
  rw [Frame.lost, Frame.lost, Frame.checks, Frame.checks, trails_named, Frame.recorded, Frame.recorded,
    recording?_named]

/-- Behind its name, a frame awaits the member. -/
theorem awaits_named {f : Frame} (hobject : f.container = .object) (u : Tree) :
    (named name f).Awaits (.member name, u) := by
  rw [Frame.Awaits, trails_named]
  cases ht : f.trails with
  | nil => exact .inl rfl
  | cons t ts =>
    right
    rw [Frame.child, container_named, hobject, named, ht]
    rfl

end

theorem frames_name (hw : w.frames = f :: outer) (raw : Bytes) :
    (w.name raw).frames = named (Bytes.stripQuotes raw) f :: outer := by
  simp only [name, hw, named]
  split
  · simp [hw]
  · rfl

theorem slots_name (hw : w.frames = f :: outer) (raw : Bytes) : (w.name raw).slots = w.slots := by
  simp only [name, hw]
  split <;> simp

theorem recordings_name (hw : w.frames = f :: outer) (raw : Bytes) :
    (w.name raw).recordings = w.recordings := by
  simp only [name, hw]
  split <;> simp

theorem tape_name (hw : w.frames = f :: outer) (raw : Bytes) (hr : w.recordings ≠ 0) :
    (w.name raw).tape.toList = w.tape.toList ++
      ((if f.count = 0 then [] else [Ascii.comma]) ++ (raw ++ [Ascii.colon])) := by
  have hwritten : (((w.writeComma f).write raw).write [Ascii.colon]).tape.toList = w.tape.toList ++
      ((if f.count = 0 then [] else [Ascii.comma]) ++ (raw ++ [Ascii.colon])) := by
    rw [tape_write _ _ (by simpa using hr), tape_write _ _ (by simpa using hr),
      tape_writeComma w f hr]
    simp only [List.append_assoc]
  simp only [name, hw]
  split
  · exact hwritten
  · exact hwritten

/-- A name leaves all prospects as they are. -/
theorem prospects_name (hw : w.frames = f :: outer) (raw : Bytes) (sequels : List Sequel) :
    (w.name raw).prospects sequels = w.prospects sequels := by
  rw [prospects, prospects, slots_name hw, frames_name hw, hw]
  cases sequels with
  | nil => rfl
  | cons sequel sequels => rw [Frames.lost_cons, Frames.lost_cons, lost_named]

/-! ### One child -/

/-- An element is read. -/
theorem passes_element {u : Tree} (paths : List Path) (sequels : List Sequel) (sequel : Sequel)
    (hs : Settling u) (hb : w.Balanced) (hw : w.frames = f :: outer) (hd : f.Distinct)
    (hclear : ∀ t ∈ f.trails, Frames.Clear outer t.owner) (harray : f.container = .array)
    {lexeds : List Lexed} (htokens : lexeds.map (·.token) = u.tokens) :
    ∃ f' outer', Passes sequels [(.element f.count, u)] sequel
      (Child.row f.count [(.element f.count, u)]) w f outer (w.run paths lexeds) f' outer' := by
  have hc : f.Awaits (.element f.count, u) := by
    right
    rw [Frame.child, harray]
  have hrow : comma f ++ u.text = Child.row f.count [(.element f.count, u)] := by
    rw [comma, harray, Child.row_cons, Child.row_nil, List.append_nil]
    rfl
  exact hrow ▸ passes_value paths sequels sequel hs hb hw hd hclear hc htokens

/-- A member is read, its name first. -/
theorem passes_member {name : Bytes} {u : Tree} (paths : List Path) (sequels : List Sequel)
    (sequel : Sequel) (hs : Settling u) (hb : w.Balanced) (hw : w.frames = f :: outer)
    (hd : f.Distinct) (hclear : ∀ t ∈ f.trails, Frames.Clear outer t.owner)
    (hobject : f.container = .object) {lexeds : List Lexed}
    (htokens : lexeds.map (·.token) = Child.tokens (.member name, u)) :
    ∃ f' outer', Passes sequels [(.member name, u)] sequel
      (Child.row f.count [(.member name, u)]) w f outer (w.run paths lexeds) f' outer' := by
  obtain ⟨lexed, more, rfl, hname, hmore⟩ := List.map_eq_cons_iff.1 htokens
  let raw := Bytes.quoted name
  have hrun : w.run paths (lexed :: more) = (w.name raw).run paths more := by
    rw [run, List.foldl_cons, token, hname]
    rfl
  have hframes : (w.name raw).frames = named name f :: outer :=
    (Bytes.stripQuotes_quoted name : Bytes.stripQuotes raw = name) ▸ frames_name hw raw
  -- the value is read from the named frame, which differs from `f` in nothing that `Passes` looks at
  obtain ⟨f', outer', h⟩ := passes_value paths sequels sequel hs (name_advances raw hb).balanced
    hframes (by rw [Frame.Distinct, trails_named]; exact hd)
    (by rw [trails_named]; exact hclear) (awaits_named name hobject u) hmore
  rw [hrun]
  refine ⟨f', outer', h.frames, h.container.trans (container_named ..),
    h.recording.trans (recording?_named ..), ?_, h.leads.trans (leads_named ..), h.around,
    h.recordings.trans (recordings_name hw raw), ?_, ?_⟩
  · rw [h.count, count_named]
  · intro hr
    have hcomma : comma (named name f) = [] := by
      rw [comma, container_named, hobject]
    rw [h.tape (by rw [recordings_name hw]; exact hr), tape_name hw raw hr, hcomma,
      Child.row_cons, Child.row_nil, List.append_nil]
    simp [Child.text, raw]
  · obtain ⟨news, hnews, hwon⟩ := h.prospects
    rw [prospects_name hw] at hnews
    rw [leads_named] at hwon
    exact ⟨news, hnews, hwon⟩

/-- A child is read, with its name in front if it is a member. -/
theorem passes_child (paths : List Path) (sequels : List Sequel) (sequel : Sequel)
    (hs : Settling c.2) (hb : w.Balanced) (hw : w.frames = f :: outer) (hd : f.Distinct)
    (hclear : ∀ t ∈ f.trails, Frames.Clear outer t.owner) {cs : List (Child × Tree)}
    (hfit : Child.Fit f.container f.count (c :: cs)) {lexeds : List Lexed}
    (htokens : lexeds.map (·.token) = Child.tokens c) :
    ∃ f' outer', Passes sequels [c] sequel (Child.row f.count [c]) w f outer (w.run paths lexeds) f'
      outer' := by
  obtain ⟨child, u⟩ := c
  cases hcontainer : f.container with
  | array =>
    rw [hcontainer] at hfit
    obtain ⟨rfl, -⟩ := hfit
    exact passes_element paths sequels sequel hs hb hw hd hclear hcontainer htokens
  | object =>
    rw [hcontainer] at hfit
    obtain ⟨⟨name, rfl⟩, -⟩ := hfit
    exact passes_member paths sequels sequel hs hb hw hd hclear hcontainer htokens

end

/-- No children. -/
theorem passes_nil {w : Walk} {f : Frame} {outer : List Frame} (sequels : List Sequel)
    (sequel : Sequel) (hw : w.frames = f :: outer) :
    Passes sequels [] sequel [] w f outer w f outer :=
  ⟨hw, rfl, rfl, rfl, rfl, rfl, rfl, fun _ => (List.append_nil _).symm, [],
    (List.append_nil _).symm, rfl⟩

/-- One child after the other. The sequel of the first child is the one in which the others come
behind it. -/
theorem passes_cons {w w₁ w₂ : Walk} {f f₁ f₂ : Frame} {outer outer₁ outer₂ : List Frame}
    {sequels : List Sequel} {c : Child × Tree} {cs : List (Child × Tree)} {sequel : Sequel}
    {text text' : Bytes}
    (h : Passes sequels [c] (sequel.behindAll cs) text w f outer w₁ f₁ outer₁)
    (h' : Passes sequels cs sequel text' w₁ f₁ outer₁ w₂ f₂ outer₂) :
    Passes sequels (c :: cs) sequel (text ++ text') w f outer w₂ f₂ outer₂ := by
  have hbehind : (sequel.behindAll cs).behindAll [c] = sequel.behindAll (c :: cs) := rfl
  obtain ⟨news, hnews, hwon⟩ := h.prospects
  obtain ⟨news', hnews', hwon'⟩ := h'.prospects
  refine ⟨h'.frames, h'.container.trans h.container, h'.recording.trans h.recording, ?_, ?_,
    h'.around.trans h.around, h'.recordings.trans h.recordings, fun hr => ?_, news ++ news', ?_, ?_⟩
  · rw [h'.count, h.count, List.length_singleton, List.length_cons]
    omega
  · rw [h'.leads, h.leads, hbehind]
  · rw [h'.tape (by rw [h.recordings]; exact hr), h.tape hr, List.append_assoc]
  · rw [hnews', hnews, hbehind, List.append_assoc]
  · rw [List.filterMap_append, hwon, hwon', h.leads, hbehind, Frames.route_congr h.around]
    simp only [Frames.pass_congr sequels _ h.around]
    rw [← List.flatMap_append, List.singleton_append]

/-- Several children, one after the other. -/
theorem passes_children (paths : List Path) (sequels : List Sequel) (sequel : Sequel)
    {cs : List (Child × Tree)} (hs : ∀ c ∈ cs, Settling c.2) {w : Walk} {f : Frame}
    {outer : List Frame} (hb : w.Balanced) (hw : w.frames = f :: outer) (hd : f.Distinct)
    (hclear : ∀ owner ∈ f.trails.map (·.owner), Frames.Clear outer owner)
    (hfit : Child.Fit f.container f.count cs) {lexeds : List Lexed}
    (htokens : lexeds.map (·.token) = cs.flatMap Child.tokens) :
    ∃ f' outer', Passes sequels cs sequel (Child.row f.count cs) w f outer (w.run paths lexeds) f'
      outer' := by
  induction cs generalizing w f outer lexeds with
  | nil =>
    rw [List.flatMap_nil, List.map_eq_nil_iff] at htokens
    rw [htokens, Child.row_nil]
    exact ⟨f, outer, passes_nil sequels sequel hw⟩
  | cons c cs ih =>
    rw [List.forall_mem_cons] at hs
    rw [List.flatMap_cons] at htokens
    obtain ⟨these, others, rfl, hthese, hothers⟩ := List.map_eq_append_iff.1 htokens
    -- the first child is read with the others still to come
    obtain ⟨f₁, outer₁, h⟩ := passes_child paths sequels (sequel.behindAll cs) hs.1 hb hw hd
      (fun t ht => hclear _ (List.mem_map_of_mem ht)) hfit hthese
    have howners : f₁.trails.map (·.owner) = f.trails.map (·.owner) := by
      rw [← Frame.owners_leads, h.leads, Frame.owners_leads]
    have hfit₁ : Child.Fit f₁.container f₁.count cs := by
      rw [h.container, h.count]
      exact hfit.2
    obtain ⟨f₂, outer₂, h'⟩ := ih hs.2 (run_advances paths these hb).balanced h.frames
      (by rw [Frame.Distinct, howners]; exact hd)
      (fun owner ho => (Frames.clear_congr h.around).2 (hclear owner (howners ▸ ho))) hfit₁ hothers
    rw [h.count, List.length_singleton] at h'
    rw [run_append, Child.row_cons_eq_append]
    exact ⟨f₂, outer₂, passes_cons h h'⟩

end Walk

end JsonExtract
