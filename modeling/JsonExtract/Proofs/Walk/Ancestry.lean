import JsonExtract.Proofs.Walk.Notices

/-!
# Values and the containers around them

Which slots are reserved for a value, and how many filters they await, is told by the tokens in front of the
value: by the containers that are open there, and the members that have started in them. Nothing else of
what a walk keeps matters.

* `Ancestor`, `Ancestors.token` — an open container as far as it was read, and what a token changes;
* `Ancestor.status`, `Value.status` — what is known about a filter;
* `Path.arrivalAt?`, `Path.undecided` — where a path leads, and its filters on the way that are undecided;
* `Ancestors.notices`, `Ancestors.chronicle` — what is told about the slots for a value, and for all values;
* `Ancestors.Tell` — the frames of a walk are as the ancestors tell;
* `Walk.notices_run_eq_chronicle` — so are all notices.
-/

namespace JsonExtract

/-! ## Open containers

An `Ancestor` is what a reader who keeps no trails, no slots and no tape would remember of a
container that is open: its kind, the name read last, and the children that have started in it.
A list of them, the innermost first, is a function of the tokens alone, whatever paths there
are. -/

/-- An open container, as far as it was read. -/
structure Ancestor where
  /-- which container it is -/
  container : Container
  /-- the name that was read last -/
  name : Bytes := []
  /-- the members or elements that have started, each with the last name and with its text -/
  children : List (Bytes × Option Bytes) := []
  deriving DecidableEq, Repr

namespace Ancestor

/-- The container when one more value starts in it. Only the container's own list of children
grows; what is known about its filters follows from that list. -/
def start (v : Value) (a : Ancestor) : Ancestor :=
  { a with children := a.children ++ [(a.name, v.text?)] }

/-- Where the value stands that started last. -/
def child (a : Ancestor) : Child :=
  match a.container with
  | .object => .member a.name
  | .array => .element (a.children.length - 1)

/-- What is known about a filter on the container. The first member that decides it counts. A
filter is decided by one of the children and by no later one, so the status is read off a `find`
and never changes back. -/
def status (a : Ancestor) (f : Filter) : Status :=
  match f.constant? with
  | some outcome => .ofBool outcome
  | none =>
    match a.container with
    | .array => .fails
    | .object =>
      match a.children.findSome? fun c => f.decide? c.1 c.2 with
      | some outcome => .ofBool outcome
      | none => .undecided

end Ancestor

/-- What is known about a filter on a value that starts. -/
def Value.status (v : Value) (f : Filter) : Status :=
  match f.constant? with
  | some outcome => .ofBool outcome
  | none => if v.kind = .object then .undecided else .fails

namespace Ancestors

/-- The open containers when one more value starts, the innermost first. -/
def start (v : Value) : List Ancestor → List Ancestor
  | [] => []
  | a :: above => a.start v :: above

/-- The open containers behind a token. -/
def token (l : Lexed) (ancestors : List Ancestor) : List Ancestor :=
  match l.token with
  | .name raw =>
    match ancestors with
    | [] => []
    | a :: above => { a with name := Bytes.stripQuotes raw } :: above
  | .scalar kind raw => start ⟨kind, raw, l.start, l.stop⟩ ancestors
  | .opening c => ⟨c, [], []⟩ :: start ⟨c.kind, [c.opening], l.start, l.stop⟩ ancestors
  | .closing _ => ancestors.tail

/-- The open containers behind some tokens. -/
def behind (tokens : List Lexed) (ancestors : List Ancestor) : List Ancestor :=
  tokens.foldl (fun ancestors l => token l ancestors) ancestors

end Ancestors

/-! ## Paths

Each of the walk's questions is asked again here, of the ancestors and one path: where does the
path lead, how many of its filters are still undecided, and what would be told about a slot that
is reserved now? The answers go down the levels of the path and the ancestors side by side, with
no state between two values. -/

/-- A path that leads to a container leads on to the value that started in it last, if no filter
on the container has failed and the next selector selects the value. The guards are asked before
the selector, which is the order in which a trail is asked, too. -/
def Ancestor.pass? (a : Ancestor) (r : Arrival) : Option Arrival :=
  match r.below with
  | [] => none
  | level :: below =>
    if (r.level.guards.all fun g => a.status g.filter ≠ .fails) && level.selector.selects a.child then
      some ⟨r.owner, r.path, level, below⟩
    else none

namespace Path

/-- Where a path leads to the value that started last, if it leads there. The ancestors are gone
through from the outermost, as each link of a path selects among the children of one container. -/
def arrivalAt? (owner : Nat) (p : Path) : List Ancestor → Option Arrival
  | [] => p.arrival? owner
  | a :: above => (p.arrivalAt? owner above).bind a.pass?

/-- The filters of a path on values at some depth. -/
def guardsAt (depth : Nat) (p : Path) : List Guard :=
  p.levels[depth]?.toList.flatMap (·.guards)

/-- The number of filters of a path on open containers that are undecided. A slot reserved now is
pending on exactly so many filters, not counting those on the value itself. -/
def undecided (p : Path) : List Ancestor → Nat
  | [] => 0
  | a :: above =>
    ((p.guardsAt above.length).countP fun g => a.status g.filter = .undecided) + p.undecided above

/-- What is told about the slots of a path for the value that started last: one for each mark,
unless a filter on the value in front of the mark has failed. A filter that is undecided does not
stand in the way: it is counted, and the slot waits for it. -/
def noticesAt (owner : Nat) (p : Path) (ancestors : List Ancestor) (v : Value) : List Notice :=
  match p.arrivalAt? owner ancestors with
  | none => []
  | some a =>
    a.level.marks.filterMap fun count =>
      let own := a.level.guards.take count
      if own.any fun g => v.status g.filter = .fails then none
      else
        some
          { owner, path := p.text, kind := v.kind, start := v.start, stop := v.stop
            awaited := p.undecided ancestors + own.countP fun g => v.status g.filter = .undecided }

variable {owner : Nat} {p : Path} {ancestors : List Ancestor} {r : Arrival}

/-- A path leads to a value on the level for its depth. -/
theorem follows_arrivalAt? (h : p.arrivalAt? owner ancestors = some r) :
    r.owner = owner ∧ r.path = p.text ∧ p.levels.drop ancestors.length = r.level :: r.below := by
  induction ancestors generalizing r with
  | nil =>
    rw [arrivalAt?, arrival?] at h
    split at h
    · next hlevels =>
      cases h
      exact ⟨rfl, rfl, hlevels⟩
    · cases h
  | cons a above ih =>
    obtain ⟨r', hr', hpass⟩ := Option.bind_eq_some_iff.1 h
    obtain ⟨howner, htext, hdrop⟩ := ih hr'
    rw [Ancestor.pass?] at hpass
    split at hpass
    · cases hpass
    · next level below hbelow =>
      split at hpass <;> cases hpass
      refine ⟨howner, htext, ?_⟩
      rw [List.length_cons, ← List.drop_drop, hdrop, List.drop_succ_cons, List.drop_zero, hbelow]

theorem guardsAt_length (h : p.levels.drop ancestors.length = r.level :: r.below) :
    p.guardsAt ancestors.length = r.level.guards := by
  have hlevel : p.levels[ancestors.length]? = some r.level := by
    rw [← List.head?_drop, h, List.head?_cons]
  rw [guardsAt, hlevel, Option.toList_some, List.flatMap_singleton]

end Path

namespace Ancestors

/-- Where paths lead to the value that started last. -/
def arrivals (paths : List Path) (ancestors : List Ancestor) : List Arrival :=
  paths.zipIdx.filterMap fun p => p.1.arrivalAt? p.2 ancestors

/-- What is told about the slots for the value that started last. -/
def notices (paths : List Path) (ancestors : List Ancestor) (v : Value) : List Notice :=
  paths.zipIdx.flatMap fun p => p.1.noticesAt p.2 ancestors v

/-- What is told about the slots for all values that some tokens start. This is the independent
account of all slots that a walk reserves: it mentions neither frames nor slots, only the tokens
and the paths. -/
def chronicle (paths : List Path) : List Ancestor → List Lexed → List Notice
  | _, [] => []
  | ancestors, l :: tokens =>
    (l.value?.toList.flatMap fun v => notices paths (start v ancestors) v) ++
      chronicle paths (token l ancestors) tokens

theorem arrivals_cons (paths : List Path) (a : Ancestor) (above : List Ancestor) :
    arrivals paths (a :: above) = (arrivals paths above).filterMap a.pass? := by
  rw [arrivals, arrivals, List.filterMap_filterMap]
  rfl

/-- A path leads to a value once. -/
theorem nodup_arrivals (paths : List Path) (ancestors : List Ancestor) :
    ((arrivals paths ancestors).map (·.owner)).Nodup := by
  have howner : ∀ (a : Ancestor) (r r' : Arrival), a.pass? r = some r' → r'.owner = r.owner := by
    intro a r r' h
    rw [Ancestor.pass?] at h
    split at h
    · cases h
    · split at h <;> cases h
      rfl
  induction ancestors with
  | nil => exact Walk.nodup_arrivals paths
  | cons a above ih =>
    rw [arrivals_cons]
    exact ih.sublist (sublist_map_filterMap (howner a) _)

/-- What is told about a slot is told at one of the tokens, by those in front of it. -/
theorem exists_of_mem_chronicle {paths : List Path} {ancestors : List Ancestor} {tokens : List Lexed}
    {n : Notice} (h : n ∈ chronicle paths ancestors tokens) :
    ∃ before l after v, tokens = before ++ l :: after ∧ l.value? = some v ∧
      n ∈ notices paths (start v (behind before ancestors)) v := by
  induction tokens generalizing ancestors with
  | nil => cases h
  | cons l tokens ih =>
    obtain hn | hn := List.mem_append.1 h
    · obtain ⟨v, hv, hn⟩ := List.mem_flatMap.1 hn
      exact ⟨[], l, tokens, v, rfl, Option.mem_toList.1 hv, hn⟩
    · obtain ⟨before, l', after, v, rfl, hv, hn⟩ := ih hn
      exact ⟨l :: before, l', after, v, rfl, hv, hn⟩

end Ancestors

/-- What is told about a slot of a path: the value, and how many filters are undecided there. -/
theorem Path.of_mem_noticesAt {owner : Nat} {p : Path} {ancestors : List Ancestor} {v : Value} {n : Notice}
    (h : n ∈ p.noticesAt owner ancestors v) :
    ∃ r, p.arrivalAt? owner ancestors = some r ∧ ∃ count ∈ r.level.marks,
      n = ⟨owner, p.text, v.kind, v.start, v.stop, p.undecided ancestors +
        (r.level.guards.take count).countP fun g => v.status g.filter = .undecided⟩ := by
  rw [noticesAt] at h
  split at h
  · cases h
  · next r hr =>
    obtain ⟨count, hcount, hn⟩ := List.mem_filterMap.1 h
    dsimp only at hn
    split at hn <;> cases hn
    exact ⟨r, hr, count, hcount, rfl⟩

/-! ## Frames

The walk answers the same questions from its frames, which it changes token by token.
`Ancestors.Tell` relates the two: a frame has the trails of exactly the paths that lead to its
container, each with the statuses that the container's children give the filters. The relation
holds in front of the first token, and each token keeps it, so what the walk tells about its
slots is what the ancestors tell. -/

/-- The trail of an arrival at a container, with what is known about the filters. -/
def Ancestor.trail (a : Ancestor) (r : Arrival) : Trail :=
  ⟨r.owner, r.path, r.below, r.level.guards.map fun g => ⟨g.filter, a.status g.filter, []⟩⟩

/-- A frame is as the container tells that some paths lead to. The slots that wait for the filters
are left out of the comparison, as they depend on what came before. -/
structure Ancestor.Tells (arrivals : List Arrival) (a : Ancestor) (f : Frame) : Prop where
  container : f.container = a.container
  count : f.count = a.children.length
  name : f.trails ≠ [] → f.name = a.name
  trails : f.trails.map Trail.outline = arrivals.map a.trail

/-- The frames are as the open containers tell. One frame for each ancestor, from the innermost to
the outermost, and the arrivals at a container are computed from the ancestors above it. -/
inductive Ancestors.Tell (paths : List Path) : List Ancestor → List Frame → Prop
  | nil : Tell paths [] []
  | cons {a : Ancestor} {above : List Ancestor} {f : Frame} {outer : List Frame} :
    a.Tells (Ancestors.arrivals paths above) f → Tell paths above outer → Tell paths (a :: above) (f :: outer)

namespace Check

/-- A filter is seen as it is without the slots that wait for it. So whether a member decides a
filter never depends on who is waiting for the decision. -/
theorem outline_see (name : Bytes) (text? : Option Bytes) (c : Check) :
    (c.see name text?).outline = (c.outline.see name text?).outline := by
  have hdecide : c.outline.decide? name text? = c.decide? name text? := rfl
  rw [see, see, hdecide]
  cases c.decide? name text? <;> rfl

theorem start_eq (v : Value) (f : Filter) :
    start (v.kind = .object) f = ⟨f, v.status f, []⟩ := by
  rw [start, Value.status]
  cases f.constant? with
  | some outcome => rfl
  | none => simp

/-- A member decides a filter on its object, unless the filter is decided. -/
theorem see_status {a : Ancestor} (hc : a.container = .object) (v : Value) (f : Filter) :
    ((⟨f, a.status f, []⟩ : Check).see a.name v.text?).outline = ⟨f, (a.start v).status f, []⟩ := by
  have hdecide : (⟨f, a.status f, []⟩ : Check).decide? a.name v.text? =
      if a.status f = .undecided then f.decide? a.name v.text? else none := by
    simp [decide?, isUndecided]
  rw [see, hdecide]
  cases hconstant : f.constant? with
  | some outcome =>
    simp only [Ancestor.status, hconstant]
    cases outcome <;> rfl
  | none =>
    simp only [Ancestor.status, Ancestor.start, hconstant, hc, List.findSome?_append]
    cases a.children.findSome? fun c => f.decide? c.1 c.2 with
    | some outcome => cases outcome <;> rfl
    | none =>
      cases hf : f.decide? a.name v.text? <;> simp [hf, outline]

end Check

/-- A trail after a member was seen. -/
def Trail.see (name : Bytes) (text? : Option Bytes) (t : Trail) : Trail :=
  { t with checks := t.checks.map (·.see name text?) }

theorem Trail.outline_see (name : Bytes) (text? : Option Bytes) (t : Trail) :
    (t.see name text?).outline = (t.outline.see name text?).outline := by
  simp [see, outline, ← Check.outline_see]

theorem Ancestor.outline_see {a : Ancestor} (hc : a.container = .object) (v : Value) (r : Arrival) :
    ((a.trail r).see a.name v.text?).outline = (a.start v).trail r := by
  simp [Trail.see, Trail.outline, trail, Check.see_status hc]

section

variable {α β γ δ : Type} {f : α → γ} {g : β → γ} {xs : List α} {ys : List β}

theorem nil_iff_of_map_eq (hmap : xs.map f = ys.map g) : xs = [] ↔ ys = [] := by
  rw [← List.map_eq_nil_iff, hmap, List.map_eq_nil_iff]

/-- Lists that look the same, and are picked from by what is looked at, are picked from alike. -/
theorem filterMap_eq_of_map_eq {pick : α → Option δ} {pick' : β → Option δ}
    (h : ∀ {x y}, f x = g y → pick x = pick' y) (hmap : xs.map f = ys.map g) :
    xs.filterMap pick = ys.filterMap pick' := by
  induction xs generalizing ys with
  | nil => rw [List.map_eq_nil_iff.1 hmap.symm, List.filterMap_nil, List.filterMap_nil]
  | cons x xs ih =>
    obtain ⟨y, ys', rfl, hy, hys⟩ := List.map_eq_cons_iff.1 hmap.symm
    rw [List.filterMap_cons, List.filterMap_cons, h hy.symm, ih hys.symm]

end

namespace Ancestor.Tells

variable {arrivals : List Arrival} {a : Ancestor} {f f' : Frame}

theorem congr (hf : f'.outline = f.outline) (h : a.Tells arrivals f) : a.Tells arrivals f' := by
  rw [Frame.outline, Frame.outline, Frame.mk.injEq] at hf
  obtain ⟨hcontainer, hcount, hname, htrails, -⟩ := hf
  refine ⟨hcontainer.trans h.container, hcount.trans h.count, fun hne => ?_, htrails.trans h.trails⟩
  exact hname.trans (h.name fun hnil => hne ((nil_iff_of_map_eq htrails).2 hnil))

/-- Where no path leads, no trail does. -/
theorem nil_or_name (h : a.Tells arrivals f) : (f.trails = [] ∧ arrivals = []) ∨ f.name = a.name := by
  by_cases hnil : f.trails = []
  · exact .inl ⟨hnil, (nil_iff_of_map_eq h.trails).1 hnil⟩
  · exact .inr (h.name hnil)

/-- A value that starts decides filters. -/
theorem trails_see (h : a.Tells arrivals f) (v : Value) :
    (f.see v.text?).trails.map Trail.outline = arrivals.map (a.start v).trail := by
  cases hc : a.container with
  | array =>
    have htrail : (a.start v).trail = a.trail := by
      funext r
      simp [trail, status, start, hc]
    rw [Frame.see, h.container, hc, htrail]
    exact h.trails
  | object =>
    obtain ⟨hnil, rfl⟩ | hname := h.nil_or_name
    · simp [Frame.see, h.container, hc, Frame.mapChecks, hnil]
    · have hsee : (f.see v.text?).trails = f.trails.map (Trail.see a.name v.text?) := by
        rw [Frame.see, h.container, hc, hname.symm]
        rfl
      calc (f.see v.text?).trails.map Trail.outline
        _ = (f.trails.map Trail.outline).map fun t => (t.see a.name v.text?).outline := by
          rw [hsee, List.map_map, List.map_map]
          exact List.map_congr_left fun t _ => Trail.outline_see a.name v.text? t
        _ = (arrivals.map a.trail).map fun t => (t.see a.name v.text?).outline := by rw [h.trails]
        _ = arrivals.map (a.start v).trail := by
          rw [List.map_map]
          exact List.map_congr_left fun r _ => Ancestor.outline_see hc v r

end Ancestor.Tells

/-- A trail leads on as its container tells. -/
theorem Ancestor.arrival?_eq_pass? {a : Ancestor} {r : Arrival} {t : Trail} (ht : t.outline = a.trail r) :
    t.arrival? a.child = a.pass? r := by
  have hblocked : t.isBlocked = r.level.guards.any fun g => a.status g.filter = .fails := by
    have hchecks : t.outline.checks = (a.trail r).checks := congrArg Trail.checks ht
    have houtline : t.isBlocked = t.outline.checks.any (·.isFailed) := by
      rw [Trail.outline, List.any_map]
      rfl
    rw [houtline, hchecks, trail, List.any_map]
    rfl
  rw [Trail.outline, trail, Trail.mk.injEq] at ht
  obtain ⟨howner, hpath, hbelow, -⟩ := ht
  rw [Trail.arrival?, pass?, hbelow, hblocked, howner, hpath]
  cases r.below with
  | nil => rfl
  | cons level below => simp [List.not_any_eq_all_not]

namespace Ancestors.Tell

variable {paths : List Path} {ancestors : List Ancestor} {frames frames' : List Frame} {w : Walk}

/-- Slots that wait change nothing in what the containers tell. -/
theorem congr (hframes : frames'.map Frame.outline = frames.map Frame.outline)
    (h : Tell paths ancestors frames) : Tell paths ancestors frames' := by
  induction h generalizing frames' with
  | nil =>
    rw [List.map_nil, List.map_eq_nil_iff] at hframes
    exact hframes ▸ .nil
  | cons ha _ ih =>
    obtain ⟨f', outer', rfl, hf, houter⟩ := List.map_eq_cons_iff.1 hframes
    exact .cons (ha.congr hf) (ih houter)

/-- A value arrives where the containers tell. The two halves of entering a value, the decision of
filters on the object around it and the list of arrivals at it, are told by the ancestors with the
value started. -/
theorem enter (h : Tell paths ancestors w.frames) (v : Value) :
    (w.enter paths v).1 = arrivals paths (start v ancestors) ∧
      Tell paths (start v ancestors) (w.enter paths v).2.frames := by
  generalize hw : w.frames = frames at h
  cases h with
  | nil =>
    rw [Walk.enter_top paths v hw, hw]
    exact ⟨rfl, .nil⟩
  | @cons a above f outer ha houter =>
    have htrails := ha.trails_see v
    have hcontainer : (f.see v.text?).container = f.container := Frame.container_entered v.text? f
    have hname : (f.see v.text?).name = f.name := by
      rw [Frame.see]
      split <;> rfl
    rw [Walk.enter_fst paths v hw, Walk.frames_enter paths v hw]
    refine ⟨?_, .cons ⟨hcontainer.trans ha.container, ?_, ?_, htrails⟩ houter⟩
    · rw [start, arrivals_cons]
      obtain ⟨hnil, harrivals⟩ | hsame := ha.nil_or_name
      · rw [(nil_iff_of_map_eq htrails).2 harrivals, harrivals]
        rfl
      · have hchild : f.child = (a.start v).child := by
          rw [Frame.child, Ancestor.child, ha.container, hsame, ha.count]
          cases hc : a.container <;> simp [Ancestor.start, hc]
        rw [hchild]
        exact filterMap_eq_of_map_eq Ancestor.arrival?_eq_pass? htrails
    · change f.count + 1 = _
      simp [Ancestor.start, ha.count]
    · intro hne
      refine hname.trans (ha.name fun hnil => hne ?_)
      exact (nil_iff_of_map_eq htrails).2 ((nil_iff_of_map_eq ha.trails).1 hnil)

/-- The filters of a path that leads to a value are undecided where the containers tell. -/
theorem undecided_eq (h : Tell paths ancestors frames) {p : Path} {owner : Nat} {r : Arrival}
    (hp : paths[owner]? = some p) (hr : p.arrivalAt? owner ancestors = some r) :
    Frames.undecided owner frames = p.undecided ancestors := by
  induction h generalizing r with
  | nil => rfl
  | @cons a above f outer ha _ ih =>
    obtain ⟨r', hr', -⟩ := Option.bind_eq_some_iff.1 hr
    obtain ⟨rfl, -, hdrop⟩ := Path.follows_arrivalAt? hr'
    have hmem : r' ∈ arrivals paths above :=
      List.mem_filterMap.2 ⟨(p, r'.owner), List.mem_zipIdx_iff_getElem?.2 hp, hr'⟩
    -- the path leads into the container once, by a trail with the filters of the level
    have hdistinct : f.Distinct := by
      have howners := congrArg (List.map (·.owner)) ha.trails
      rw [List.map_map, List.map_map] at howners
      exact (howners ▸ nodup_arrivals paths above : (f.trails.map (·.owner)).Nodup)
    obtain ⟨t, ht, houtline⟩ : ∃ t ∈ f.trails, t.outline = a.trail r' :=
      List.mem_map.1 (ha.trails ▸ List.mem_map_of_mem hmem)
    have howner : t.owner = r'.owner := congrArg Trail.owner houtline
    have hchecks : t.outline.checks = (a.trail r').checks := congrArg Trail.checks houtline
    have hcount : t.checks.countP (·.isUndecided) = t.outline.checks.countP (·.isUndecided) := by
      rw [Trail.outline, List.countP_map]
      rfl
    rw [Frames.undecided_cons, ih hr', ← howner, Frame.checksOf_of_distinct hdistinct ht, hcount, hchecks,
      Path.undecided, Path.guardsAt_length hdrop, Ancestor.trail, List.countP_map]
    rfl

/-- The slots for a value are those that the containers tell. -/
theorem notices_eq (h : Tell paths ancestors w.frames) (v : Value) :
    w.notices paths v = notices paths (start v ancestors) v := by
  obtain ⟨harrivals, htell⟩ := h.enter v
  rw [Walk.notices, harrivals, arrivals, flatMap_filterMap_eq, notices]
  apply List.flatMap_congr
  rintro ⟨p, owner⟩ hp
  dsimp only
  rw [Path.noticesAt]
  cases hr : p.arrivalAt? owner (start v ancestors) with
  | none => rfl
  | some r =>
    obtain ⟨howner, hpath, -⟩ := Path.follows_arrivalAt? hr
    have hundecided := htell.undecided_eq (List.mem_zipIdx_iff_getElem?.1 hp) hr
    have hchecks : ∀ count, (r.trail v).checks.take count =
        (r.level.guards.take count).map fun g => ⟨g.filter, v.status g.filter, []⟩ := by
      intro count
      simp only [Arrival.trail, Check.start_eq, List.map_take]
    rw [Option.toList_some, List.flatMap_singleton, Arrival.notices]
    apply List.filterMap_congr
    intro count _
    rw [Arrival.notice?, hchecks, List.any_map, List.countP_map, howner, hpath, hundecided]
    rfl

/-- A container is opened by its value. -/
theorem arrive_container (h : Tell paths ancestors w.frames) {v : Value} {c : Container}
    (hc : v.kind.container? = some c) :
    Tell paths (⟨c, [], []⟩ :: start v ancestors) (w.arrive paths v).frames := by
  obtain ⟨harrivals, htell⟩ := h.enter v
  have hstatus : ∀ f, v.status f = (⟨c, [], []⟩ : Ancestor).status f := by
    intro f
    rw [Value.status, Ancestor.status, Kind.container?_eq_some_iff.1 hc]
    cases c <;> rfl
  have htrail : Arrival.trail v = (⟨c, [], []⟩ : Ancestor).trail := by
    funext r
    simp only [Arrival.trail, Ancestor.trail, Check.start_eq, hstatus]
  rw [Walk.arrive_eq_begin, Walk.begin, hc]
  dsimp only
  rw [Walk.frames_openFrame]
  refine .cons ⟨rfl, rfl, fun _ => rfl, ?_⟩ (htell.congr (Walk.placed_like v _ _).frames)
  rw [Walk.outline_trails_frame, harrivals, htrail]

/-- A scalar value leaves the open containers as they are. -/
theorem arrive_scalar (h : Tell paths ancestors w.frames) {v : Value} (hv : v.kind.container? = none) :
    Tell paths (start v ancestors) (w.arrive paths v).frames := by
  rw [Walk.arrive_eq_begin, Walk.begin, hv]
  dsimp only
  rw [Walk.completeScalar, Walk.frames_write]
  exact (h.enter v).2.congr (Walk.placed_like v _ _).frames

theorem name (h : Tell paths ancestors w.frames) (l : Lexed) {raw : Bytes} (hl : l.token = .name raw) :
    Tell paths (token l ancestors) (w.name raw).frames := by
  rw [token, hl]
  generalize hw : w.frames = frames at h
  cases h with
  | nil =>
    simp only [Walk.name, hw]
    exact .nil
  | @cons a above f outer ha houter =>
    rw [Walk.frames_name hw]
    refine .cons ⟨?_, ?_, fun hne => ?_, ?_⟩ houter
    · rw [Walk.container_named, ha.container]
    · rw [Walk.count_named, ha.count]
    · rw [Walk.trails_named] at hne
      rw [Walk.named, if_neg (by simpa using hne)]
    · rw [Walk.trails_named, ha.trails]
      rfl

theorem close (h : Tell paths ancestors w.frames) : Tell paths ancestors.tail w.close.frames := by
  rw [Walk.frames_close]
  generalize w.frames = frames at h
  cases h with
  | nil => exact .nil
  | cons _ houter => exact houter

/-- Each token changes the frames as it changes what the containers tell. A scalar token must be
of a scalar kind, which every token of a lexer is; nothing else is asked of the tokens, not even
that brackets match. -/
theorem step (h : Tell paths ancestors w.frames) (l : Lexed)
    (hl : ∀ kind raw, l.token = .scalar kind raw → kind.container? = none) :
    Tell paths (token l ancestors) (w.token paths l).frames := by
  cases ht : l.token with
  | name raw =>
    rw [Walk.token, ht]
    exact h.name l ht
  | closing c =>
    rw [Walk.token, token, ht]
    exact h.close
  | scalar kind raw =>
    rw [Walk.token, token, ht]
    exact h.arrive_scalar (hl kind raw ht)
  | opening c =>
    rw [Walk.token, token, ht]
    exact h.arrive_container (Kind.container?_eq_some_iff.2 rfl)

end Ancestors.Tell

namespace Walk

/-- A run of tokens adds the notices that the tokens tell. What a walk says about its slots
therefore depends on the tokens in front of each of them, and on nothing that was decided or
released in between. -/
theorem notices_run_eq_chronicle {paths : List Path} {ancestors : List Ancestor} {w : Walk}
    {tokens : List Lexed} (h : Ancestors.Tell paths ancestors w.frames)
    (hscalars : ∀ l ∈ tokens, ∀ kind raw, l.token = .scalar kind raw → kind.container? = none) :
    (w.run paths tokens).slots.notices = w.slots.notices ++ Ancestors.chronicle paths ancestors tokens := by
  induction tokens generalizing ancestors w with
  | nil => exact (List.append_nil _).symm
  | cons l tokens ih =>
    rw [List.forall_mem_cons] at hscalars
    have hrest := ih (h.step l hscalars.1) hscalars.2
    have hfirst : l.value?.toList.flatMap (w.notices paths) =
        l.value?.toList.flatMap fun v => Ancestors.notices paths (Ancestors.start v ancestors) v :=
      List.flatMap_congr fun v _ => h.notices_eq v
    rw [notices_token, hfirst, List.append_assoc] at hrest
    exact hrest

end Walk

end JsonExtract
