import JsonExtract.Proofs.Extraction.Trimming
import JsonExtract.Proofs.Paths.Levels
import JsonExtract.Proofs.Walk.Course

/-!
# Walking by numbers

A walk can look up what it needs to know about a path: the path by its number in the session, the level
by the depth of a container, a filter by its number on the level, and selectors and filters by their
places in the chain of links. Each of these numbers could be out of range, and something else could stand
at a place. Behind every step of a session over paths that were read from texts, none of this comes to
pass, and looking up finds what the walk carries along.

* `Path.filterAt?`, `Path.selectsAt?` — filters and selectors of a path, looked up;
* `Walk.enterAt?`, `Placement.arriveAt?`, `Walk.tokenAt?` — a step of the walk that looks things up;
* `Walk.tokenAt?_eq_some`, `Walk.runAt?_eq_some` — they are the steps of the walk;
* `Session.tokenAt?_of_course` — behind every step of a session.
-/

namespace JsonExtract

/-! ## Looking things up

A step of this walk carries along numbers where the other carries along arrivals, levels and
filters, and looks them up when it needs them. Each lookup can fail, by a number out of range or
a link of the wrong sort at a place, and then the whole step fails. Nothing is given a default. -/

namespace Path

/-- A filter of a path, by the number of its level and its own number there. There are four ways
to find nothing: no such level, no such guard on it, no link at the guard's place, or a selector
there. -/
def filterAt? (p : Path) (depth i : Nat) : Option Filter := do
  let level ← p.levels[depth]?
  let guard ← level.guards[i]?
  let link ← p.links[guard.place]?
  match link.part with
  | .filter filter => some filter
  | .selector _ => none

/-- Whether a level of a path, if there is one with this number, selects a child. -/
def selectsAt? (p : Path) (depth : Nat) (child : Child) : Option Bool :=
  match p.levels[depth]? with
  | none => some false
  | some level => do
    let link ← p.links[level.place]?
    match link.part with
    | .selector selector => some (selector.selects child)
    | .filter _ => some false

end Path

/-- A filter of an open object, looked up by its number if it is undecided. A decided filter is
not looked up, as the walk does not ask it again. -/
def Check.lookUp? (p : Path) (depth : Nat) (c : Check) (i : Nat) : Option Check :=
  if c.isUndecided then (p.filterAt? depth i).map fun filter => { c with filter } else some c

namespace Trail

/-- A trail into an open object, with its undecided filters looked up. -/
def lookUp? (paths : List Path) (depth : Nat) (t : Trail) : Option Trail := do
  let p ← paths[t.owner]?
  let checks ← t.checks.zipIdx.mapM fun (c, i) => c.lookUp? p depth i
  return { t with checks }

/-- The numbers of the paths that lead to a child, if their next levels are looked up. -/
def ownersAt? (paths : List Path) (depth : Nat) (child : Child) : List Trail → Option (List Nat)
  | [] => some []
  | t :: trails => do
    let p ← paths[t.owner]?
    let leads ← if t.isBlocked then some false else p.selectsAt? (depth + 1) child
    let owners ← ownersAt? paths depth child trails
    return if leads then t.owner :: owners else owners

end Trail

/-- An open container, with the undecided filters on it looked up. -/
def Frame.lookUp? (paths : List Path) (depth : Nat) (f : Frame) : Option Frame :=
  match f.container with
  | .object => do
    let trails ← f.trails.mapM (Trail.lookUp? paths depth)
    return { f with trails }
  | .array => some f

namespace Walk

/-- Enters a value as `enter` does, and finds the numbers of the paths that lead to it. -/
def enterAt? (paths : List Path) (v : Value) (w : Walk) : Option (List Nat × Walk) :=
  match w.frames with
  | [] => some (List.range paths.length, w)
  | parent :: outer => do
    let known ← parent.lookUp? paths outer.length
    let owners ← Trail.ownersAt? paths outer.length parent.child (known.see v.text?).trails
    return (owners, ({ w with frames := known :: outer }.enter paths v).2)

/-- Reserves a slot as `mark` does, if the value has `count` filters. The number of filters in
front of the mark must not exceed the number of those that the value has. -/
def Staging.markAt? (v : Value) (a : Arrival) (s : Staging) (count : Nat) : Option Staging :=
  if count ≤ s.checks.length then some (s.mark v a count) else none

/-- Reserves slots for a path that leads to a value at some depth, as `arrive` does. -/
def Placement.arriveAt? (paths : List Path) (depth : Nat) (v : Value) (p : Placement) (owner : Nat) :
    Option Placement := do
  let path ← paths[owner]?
  let level ← path.levels[depth]?
  let filters ← (List.range level.guards.length).mapM (path.filterAt? depth)
  let a : Arrival := ⟨owner, path.text, level, path.levels.drop (depth + 1)⟩
  let checks := filters.map (Check.start (v.kind = .object))
  let staged ← level.marks.foldlM (Staging.markAt? v a) ⟨p.walk, checks, p.reserved⟩
  return {
    walk := staged.walk
    trails := ⟨a.owner, a.path, a.below, staged.checks⟩ :: p.trails
    reserved := staged.reserved }

/-- Starts a value as `arrive` does. -/
def arriveAt? (paths : List Path) (v : Value) (w : Walk) : Option Walk := do
  let (owners, entered) ← w.enterAt? paths v
  let placed ← owners.foldlM (Placement.arriveAt? paths w.frames.length v) { walk := entered }
  match v.kind.container? with
  | some container => return openFrame container placed
  | none => return completeScalar v.raw placed

/-- Takes in a token as `token` does. -/
def tokenAt? (paths : List Path) (lexed : Lexed) (w : Walk) : Option Walk :=
  match lexed.token with
  | .name raw => some (w.name raw)
  | .scalar kind raw => w.arriveAt? paths ⟨kind, raw, lexed.start, lexed.stop⟩
  | .opening c => w.arriveAt? paths ⟨c.kind, [c.opening], lexed.start, lexed.stop⟩
  | .closing _ => some w.close

end Walk

/-- Takes in tokens as `run` does. -/
def Walk.runAt? (paths : List Path) (tokens : List Lexed) (w : Walk) : Option Walk :=
  tokens.foldlM (fun w lexed => w.tokenAt? paths lexed) w

/-! ## What is found

Under `Frames.Follow`, the trails of a frame are those of paths in the session, each with the
levels of its path behind the depth of the frame. So every lookup is of something that is there,
and it finds what the walk has carried along. The lemmas follow the parts of a step one by one,
down to a token and a run of tokens. -/

/-- Steps that cannot fail are taken one for one. -/
theorem mapM_eq_some_map {α β : Type} {f : α → Option β} {g : α → β} {xs : List α}
    (h : ∀ x ∈ xs, f x = some (g x)) : xs.mapM f = some (xs.map g) := by
  induction xs with
  | nil => rfl
  | cons x xs ih =>
    obtain ⟨hx, hxs⟩ := List.forall_mem_cons.1 h
    rw [List.mapM_cons, hx, ih hxs]
    rfl

namespace Path.Planned

variable {p : Path} (h : p.Planned) {depth : Nat}

include h

/-- A filter of a level stands at its place. This is what it means that the levels of a path were
planned from its links. -/
theorem filterAt?_eq_some {level : Level} {i : Nat} {g : Guard} (hlevel : p.levels[depth]? = some level)
    (hg : level.guards[i]? = some g) : p.filterAt? depth i = some g.filter := by
  have hfilter := (h.fits level (List.mem_of_getElem? hlevel)).filter g (List.mem_of_getElem? hg)
  obtain ⟨link, hlink, hpart⟩ := Option.map_eq_some_iff.1 hfilter
  rw [filterAt?, hlevel, Option.bind_eq_bind, Option.bind_some, hg, Option.bind_eq_bind, Option.bind_some,
    hlink, Option.bind_eq_bind, Option.bind_some, hpart]

/-- The selector of a level stands at its place. -/
theorem selectsAt?_eq_some (child : Child) : p.selectsAt? depth child =
    some ((p.levels.drop depth).head?.any (·.selector.selects child)) := by
  rw [List.head?_drop, selectsAt?]
  cases hlevel : p.levels[depth]? with
  | none => rfl
  | some level =>
    obtain ⟨link, hlink, hpart⟩ :=
      Option.map_eq_some_iff.1 (h.fits level (List.mem_of_getElem? hlevel)).selector
    dsimp only
    rw [hlink, Option.bind_eq_bind, Option.bind_some, hpart, Option.any_some]

end Path.Planned

section

variable {paths : List Path} (hp : ∀ p ∈ paths, p.Planned) {depth : Nat}

include hp

/-- The filters of a trail are where it looks for them. The trail has one check for each guard of
its level, in their order, so the number of a check is that of its filter. -/
theorem Trail.lookUp?_eq_some {t : Trail} (h : t.Follows paths depth) : t.lookUp? paths depth = some t := by
  obtain ⟨p, level, hpath, -, hdrop, hfilters⟩ := h
  have hplanned := hp p (List.mem_of_getElem? hpath)
  have hlevel : p.levels[depth]? = some level := by
    rw [← List.head?_drop, hdrop, List.head?_cons]
  have hcheck : ∀ x ∈ t.checks.zipIdx, x.1.lookUp? p depth x.2 = some x.1 := by
    rintro ⟨c, i⟩ hx
    have hc : t.checks[i]? = some c := List.mem_zipIdx_iff_getElem?.1 hx
    have hg := congrArg (·[i]?) hfilters
    simp only [List.getElem?_map, hc, Option.map_some] at hg
    obtain ⟨g, hguard, hfilter⟩ := Option.map_eq_some_iff.1 hg.symm
    rw [Check.lookUp?]
    split
    · rw [hplanned.filterAt?_eq_some hlevel hguard, Option.map_some, hfilter]
    · rfl
  rw [lookUp?, hpath, Option.bind_eq_bind, Option.bind_some, mapM_eq_some_map hcheck,
    List.zipIdx_map_fst]
  rfl

theorem Frame.lookUp?_eq_some {f : Frame} (h : ∀ t ∈ f.trails, t.Follows paths depth) :
    f.lookUp? paths depth = some f := by
  rw [lookUp?]
  split
  · have htrails : f.trails.mapM (Trail.lookUp? paths depth) = some (f.trails.map id) :=
      mapM_eq_some_map fun t ht => Trail.lookUp?_eq_some hp (h t ht)
    rw [htrails, List.map_id]
    rfl
  · rfl

/-- The paths that lead to a child are those whose trails arrive there. -/
theorem Trail.ownersAt?_eq_some (child : Child) {trails : List Trail}
    (h : ∀ t ∈ trails, t.Follows paths depth) :
    ownersAt? paths depth child trails = some ((trails.filterMap (·.arrival? child)).map (·.owner)) := by
  induction trails with
  | nil => rfl
  | cons t trails ih =>
    obtain ⟨⟨p, level, hpath, -, hdrop, -⟩, htrails⟩ := List.forall_mem_cons.1 h
    have hbelow : p.levels.drop (depth + 1) = t.below := by
      rw [← List.drop_drop, hdrop, List.drop_succ_cons, List.drop_zero]
    have hnext : p.selectsAt? (depth + 1) child =
        some ((p.levels.drop (depth + 1)).head?.any (·.selector.selects child)) :=
      (hp p (List.mem_of_getElem? hpath)).selectsAt?_eq_some child
    rw [ownersAt?, hpath, Option.bind_eq_bind, Option.bind_some, ih htrails, hnext, hbelow,
      List.filterMap_cons, arrival?]
    cases t.isBlocked <;> cases hb : t.below <;> try rfl
    next level below => cases hs : level.selector.selects child <;> simp [hs]

namespace Walk

omit hp in
/-- Marks count filters that are there. -/
theorem Staging.foldlM_markAt? (v : Value) (a : Arrival) {s : Staging} {counts : List Nat}
    (h : ∀ count ∈ counts, count ≤ s.checks.length) :
    counts.foldlM (Staging.markAt? v a) s = some (counts.foldl (Staging.mark v a) s) := by
  induction counts generalizing s with
  | nil => rfl
  | cons count counts ih =>
    obtain ⟨hcount, hcounts⟩ := List.forall_mem_cons.1 h
    have hlength : (s.mark v a count).checks.length = s.checks.length := by
      rw [← List.length_map Check.outline, Staging.outline_checks_mark, List.length_map]
    rw [List.foldlM_cons, markAt?, if_pos hcount, Option.bind_eq_bind, Option.bind_some,
      ih (hlength ▸ hcounts), List.foldl_cons]

/-- All that an arrival carries along is found. -/
theorem Placement.arriveAt?_eq_some (v : Value) (p : Placement) {a : Arrival} (h : a.Follows paths depth) :
    p.arriveAt? paths depth v a.owner = some (p.arrive v a) := by
  obtain ⟨path, hpath, htext, hdrop⟩ := h
  have hplanned := hp path (List.mem_of_getElem? hpath)
  have hlevel : path.levels[depth]? = some a.level := by
    rw [← List.head?_drop, hdrop, List.head?_cons]
  have hbelow : path.levels.drop (depth + 1) = a.below := by
    rw [← List.drop_drop, hdrop, List.drop_succ_cons, List.drop_zero]
  have hfilters : (List.range a.level.guards.length).mapM (path.filterAt? depth) =
      some (a.level.guards.map (·.filter)) := by
    have hone : ∀ x ∈ a.level.guards.zipIdx, path.filterAt? depth x.2 = some x.1.filter := fun x hx =>
      hplanned.filterAt?_eq_some hlevel (List.mem_zipIdx_iff_getElem?.1 hx)
    have hguards : a.level.guards.zipIdx.map (·.1.filter) = a.level.guards.map (·.filter) := by
      conv_rhs => rw [← List.zipIdx_map_fst 0 a.level.guards, List.map_map]
      rfl
    rw [List.range_eq_range', ← List.zipIdx_map_snd 0 a.level.guards, List.mapM_map, ← hguards]
    exact mapM_eq_some_map hone
  have hcounts : ∀ count ∈ a.level.marks,
      count ≤ ((a.level.guards.map (·.filter)).map (Check.start (v.kind = .object))).length := by
    intro count hcount
    rw [List.length_map, List.length_map]
    exact (hplanned.fits _ (List.mem_of_getElem? hlevel)).bounded count hcount
  rw [arriveAt?, hpath, Option.bind_eq_bind, Option.bind_some, hlevel, Option.bind_eq_bind, Option.bind_some,
    hfilters, Option.bind_eq_bind, Option.bind_some, hbelow, ← htext]
  dsimp only
  rw [Staging.foldlM_markAt? v _ hcounts, List.map_map]
  rfl

theorem Placement.foldlM_arriveAt? (v : Value) (p : Placement) {arrivals : List Arrival}
    (h : ∀ a ∈ arrivals, a.Follows paths depth) :
    (arrivals.map (·.owner)).foldlM (arriveAt? paths depth v) p = some (arrivals.foldl (arrive v) p) := by
  induction arrivals generalizing p with
  | nil => rfl
  | cons a arrivals ih =>
    obtain ⟨ha, harrivals⟩ := List.forall_mem_cons.1 h
    rw [List.map_cons, List.foldlM_cons, arriveAt?_eq_some hp v p ha, Option.bind_eq_bind, Option.bind_some,
      ih _ harrivals, List.foldl_cons]

/-- At the top every path leads to the value. -/
theorem owners_arrivals : (arrivals paths).map (·.owner) = List.range paths.length := by
  have hone : ∀ x ∈ paths.zipIdx, (x.1.arrival? x.2).map (·.owner) = some x.2 := by
    rintro ⟨p, owner⟩ hx
    obtain ⟨top, below, hlevels, -⟩ := (hp p (List.mem_of_getElem? (List.mem_zipIdx_iff_getElem?.1 hx))).root
    simp only [Path.arrival?, hlevels, Option.map_some]
  rw [arrivals, List.map_filterMap, List.range_eq_range', ← List.zipIdx_map_snd 0 paths,
    ← List.filterMap_eq_map']
  exact List.filterMap_congr hone

/-- The paths that lead to a value are found, and what they know about its parent. -/
theorem enterAt?_eq_some (v : Value) {w : Walk} (h : Frames.Follow paths w.frames) :
    w.enterAt? paths v = some ((w.enter paths v).1.map (·.owner), (w.enter paths v).2) := by
  cases hw : w.frames with
  | nil =>
    rw [enter_top paths v hw, enterAt?, hw, owners_arrivals hp]
  | cons parent outer =>
    rw [hw] at h
    have hsee := Frame.follows_see v.text? h.2.1
    have hsame : ({ w with frames := parent :: outer } : Walk) = w := by rw [← hw]
    simp only [enterAt?, hw]
    rw [Frame.lookUp?_eq_some hp h.2.1, Option.bind_eq_bind, Option.bind_some,
      Trail.ownersAt?_eq_some hp parent.child hsee, Option.bind_eq_bind, Option.bind_some, hsame,
      enter_fst paths v hw]
    rfl

theorem arriveAt?_eq_some (v : Value) {w : Walk} (h : Frames.Follow paths w.frames) :
    w.arriveAt? paths v = some (w.arrive paths v) := by
  obtain ⟨henter, -, ha⟩ := follow_enter v h
  have hdepth : (w.enter paths v).2.frames.length = w.frames.length := by
    simpa [containers] using congrArg List.length (containers_enter paths v w)
  rw [arriveAt?, enterAt?_eq_some hp v h, Option.bind_eq_bind, Option.bind_some]
  dsimp only
  rw [Placement.foldlM_arriveAt? hp v _ (hdepth ▸ ha), Option.bind_eq_bind, Option.bind_some, arrive]
  dsimp only
  cases v.kind.container? <;> rfl

/-- A step of the walk finds all that it looks up. The only condition is that the frames follow
the paths, which every walk that started empty does. -/
theorem tokenAt?_eq_some (lexed : Lexed) {w : Walk} (h : Frames.Follow paths w.frames) :
    w.tokenAt? paths lexed = some (w.token paths lexed) := by
  rw [tokenAt?, token]
  cases lexed.token with
  | name raw => rfl
  | scalar kind raw => exact arriveAt?_eq_some hp _ h
  | opening c => exact arriveAt?_eq_some hp _ h
  | closing c => rfl

/-- So do all steps, one after the other. -/
theorem runAt?_eq_some (tokens : List Lexed) {w : Walk} (h : Frames.Follow paths w.frames) :
    w.runAt? paths tokens = some (w.run paths tokens) := by
  induction tokens generalizing w with
  | nil => rfl
  | cons lexed tokens ih =>
    rw [runAt?, List.foldlM_cons, tokenAt?_eq_some hp lexed h, Option.bind_eq_bind, Option.bind_some]
    exact ih (follow_token lexed h)

end Walk

end

/-! ## Sessions

The paths of a session stay the same over all steps, and the frames of its walk follow them
behind every step. Together with the fact that the levels of a parsed path are planned, that is
where each guard and selector stands at its place among the links, no step of a session can fail
to look something up. -/

namespace Session

variable {σ : Type} [Cursor σ]

theorem Course.paths_eq {s₀ s : Session σ} {tokens : List Lexed} {numbers : List Nat}
    (h : s₀.Course tokens numbers s) : s.paths = s₀.paths := by
  induction h with
  | start => rfl
  | token _ _ _ ih => exact (paths_proceed _).trans ih
  | ending _ _ _ ih => exact (paths_proceed _).trans ih
  | give _ _ ih => exact ih
  | pass _ _ ih => exact ih

/-- Paths from texts have their links in levels, and behind every step of a session over such paths a walk
that looks up paths, levels, selectors and filters by their numbers finds them. -/
theorem tokenAt?_of_course :
    (∀ (text : String) (p : Path), Path.parse text = .ok p → p.Planned) ∧
    ∀ (texts : List String) (paths : List Path) (options : Options) (source : σ) (s₀ s : Session σ)
      (tokens : List Lexed) (numbers : List Nat), Path.parseAll texts = .ok paths →
        Session.start paths options source = .ok s₀ → s₀.Course tokens numbers s →
          ({} : Walk).runAt? paths tokens = some s.walk ∧
            ∀ lexed, s.walk.tokenAt? paths lexed = some (s.walk.token paths lexed) := by
  refine ⟨fun _ _ => Path.planned_of_parse, fun texts paths options source s₀ s tokens numbers hp hs h => ?_⟩
  have hplanned : ∀ p ∈ paths, p.Planned := by
    intro p hmem
    obtain ⟨_, hparse⟩ := Path.forall_of_parseAll hp p hmem
    exact Path.planned_of_parse hparse
  have hpaths : s.paths = paths := by
    rw [h.paths_eq, Session.start] at *
    split at hs
    · cases hs
    · cases hs
      rfl
  have hgoing := h.going hs
  have hwalk := hgoing.walk
  have hfollow := hgoing.follow
  rw [hpaths] at hwalk hfollow
  exact ⟨hwalk ▸ Walk.runAt?_eq_some hplanned tokens trivial,
    fun lexed => Walk.tokenAt?_eq_some hplanned lexed hfollow⟩

/-- A path with filters on two levels, marks on both sides of the second, and a selector below them. The
first match is found while the object is open. -/
theorem tokenAt?_behind_filters :
    ∃ path, Path.parse "$?(@.k == \"x\").a+?(\"u\" == \"u\")+.b" = .ok path ∧ path.Planned ∧
      path.levels = [⟨0, .root, [⟨1, .member (.named (Bytes.ofString "k")) (Bytes.ofString "x")⟩], []⟩,
        ⟨2, .key (Bytes.ofString "a"), [⟨3, .literals (Bytes.ofString "u") (Bytes.ofString "u")⟩],
          [0, 1]⟩] ∧
      ∃ s₀ : Session Buffer, ofDocument [path] {} (Bytes.ofString r#"{"a":1,"k":"x"}"#) = .ok s₀ ∧
        s₀.next.2.walk.slots.size = 2 ∧ s₀.next.2.walk.containers = [.object] ∧
        ∃ tokens, ({} : Walk).runAt? [path] tokens = some s₀.next.2.walk ∧
          ∀ lexed, s₀.next.2.walk.tokenAt? [path] lexed = some (s₀.next.2.walk.token [path] lexed) := by
  let text := "$?(@.k == \"x\").a+?(\"u\" == \"u\")+.b"
  let path : Path := .ofLinks text
    [⟨.selector .root, false⟩,
      ⟨.filter (.member (.named (Bytes.ofString "k")) (Bytes.ofString "x")), false⟩,
      ⟨.selector (.key (Bytes.ofString "a")), true⟩,
      ⟨.filter (.literals (Bytes.ofString "u") (Bytes.ofString "u")), true⟩,
      ⟨.selector (.key (Bytes.ofString "b")), false⟩]
  let document : Bytes := Bytes.ofString r#"{"a":1,"k":"x"}"#
  obtain ⟨hplanned, hfound⟩ := @tokenAt?_of_course Buffer _
  have hparse : Path.parse text = .ok path := by decide +kernel
  have hparseAll : Path.parseAll [text] = .ok [path] := by decide +kernel
  obtain ⟨s₀, hs₀⟩ := @exists_ofDocument {} rfl [path] document
  have hnext : s₀.next.2.walk.slots.size = 2 ∧ s₀.next.2.walk.containers = [.object] := by
    cases hs₀
    decide +kernel
  obtain ⟨tokens, given, -, hcourse⟩ :=
    exists_course_next s₀ (Prod.mk.eta : (s₀.next.1, s₀.next.2) = _).symm
  obtain ⟨hrun, htoken⟩ :=
    hfound [text] [path] {} ⟨document⟩ s₀ s₀.next.2 _ _ hparseAll hs₀ (hcourse _ _ .start)
  exact ⟨path, hparse, hplanned text path hparse, by decide +kernel, s₀, hs₀, hnext.1, hnext.2, _, hrun,
    htoken⟩

end Session

end JsonExtract
