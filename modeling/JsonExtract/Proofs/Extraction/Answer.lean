import JsonExtract.Proofs.Extraction.Settlement
import JsonExtract.Proofs.Scan.Acceptance
import JsonExtract.Proofs.Walk.Release

/-!
# The answer to paths

A session over a document that is one value gives out the matches that its paths ask for in that value,
in the order of their places, and ends without a failure.

* `Walk.outlook`, `Walk.owned_eq_outlook` — the matches in the slots if nothing comes any more;
* `Walk.nodup_arrivals`, `Walk.flatMap_prizes_arrivals` — the arrivals of all paths at the top of a
  document;
* `Walk.held_run` — the matches behind the tokens of a value.
-/

namespace JsonExtract

/-! ## Slots that are ready

The prospects of a slot depend on what becomes of the containers that are open. If nothing comes
any more, each of them is taken as closed, and the prospects that are left are those of slots
that hold a match. This connects the general account of slots with what a session gives out. -/

/-- The match in a slot with a complete value, with the number of its path. -/
def Prospect.owned? (p : Prospect) : Option (Nat × Match) :=
  p.value?.map fun value => (p.owner, { path := p.path, value, kind := p.kind, route := p.route })

theorem Slot.owned?_eq_bind {s : Slot} {lost : Bool}
    (h : s.dead = false → (lost = false ↔ s.pending = 0)) :
    s.owned? = (s.prospect? lost).bind Prospect.owned? := by
  rw [owned?, match?, prospect?]
  cases hd : s.dead with
  | true => rfl
  | false =>
    cases lost
    · simp_all [Prospect.owned?, Function.comp_def]
    · simp_all

namespace Frames

/-- For each open container, that it is closed now. This is what is left to say about a walk when
nothing more is read. -/
def spent (frames : List Frame) : List Sequel :=
  frames.map fun _ => .closed

theorem spent_congr {frames frames' : List Frame}
    (h : frames'.map Frame.outline = frames.map Frame.outline) : spent frames' = spent frames := by
  rw [spent, spent, List.map_const', List.map_const', length_congr h]

/-- If nothing comes any more, the slots that wait for undecided filters are lost. A closed
container refuses everybody who still waits for one of its filters. -/
theorem lost_spent (frames : List Frame) :
    lost frames (spent frames) = frames.flatMap Frame.queue := by
  induction frames with
  | nil => rfl
  | cons f outer ih =>
    rw [spent, List.map_cons, lost_cons, Frame.lost_closed, List.flatMap_cons, ← ih]
    rfl

end Frames

namespace Walk

/-- The prospects of all slots if nothing comes any more. -/
def outlook (w : Walk) : List (Option Prospect) :=
  w.prospects (Frames.spent w.frames)

/-- Slots hold what they win if nothing comes any more, as far as it is complete. A slot that is
complete and lost by nobody is ready, and the other way round. -/
theorem owned_eq_outlook {w : Walk} (hb : w.Balanced) :
    w.slots.owned = (w.outlook.filterMap id).filterMap Prospect.owned? := by
  have hslot : ∀ (i : Nat) (s : Slot), w.slots[i]? = some s →
      s.owned? = (s.prospect? (w.queue.contains i)).bind Prospect.owned? := by
    intro i s hs
    refine Slot.owned?_eq_bind fun hd => ?_
    rw [hb.pending hs hd, List.count_eq_zero, List.contains_eq_mem, decide_eq_false_iff_not]
  have houtlook : w.outlook = w.slots.prospects w.queue := by
    rw [outlook, prospects, Frames.lost_spent, queue]
  have howned : w.slots.toList.map Slot.owned? = w.outlook.map (·.bind Prospect.owned?) := by
    apply List.ext_getElem?
    intro i
    rw [houtlook, List.getElem?_map, List.getElem?_map, Slots.getElem?_prospects, Option.map_map,
      Array.getElem?_toList]
    cases hs : w.slots[i]? with
    | none => rfl
    | some s => exact congrArg some (hslot i s hs)
  have hid : ∀ (f : Slot → Option (Nat × Match)) (xs : List Slot),
      xs.filterMap f = (xs.map f).filterMap id := by
    intro f xs
    rw [List.filterMap_map]
    rfl
  rw [Slots.owned, hid, howned, List.filterMap_map, List.filterMap_filterMap]
  rfl

end Walk

/-! ## The top of a document

Outside of all containers every path arrives at the value, on its first level. The owners of the
arrivals are the positions of the paths in the session, so no two are the same, and no filter
outside can fail. -/

theorem Path.forall_of_parseAll {texts : List String} {paths : List Path}
    (h : parseAll texts = .ok paths) : ∀ p ∈ paths, ∃ text, parse text = .ok p := by
  induction texts generalizing paths with
  | nil =>
    cases h
    exact fun p hp => absurd hp List.not_mem_nil
  | cons text texts ih =>
    rw [parseAll, List.mapM_cons] at h
    cases hp : parse text with
    | error failure =>
      rw [hp] at h
      cases h
    | ok p =>
      cases hps : texts.mapM parse with
      | error failure =>
        rw [hp, hps] at h
        cases h
      | ok ps =>
        rw [hp, hps] at h
        cases h
        exact List.forall_mem_cons.2 ⟨⟨text, hp⟩, ih hps⟩

namespace Walk

/-- The arrivals of all paths at the value that stands in no container. -/
def arrivals (paths : List Path) : List Arrival :=
  paths.zipIdx.filterMap fun (p, owner) => p.arrival? owner

/-- Where no container is open a value has no parent to be shown to, so entering it changes nothing
and leaves the arrivals of all paths. -/
theorem enter_top (paths : List Path) (v : Value) {w : Walk} (hw : w.frames = []) :
    w.enter paths v = (arrivals paths, w) := by
  rw [enter, hw]
  rfl

theorem nodup_arrivals (paths : List Path) : ((arrivals paths).map (·.owner)).Nodup := by
  have howner : ∀ (x : Path × Nat) a, x.1.arrival? x.2 = some a → a.owner = x.2 := by
    intro x a ha
    rw [Path.arrival?] at ha
    split at ha
    · cases ha; rfl
    · cases ha
  refine (sublist_map_filterMap howner _).nodup ?_
  rw [List.zipIdx_map_snd]
  exact List.nodup_range'

/-- At the top, the arrivals of paths win what the paths ask for. At a place the order is that of
the paths, and for one path that of its marks. -/
theorem flatMap_prizes_arrivals {paths : List Path} (h : ∀ p ∈ paths, ∃ text, Path.parse text = .ok p)
    (t : Tree) (place : Way × Tree) :
    ((arrivals paths).flatMap (Arrival.prizes [] t place)).filterMap Prospect.owned? =
      paths.zipIdx.flatMap fun x => (x.1.matchesAt t place).map (x.2, ·) := by
  have hone : ∀ (p : Path) (owner : Nat), (∃ text, Path.parse text = .ok p) →
      ((p.arrival? owner).toList.flatMap (Arrival.prizes [] t place)).filterMap Prospect.owned? =
        (p.matchesAt t place).map (owner, ·) := by
    rintro p owner ⟨text, hp⟩
    rw [Path.matchesAt_eq_replicate hp, Path.arrival?]
    cases p.levels with
    | nil => rw [Level.hits_nil]; rfl
    | cons level below =>
      rw [Option.toList_some, List.flatMap_singleton, Arrival.prizes, List.map_replicate]
      exact List.filterMap_replicate_of_some rfl
  rw [arrivals, flatMap_filterMap_eq, List.filterMap_flatMap]
  exact List.flatMap_congr fun x hx => hone x.1 x.2 (h x.1 (List.fst_mem_of_mem_zipIdx hx))

/-- Behind the tokens of a value, the slots hold what the paths ask for in it. The tokens may
stand anywhere, as places of tokens do not matter to matches. -/
theorem held_run {paths : List Path} (h : ∀ p ∈ paths, ∃ text, Path.parse text = .ok p) {t : Tree}
    {tokens : List Lexed} (htokens : tokens.map (·.token) = t.tokens) :
    (({} : Walk).run paths tokens).slots.held 0 = Path.matchesIn t paths := by
  obtain ⟨first, more, rfl⟩ : ∃ first more, tokens = first :: more := by
    cases tokens with
    | nil => exact absurd htokens.symm (Tree.tokens_ne_nil t)
    | cons first more => exact ⟨first, more, rfl⟩
  rw [List.map_cons] at htokens
  have hrun : ({} : Walk).run paths (first :: more) =
      (({} : Walk).begin (t.value first.start first.stop) (arrivals paths)).run paths more := by
    rw [run, List.foldl_cons, Tree.token_first htokens.symm]
    rfl
  have hbalanced := (run_advances paths (first :: more) balanced_initial).balanced
  obtain ⟨hframes, _, _, news, hnews, hwon⟩ := settling t paths [] (arrivals paths) {} first.start
    first.stop more balanced_initial (nodup_arrivals paths) (fun _ _ _ hf => absurd hf List.not_mem_nil)
    (by rw [← htokens, List.tail_cons])
  rw [hrun] at hbalanced ⊢
  rw [List.map_nil, List.map_eq_nil_iff] at hframes
  have hall : (arrivals paths).filter (fun a => Frames.pass [] [] a.owner) = arrivals paths :=
    List.filter_eq_self.2 fun _ _ => rfl
  rw [← Slots.map_snd_owned, owned_eq_outlook hbalanced, outlook, hframes, Frames.spent,
    List.map_nil, hnews, List.filterMap_append, hwon, hall]
  have hzip : ∀ place, paths.flatMap (Path.matchesAt t place) =
      (paths.zipIdx.flatMap fun x => (x.1.matchesAt t place).map (x.2, ·)).map Prod.snd := by
    intro place
    rw [← List.zipIdx_map_fst 0 paths, List.flatMap_map, List.zipIdx_map_fst, List.map_flatMap]
    simp only [List.map_map, Function.comp_def, List.map_id']
  rw [List.filterMap_append, List.filterMap_flatMap, Path.matchesIn]
  simp only [hzip, ← flatMap_prizes_arrivals h t, ← List.map_flatMap]
  rfl

end Walk

/-! ## Sessions

The general account of values, instantiated at the top of a document, says what the slots hold
behind the last token, and the account of sessions says that this is what all calls together
give out. -/

/-- A session over a document that is one value, nested not too deep, gives out exactly the matches that
its paths ask for in that value, and ends without a failure. -/
theorem Session.rest_eq_matchesIn {texts : List String} {paths : List Path} {options : Options}
    {t : Tree} {d : Bytes} (hp : Path.parseAll texts = .ok paths) (ho : options.check = .ok ())
    (hd : Grammar.IsDocument options.unicodeSpace t d) (hdepth : t.depth ≤ options.maxDepth) :
    ∃ s, ofDocument paths options d = .ok s ∧ s.rest.1 = Path.matchesIn t paths ∧
      s.rest.2.failure? = none := by
  let s : Session Buffer :=
    { paths, options, lexer := .initial, source := ⟨d⟩, walk := {}, front := 0, given := 0,
      ending? := none }
  have hs : ofDocument paths options d = .ok s := by
    rw [ofDocument, start, ho]
  obtain ⟨tokens, htokens, hfeed⟩ := Lexer.feed_document hd .initial trivial rfl
    (Nat.le_trans (Nat.le_of_eq (Nat.zero_add _)) hdepth)
  have hscan : Lexer.initial.scan options (Buffer.mk d) = ⟨tokens, none⟩ := by
    rw [Lexer.scan_buffer, hfeed]
  have hlast : s.last = ((({} : Walk).run paths tokens).slots, none) := by
    rw [last, show s.lexer.scan s.options s.source = ⟨tokens, none⟩ from hscan]
    rfl
  obtain ⟨hrest, hfailure⟩ := rest_eq (s := s) Walk.balanced_initial
  rw [hlast] at hrest hfailure
  refine ⟨s, hs, hrest.trans ?_, hfailure⟩
  exact Walk.held_run (Path.forall_of_parseAll hp) htokens

/-- A member behind the value asked for lets it through. -/
theorem Session.rest_of_filter_behind :
    ∃ s, Session.ofDocument
        [.ofLinks "$?(@.k == \"x\").a+" [⟨.selector .root, false⟩,
          ⟨.filter (.member (.named (Bytes.ofString "k")) (Bytes.ofString "x")), false⟩,
          ⟨.selector (.key (Bytes.ofString "a")), true⟩]] {}
        (Bytes.ofString r#"{"a":1,"k":"x"}"#) = .ok s ∧
      s.rest.1 = [⟨"$?(@.k == \"x\").a+", Bytes.ofString "1", .number, [.key (Bytes.ofString "a")]⟩] ∧
      s.rest.2.failure? = none := by
  let t : Tree := .object [([0x61], .scalar (.number [0x31])), ([0x6b], .scalar (.string [0x78]))]
  have hparse : Path.parseAll ["$?(@.k == \"x\").a+"] =
      .ok [.ofLinks "$?(@.k == \"x\").a+" [⟨.selector .root, false⟩,
        ⟨.filter (.member (.named (Bytes.ofString "k")) (Bytes.ofString "x")), false⟩,
        ⟨.selector (.key (Bytes.ofString "a")), true⟩]] := by
    decide +kernel
  have hbody : ∀ b : UInt8, 0x20 ≤ b → b ≠ Ascii.quote → b ≠ Ascii.backslash →
      Grammar.IsStringBody [b] := fun b hc hq hs => .plain hc hq hs .nil
  have hone : Grammar.IsScalar (.number [0x31]) :=
    @Grammar.IsNumber.mk [] [0x31] [] [] (.inl rfl) (.digits (by decide) (by decide)
      (fun _ h => absurd h List.not_mem_nil)) .none .none
  have hx : Grammar.IsScalar (.string [0x78]) := hbody 0x78 (by decide) (by decide) (by decide)
  have hdocument : Grammar.IsDocument false t _ :=
    .mk .nil (.object (.moreMembers .nil (hbody 0x61 (by decide) (by decide) (by decide)) .nil .nil
      (.scalar hone) .nil (.lastMember .nil (hbody 0x6b (by decide) (by decide) (by decide)) .nil .nil
        (.scalar hx) .nil))) .nil
  have hmatches : Path.matchesIn t
      [.ofLinks "$?(@.k == \"x\").a+" [⟨.selector .root, false⟩,
        ⟨.filter (.member (.named (Bytes.ofString "k")) (Bytes.ofString "x")), false⟩,
        ⟨.selector (.key (Bytes.ofString "a")), true⟩]] =
      [⟨"$?(@.k == \"x\").a+", Bytes.ofString "1", .number, [.key (Bytes.ofString "a")]⟩] := by
    decide +kernel
  exact hmatches ▸ Session.rest_eq_matchesIn hparse rfl hdocument (by decide +kernel)

end JsonExtract
