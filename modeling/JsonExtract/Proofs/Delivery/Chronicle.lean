import JsonExtract.Proofs.Delivery.Termination
import JsonExtract.Proofs.Extraction.Trimming
import JsonExtract.Proofs.Scan.Excerpt
import JsonExtract.Proofs.Walk.Ancestry
import JsonExtract.Session.Journal

/-!
# The journal of a session tells the truth about its document

What the journal tells about a slot is what the document shows: the bytes of the value, or of the bracket
that opens it, and how many filters on the containers around it, and on the value itself, are undecided by
the bytes in front. At the end of the document it tells how many matches were given out before.

* `Entry.ending`, `Slots.entries`, `Notice.entries` — the entries about the end and about slots;
* `Slot.Stands`, `Slot.stands_of_notice` — a slot that tells the truth about the value that a token starts;
* `Session.journal_eq`, `Session.shown_proceed` — the journal, and what a step writes to it;
* `Session.messages_after` — calls only add to it;
* `Session.exists_ending` — the number of matches in front of the end;
* `Session.notices_rest`, `Session.pairwise_start_rest` — the slots;
* `Session.chronicle_of_ofDocument` — the journal of every session.
-/

namespace JsonExtract

/-! ## Entries

An entry is a message with a grade. What matters of an entry about a slot is fixed when the slot
is reserved, so it can be computed from the notice about the slot, whatever happens to it later. -/

/-- The entry about the end of the document. -/
def Entry.ending (paths found : Nat) : Option Failure → Entry
  | none => .finished paths found
  | some failure => .aborted paths found failure

/-- An early end matters to everyone. -/
theorem Entry.grade_ending (paths found : Nat) (failure? : Option Failure) :
    (ending paths found failure?).grade = if failure?.isSome then .warn else .debug := by
  cases failure? <;> rfl

/-- A slot that was just reserved, as far as a notice tells about it. Its fields that may change
later are those of a new slot. -/
def Notice.slot (n : Notice) : Slot where
  owner := n.owner
  path := n.path
  kind := n.kind
  route := []
  start := n.start
  stop := n.stop
  awaited := n.awaited
  pending := n.awaited

/-- What an entry shows of itself: how much it matters, and its text. -/
def Entry.shown (e : Entry) : Grade × String :=
  (e.grade, e.message)

/-- The entries about slots. -/
def Slots.entries (slots : List Slot) : List Entry :=
  slots.zipIdx.map fun p => .reserved p.2 p.1

/-- The entries about slots that are just reserved, the first of which has the number `first`. -/
def Notice.entries (first : Nat) (notices : List Notice) : List Entry :=
  (notices.zipIdx first).map fun p => .reserved p.2 p.1.slot

theorem Notice.entries_append (first : Nat) (ns ns' : List Notice) :
    entries first (ns ++ ns') = entries first ns ++ entries (first + ns.length) ns' := by
  rw [entries, entries, entries, List.zipIdx_append, List.map_append]

namespace Slots

/-- What entries show of slots is known when the slots are reserved. Judging and completing a slot
changes no entry about it. -/
theorem shown_entries (slots : List Slot) :
    (entries slots).map Entry.shown = (Notice.entries 0 (slots.map Slot.notice)).map Entry.shown := by
  rw [entries, Notice.entries, List.map_map, List.map_map, List.zipIdx_map, List.map_map]
  rfl

theorem grade_entries (slots : List Slot) :
    (entries slots).map Entry.grade = List.replicate slots.length .trace := by
  rw [entries, List.map_map]
  refine List.eq_replicate_iff.2 ⟨by rw [List.length_map, List.length_zipIdx], ?_⟩
  rw [List.forall_mem_map]
  exact fun _ _ => rfl

end Slots

/-! ## Slots

A notice tells of a value, of where it stands and of how many filters were undecided. These are
compared with the tokens of the document in front of the value, by what the open containers tell
at that place. -/

/-- A slot tells the truth about the value that a token of a document starts, inside of some
containers. The containers around the value are those that the tokens in front of it have left
open. -/
structure Slot.Stands (paths : List Path) (d : Bytes) (ancestors : List Ancestor) (l : Lexed) (slot : Slot) :
    Prop where
  /-- the slot stands where the token does, inside of the document -/
  place : slot.start = l.start ∧ slot.stop = l.stop ∧ slot.stop ≤ d.length
  /-- there the document has the scalar, or the bracket that opens the container -/
  excerpt :
    (∃ s : Scalar, Grammar.IsScalar s ∧ s.kind = slot.kind ∧ l.token = .scalar s.kind s.raw ∧
        (d.take slot.stop).drop slot.start = s.raw) ∨
      ∃ c : Container, c.kind = slot.kind ∧ l.token = .opening c ∧
        (d.take slot.stop).drop slot.start = [c.opening]
  /-- the path of the slot leads to the value, and has a mark there; the slot awaits the filters of the path
  on the containers, and those on the value in front of the mark, as far as they are undecided -/
  awaited : ∃ p v r, paths[slot.owner]? = some p ∧ slot.path = p.text ∧ l.value? = some v ∧
    p.arrivalAt? slot.owner (Ancestors.start v ancestors) = some r ∧
      ∃ count ∈ r.level.marks, slot.awaited = p.undecided (Ancestors.start v ancestors) +
        (r.level.guards.take count).countP fun g => v.status g.filter = .undecided

/-- A value is started by its scalar, or by the bracket that opens it. -/
theorem Lexed.token_of_value? {l : Lexed} {v : Value} (h : l.value? = some v) :
    l.token = .scalar v.kind v.raw ∨ ∃ c : Container, v.kind = c.kind ∧ l.token = .opening c := by
  rw [value?] at h
  split at h
  · next ht =>
    cases h
    exact .inl ht
  · next c ht =>
    cases h
    exact .inr ⟨c, rfl, ht⟩
  · cases h
  · cases h

/-- A slot that is told of tells the truth. -/
theorem Slot.stands_of_notice {paths : List Path} {options : Options} {d : Bytes} {ancestors : List Ancestor}
    {l : Lexed} {v : Value} {slot : Slot} (hl : l ∈ (Lexer.initial.feed options .gap d).tokens)
    (hv : l.value? = some v)
    (hn : slot.notice ∈ Ancestors.notices paths (Ancestors.start v ancestors) v) :
    slot.Stands paths d ancestors l := by
  obtain ⟨⟨p, owner⟩, hp, hn⟩ := List.mem_flatMap.1 hn
  obtain ⟨r, hr, count, hcount, hnotice⟩ := Path.of_mem_noticesAt hn
  obtain ⟨hvstart, hvstop⟩ := Lexed.place_of_value? hv
  rw [Slot.notice, Notice.mk.injEq, hvstart, hvstop] at hnotice
  obtain ⟨rfl, hpath, hkind, hstart, hstop, hawaited⟩ := hnotice
  obtain ⟨hle, hquotes⟩ := Lexer.quotes_of_feed hl
  rw [← hstop] at hle
  rw [← hstop, ← hstart] at hquotes
  have hpath? : paths[slot.owner]? = some p := List.mem_zipIdx_iff_getElem?.1 hp
  refine ⟨⟨hstart, hstop, hle⟩, ?_, p, v, r, hpath?, hpath, hv, hr, count, hcount, hawaited⟩
  obtain ht | ⟨c, hc, ht⟩ := Lexed.token_of_value? hv
  · obtain ⟨s, hs, hskind, hsraw⟩ := Lexer.scalar_of_feed hl ht
    refine .inl ⟨s, hs, hskind.trans hkind.symm, ?_, ?_⟩
    · rw [ht, hskind, hsraw]
    · rw [hquotes, ht, Token.text, hsraw]
  · refine .inr ⟨c, hc.symm.trans hkind.symm, ht, ?_⟩
    rw [hquotes, ht, Token.text]

namespace Session

/-! ## The journal -/

variable {σ : Type} (s : Session σ)

theorem journal_eq :
    s.journal = .started (s.paths.map (·.text)) :: Slots.entries s.walk.slots.toList ++
      (s.ending?.map fun e => .ending s.paths.length e.given e.failure?).toList := by
  have hclosing : s.closingEntry =
      (s.ending?.map fun e => .ending s.paths.length e.given e.failure?).toList := by
    rw [closingEntry]
    rcases s.ending? with _ | ⟨_ | failure, given⟩ <;> rfl
  rw [← hclosing]
  rfl

theorem ending?_eq_none {s : Session σ} (h : s.isOver = false) : s.ending? = none := by
  rwa [isOver, Option.isSome_eq_false_iff, Option.isNone_iff_eq_none] at h

variable [Cursor σ]

/-- The entries that a session writes when it takes in one more token, or meets the end of the document.
They are about the slots for the value that the token starts, numbered behind the slots so far, or about the
end. -/
def writes : List Entry :=
  match (s.lexer.pull s.options s.source).answer with
  | .ok (some token) =>
    Notice.entries s.walk.slots.size (token.value?.toList.flatMap (s.walk.notices s.paths))
  | .ok none => [.ending s.paths.length s.given none]
  | .error failure => [.ending s.paths.length s.given (some failure)]

/-- A step of a session adds to its journal what the step writes, and changes nothing in what is there. -/
theorem shown_proceed (h : s.isOver = false) :
    s.proceed.journal.map Entry.shown = s.journal.map Entry.shown ++ s.writes.map Entry.shown := by
  have hended := ending?_eq_none h
  rw [journal_eq, journal_eq, hended, writes, proceed]
  rcases (s.lexer.pull s.options s.source).answer with failure | _ | token
  · simp
  · simp
  · -- slots from before are told of as before, and the new ones follow
    have hnotices := Walk.notices_token s.paths s.walk token
    rw [Slots.notices, Slots.notices] at hnotices
    dsimp only
    rw [hended]
    simp only [Option.map_none, Option.toList_none, List.append_nil, List.map_cons, Slots.shown_entries,
      hnotices, Notice.entries_append, List.map_append, List.length_map, Array.length_toList, Nat.zero_add,
      List.cons_append]

theorem messages_proceed (h : s.isOver = false) :
    s.journal.map Entry.message <+: s.proceed.journal.map Entry.message := by
  have hmessage : ∀ es : List Entry, es.map Entry.message = (es.map Entry.shown).map Prod.snd := by
    intro es
    rw [List.map_map]
    rfl
  rw [hmessage, hmessage, shown_proceed s h, List.map_append]
  exact List.prefix_append ..

/-- A call adds to the journal. -/
theorem messages_next : s.journal.map Entry.message <+: s.next.2.journal.map Entry.message := by
  fun_induction next s with
  | case1 => exact List.prefix_refl _
  | case2 => exact List.prefix_refl _
  | case3 s front hr passed hover ih =>
    exact (messages_proceed passed (Bool.eq_false_iff.2 hover)).trans ih

/-- So do calls. An entry that was written is never changed or taken back. -/
theorem messages_after {j k : Nat} (hle : j ≤ k) :
    (s.after j).journal.map Entry.message <+: (s.after k).journal.map Entry.message := by
  induction hle with
  | refl => exact List.prefix_refl _
  | step _ ih =>
    rw [after_succ]
    exact ih.trans (messages_next _)

theorem paths_next : s.next.2.paths = s.paths := by
  fun_induction next s with
  | case1 => rfl
  | case2 => rfl
  | case3 s front hr passed hover ih => exact ih.trans (paths_proceed passed)

theorem paths_after (k : Nat) : (s.after k).paths = s.paths := by
  induction k with
  | zero => rfl
  | succ k ih => rw [after_succ, paths_next, ih]

/-! ## The number of matches

The last entry tells how many matches were given out before it. The session counts them as it
gives them out, and it notes the number when the end is met, which may be in the middle of a
call. -/

theorem given_proceed : s.proceed.given = s.given := by
  simp only [proceed]
  split <;> rfl

variable {s}

theorem given_next (h : s.next.1.isSome = true) : s.next.2.given = s.given + 1 := by
  fun_induction next s with
  | case1 => rfl
  | case2 => cases h
  | case3 s front hr passed hover ih => rw [ih h, given_proceed]

/-- The end of the document goes with the number of matches that were given out before. -/
theorem given_of_proceed (h : s.isOver = false) {e : Ending} (he : s.proceed.ending? = some e) :
    e.given = s.given := by
  simp only [proceed] at he
  split at he
  · exact absurd (he.symm.trans (ending?_eq_none h)) (Option.some_ne_none e)
  · cases he
    rfl
  · cases he
    rfl

/-- So it does if a call meets the end. A call that meets the end may give out a match then, which
the number does not count. -/
theorem given_of_next (h : s.isOver = false) {e : Ending} (he : s.next.2.ending? = some e) :
    e.given = s.given := by
  fun_induction next s with
  | case1 => exact absurd (he.symm.trans (ending?_eq_none h)) (Option.some_ne_none e)
  | case2 s front hr passed hover => exact absurd (h.symm.trans hover) Bool.false_ne_true
  | case3 s front hr passed hover ih =>
    cases ho : passed.proceed.isOver with
    | false => rw [ih ho he, given_proceed]
    | true =>
      rw [ending?_next ho] at he
      exact given_of_proceed (s := passed) h he

/-- Some call meets the end, behind a number of matches, and notes this number. All later calls
give out what was still held up, and change nothing in the number. -/
theorem exists_ending (hgiven : s.given = 0) (ho : s.isOver = false) :
    ∃ m, (∀ k < m, (s.after k).next.1.isSome) ∧ (∀ k, (s.after k).isOver = true ↔ m < k) ∧
      ∀ k e, (s.after k).ending? = some e → e.given = m := by
  obtain ⟨n, hn⟩ := exists_isOver_iff s
  obtain _ | m := n
  · exact absurd (ho.symm.trans ((hn 0).2 (Nat.le_refl 0))) Bool.false_ne_true
  have hsome : ∀ k < m, (s.after k).next.1.isSome := by
    intro k hlt
    cases hnone : (s.after k).next.1 with
    | some found => rfl
    | none =>
      -- where nothing is given out, the end was met
      have hover : (s.after (k + 1)).isOver = true := by
        rw [after_succ]
        exact isOver_of_next_none (Prod.ext hnone rfl)
      exact absurd ((hn (k + 1)).1 hover) (by omega)
  have hcount : ∀ k ≤ m, (s.after k).given = k := by
    intro k hle
    induction k with
    | zero => exact hgiven
    | succ k ih => rw [after_succ, given_next (hsome k hle), ih (Nat.le_of_lt hle)]
  have hopen : (s.after m).isOver = false :=
    Bool.eq_false_iff.2 fun hover => Nat.not_succ_le_self m ((hn m).1 hover)
  refine ⟨m, hsome, hn, fun k e he => ?_⟩
  have hlt : m + 1 ≤ k := (hn k).1 (by rw [isOver, he]; rfl)
  rw [ending?_after ((hn (m + 1)).2 (Nat.le_refl _)) hlt, after_succ] at he
  rw [given_of_next hopen he, hcount m (Nat.le_refl m)]

/-! ## The chronicle

All that is known of the journal is put together: its messages in their order, what they tell
about slots and about the end, and that calls only ever add to it. -/

/-- The journal of a session tells of its slots and of its end as the document, and what was given
out, have it. What is read of the document, the slots and the number of calls in front of the end
are named, since the fields refer to them. -/
structure Chronicle (d : Bytes) (read : Scanned) (slots : List Slot) (m : Nat) (s₀ : Session Buffer) :
    Prop where
  /-- it tells of the start, of the slots by their numbers, and once of the end -/
  entries : s₀.rest.2.journal = .started (s₀.paths.map (·.text)) :: Slots.entries slots ++
    [.ending s₀.paths.length m read.failure?]
  /-- an early end matters to everyone -/
  grades : s₀.rest.2.journal.map Entry.grade = .debug :: List.replicate slots.length .trace ++
    [if s₀.rest.2.failure?.isSome then .warn else .debug]
  /-- the session fails as reading the document does -/
  failure : s₀.rest.2.failure? = read.failure?
  /-- slots are in the order of their values -/
  ordered : slots.Pairwise (·.start ≤ ·.start)
  /-- each slot tells the truth about the value that a token starts, by the tokens in front -/
  stands : ∀ slot ∈ slots, ∃ before l after, read.tokens = before ++ l :: after ∧
    slot.Stands s₀.paths d (Ancestors.behind before []) l
  /-- and no slot is missing -/
  complete : slots.map Slot.notice = Ancestors.chronicle s₀.paths [] read.tokens
  /-- that many calls give out a match without meeting the end -/
  given : ∀ k < m, (s₀.after k).next.1.isSome
  /-- and the next one meets it -/
  meets : ∀ k, (s₀.after k).isOver = true ↔ m < k
  /-- what was told is not taken back -/
  grows : ∀ j k, j ≤ k →
    (s₀.after j).journal.map Entry.message <+: (s₀.after k).journal.map Entry.message

variable {paths : List Path} {options : Options} {d : Bytes} {s₀ : Session Buffer}

/-- What is told about the slots of a session is what the tokens of the document tell. -/
theorem notices_rest (hs : ofDocument paths options d = .ok s₀) :
    s₀.rest.2.walk.slots.notices =
      Ancestors.chronicle paths [] (Lexer.initial.feed options .gap d).tokens := by
  obtain ⟨hb, -, hlast⟩ := last_ofDocument hs
  have hscalars : ∀ l ∈ (Lexer.initial.feed options .gap d).tokens, ∀ kind raw,
      l.token = .scalar kind raw → kind.container? = none := by
    intro l hl kind raw ht
    obtain ⟨s, -, rfl, -⟩ := Lexer.scalar_of_feed hl ht
    cases s <;> rfl
  rw [slots_rest hb, hlast]
  exact Walk.notices_run_eq_chronicle .nil hscalars

/-- The slots of a session are in the order of their values. -/
theorem pairwise_start_rest (hs : ofDocument paths options d = .ok s₀) :
    s₀.rest.2.walk.slots.toList.Pairwise (·.start ≤ ·.start) := by
  obtain ⟨hb, -, hlast⟩ := last_ofDocument hs
  have hrow := Midway.row_feed (Midway.fits_initial options) d
  obtain ⟨more, hmore, hordered, -⟩ := Walk.notices_run paths hrow {}
  have hnotices : s₀.rest.2.walk.slots.notices = more := by
    rw [slots_rest hb, hlast]
    exact hmore
  rwa [← hnotices, Slots.notices, List.pairwise_map] at hordered

/-- The journal of every session over a document tells the truth. It has one entry for the start,
one for each slot in the order of their values, and one for the end. What it says of a slot is
what the tokens in front of the value say, with neither walk nor slots in between. -/
theorem chronicle_of_ofDocument (hs : ofDocument paths options d = .ok s₀) :
    ∃ slots m, s₀.Chronicle d (Lexer.initial.feed options .gap d) slots m := by
  obtain ⟨rfl, hgiven, hopen⟩ : s₀.paths = paths ∧ s₀.given = 0 ∧ s₀.isOver = false := by
    rw [ofDocument, start] at hs
    split at hs <;> cases hs
    exact ⟨rfl, rfl, rfl⟩
  obtain ⟨m, hfound, hmeets, hnoted⟩ := exists_ending hgiven hopen
  have hfailure := (rest_ofDocument hs).2
  have hnotices := notices_rest hs
  have hentries : s₀.rest.2.journal = .started (s₀.paths.map (·.text)) ::
      Slots.entries s₀.rest.2.walk.slots.toList ++
        [.ending s₀.paths.length m (Lexer.initial.feed options .gap d).failure?] := by
    obtain ⟨e, he⟩ := Option.isSome_iff_exists.1 s₀.isOver_rest
    have hpaths : s₀.rest.2.paths = s₀.paths := by rw [rest_snd, paths_after]
    have hcount : e.given = m := hnoted _ e (rest_snd s₀ ▸ he)
    rw [failure?, he] at hfailure
    rw [journal_eq, he, hpaths, ← hfailure, ← hcount]
    rfl
  refine ⟨s₀.rest.2.walk.slots.toList, m, ?_⟩
  exact
    { entries := hentries
      grades := by
        rw [hentries, List.map_append, List.map_cons, Slots.grade_entries, List.map_singleton,
          Entry.grade_ending, hfailure]
        rfl
      failure := hfailure
      ordered := pairwise_start_rest hs
      stands := by
        intro slot hslot
        have hn : slot.notice ∈ s₀.rest.2.walk.slots.notices := List.mem_map_of_mem hslot
        rw [hnotices] at hn
        obtain ⟨before, l, after, v, htokens, hv, hn⟩ := Ancestors.exists_of_mem_chronicle hn
        have hl : l ∈ (Lexer.initial.feed options .gap d).tokens :=
          htokens ▸ List.mem_append_right _ List.mem_cons_self
        exact ⟨before, l, after, htokens, Slot.stands_of_notice hl hv hn⟩
      complete := hnotices
      given := hfound
      meets := hmeets
      grows := fun j k => s₀.messages_after }

/-- A document that is cut off behind the member that decides a filter: both slots await the filter, and both
matches are given out before the end. -/
theorem chronicle_of_cut_object :
    ∃ (d : Bytes) (s₀ : Session Buffer),
      d = Bytes.ofString r#"{"a":[1],"k":"x""# ∧
      ofDocument [.ofLinks "$?(@.k == \"x\").a+[*]+" [⟨.selector .root, false⟩,
          ⟨.filter (.member (.named (Bytes.ofString "k")) (Bytes.ofString "x")), false⟩,
          ⟨.selector (.key (Bytes.ofString "a")), true⟩,
          ⟨.selector .wildcard, true⟩]] {} d = .ok s₀ ∧
      (∃ slots m, s₀.Chronicle d (Lexer.initial.feed {} .gap d) slots m) ∧ (s₀.after 2).next.1 = none ∧
      (s₀.after 3).journal.tail.map Entry.message =
        ["staged slot 0 (array) of \"$?(@.k == \\\"x\\\").a+[*]+\" at bytes 5..6, 1 guards pending",
          "staged slot 1 (number) of \"$?(@.k == \\\"x\\\").a+[*]+\" at bytes 6..7, 1 guards pending",
          "evaluation of 1 paths aborted after 2 matches: " ++
            "syntax error: unexpected end of input at byte 16 (1:17)"] := by
  obtain ⟨s₀, hs₀⟩ : ∃ s₀ : Session Buffer,
      ofDocument [.ofLinks "$?(@.k == \"x\").a+[*]+" [⟨.selector .root, false⟩,
          ⟨.filter (.member (.named (Bytes.ofString "k")) (Bytes.ofString "x")), false⟩,
          ⟨.selector (.key (Bytes.ofString "a")), true⟩,
          ⟨.selector .wildcard, true⟩]] {}
        (Bytes.ofString r#"{"a":[1],"k":"x""#) = .ok s₀ := ⟨_, rfl⟩
  refine ⟨_, s₀, rfl, hs₀, chronicle_of_ofDocument hs₀, ?_⟩
  cases hs₀
  decide +kernel

end Session

end JsonExtract
