import JsonExtract.Proofs.Scan.Feed
import JsonExtract.Proofs.Walk.Balance
import JsonExtract.Session.Basic

/-!
# What a session gives out

A session gives out matches as soon as they are ready, while it is still reading. In the end it has
given out what the slots hold behind the last token: a match that is ready early stays as it is, and
slots that are passed over early hold no match later.

* `Slots.held`, `Slots.owned` — the matches that slots hold from a number on; all of them with the
  numbers of their paths;
* `Session.last`, `Session.last_start` — the slots behind the last token, and what ended the session
  early;
* `Session.next_some`, `Session.next_none` — one match from the first of these slots;
* `Session.rest_eq`, `Session.slots_rest`, `Session.rest_ofDocument` — all of them.
-/

namespace JsonExtract

/-! ## Releasing

What is given out is a list of matches, and it can be read off the slots at any time: `held`
lists the matches from a number on. A slot that the session passes over, or gives out, has
settled, so the list that a later state of the slots holds begins with it. The lemmas compare
one step of `release` with this list. -/

/-- The match in a slot that is ready, with the number of its path. -/
def Slot.owned? (s : Slot) : Option (Nat × Match) :=
  s.match?.map (s.owner, ·)

namespace Slots

/-- The matches in the slots from `front` on. Dead slots and slots that wait contribute nothing. -/
def held (slots : Slots) (front : Nat) : List Match :=
  (slots.toList.drop front).filterMap Slot.match?

theorem held_of_getElem? {slots : Slots} {front : Nat} {s : Slot} (h : slots[front]? = some s) :
    slots.held front = s.match?.toList ++ slots.held (front + 1) := by
  obtain ⟨hlt, rfl⟩ := Array.getElem?_eq_some_iff.1 h
  rw [held, held, List.drop_eq_getElem_cons (by simpa using hlt), List.filterMap_cons]
  simp only [Array.getElem_toList]
  cases slots[front].match? <;> rfl

theorem held_of_size_le {slots : Slots} {front : Nat} (h : slots.size ≤ front) :
    slots.held front = [] := by
  rw [held, List.drop_eq_nil_of_le (by simpa using h), List.filterMap_nil]

/-- The matches in all slots, each with the number of its path. It is the same list with the
owners, for statements about single paths. -/
def owned (slots : Slots) : List (Nat × Match) :=
  slots.toList.filterMap Slot.owned?

theorem map_snd_owned (slots : Slots) : slots.owned.map Prod.snd = slots.held 0 := by
  have hone : ∀ s : Slot, s.owned?.map Prod.snd = s.match? := by
    intro s
    rw [Slot.owned?]
    cases s.match? <;> rfl
  rw [owned, held, List.drop_zero, List.map_filterMap]
  simp only [hone]

variable {ended : Bool} {slots slots' : Slots} {front behind : Nat}
  (hk : slots.Keeps slots') (he : ended = true → slots' = slots)

include hk he

/-- A slot that is passed over holds no match later. If the slot is dead now, it is dead in every
later state; if the session has ended, there is no later state. -/
theorem held_of_skipped (hlt : front < slots.size) (hm : slots[front].match? = none)
    (hd : (slots[front].dead || ended) = true) : slots'.held front = slots'.held (front + 1) := by
  obtain ⟨s', hs', hdead, _⟩ := hk front _ (Array.getElem?_eq_getElem hlt)
  -- while reading only dead slots are passed over, and at the end nothing changes any more
  have hm' : s'.match? = none := by
    cases hended : ended with
    | false =>
      rw [hended, Bool.or_false] at hd
      exact Slot.match?_of_dead (hdead hd)
    | true =>
      rw [he hended, Array.getElem?_eq_getElem hlt] at hs'
      obtain rfl := Option.some.inj hs'
      exact hm
  rw [held_of_getElem? hs', hm']
  rfl

theorem held_of_release_some {found : Match}
    (h : release ended slots front = (some found, behind)) :
    slots'.held front = found :: slots'.held behind := by
  fun_induction release ended slots front with
  | case1 front hlt found' hm =>
    cases h
    obtain ⟨s', hs', _, hready⟩ := hk front _ (Array.getElem?_eq_getElem hlt)
    rw [held_of_getElem? hs', hready (hm ▸ rfl), hm]
    rfl
  | case2 front hlt hm hd ih => rw [held_of_skipped hk he hlt hm hd, ih h]
  | case3 => cases h
  | case4 => cases h

theorem held_of_release_none (h : release ended slots front = (none, behind)) :
    slots'.held front = slots'.held behind := by
  fun_induction release ended slots front with
  | case1 => cases h
  | case2 front hlt hm hd ih => rw [held_of_skipped hk he hlt hm hd, ih h]
  | case3 => cases h; rfl
  | case4 => cases h; rfl

omit hk he

/-- At the end of a document nothing stays behind. -/
theorem held_of_release_ended (h : release true slots front = (none, behind)) :
    slots.held behind = [] := by
  fun_induction release true slots front with
  | case1 => cases h
  | case2 front hlt hm hd ih => exact ih h
  | case3 front hlt hm hd => simp at hd
  | case4 front hle => cases h; exact held_of_size_le (Nat.le_of_not_lt hle)

end Slots

/-! ## Sessions

A session reads and gives out by turns, as its caller asks. The order of these steps is
irrelevant to the matches: `last` is where reading leads to from any state, and every call gives
out the first match that the slots hold there. So all calls together give out what the slots
hold behind the last token, which no longer speaks of calls. -/

namespace Session

variable {σ : Type} [Cursor σ]

/-- The slots behind the last token, and what ended the session early. It depends on the source
that is left, and not on what was given out. -/
def last (s : Session σ) : Slots × Option Failure :=
  if s.isOver then (s.walk.slots, s.failure?)
  else
    let scanned := s.lexer.scan s.options s.source
    ((s.walk.run s.paths scanned.tokens).slots, scanned.failure?)

variable {s t : Session σ}

/-- What is settled now is so behind the last token. -/
theorem keeps_last (h : s.walk.Balanced) : s.walk.slots.Keeps s.last.1 := by
  rw [last]
  split
  · exact .refl _
  · exact (Walk.run_advances _ _ h).keeps

theorem last_of_isOver (h : s.isOver = true) : s.last = (s.walk.slots, s.failure?) := by
  rw [last, if_pos h]

/-- Taking in a token is the first step of going to the last. -/
theorem last_proceed (h : s.isOver = false) : s.proceed.last = s.last := by
  have hover : ∀ e, ({ s with ending? := some e } : Session σ).isOver = true := fun _ => rfl
  rw [last, last, h, Lexer.scan_eq_resume s.options s.lexer, Lexer.resume, proceed]
  rw [isOver] at h
  cases (s.lexer.pull s.options s.source).answer with
  | error failure => rfl
  | ok token? =>
    cases token? with
    | none => rfl
    | some token => simp [isOver, h, Walk.run]

/-- Taking in a token gives nothing out. -/
theorem front_proceed (s : Session σ) : s.proceed.front = s.front := by
  rw [proceed]
  cases (s.lexer.pull s.options s.source).answer with
  | error failure => rfl
  | ok token? => cases token? <;> rfl

theorem balanced_proceed (h : s.walk.Balanced) : s.proceed.walk.Balanced := by
  rw [proceed]
  cases (s.lexer.pull s.options s.source).answer with
  | error failure => exact h
  | ok token? =>
    cases token? with
    | none => exact h
    | some token => exact (Walk.token_advances s.paths token h).balanced

/-- A match that is given out is the first that is held in the end. The first of the slots that
holds a match now is the first that holds one in the end, because slots in front of it are dead or
hold none at the end. -/
theorem next_some {found : Match} (h : s.walk.Balanced) (hn : s.next = (some found, t)) :
    t.walk.Balanced ∧ t.last = s.last ∧ s.last.1.held s.front = found :: t.last.1.held t.front := by
  fun_induction next s with
  | case1 s found' front hr =>
    cases hn
    refine ⟨h, rfl, Slots.held_of_release_some (keeps_last h) ?_ hr⟩
    intro ho
    rw [last_of_isOver ho]
  | case2 => cases hn
  | case3 s front hr passed hover ih =>
    -- nothing is ready yet: one more token is taken in, which changes neither `last` nor `front`
    have hnot : passed.isOver = false := Bool.eq_false_iff.2 hover
    obtain ⟨hb, hl, hheld⟩ := ih (balanced_proceed h) hn
    have hlast : passed.proceed.last = s.last := last_proceed hnot
    rw [hlast] at hl hheld
    refine ⟨hb, hl, ?_⟩
    rw [Slots.held_of_release_none (keeps_last h) (fun ho => absurd ho hover) hr]
    rwa [front_proceed] at hheld

/-- A session that gives out nothing has given out all. -/
theorem next_none (h : s.walk.Balanced) (hn : s.next = (none, t)) :
    t.failure? = s.last.2 ∧ t.walk.slots = s.last.1 ∧ s.last.1.held s.front = [] := by
  fun_induction next s with
  | case1 => cases hn
  | case2 s front hr passed hover =>
    have ht : t = passed := (Prod.mk.inj hn).2.symm
    have hlast : s.last = (s.walk.slots, s.failure?) := last_of_isOver hover
    have ho : s.isOver = true := hover
    rw [ho] at hr
    rw [hlast, Slots.held_of_release_none (.refl _) (fun _ => rfl) hr,
      Slots.held_of_release_ended hr, ht]
    exact ⟨rfl, rfl, rfl⟩
  | case3 s front hr passed hover ih =>
    have hnot : passed.isOver = false := Bool.eq_false_iff.2 hover
    obtain ⟨hf, hslots, hheld⟩ := ih (balanced_proceed h) hn
    have hlast : passed.proceed.last = s.last := last_proceed hnot
    rw [hlast] at hf hslots hheld
    refine ⟨hf, hslots, ?_⟩
    rw [Slots.held_of_release_none (keeps_last h) (fun ho => absurd ho hover) hr]
    rwa [front_proceed] at hheld

/-- A session gives out what the slots hold behind the last token. The calls of `rest` go on until
one of them gives out nothing. -/
theorem rest_eq (h : s.walk.Balanced) :
    s.rest.1 = s.last.1.held s.front ∧ s.rest.2.failure? = s.last.2 := by
  fun_induction rest s with
  | case1 s t hn =>
    obtain ⟨hf, -, hheld⟩ := next_none h hn
    exact ⟨hheld.symm, hf⟩
  | case2 s found t hn more ih =>
    obtain ⟨hb, hl, hheld⟩ := next_some h hn
    obtain ⟨hrest, hfail⟩ := ih hb
    rw [← hl] at hheld ⊢
    exact ⟨by rw [hheld, ← hrest], hfail⟩

/-- At its end, a session has the slots that are there behind the last token. -/
theorem slots_rest (h : s.walk.Balanced) : s.rest.2.walk.slots = s.last.1 := by
  fun_induction rest s with
  | case1 s t hn => exact (next_none h hn).2.1
  | case2 s found t hn more ih =>
    obtain ⟨hb, hl, -⟩ := next_some h hn
    exact (ih hb).trans (congrArg Prod.fst hl)

omit [Cursor σ] in
theorem check_of_start {paths : List Path} {options : Options} {source : σ}
    (hs : start paths options source = .ok s) : options.check = .ok () := by
  rw [start] at hs
  split at hs
  · cases hs
  · assumption

/-- A session in front of its source has its whole way to go. -/
theorem last_start {paths : List Path} {options : Options} {source : σ}
    (hs : start paths options source = .ok s) :
    s.walk.Balanced ∧ s.front = 0 ∧
      s.last = ((({} : Walk).run paths (Lexer.initial.scan options source).tokens).slots,
        (Lexer.initial.scan options source).failure?) := by
  rw [start] at hs
  split at hs
  · cases hs
  · cases hs
    refine ⟨Walk.balanced_initial, rfl, ?_⟩
    rw [last, if_neg (by rw [isOver]; exact Bool.false_ne_true)]

/-- A session gives out what the slots hold behind the tokens that are read from its source, and fails as
reading the source does. -/
theorem rest_of_start {paths : List Path} {options : Options} {source : σ}
    (hs : start paths options source = .ok s) :
    s.rest.1 = (({} : Walk).run paths (Lexer.initial.scan options source).tokens).slots.held 0 ∧
      s.rest.2.failure? = (Lexer.initial.scan options source).failure? := by
  obtain ⟨hb, hfront, hlast⟩ := last_start hs
  obtain ⟨hrest, hfailure⟩ := rest_eq hb
  rw [hlast] at hfailure hrest
  rw [hfront] at hrest
  exact ⟨hrest, hfailure⟩

theorem last_ofDocument {paths : List Path} {options : Options} {d : Bytes} {s : Session Buffer}
    (hs : ofDocument paths options d = .ok s) :
    s.walk.Balanced ∧ s.front = 0 ∧
      s.last = ((({} : Walk).run paths (Lexer.initial.feed options .gap d).tokens).slots,
        (Lexer.initial.feed options .gap d).failure?) := by
  have hlast := last_start hs
  rwa [Lexer.scan_buffer] at hlast

/-- A session over a document in memory gives out what the slots hold behind the tokens of the
document, and fails as reading the document does. On the right the lexer is fed all bytes at once
and the walk runs over the tokens: neither side of that is interrupted by the other. -/
theorem rest_ofDocument {paths : List Path} {options : Options} {d : Bytes} {s : Session Buffer}
    (hs : ofDocument paths options d = .ok s) :
    s.rest.1 = (({} : Walk).run paths (Lexer.initial.feed options .gap d).tokens).slots.held 0 ∧
      s.rest.2.failure? = (Lexer.initial.feed options .gap d).failure? := by
  have hrest := rest_of_start hs
  rwa [Lexer.scan_buffer] at hrest

/-- What a session over a document has given out is what its slots hold at its end. -/
theorem map_snd_owned_rest {paths : List Path} {options : Options} {d : Bytes} {s : Session Buffer}
    (hs : ofDocument paths options d = .ok s) : s.rest.2.walk.slots.owned.map Prod.snd = s.rest.1 := by
  obtain ⟨hb, hfront, -⟩ := last_ofDocument hs
  rw [Slots.map_snd_owned, slots_rest hb, (rest_eq hb).1, hfront]

omit [Cursor σ] in
/-- Settings in range make a session. -/
theorem exists_start {options : Options} (ho : options.check = .ok ()) (paths : List Path)
    (source : σ) : ∃ s, start paths options source = .ok s := by
  rw [start, ho]
  exact ⟨_, rfl⟩

theorem exists_ofDocument {options : Options} (ho : options.check = .ok ()) (paths : List Path)
    (d : Bytes) : ∃ s, ofDocument paths options d = .ok s :=
  exists_start ho paths (Buffer.mk d)

theorem check_of_ofDocument {paths : List Path} {options : Options} {d : Bytes} {s : Session Buffer}
    (hs : ofDocument paths options d = .ok s) : options.check = .ok () :=
  check_of_start hs

end Session

end JsonExtract
