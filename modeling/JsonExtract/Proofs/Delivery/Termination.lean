import JsonExtract.Proofs.Delivery.Laziness
import JsonExtract.Proofs.Walk.Notices
import Mathlib.Data.Nat.Find

/-!
# Sessions end, and stay at their end

A session over any source comes to its end: reading a token, passing over slots and calling for a match
are loops that take a limited number of turns, a token costs at least one byte, and there are no more
matches than marks for each byte. Behind the end nothing changes any more.

* `Loops` — a loop and the number of its turns;
* `Lexer.pull_loops`, `Slots.release_loops`, `Session.next_loops` — the loops of a session;
* `Lexer.pull_row` — the place of a token, on any source;
* `Session.length_rest_le` — how many matches there are;
* `Session.failure?_after`, `Session.after_of_next_none` — the end;
* `Session.ends_of_start` — every session ends.
-/

namespace JsonExtract

/-! ## Loops

The functions of a session are total, but that alone says little about how long they take. A
loop is therefore described by its turns: `Loops` counts them, and each of the three loops is
shown to be bounded by what is left to work on. -/

/-- A loop over states of type `α` ends with a result behind some number of turns, where a turn
leads on to another state or to the result. The result is reached by exactly so many turns, so the
number is determined. -/
inductive Loops {α β : Type} (turn : α → α ⊕ β) : Nat → α → β → Prop
  | last {a : α} {b : β} : turn a = .inr b → Loops turn 1 a b
  | again {n : Nat} {a a' : α} {b : β} : turn a = .inl a' → Loops turn n a' b → Loops turn (n + 1) a b

/-- A loop ends if every turn but the last takes something away. Its result is what a function
gives that is the same from turn to turn. It is used with what is left of the source, and with the
slots behind the front. -/
theorem Loops.exists_of_lt {α β : Type} {turn : α → α ⊕ β} (result : α → β) (left : α → Nat)
    (hlast : ∀ a b, turn a = .inr b → result a = b)
    (hagain : ∀ a a', turn a = .inl a' → result a = result a' ∧ left a' < left a) (a : α) :
    ∃ n ≤ left a + 1, Loops turn n a (result a) := by
  induction h : left a using Nat.strong_induction_on generalizing a with
  | _ size ih =>
    cases ht : turn a with
    | inr b => exact ⟨1, Nat.le_add_left 1 size, hlast a b ht ▸ .last ht⟩
    | inl a' =>
      obtain ⟨hresult, hlt⟩ := hagain a a' ht
      obtain ⟨n, hn, hloops⟩ := ih (left a') (h ▸ hlt) a' rfl
      exact ⟨n + 1, by omega, hresult ▸ .again ht hloops⟩

namespace Lexer

variable {σ : Type} [Cursor σ]

/-- One turn of reading on to the end of a token: a run, and the byte behind it. -/
def turn (options : Options) : Lexer × Unfinished × σ → (Lexer × Unfinished × σ) ⊕ Pulled σ
  | (lexer, unfinished, source) =>
    match lexer.takeRun unfinished source with
    | (.error failure, behind) => .inr ⟨.error failure, lexer, behind⟩
    | (.ok (lexer₁, unfinished₁), behind) =>
      match lexer₁.complete? unfinished₁ with
      | some (token, lexer₂) => .inr ⟨.ok (some token), lexer₂, behind⟩
      | none =>
        match Cursor.peek behind with
        | (.error reason, shown) =>
          .inr ⟨.error (.unreadable lexer₁.here.offset reason), lexer₁, shown⟩
        | (.ok none, shown) =>
          match lexer₁.finish options unfinished₁ with
          | .error failure => .inr ⟨.error failure, lexer₁, shown⟩
          | .ok none => .inr ⟨.ok none, lexer₁, shown⟩
          | .ok (some (token, lexer₂)) => .inr ⟨.ok (some token), lexer₂, shown⟩
        | (.ok (some b), shown) =>
          match lexer₁.read options unfinished₁ b with
          | .more unfinished₂ lexer₂ => .inl (lexer₂, unfinished₂, Cursor.advance shown)
          | .token token lexer₂ => .inr ⟨.ok (some token), lexer₂, Cursor.advance shown⟩
          | .tokenBefore token lexer₂ => .inr ⟨.ok (some token), lexer₂, shown⟩
          | .error failure => .inr ⟨.error failure, lexer₁, shown⟩
          | .errorBehind failure => .inr ⟨.error failure, lexer₁, Cursor.advance shown⟩

variable (options : Options) (lexer : Lexer)

/-- A token is read in turns. -/
theorem pullFrom_eq_turn (unfinished : Unfinished) (source : σ) :
    pullFrom options lexer unfinished source =
      match turn options (lexer, unfinished, source) with
      | .inl (lexer', unfinished', behind) => pullFrom options lexer' unfinished' behind
      | .inr pulled => pulled := by
  rw [turn, pullFrom_eq]
  repeat' split
  all_goals simp_all

/-- A turn that is not the last one takes a byte. -/
theorem left_turn_lt {lexer lexer' : Lexer} {unfinished unfinished' : Unfinished} {source behind : σ}
    (h : turn options (lexer, unfinished, source) = .inl (lexer', unfinished', behind)) :
    Cursor.left behind < Cursor.left source := by
  have hrun := left_takeRun_le lexer unfinished source
  rw [turn] at h
  split at h
  · cases h
  · next hr =>
    rw [hr] at hrun
    split at h
    · cases h
    · split at h
      · cases h
      · split at h <;> cases h
      · next hp =>
        split at h <;> cases h
        exact Nat.lt_of_lt_of_le (Cursor.left_advance_lt hp) hrun

/-- Reading a token takes no more turns than there are bytes left, and one more. The last turn may
find the end. -/
theorem pull_loops (source : σ) :
    ∃ n ≤ Cursor.left source + 1,
      Loops (turn options) n (lexer, .gap, source) (lexer.pull options source) := by
  have hlast : ∀ (p : Lexer × Unfinished × σ) (pulled : Pulled σ), turn options p = .inr pulled →
      pullFrom options p.1 p.2.1 p.2.2 = pulled := by
    intro p pulled h
    simp only [pullFrom_eq_turn options p.1, h]
  have hagain : ∀ p p' : Lexer × Unfinished × σ, turn options p = .inl p' →
      pullFrom options p.1 p.2.1 p.2.2 = pullFrom options p'.1 p'.2.1 p'.2.2 ∧
        Cursor.left p'.2.2 < Cursor.left p.2.2 := by
    intro p p' h
    refine ⟨?_, left_turn_lt options h⟩
    simp only [pullFrom_eq_turn options p.1, h]
  exact Loops.exists_of_lt _ (fun p => Cursor.left p.2.2) hlast hagain (lexer, .gap, source)

/-! ## The place of a token

A token that is read from any source takes at least a byte of it, and stands between the place
where the lexer was and the one where it is. -/

variable {options lexer}

/-- A run of bytes starts nothing new. -/
theorem start_takeRun {unfinished unfinished' : Unfinished} {source behind : σ} {lexer' : Lexer}
    (h : lexer.takeRun unfinished source = (.ok (lexer', unfinished'), behind)) :
    unfinished'.start lexer'.here.offset = unfinished.start lexer.here.offset := by
  rw [takeRun] at h
  split at h
  · cases h
    rfl
  · next hp =>
    dsimp only at h
    split at h
    · cases h
      cases unfinished with
      | gap | space | word => cases hp
      | string => rw [Unfinished.absorb, Unfinished.start, Unfinished.start, Lexeme.start_append]
      | number => rw [Unfinished.absorb, Unfinished.start, Unfinished.start, Lexeme.start_append]
    · cases h

/-- A number that is complete stands in front of the next byte. -/
theorem row_number {unfinished : Unfinished} {found : Lexed} {lexer' : Lexer}
    (hf : Midway.Fits options ⟨lexer, unfinished⟩)
    (h : lexer.finish options unfinished = .ok (some (found, lexer'))) :
    Lexed.Row (unfinished.start lexer.here.offset) [found] lexer'.here.offset := by
  cases unfinished with
  | gap => exact absurd h finish_gap_ne_some
  | space | string | word => cases h
  | number part lexeme =>
    rw [finish] at h
    split at h <;> cases h
    exact ⟨Nat.le_refl _, hf.begun (by simp), Nat.le_refl _⟩

/-- The token that is read stands between the place where it starts and the one behind it, whatever the
source does. -/
theorem pullFrom_row {unfinished : Unfinished} (source : σ) (hf : Midway.Fits options ⟨lexer, unfinished⟩)
    {found : Lexed} (h : (pullFrom options lexer unfinished source).answer = .ok (some found)) :
    Lexed.Row (unfinished.start lexer.here.offset) [found]
      (pullFrom options lexer unfinished source).lexer.here.offset := by
  fun_induction pullFrom options lexer unfinished source with
  | case1 | case3 | case4 | case5 | case10 | case11 => cases h
  | case2 lexer unfinished source lexer₁ unfinished₁ behind hr found' lexer₂ hcomplete =>
    cases h
    rw [← start_takeRun hr]
    exact row_number (fits_takeRun hf hr).1 (finish_of_complete? options lexer₁ hcomplete)
  | case6 lexer unfinished source lexer₁ unfinished₁ behind hr _ _ hp found' lexer₂ hfinish =>
    cases h
    rw [← start_takeRun hr]
    exact row_number (fits_takeRun hf hr).1 hfinish
  | case7 lexer unfinished source lexer₁ unfinished₁ behind hr _ b shown hp unfinished₂ lexer₂ hv ih =>
    obtain ⟨hf₁, -⟩ := fits_takeRun hf hr
    have hreads := reads_read options lexer₁ b unfinished₁
    have hnext : (lexer₁.read options unfinished₁ b).next? = some ⟨lexer₂, unfinished₂⟩ := by
      rw [hv]
      rfl
    have hrow := row_of_reads hf₁ hreads hnext
    rw [hv, start_takeRun hr] at hrow
    exact (ih (fits_of_reads hf₁ hreads hnext) h).of_le hrow
  | case8 lexer unfinished source lexer₁ unfinished₁ behind hr _ b shown hp found' lexer₂ hv
  | case9 lexer unfinished source lexer₁ unfinished₁ behind hr _ b shown hp found' lexer₂ hv =>
    cases h
    obtain ⟨hf₁, -⟩ := fits_takeRun hf hr
    have hrow := row_of_reads hf₁ (reads_read options lexer₁ b unfinished₁) (m := ⟨lexer₂, .gap⟩)
      (by rw [hv]; rfl)
    rw [hv, start_takeRun hr] at hrow
    exact hrow

/-- A token stands behind the place where the lexer was before, and in front of the one where it is then. -/
theorem pull_row (source : σ) (hf : Midway.Fits options ⟨lexer, .gap⟩) {found : Lexed}
    (h : (lexer.pull options source).answer = .ok (some found)) :
    lexer.here.offset ≤ found.start ∧ found.start < found.stop ∧
      found.stop ≤ (lexer.pull options source).lexer.here.offset :=
  pullFrom_row source hf h

end Lexer

namespace Slots

/-- One turn of looking for a match to give out: a slot that is passed over, or one that is not. -/
def turn (ended : Bool) (slots : Slots) (front : Nat) : Nat ⊕ (Option Match × Nat) :=
  if h : front < slots.size then
    match slots[front].match? with
    | some found => .inr (some found, front + 1)
    | none => if slots[front].dead || ended then .inl (front + 1) else .inr (none, front)
  else .inr (none, front)

/-- Looking for a match takes no more turns than there are slots left, and one more. -/
theorem release_loops (ended : Bool) (slots : Slots) (front : Nat) :
    ∃ n ≤ slots.size - front + 1, Loops (turn ended slots) n front (release ended slots front) := by
  apply Loops.exists_of_lt (release ended slots) (slots.size - ·)
  · intro front found h
    rw [turn] at h
    split at h
    · next hlt =>
      split at h
      · next hm =>
        rw [release, dif_pos hlt, hm]
        exact Sum.inr.inj h
      · next hm =>
        split at h
        · cases h
        · next hd =>
          rw [release, dif_pos hlt, hm]
          exact (if_neg hd).trans (Sum.inr.inj h)
    · next hlt =>
      rw [release, dif_neg hlt]
      exact Sum.inr.inj h
  · intro front behind h
    rw [turn] at h
    split at h
    · next hlt =>
      split at h
      · cases h
      · next hm =>
        split at h
        · next hd =>
          cases h
          rw [release, dif_pos hlt, hm]
          exact ⟨if_pos hd, Nat.sub_succ_lt_self _ _ hlt⟩
        · cases h
    · cases h

end Slots

namespace Session

variable {σ : Type} [Cursor σ] {s t : Session σ}

/-- One turn of a call: slots are passed over, and one is given out, or a token is taken in. -/
def turn (s : Session σ) : Session σ ⊕ (Option Match × Session σ) :=
  match s.walk.slots.release s.isOver s.front with
  | (some found, front) => .inr (some found, { s with front, given := s.given + 1 })
  | (none, front) =>
    let passed := { s with front }
    if s.isOver then .inr (none, passed) else .inl passed.proceed

/-- A call takes no more turns than there are bytes left, one more for the end of the document,
and one for what is given out there. Each turn that is not the last one takes in a token, or meets
the end. -/
theorem next_loops (s : Session σ) : ∃ n ≤ s.budget + 1, Loops turn n s s.next := by
  apply Loops.exists_of_lt next budget
  · intro s answer h
    rw [turn] at h
    split at h
    · next hr =>
      rw [next, hr]
      exact Sum.inr.inj h
    · next hr =>
      dsimp only at h
      split at h
      · next ho =>
        rw [next, hr]
        exact (dif_pos ho).trans (Sum.inr.inj h)
      · cases h
  · intro s s' h
    rw [turn] at h
    split at h
    · cases h
    · next front hr =>
      dsimp only at h
      split at h
      · cases h
      · next ho =>
        cases h
        rw [next, hr]
        exact ⟨dif_neg ho, budget_proceed_lt (s := { s with front }) (Bool.eq_false_iff.2 ho)⟩

/-! ## Matches

Each slot belongs to a token and a mark, and no more slots than marks are reserved at a token.
So the number of matches is bounded by bytes and marks. -/

/-- A source has no more tokens than bytes. -/
theorem length_scan_le (options : Options) (lexer : Lexer) (source : σ) :
    (lexer.scan options source).tokens.length ≤ Cursor.left source := by
  fun_induction Lexer.scan options lexer source with
  | case1 => exact Nat.zero_le _
  | case2 => exact Nat.zero_le _
  | case3 lexer source token ha pulled ih =>
    have hlt := Lexer.left_pull_lt ha
    rw [Scanned.tokens_prepend, List.singleton_append, List.length_cons]
    exact Nat.lt_of_le_of_lt ih hlt

/-- There are no more matches than marks for each byte. The marks are those in the texts of all
paths. -/
theorem length_rest_le {paths : List Path} (hp : ∀ path ∈ paths, ∃ text, Path.parse text = .ok path)
    {options : Options} {source : σ} (hs : start paths options source = .ok s) :
    s.rest.1.length ≤ Cursor.left source * Paths.markCount paths := by
  let tokens := (Lexer.initial.scan options source).tokens
  have hheld : s.rest.1.length ≤ (({} : Walk).run paths tokens).slots.size := by
    rw [(rest_of_start hs).1, Slots.held]
    refine (List.length_filterMap_le _ _).trans_eq ?_
    rw [List.drop_zero, Array.length_toList]
  have hslots := Walk.length_notices_run_le (w := {}) hp trivial tokens
  rw [Slots.length_notices] at hslots
  have hempty : ({} : Walk).slots.notices.length = 0 := rfl
  have htokens : tokens.length ≤ Cursor.left source := length_scan_le options .initial source
  calc s.rest.1.length
    _ ≤ (({} : Walk).run paths tokens).slots.size := hheld
    _ ≤ tokens.length * Paths.markCount paths := by omega
    _ ≤ Cursor.left source * Paths.markCount paths := Nat.mul_le_mul_right _ htokens

/-! ## The end

What ended a session is noted once. From the first call that gives out nothing the state no
longer changes, and all later calls give out nothing either. -/

/-- Behind the end of the document nothing ends it once more. -/
theorem ending?_next (h : s.isOver = true) : s.next.2.ending? = s.ending? := by
  rw [next]
  split
  · rfl
  · rw [dif_pos h]

/-- Where nothing is given out, the end was met. -/
theorem isOver_of_next_none (h : s.next = (none, t)) : t.isOver = true := by
  fun_induction next s with
  | case1 => cases h
  | case2 s front hr passed hover =>
    obtain rfl : passed = t := (Prod.mk.inj h).2
    exact hover
  | case3 s front hr passed hover ih => exact ih h

/-- A call changes nothing in what there will be behind the last token. -/
theorem last_next (h : s.walk.Balanced) : s.next.2.walk.Balanced ∧ s.next.2.last = s.last := by
  fun_induction next s with
  | case1 => exact ⟨h, rfl⟩
  | case2 => exact ⟨h, rfl⟩
  | case3 s front hr passed hover ih =>
    have hlast : passed.proceed.last = s.last := last_proceed (Bool.eq_false_iff.2 hover)
    exact hlast ▸ ih (balanced_proceed h)

theorem after_succ (s : Session σ) (k : Nat) : s.after (k + 1) = (s.after k).next.2 := by
  induction k generalizing s with
  | zero => rfl
  | succ k ih => exact ih s.next.2

theorem last_after (h : s.walk.Balanced) (k : Nat) :
    (s.after k).walk.Balanced ∧ (s.after k).last = s.last := by
  induction k with
  | zero => exact ⟨h, rfl⟩
  | succ k ih =>
    rw [after_succ]
    exact ⟨(last_next ih.1).1, (last_next ih.1).2.trans ih.2⟩

/-- Nor does it end in another way later. -/
theorem ending?_after {j k : Nat} (h : (s.after k).isOver = true) (hle : k ≤ j) :
    (s.after j).ending? = (s.after k).ending? := by
  induction hle with
  | refl => rfl
  | step _ ih =>
    rw [after_succ, ending?_next, ih]
    rw [isOver, ih]
    exact h

theorem isOver_after {j k : Nat} (h : (s.after k).isOver = true) (hle : k ≤ j) :
    (s.after j).isOver = true := by
  rw [isOver, ending?_after h hle]
  exact h

/-- A session fails as reading its source does, as soon as the end is met. Up to then it has no
failure. -/
theorem failure?_after {paths : List Path} {options : Options} {source : σ}
    (hs : start paths options source = .ok s) (k : Nat) :
    (s.after k).failure? =
      if (s.after k).isOver then (Lexer.initial.scan options source).failure? else none := by
  obtain ⟨hb, -, hlast⟩ := last_start hs
  have hk := (last_after hb k).2.trans hlast
  split
  · next ho =>
    rw [last_of_isOver ho] at hk
    exact congrArg Prod.snd hk
  · next ho =>
    rw [isOver, Option.not_isSome_iff_eq_none] at ho
    rw [failure?, ho]
    rfl

/-- Where nothing is given out, nothing is given out later, and nothing changes any more. -/
theorem after_of_next_none {j k : Nat} (h : (s.after k).next.1 = none) (hlt : k < j) :
    (s.after j).next.1 = none ∧ s.after j = s.after (k + 1) := by
  have hagain : (s.after (k + 1)).next = (none, s.after (k + 1)) := by
    rw [after_succ]
    exact next_of_next_none (Prod.ext h rfl)
  have hstays : s.after j = s.after (k + 1) := by
    induction hlt with
    | refl => rfl
    | step _ ih => rw [after_succ, ih, hagain]
  rw [hstays, hagain]
  exact ⟨rfl, rfl⟩

/-- The last state is behind as many calls as there are matches, and one. -/
theorem rest_snd (s : Session σ) : s.rest.2 = s.after (s.rest.1.length + 1) := by
  fun_induction rest s with
  | case1 s t hn => rw [List.length_nil, after, after, hn]
  | case2 s found t hn more ih =>
    rw [List.length_cons, after, hn]
    exact ih

/-- In the last state the end was met. -/
theorem isOver_rest (s : Session σ) : s.rest.2.isOver = true := by
  fun_induction rest s with
  | case1 s t hn => exact isOver_of_next_none hn
  | case2 s found t hn more ih => exact ih

/-- There is a call that meets the end. -/
theorem exists_isOver_iff (s : Session σ) : ∃ m, ∀ k, (s.after k).isOver = true ↔ m ≤ k := by
  have hend : ∃ m, (s.after m).isOver = true := ⟨_, rest_snd s ▸ isOver_rest s⟩
  exact ⟨Nat.find hend, fun k => ⟨Nat.find_min' hend, isOver_after (Nat.find_spec hend)⟩⟩

/-- How a session comes to its end. The bounds are given for each loop in the states in which it
runs. -/
structure Ends (s₀ : Session σ) : Prop where
  /-- reading a token ends -/
  pull : ∀ tokens numbers s, s₀.Course tokens numbers s → ∃ n ≤ Cursor.left s.source + 1,
    Loops (Lexer.turn s.options) n (s.lexer, .gap, s.source) (s.lexer.pull s.options s.source)
  /-- each token takes at least one byte, of those that are left and of those that were read -/
  cost : ∀ tokens numbers s found, s₀.Course tokens numbers s → s.isOver = false →
    (s.lexer.pull s.options s.source).answer = .ok (some found) →
      Cursor.left (s.lexer.pull s.options s.source).source < Cursor.left s.source ∧
        s.lexer.here.offset ≤ found.start ∧ found.start < found.stop ∧
          found.stop ≤ (s.lexer.pull s.options s.source).lexer.here.offset
  /-- passing over slots ends -/
  release : ∀ tokens numbers s, s₀.Course tokens numbers s → ∃ n ≤ s.queued + 1,
    Loops (Slots.turn s.isOver s.walk.slots) n s.front (s.walk.slots.release s.isOver s.front)
  /-- so each call ends -/
  next : ∀ tokens numbers s, s₀.Course tokens numbers s → ∃ n ≤ s.budget + 1, Loops turn n s s.next
  /-- there are no more matches than marks for each byte, and nothing is given out behind the last one -/
  found : ∃ n ≤ Cursor.left s₀.source * Paths.markCount s₀.paths,
    (∀ k < n, (s₀.after k).next.1.isSome) ∧ ∀ k ≥ n, (s₀.after k).next.1 = none
  /-- what ends the session early is there from the call on that meets it, and never changes -/
  failure : ∃ m, ∀ k,
    ((s₀.after k).isOver = true ↔ m ≤ k) ∧
      (s₀.after k).failure? =
        if m ≤ k then (s₀.lexer.scan s₀.options s₀.source).failure? else none
  /-- where nothing is given out, the end was met, and later calls give out nothing and change nothing -/
  stays : ∀ k, (s₀.after k).next.1 = none → (s₀.after (k + 1)).isOver = true ∧
    ∀ j > k, (s₀.after j).next.1 = none ∧ s₀.after j = s₀.after (k + 1)

/-- Every session comes to its end, and stays there, whatever its source delivers. Each loop gets
a bound of its own, in the bytes to come or in the slots that are queued, and the number of
matches gets one from the marks of the paths. Nothing is assumed of the source but that it is a
cursor. -/
theorem ends_of_start {texts : List String} {paths : List Path} (hp : Path.parseAll texts = .ok paths)
    {options : Options} {source : σ} {s₀ : Session σ} (hs : start paths options source = .ok s₀) :
    s₀.Ends := by
  obtain ⟨rfl, rfl, rfl, hlexer⟩ :
      s₀.paths = paths ∧ s₀.options = options ∧ s₀.source = source ∧ s₀.lexer = .initial := by
    rw [start] at hs
    split at hs <;> cases hs
    exact ⟨rfl, rfl, rfl, rfl⟩
  exact
    { pull := fun _ _ s _ => Lexer.pull_loops s.options s.lexer s.source
      cost := by
        intro tokens numbers s found hcourse ho ha
        exact ⟨Lexer.left_pull_lt ha, Lexer.pull_row s.source ((hcourse.going hs).fits ho) ha⟩
      release := fun _ _ s _ => Slots.release_loops s.isOver s.walk.slots s.front
      next := fun _ _ s _ => next_loops s
      found := by
        refine ⟨_, length_rest_le (Path.forall_of_parseAll hp) hs, ?_, ?_⟩
        · intro k hlt
          rw [← getElem?_rest, List.getElem?_eq_getElem hlt]
          rfl
        · intro k hle
          rw [← getElem?_rest, List.getElem?_eq_none hle]
      failure := by
        obtain ⟨m, hm⟩ := exists_isOver_iff s₀
        refine ⟨m, fun k => ⟨hm k, ?_⟩⟩
        rw [failure?_after hs, hlexer]
        simp only [hm]
      stays := by
        intro k h
        refine ⟨?_, fun j => after_of_next_none h⟩
        rw [after_succ]
        exact isOver_of_next_none (Prod.ext h rfl) }

/-- A session over a document that is at fault behind its first match: the second call meets the fault. -/
theorem ends_behind_fault :
    ∃ s₀ : Session Buffer, start [.ofLinks "$[*]+" [⟨.selector .root, false⟩, ⟨.selector .wildcard, true⟩]] {}
        ⟨Bytes.ofString "[1 2"⟩ = .ok s₀ ∧ s₀.Ends ∧
      s₀.next.1 = some ⟨"$[*]+", Bytes.ofString "1", .number, [.index 0]⟩ ∧ (s₀.after 1).failure? = none ∧
      (s₀.after 2).failure?.isSome = true := by
  have hparse : Path.parseAll ["$[*]+"] =
      .ok [.ofLinks "$[*]+" [⟨.selector .root, false⟩, ⟨.selector .wildcard, true⟩]] := by
    decide +kernel
  obtain ⟨s₀, hs₀⟩ : ∃ s₀ : Session Buffer,
      start [.ofLinks "$[*]+" [⟨.selector .root, false⟩, ⟨.selector .wildcard, true⟩]] {}
        ⟨Bytes.ofString "[1 2"⟩ = .ok s₀ := ⟨_, rfl⟩
  refine ⟨s₀, hs₀, ends_of_start hparse hs₀, ?_⟩
  cases hs₀
  decide +kernel

end Session

end JsonExtract
