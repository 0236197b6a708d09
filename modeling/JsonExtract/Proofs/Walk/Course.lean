import JsonExtract.Proofs.Scan.Pulling
import JsonExtract.Proofs.Walk.Release
import JsonExtract.Proofs.Walk.Waiting

/-!
# The course of a session

A session takes in tokens, and gives out slots or passes them over. Behind every such step, and so
behind every call, its frames and slots are in order. A session that is not cut short by a failure
passes over dead slots only, and none is given out twice.

* `Slots.release_some`, `Slots.release_none` — which slots are passed over;
* `Session.Course` — what a session did so far, step by step;
* `Session.Going` — what each step preserves;
* `Session.Kept` — what is true of frames and slots behind each step;
* `Session.kept_of_course` — and of the states between calls, too.
-/

namespace JsonExtract

/-! ## Passing over slots

A call of the session looks for the first slot that holds a match, and passes over the slots in
front of it. Such a slot is dead, unless the session has ended, when slots that will never be
ready are passed over as well. `Skipped` says so of a stretch of slots, and is what `release`
guarantees. -/

namespace Slots

/-- All slots from one number up to another hold no match, and are dead unless the session has
`ended`. The slots are those from `front` up to but without `behind`. -/
def Skipped (ended : Bool) (slots : Slots) (front behind : Nat) : Prop :=
  ∀ n, front ≤ n → n < behind →
    ∃ slot, slots[n]? = some slot ∧ slot.match? = none ∧ (slot.dead = true ∨ ended = true)

variable {ended : Bool} {slots : Slots} {front behind : Nat}

theorem Skipped.cons (hlt : front < slots.size) (hm : slots[front].match? = none)
    (hd : (slots[front].dead || ended) = true) (h : Skipped ended slots (front + 1) behind) :
    Skipped ended slots front behind := by
  intro n hn hbehind
  rcases Nat.eq_or_lt_of_le hn with rfl | hn
  · exact ⟨_, Array.getElem?_eq_getElem hlt, hm, by rwa [Bool.or_eq_true] at hd⟩
  · exact h n hn hbehind

theorem release_some {found : Match} (h : release ended slots front = (some found, behind)) :
    ∃ n slot, behind = n + 1 ∧ front ≤ n ∧ slots[n]? = some slot ∧ slot.match? = some found ∧
      Skipped ended slots front n := by
  fun_induction release ended slots front with
  | case1 front hlt found' hm =>
    cases h
    exact ⟨front, _, rfl, Nat.le_refl _, Array.getElem?_eq_getElem hlt, hm,
      fun n hn hlt => absurd hn (Nat.not_le_of_lt hlt)⟩
  | case2 front hlt hm hd ih =>
    obtain ⟨n, slot, rfl, hle, hs, hfound, hskipped⟩ := ih h
    exact ⟨n, slot, rfl, Nat.le_of_succ_le hle, hs, hfound, hskipped.cons hlt hm hd⟩
  | case3 => cases h
  | case4 => cases h

theorem release_none (h : release ended slots front = (none, behind)) :
    front ≤ behind ∧ Skipped ended slots front behind := by
  have hnone : Skipped ended slots behind behind := fun n hn hlt => absurd hn (Nat.not_le_of_lt hlt)
  fun_induction release ended slots front with
  | case1 => cases h
  | case2 front hlt hm hd ih =>
    obtain ⟨hle, hskipped⟩ := ih h
    exact ⟨Nat.le_of_succ_le hle, hskipped.cons hlt hm hd⟩
  | case3 => cases h; exact ⟨Nat.le_refl _, hnone⟩
  | case4 => cases h; exact ⟨Nat.le_refl _, hnone⟩

end Slots

namespace Session

variable {σ : Type} {s₀ s t : Session σ} {tokens : List Lexed} {numbers : List Nat}

/-! ## What each step preserves

`Going` is the invariant of sessions: it ties the walk to the tokens taken in so far, and the
slots that the session has left behind to the numbers given out so far. The initial session has
it, and each of the things that a session does keeps it, which is one lemma for each. -/

/-- A session is going on, or has come to its end, in order. The failure, the front and the number
of given slots are fields of the session; the lists of tokens and of numbers are what the session
itself does not remember. -/
structure Going (s : Session σ) (tokens : List Lexed) (numbers : List Nat) : Prop where
  /-- the walk has taken in the tokens -/
  walk : s.walk = ({} : Walk).run s.paths tokens
  /-- the lexer is in a state that fits the settings -/
  fits : s.isOver = false → Midway.Fits s.options ⟨s.lexer, .gap⟩
  /-- walk and lexer agree on the open containers -/
  containers : s.walk.containers = s.lexer.nesting.containers
  /-- none is open at the end -/
  ended : s.isOver = true → s.failure? = none → s.lexer.nesting.containers = []
  /-- slots are given out in order -/
  ordered : numbers.Pairwise (· < ·)
  /-- the front stands behind the slots that are given out -/
  behind : ∀ n ∈ numbers, n < s.front
  /-- other slots in front of it are dead -/
  passed : s.failure? = none → ∀ n < s.front, n ∈ numbers ∨ s.walk.slots.Dead n

namespace Going

theorem start {paths : List Path} {options : Options} {source : σ}
    (hs : Session.start paths options source = .ok s₀) : s₀.Going [] [] := by
  rw [Session.start] at hs
  split at hs
  · cases hs
  · cases hs
    exact ⟨rfl, fun _ => Midway.fits_initial options, rfl, fun _ _ => rfl, .nil,
      fun n hn => absurd hn List.not_mem_nil, fun _ n hn => absurd hn (Nat.not_lt_zero n)⟩

theorem balanced (h : s.Going tokens numbers) : s.walk.Balanced := by
  rw [h.walk]
  exact (Walk.run_advances _ _ Walk.balanced_initial).balanced

theorem tidy (h : s.Going tokens numbers) : s.walk.Tidy := by
  rw [h.walk]
  exact Walk.tidy_run _ _ Walk.balanced_initial fun f hf => absurd hf List.not_mem_nil

theorem follow (h : s.Going tokens numbers) : Frames.Follow s.paths s.walk.frames := by
  rw [h.walk]
  exact Walk.follow_run _ trivial

variable (h : s.Going tokens numbers)

include h

/-- At the end of a document every slot is dead or ready. All containers are closed then, so
nobody lists a slot, and a slot that nobody lists has its value and waits for nothing, or is dead. -/
theorem settled (ho : s.isOver = true) (hf : s.failure? = none) {i : Nat} {slot : Slot}
    (hs : s.walk.slots[i]? = some slot) : slot.dead = true ∨ slot.match?.isSome := by
  have hframes : s.walk.frames = [] := List.map_eq_nil_iff.1 (h.containers.trans (h.ended ho hf))
  cases hd : slot.dead with
  | true => exact .inl rfl
  | false =>
    have hpending := h.balanced.pending hs hd
    have honce := h.balanced.once hs
    rw [Walk.queue, hframes] at hpending
    rw [Walk.recorded, hframes, List.flatMap_nil, List.count_nil, Nat.zero_add] at honce
    refine .inr (Slot.isSome_match?_iff.2 ⟨hd, hpending, ?_⟩)
    cases hv : slot.value? with
    | none => rw [hv] at honce; cases honce
    | some value => rfl

/-- Without a failure only dead slots are passed over. Before the end this is how `release` goes
on, and at the end of a complete document the slots that are no matches are dead anyway. -/
theorem dead_of_skipped {behind : Nat} (hf : s.failure? = none)
    (hskipped : s.walk.slots.Skipped s.isOver s.front behind) {n : Nat} (hn : s.front ≤ n)
    (hlt : n < behind) : s.walk.slots.Dead n := by
  obtain ⟨slot, hs, hm, hd | ho⟩ := hskipped n hn hlt
  · exact ⟨slot, hs, hd⟩
  · obtain hd | hready := h.settled ho hf hs
    · exact ⟨slot, hs, hd⟩
    · rw [hm] at hready
      cases hready

/-- Slots are passed over, and one is given out. -/
theorem give {found : Match} {n : Nat}
    (hr : s.walk.slots.release s.isOver s.front = (some found, n + 1)) :
    Going { s with front := n + 1, given := s.given + 1 } tokens (numbers ++ [n]) := by
  obtain ⟨_, slot, hn, hle, hs, -, hskipped⟩ := Slots.release_some hr
  cases hn
  refine ⟨h.walk, h.fits, h.containers, h.ended, ?_, ?_, fun hf k hk => ?_⟩
  · refine List.pairwise_append.2 ⟨h.ordered, List.pairwise_singleton .., ?_⟩
    intro k hk _ hn
    exact List.mem_singleton.1 hn ▸ Nat.lt_of_lt_of_le (h.behind k hk) hle
  · intro k hk
    rcases List.mem_append.1 hk with hk | hk
    · exact Nat.lt_succ_of_le (Nat.le_trans (Nat.le_of_lt (h.behind k hk)) hle)
    · exact List.mem_singleton.1 hk ▸ Nat.lt_succ_self n
  · rcases Nat.lt_or_ge k s.front with hlt | hge
    · exact (h.passed hf k hlt).imp (List.mem_append_left _) id
    · rcases Nat.eq_or_lt_of_le (Nat.le_of_lt_succ hk) with rfl | hlt
      · exact .inl (List.mem_append_right _ (List.mem_singleton_self k))
      · exact .inr (h.dead_of_skipped hf hskipped hge hlt)

/-- Slots are passed over. -/
theorem pass {front : Nat} (hr : s.walk.slots.release s.isOver s.front = (none, front)) :
    Going { s with front } tokens numbers := by
  obtain ⟨hle, hskipped⟩ := Slots.release_none hr
  refine ⟨h.walk, h.fits, h.containers, h.ended, h.ordered,
    fun k hk => Nat.lt_of_lt_of_le (h.behind k hk) hle, fun hf k hk => ?_⟩
  rcases Nat.lt_or_ge k s.front with hlt | hge
  · exact h.passed hf k hlt
  · exact .inr (h.dead_of_skipped hf hskipped hge hk)

end Going

/-! ## Frames and slots

What a reader of the session's state wants to know is stated in terms of its fields alone, and
follows from `Going`: open containers, trails, the slots that wait, the slots that record, and
the order of release. The steps that take in a token or meet the end are here, as they need the
facts about frames. -/

/-- Frames and slots are in order behind some tokens, and behind slots with certain numbers that
were given out. Each field is about the state alone; tokens and numbers are mentioned only where
the state must be compared with what was read and what was given. -/
structure Kept (s : Session σ) (tokens : List Lexed) (numbers : List Nat) : Prop where
  /-- the frames are the open containers, in kind and order -/
  containers : s.walk.frames.map (·.container) = s.lexer.nesting.containers
  /-- at most one trail of each path leads into a frame, and it is on the level for the depth -/
  trails : ∀ (depth : Nat) (f : Frame), s.walk.frames.reverse[depth]? = some f →
    (f.trails.map (·.owner)).Nodup ∧ ∀ t ∈ f.trails, t.Follows s.paths depth
  /-- filters and containers list slots only -/
  listed : ∀ f ∈ s.walk.frames, (∀ c ∈ f.checks, ∀ i ∈ c.waiting, i < s.walk.slots.size) ∧
    ∀ i ∈ f.recorded, i < s.walk.slots.size
  /-- no filter lists a slot twice -/
  nodup : ∀ f ∈ s.walk.frames, ∀ c ∈ f.checks, c.waiting.Nodup
  /-- a slot that is not dead is pending for each undecided filter that lists it -/
  pending : ∀ (i : Nat) (slot : Slot), s.walk.slots[i]? = some slot → slot.dead = false →
    slot.pending = (s.walk.frames.flatMap (·.checks)).countP fun c =>
      c.isUndecided && c.waiting.contains i
  /-- it has no value exactly while one open container keeps text for it -/
  value : ∀ (i : Nat) (slot : Slot), s.walk.slots[i]? = some slot →
    (slot.value? = none ↔ (s.walk.frames.countP fun f => f.recorded.contains i) = 1)
  /-- it died by a token that made a filter fail for which it waited -/
  dead : ∀ (i : Nat) (slot : Slot), s.walk.slots[i]? = some slot → slot.dead = true →
    ∃ before lexed after, tokens = before ++ lexed :: after ∧
      (({} : Walk).run s.paths before).Refuses lexed i
  /-- at the end of a document it is dead or ready -/
  settled : s.isOver = true → s.failure? = none → ∀ (i : Nat) (slot : Slot),
    s.walk.slots[i]? = some slot → slot.dead = true ∨ slot.match?.isSome
  /-- slots are given out in order, and none twice -/
  ordered : numbers.Pairwise (· < ·)
  /-- without a failure, no slot that is not dead is passed over -/
  passed : s.failure? = none → ∀ i < s.front, i ∈ numbers ∨
    ∃ slot, s.walk.slots[i]? = some slot ∧ slot.dead = true

theorem Going.kept (h : s.Going tokens numbers) : s.Kept tokens numbers where
  containers := h.containers
  trails _ _ hf := h.follow.getElem? hf
  listed f hf := by
    refine ⟨fun c hc i hi => h.balanced.lt_of_queue ?_, fun i hi =>
      h.balanced.lt_of_recorded (List.mem_flatMap_of_mem hf hi)⟩
    rw [← (h.tidy f hf c hc).queue_eq] at hi
    exact List.mem_flatMap_of_mem hf (List.mem_flatMap_of_mem hc hi)
  nodup f hf c hc := (h.tidy f hf c hc).nodup
  pending _ _ hs hd := Walk.pending_eq_countP h.balanced h.tidy hs hd
  value _ _ hs := Walk.value?_eq_none_iff h.balanced hs
  dead i slot hs hd := by
    rw [h.walk] at hs
    obtain ⟨_, hnone, -⟩ | hrefusal := Walk.exists_refusal s.paths ⟨slot, hs, hd⟩
    · cases hnone
    · exact hrefusal
  settled ho hf _ _ hs := h.settled ho hf hs
  ordered := h.ordered
  passed := h.passed

variable [Cursor σ]

namespace Going

variable (h : s.Going tokens numbers)

include h

/-- A token is taken in. -/
theorem token {found : Lexed} (ho : s.isOver = false)
    (ha : (s.lexer.pull s.options s.source).answer = .ok (some found)) :
    s.proceed.Going (tokens ++ [found]) numbers := by
  have hleaves := Lexer.pull_leaves s.source (h.fits ho)
  have hover : s.ending? = none := by simpa [isOver] using ho
  have hfailure : s.failure? = none := by rw [failure?, hover]; rfl
  have hkeeps := (Walk.token_advances s.paths found h.balanced).keeps
  rw [proceed]
  generalize s.lexer.pull s.options s.source = pulled at hleaves ha
  cases hleaves with
  | ending | failure => cases ha
  | token hf hc hs =>
    cases ha
    refine ⟨?_, fun _ => hf, ?_, fun hended => ?_, h.ordered, h.behind, fun _ n hn => ?_⟩
    · dsimp only
      rw [h.walk, Walk.run_append]
      rfl
    · dsimp only
      rw [Walk.containers_token _ _ _ hs, h.containers, hc]
    · rw [isOver, hover] at hended
      cases hended
    · refine (h.passed hfailure n hn).imp id ?_
      rintro ⟨slot, hslot, hd⟩
      obtain ⟨slot', hslot', hdead, -⟩ := hkeeps n slot hslot
      exact ⟨slot', hslot', hdead hd⟩

/-- The end is met, or a failure. -/
theorem ending (ho : s.isOver = false)
    (ha : ∀ found, (s.lexer.pull s.options s.source).answer ≠ .ok (some found)) :
    s.proceed.Going tokens numbers := by
  have hleaves := Lexer.pull_leaves s.source (h.fits ho)
  have hover : s.ending? = none := by simpa [isOver] using ho
  have hfailure : s.failure? = none := by rw [failure?, hover]; rfl
  rw [proceed]
  generalize s.lexer.pull s.options s.source = pulled at hleaves ha
  cases hleaves with
  | token => exact absurd rfl (ha _)
  | ending hc hn =>
    exact ⟨h.walk, (fun hno => by cases hno), h.containers.trans hc.symm,
      fun _ _ => hc.trans hn, h.ordered, h.behind, fun _ => h.passed hfailure⟩
  | failure hc =>
    exact ⟨h.walk, (fun hno => by cases hno), h.containers.trans hc.symm, (fun _ hno => by cases hno),
      h.ordered, h.behind, (fun hno => by cases hno)⟩

end Going

/-! ## Steps

A course is what happens to a session from its start: tokens taken in, slots given out, slots
passed over. Every call of `next` is a part of a course, so an invariant that holds along
courses holds of every state that a caller can see, and of the states in between that a caller
cannot see. -/

/-- What a session did so far: the tokens that it took in, and the numbers of the slots that it
gave out. Tokens, the end and failures come one at a time and only while the session is not over;
slots are given out and passed over at any time. -/
inductive Course (s₀ : Session σ) : List Lexed → List Nat → Session σ → Prop
  | start : Course s₀ [] [] s₀
  /-- a token is taken in -/
  | token {s : Session σ} {tokens : List Lexed} {numbers : List Nat} {found : Lexed} :
    Course s₀ tokens numbers s → s.isOver = false →
      (s.lexer.pull s.options s.source).answer = .ok (some found) →
        Course s₀ (tokens ++ [found]) numbers s.proceed
  /-- the end is met, or a failure -/
  | ending {s : Session σ} {tokens : List Lexed} {numbers : List Nat} :
    Course s₀ tokens numbers s → s.isOver = false →
      (∀ found, (s.lexer.pull s.options s.source).answer ≠ .ok (some found)) →
        Course s₀ tokens numbers s.proceed
  /-- slots are passed over, and one is given out -/
  | give {s : Session σ} {tokens : List Lexed} {numbers : List Nat} {found : Match} {n : Nat} :
    Course s₀ tokens numbers s → s.walk.slots.release s.isOver s.front = (some found, n + 1) →
      Course s₀ tokens (numbers ++ [n]) { s with front := n + 1, given := s.given + 1 }
  /-- slots are passed over -/
  | pass {s : Session σ} {tokens : List Lexed} {numbers : List Nat} {front : Nat} :
    Course s₀ tokens numbers s → s.walk.slots.release s.isOver s.front = (none, front) →
      Course s₀ tokens numbers { s with front }

/-- A token, the end or a failure. -/
theorem exists_course_proceed (s₀ : Session σ) (ho : s.isOver = false) :
    ∃ more, ∀ tokens numbers, s₀.Course tokens numbers s →
      s₀.Course (tokens ++ more) numbers s.proceed := by
  rcases ha : (s.lexer.pull s.options s.source).answer with failure | _ | found
  · exact ⟨[], fun tokens _ h => (List.append_nil tokens).symm ▸ h.ending ho (by simp [ha])⟩
  · exact ⟨[], fun tokens _ h => (List.append_nil tokens).symm ▸ h.ending ho (by simp [ha])⟩
  · exact ⟨[found], fun _ _ h => h.token ho ha⟩

/-- A call takes such steps, and gives out one slot at most. The call goes on taking in tokens
until there is a slot to give out or the session is over, so the tokens it takes in may be many,
and the slots at most one. -/
theorem exists_course_next (s₀ : Session σ) {found? : Option Match} (hn : s.next = (found?, t)) :
    ∃ more given, given.map (fun n => t.walk.slots[n]?.bind Slot.match?) = found?.toList.map some ∧
      ∀ tokens numbers, s₀.Course tokens numbers s →
        s₀.Course (tokens ++ more) (numbers ++ given) t := by
  fun_induction Session.next s with
  | case1 s found front hr =>
    cases hn
    obtain ⟨n, slot, rfl, -, hs, hm, -⟩ := Slots.release_some hr
    exact ⟨[], [n], by simp [hs, hm], fun tokens _ h => (List.append_nil tokens).symm ▸ h.give hr⟩
  | case2 s front hr passed hover =>
    obtain ⟨rfl, rfl⟩ := Prod.mk.inj hn
    exact ⟨[], [], rfl, fun _ _ h => by simpa using h.pass hr⟩
  | case3 s front hr passed hover ih =>
    obtain ⟨more, hproceed⟩ := exists_course_proceed (s := passed) s₀ (Bool.eq_false_iff.2 hover)
    obtain ⟨more', given, hgiven, hcourse⟩ := ih hn
    refine ⟨more ++ more', given, hgiven, fun tokens numbers h => ?_⟩
    exact List.append_assoc tokens more more' ▸ hcourse _ _ (hproceed _ _ (h.pass hr))

theorem Course.going {paths : List Path} {options : Options} {source : σ}
    (hs : Session.start paths options source = .ok s₀) (h : s₀.Course tokens numbers s) :
    s.Going tokens numbers := by
  induction h with
  | start => exact .start hs
  | token _ ho ha ih => exact ih.token ho ha
  | ending _ ho ha ih => exact ih.ending ho ha
  | give _ hr ih => exact ih.give hr
  | pass _ hr ih => exact ih.pass hr

/-- Frames and slots are in order behind every step of a session, and a call takes such steps and
gives out one slot at most. Beyond settings in range nothing is assumed: neither that the document
is valid nor that its bytes arrive without a failure. -/
theorem kept_of_course {paths : List Path} {options : Options} {source : σ}
    (hs : Session.start paths options source = .ok s₀) (h : s₀.Course tokens numbers s) :
    s.Kept tokens numbers ∧ ∀ found? t, s.next = (found?, t) →
      ∃ more given, given.map (fun n => t.walk.slots[n]?.bind Slot.match?) = found?.toList.map some ∧
        s₀.Course (tokens ++ more) (numbers ++ given) t := by
  refine ⟨(h.going hs).kept, fun found? t hn => ?_⟩
  obtain ⟨more, given, hgiven, hcourse⟩ := exists_course_next s₀ hn
  exact ⟨more, given, hgiven, hcourse _ _ h⟩

/-- A slot that waits for a filter behind its value is given out by the first call. -/
theorem kept_behind_filter :
    ∃ s₀ : Session Buffer, ofDocument
        [.ofLinks "$?(@.k == \"x\").a+" [⟨.selector .root, false⟩,
          ⟨.filter (.member (.named (Bytes.ofString "k")) (Bytes.ofString "x")), false⟩,
          ⟨.selector (.key (Bytes.ofString "a")), true⟩]] {}
        (Bytes.ofString r#"{"a":1,"k":"x"}"#) = .ok s₀ ∧
      s₀.next.1 = some ⟨"$?(@.k == \"x\").a+", Bytes.ofString "1", .number, [.key (Bytes.ofString "a")]⟩ ∧
      ∃ tokens n, s₀.Course tokens [n] s₀.next.2 ∧ s₀.next.2.Kept tokens [n] := by
  obtain ⟨s₀, hs₀⟩ := @exists_ofDocument {} rfl
    [.ofLinks "$?(@.k == \"x\").a+" [⟨.selector .root, false⟩,
      ⟨.filter (.member (.named (Bytes.ofString "k")) (Bytes.ofString "x")), false⟩,
      ⟨.selector (.key (Bytes.ofString "a")), true⟩]]
    (Bytes.ofString r#"{"a":1,"k":"x"}"#)
  have hfound : s₀.next.1 =
      some ⟨"$?(@.k == \"x\").a+", Bytes.ofString "1", .number, [.key (Bytes.ofString "a")]⟩ := by
    cases hs₀
    decide +kernel
  obtain ⟨more, given, hgiven, hcourse⟩ := (kept_of_course hs₀ .start).2 s₀.next.1 s₀.next.2 rfl
  obtain ⟨n, rfl⟩ : ∃ n, given = [n] := by
    rw [hfound] at hgiven
    obtain ⟨n, rest, rfl, -, hrest⟩ := List.map_eq_cons_iff.1 hgiven
    exact ⟨n, by rw [List.map_eq_nil_iff.1 hrest]⟩
  exact ⟨s₀, hs₀, hfound, _, n, hcourse, (kept_of_course hs₀ hcourse).1⟩

end Session

end JsonExtract
