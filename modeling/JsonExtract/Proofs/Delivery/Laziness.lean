import JsonExtract.Proofs.Delivery.Metering
import JsonExtract.Proofs.Extraction.Availability
import JsonExtract.Proofs.Extraction.Sequence
import JsonExtract.Proofs.Walk.Course

/-!
# A session reads no more than it has to

A match is given out as soon as its slot and all slots in front of it are decided. So when it is given
out, the meter of its document shows the last place at which one of them is decided.

* `Slots.readyBefore`, `Slots.readyFrom` — the slots on both sides of the front;
* `Session.Paced` — a session that has read no more than it had to;
* `Paced.give`, `Paced.token`, `Paced.next` — every step keeps it so;
* `Session.position_of_next` — how far a document is read when a match is given out.
-/

namespace JsonExtract

/-! ## The front of the slots

The front divides the slots into those that are done with and those to come. In front of it
every slot that is not dead was given out, so all of them are ready; behind it the first that is
not dead decides whether something can be given out now. -/

/-- A list that does not start with `true` starts with no run of it. -/
theorem takeWhile_id_of_head?_ne {xs : List Bool} (h : xs.head? ≠ some true) : xs.takeWhile id = [] := by
  cases xs with
  | nil => rfl
  | cons b xs =>
    cases b with
    | true => exact absurd rfl h
    | false => rfl

namespace Slots

/-- For the slots in front of a number that are not dead, whether they are ready. -/
def readyBefore (slots : Slots) (front : Nat) : List Bool :=
  ((slots.toList.take front).filter fun s => !s.dead).map fun s => s.match?.isSome

/-- The same for the slots from a number on. -/
def readyFrom (slots : Slots) (front : Nat) : List Bool :=
  ((slots.toList.drop front).filter fun s => !s.dead).map fun s => s.match?.isSome

theorem readyBefore_append_readyFrom (slots : Slots) (front : Nat) :
    slots.readyBefore front ++ slots.readyFrom front =
      (slots.toList.filter fun s => !s.dead).map fun s => s.match?.isSome := by
  rw [readyBefore, readyFrom, ← List.map_append, ← List.filter_append, List.take_append_drop]

variable {slots slots' : Slots} {front behind : Nat} {s : Slot}

theorem readyBefore_succ (hs : slots[front]? = some s) :
    slots.readyBefore (front + 1) =
      slots.readyBefore front ++ if s.dead then [] else [s.match?.isSome] := by
  rw [readyBefore, readyBefore, List.take_add_one, Array.getElem?_toList, hs, Option.toList_some,
    List.filter_append, List.map_append]
  cases hd : s.dead with
  | true => rw [List.filter_cons_of_neg (by simp [hd])]; rfl
  | false => rw [List.filter_cons_of_pos (by simp [hd])]; rfl

/-- No slot is taken away. -/
theorem Keeps.size_le (hk : slots.Keeps slots') : slots.size ≤ slots'.size := by
  refine Nat.le_of_not_lt fun hlt => ?_
  obtain ⟨s', hs', -⟩ := hk _ _ (Array.getElem?_eq_getElem hlt)
  exact absurd (Array.getElem?_eq_some_iff.1 hs').1 (Nat.lt_irrefl _)

/-- What is settled in front of a number stays so. Slots that are ready or dead stay so, and new
ones come behind. -/
theorem Keeps.readyBefore_eq (hk : slots.Keeps slots') (hle : front ≤ slots.size)
    (h : ∀ b ∈ slots.readyBefore front, b = true) :
    slots'.readyBefore front = slots.readyBefore front := by
  induction front with
  | zero => rfl
  | succ front ih =>
    have hs := Array.getElem?_eq_getElem hle
    obtain ⟨s', hs', hdead, hready⟩ := hk front _ hs
    rw [readyBefore_succ hs] at h ⊢
    rw [readyBefore_succ hs', ih (Nat.le_of_succ_le hle) fun b hb => h b (List.mem_append_left _ hb)]
    cases hd : slots[front].dead with
    | true => rw [hdead hd, if_pos rfl, if_pos rfl]
    | false =>
      rw [hd] at h
      rw [hready (h _ (List.mem_append_right _ (List.mem_singleton_self _))), hd]

theorem readyBefore_of_release_some {found : Match}
    (h : release false slots front = (some found, behind)) :
    behind ≤ slots.size ∧ slots.readyBefore behind = slots.readyBefore front ++ [true] := by
  fun_induction release false slots front with
  | case1 front hlt found' hm =>
    cases h
    have hd : slots[front].dead = false := (Slot.isSome_match?_iff.1 (hm ▸ rfl)).1
    rw [readyBefore_succ (Array.getElem?_eq_getElem hlt), hd, hm]
    exact ⟨hlt, rfl⟩
  | case2 front hlt hm hd ih =>
    obtain ⟨hle, hready⟩ := ih h
    rw [Bool.or_false] at hd
    rw [hready, readyBefore_succ (Array.getElem?_eq_getElem hlt), hd, if_pos rfl, List.append_nil]
    exact ⟨hle, rfl⟩
  | case3 => cases h
  | case4 => cases h

theorem readyBefore_of_release_none (hle : front ≤ slots.size)
    (h : release false slots front = (none, behind)) :
    behind ≤ slots.size ∧ slots.readyBefore behind = slots.readyBefore front ∧
      (slots.readyFrom behind).head? ≠ some true := by
  fun_induction release false slots front with
  | case1 => cases h
  | case2 front hlt hm hd ih =>
    obtain ⟨hle, hready, hhead⟩ := ih hlt h
    rw [Bool.or_false] at hd
    rw [hready, readyBefore_succ (Array.getElem?_eq_getElem hlt), hd, if_pos rfl, List.append_nil]
    exact ⟨hle, rfl, hhead⟩
  -- a slot that is not ready holds up those behind it
  | case3 front hlt hm hd =>
    obtain rfl : front = behind := (Prod.mk.inj h).2
    have hd : slots[front].dead = false := by simpa using hd
    refine ⟨hle, rfl, ?_⟩
    rw [readyFrom, List.drop_eq_getElem_cons (by simpa using hlt), Array.getElem_toList,
      List.filter_cons_of_pos (by rw [hd]; rfl), List.map_cons, hm]
    simp
  | case4 front hnot =>
    cases h
    refine ⟨hle, rfl, ?_⟩
    rw [readyFrom, List.drop_eq_nil_of_le (by simpa using hnot)]
    simp

/-- Where nothing is given out, nothing is given out again. -/
theorem release_of_release_none {ended : Bool} (h : release ended slots front = (none, behind)) :
    release ended slots behind = (none, behind) := by
  fun_induction release ended slots front with
  | case1 => cases h
  | case2 front hlt hm hd ih => exact ih h
  | case3 front hlt hm hd =>
    obtain rfl : front = behind := (Prod.mk.inj h).2
    rw [release, dif_pos hlt, hm]
    exact if_neg hd
  | case4 front hnot =>
    obtain rfl : front = behind := (Prod.mk.inj h).2
    rw [release, dif_neg hnot]

/-- Nothing is given out where all slots are dead. -/
theorem release_of_readyFrom_nil {ended : Bool} (h : slots.readyFrom front = []) :
    (release ended slots front).1 = none := by
  rcases hr : release ended slots front with ⟨_ | found, behind⟩
  · rfl
  · obtain ⟨n, s, -, hle, hs, hm, -⟩ := release_some hr
    have hin : s ∈ slots.toList.drop front := by
      refine List.mem_of_getElem? (i := n - front) ?_
      rw [List.getElem?_drop, Nat.add_sub_cancel' hle, Array.getElem?_toList, hs]
    rw [readyFrom, List.map_eq_nil_iff, List.filter_eq_nil_iff] at h
    have hd : s.dead = false := (Slot.isSome_match?_iff.1 (hm ▸ rfl)).1
    exact absurd (by rw [hd]; rfl) (h s hin)

end Slots

namespace Session

/-! ## Calls behind the last match

A call that gives out nothing has met the end, and the session stays as it is from then on. -/

section

variable {σ : Type} [Cursor σ] {s t : Session σ}

theorem proceed_of_token {found : Lexed}
    (ha : (s.lexer.pull s.options s.source).answer = .ok (some found)) :
    s.proceed =
      { s with
        lexer := (s.lexer.pull s.options s.source).lexer
        source := (s.lexer.pull s.options s.source).source
        walk := s.walk.token s.paths found } := by
  simp only [proceed, ha]

theorem proceed_of_end (ha : (s.lexer.pull s.options s.source).answer = .ok none) :
    s.proceed =
      { s with
        lexer := (s.lexer.pull s.options s.source).lexer
        source := (s.lexer.pull s.options s.source).source
        ending? := some ⟨none, s.given⟩ } := by
  simp only [proceed, ha]

/-- A session that has given out nothing gives out nothing later. -/
theorem next_of_next_none (h : s.next = (none, t)) : t.next = (none, t) := by
  fun_induction Session.next s with
  | case1 => cases h
  | case2 s front hr passed hover =>
    obtain rfl : passed = t := (Prod.mk.inj h).2
    have hagain : passed.walk.slots.release passed.isOver passed.front = (none, front) :=
      Slots.release_of_release_none hr
    rw [next, hagain]
    exact dif_pos hover
  | case3 s front hr passed hover ih => exact ih h

theorem next_after_of_next_none (k : Nat) (h : s.next = (none, t)) : (s.after k).next.1 = none := by
  induction k generalizing s t with
  | zero => rw [after, h]
  | succ k ih =>
    rw [after, h]
    exact ih (next_of_next_none h)

/-- One call after the other gives out what is left. -/
theorem getElem?_rest (s : Session σ) (k : Nat) : s.rest.1[k]? = (s.after k).next.1 := by
  fun_induction rest s generalizing k with
  | case1 s t hn =>
    rw [next_after_of_next_none k hn]
    rfl
  | case2 s found t hn more ih =>
    cases k with
    | zero =>
      rw [after, hn]
      rfl
    | succ k =>
      rw [after, hn]
      exact ih k

end

/-! ## Reading no more than necessary

The invariant says of a session between two calls that it was never possible to give out one
more match at an earlier place. A call first gives out what is ready. If nothing is, the first
slot from the front on waits for something, and by what is known of candidates it can only be
decided by a token that is still to come; so a token has to be taken in. -/

variable {paths : List Path} {values : List Passage} {k : Nat} {read left : List Lexed}
  {s t : Session Metered}

/-- A session that has given out `k` matches of some values, has read some of their tokens, and
has not read on when the next match could be given out. The last field bounds what could have been
given out before the place that the meter shows. -/
structure Paced (paths : List Path) (values : List Passage) (k : Nat) (read left : List Lexed)
    (s : Session Metered) : Prop where
  /-- the paths are asked for -/
  asked : s.paths = paths
  /-- the session is going on -/
  ongoing : s.isOver = false
  /-- lexer and meter have counted the same bytes -/
  abreast : s.lexer.Abreast s.source
  /-- the tokens that are read, and those that are left -/
  tokens : values.flatMap Passage.tokens = read ++ left
  /-- the walk has taken in the tokens that are read -/
  walk : s.walk = ({} : Walk).run paths read
  /-- the others stand in the rest of the document -/
  scan : s.lexer.scan s.options s.source = ⟨left, none⟩
  /-- the meter stands behind the tokens that are read -/
  done : ∀ l ∈ read, l.stop ≤ s.source.position
  /-- and in front of the others -/
  ahead : ∀ l ∈ left, s.source.position < l.stop
  /-- the front stands behind slots only -/
  front_le : s.front ≤ s.walk.slots.size
  /-- the slots in front of it are given out, or dead -/
  given : s.walk.slots.readyBefore s.front = List.replicate k true
  /-- at no place before could more matches be given out -/
  waited : ∀ m < s.source.position,
    Finding.available (values.flatMap (Passage.candidates paths)) m ≤ k

namespace Paced

/-- What is left is empty, or starts with the token that is pulled next. -/
theorem of_pull (h : s.Paced paths values k read left) :
    (s.lexer.pull s.options s.source).answer = .ok none ∧ left = [] ∨
      ∃ found later, (s.lexer.pull s.options s.source).answer = .ok (some found) ∧
        left = found :: later ∧
        (s.lexer.pull s.options s.source).lexer.scan s.options
          (s.lexer.pull s.options s.source).source = ⟨later, none⟩ := by
  have hscan := h.scan
  rw [Lexer.scan_eq_resume, Lexer.resume] at hscan
  rcases ha : (s.lexer.pull s.options s.source).answer with failure | _ | found
  · rw [ha] at hscan
    cases hscan
  · rw [ha] at hscan
    cases hscan
    exact .inl ⟨rfl, rfl⟩
  · rw [ha] at hscan
    obtain ⟨hleft, hfailure⟩ := Scanned.mk.inj hscan
    exact .inr ⟨found, _, rfl, hleft.symm, by rw [← hfailure]; rfl⟩

theorem balanced (h : s.Paced paths values k read left) : s.walk.Balanced := by
  rw [h.walk]
  exact (Walk.run_advances _ _ Walk.balanced_initial).balanced

variable (hp : ∀ path ∈ paths, ∃ text, Path.parse text = .ok path)
  (hsorted : Lexed.Sorted (values.flatMap Passage.tokens))
  (h : s.Paced paths values k read left)

include hp hsorted h

/-- Up to the end of the next token, no more can be given out than the matches in front of the
front, and those in the slots from there on that are ready. It joins the count over candidates
with the state of the slots. -/
theorem available_eq {m : Nat} (hm : s.source.position ≤ m) (hleft : ∀ l ∈ left, m < l.stop) :
    Finding.available (values.flatMap (Passage.candidates paths)) m =
      k + ((s.walk.slots.readyFrom s.front).takeWhile id).length := by
  have hread : Lexed.upTo m (values.flatMap Passage.tokens) = read := by
    rw [h.tokens, Lexed.upTo_append, Lexed.upTo_eq_self fun l hl => Nat.le_trans (h.done l hl) hm,
      Lexed.upTo_eq_nil hleft, List.append_nil]
  have hgiven : ∀ b ∈ List.replicate k true, id b = true := fun b hb => List.eq_of_mem_replicate hb
  rw [← Walk.length_takeWhile_ready hp hsorted, hread, ← h.walk,
    ← Slots.readyBefore_append_readyFrom _ s.front, h.given, List.takeWhile_append_of_pos hgiven,
    List.length_append, List.length_replicate]

/-- A match is given out. -/
theorem give {found : Match} {front : Nat}
    (hr : s.walk.slots.release false s.front = (some found, front)) :
    Paced paths values (k + 1) read left { s with front, given := s.given + 1 } ∧
      k < Finding.available (values.flatMap (Passage.candidates paths)) s.source.position := by
  obtain ⟨hle, hready⟩ := Slots.readyBefore_of_release_some hr
  have hgiven : Paced paths values (k + 1) read left { s with front, given := s.given + 1 } :=
    { h with
      front_le := hle
      given := by rw [hready, h.given, List.replicate_succ']
      waited := fun m hm => Nat.le_succ_of_le (h.waited m hm) }
  refine ⟨hgiven, ?_⟩
  rw [hgiven.available_eq hp hsorted (Nat.le_refl _) h.ahead]
  exact Nat.lt_of_lt_of_le (Nat.lt_succ_self k) (Nat.le_add_right ..)

/-- Where the first slot from the front on is not ready, no more can be given out up to the end of the
next token. -/
theorem available_le (hblocked : (s.walk.slots.readyFrom s.front).head? ≠ some true) {m : Nat}
    (hleft : ∀ l ∈ left, m < l.stop) :
    Finding.available (values.flatMap (Passage.candidates paths)) m ≤ k := by
  rcases Nat.lt_or_ge m s.source.position with hlt | hge
  · exact h.waited m hlt
  · rw [h.available_eq hp hsorted hge hleft, takeWhile_id_of_head?_ne hblocked]
    exact Nat.le_refl k

/-- There a token is taken in. In front of the end of that token, nothing could have been given
out. -/
theorem token (hblocked : (s.walk.slots.readyFrom s.front).head? ≠ some true) {found : Lexed}
    {later : List Lexed} (ha : (s.lexer.pull s.options s.source).answer = .ok (some found))
    (hleft : left = found :: later)
    (hscan : (s.lexer.pull s.options s.source).lexer.scan s.options
      (s.lexer.pull s.options s.source).source = ⟨later, none⟩) :
    s.proceed.Paced paths values k (read ++ [found]) later := by
  obtain ⟨habreast, hstop⟩ := Lexer.abreast_pull h.abreast ha
  have hkeeps := (Walk.token_advances s.paths found h.balanced).keeps
  have hnext : s.source.position < found.stop := h.ahead found (hleft ▸ List.mem_cons_self)
  have hbehind : ∀ l ∈ later, found.stop < l.stop := by
    rw [h.tokens, hleft, Lexed.Sorted, List.pairwise_append, List.pairwise_cons] at hsorted
    exact fun l hl => (hsorted.2.1.1 l hl).2
  rw [proceed_of_token ha]
  exact
    { asked := h.asked
      ongoing := h.ongoing
      abreast := habreast
      tokens := by rw [h.tokens, hleft, List.append_assoc]; rfl
      walk := by rw [Walk.run_append, ← h.walk, h.asked]; rfl
      scan := hscan
      done := fun l hl => by
        rw [← hstop]
        rcases List.mem_append.1 hl with hl | hl
        · exact Nat.le_of_lt (Nat.lt_of_le_of_lt (h.done l hl) hnext)
        · exact List.mem_singleton.1 hl ▸ Nat.le_refl _
      ahead := fun l hl => hstop ▸ hbehind l hl
      front_le := Nat.le_trans h.front_le hkeeps.size_le
      given := by
        rw [hkeeps.readyBefore_eq h.front_le fun b hb => ?_, h.given]
        exact List.eq_of_mem_replicate (h.given ▸ hb)
      waited := fun m hm => by
        have hlt : m < found.stop := hstop ▸ hm
        refine h.available_le hp hsorted hblocked ?_
        rw [hleft, List.forall_mem_cons]
        exact ⟨hlt, fun l hl => Nat.lt_trans hlt (hbehind l hl)⟩ }

omit hp in
/-- Behind the last token, all is given out. -/
theorem next_of_end (hblocked : (s.walk.slots.readyFrom s.front).head? ≠ some true)
    (ha : (s.lexer.pull s.options s.source).answer = .ok none) (hleft : left = []) :
    s.proceed.next.1 = none := by
  have hopen : s.walk.frames = [] := by
    rw [h.walk, ← List.append_nil read, ← hleft, ← h.tokens]
    exact Walk.frames_run_series paths hsorted Walk.balanced_initial rfl
  have hready : ∀ b ∈ s.walk.slots.readyFrom s.front, b = true := by
    intro b hb
    obtain ⟨slot, hslot, rfl⟩ := List.mem_map.1 hb
    obtain ⟨hslot, hd⟩ := List.mem_filter.1 hslot
    rw [Walk.isSome_match?_of_frames_nil h.balanced hopen (List.mem_of_mem_drop hslot), hd]
  have hnil : s.walk.slots.readyFrom s.front = [] := by
    cases hx : s.walk.slots.readyFrom s.front with
    | nil => rfl
    | cons b more => rw [hx, hready b (hx ▸ List.mem_cons_self)] at hblocked; exact absurd rfl hblocked
  have hnone := @Slots.release_of_readyFrom_nil _ _ true hnil
  rcases hr : s.walk.slots.release true s.front with ⟨found?, behind⟩
  rw [hr] at hnone
  obtain rfl : found? = none := hnone
  rw [proceed_of_end ha, Session.next]
  simp only [isOver, Option.isSome_some, hr]
  rfl

/-- The next match is given out at the first place where it can be. The two bounds say that there
the match can be given out, and that it could not at any place before. -/
theorem next {found : Match} (hn : s.next = (some found, t)) :
    ∃ read' left', t.Paced paths values (k + 1) read' left' ∧
      k < Finding.available (values.flatMap (Passage.candidates paths)) t.source.position ∧
      ∀ m < t.source.position,
        Finding.available (values.flatMap (Passage.candidates paths)) m ≤ k := by
  fun_induction Session.next s generalizing read left with
  | case1 s found' front hr =>
    cases hn
    rw [h.ongoing] at hr
    obtain ⟨hgiven, hlt⟩ := h.give hp hsorted hr
    exact ⟨read, left, hgiven, hlt, h.waited⟩
  | case2 => cases hn
  | case3 s front hr passed hover =>
    rename_i ih
    rw [h.ongoing] at hr
    obtain ⟨hle, hready, hblocked⟩ := Slots.readyBefore_of_release_none h.front_le hr
    have hpassed : passed.Paced paths values k read left :=
      { h with front_le := hle, given := hready.trans h.given }
    obtain ⟨ha, hleft⟩ | ⟨found', later, ha, hleft, hscan⟩ := hpassed.of_pull
    · have hnone := hpassed.next_of_end hsorted hblocked ha hleft
      rw [hn] at hnone
      cases hnone
    · exact ih (hpassed.token hp hsorted hblocked ha hleft hscan) hn

/-- So is every match. -/
theorem next_after (j : Nat) {found : Match} (hn : (s.after j).next = (some found, t)) :
    k + j < Finding.available (values.flatMap (Passage.candidates paths)) t.source.position ∧
      ∀ m < t.source.position,
        Finding.available (values.flatMap (Passage.candidates paths)) m ≤ k + j := by
  induction j generalizing s k read left with
  | zero =>
    obtain ⟨-, -, -, hlt, hleast⟩ := h.next hp hsorted hn
    exact ⟨hlt, hleast⟩
  | succ j ih =>
    rcases hs : s.next with ⟨_ | found', u⟩
    · have hnone := next_after_of_next_none (j + 1) hs
      rw [hn] at hnone
      cases hnone
    · obtain ⟨read', left', hnext, -⟩ := h.next hp hsorted hs
      rw [after, hs] at hn
      rw [← Nat.add_assoc, Nat.add_right_comm]
      exact ih hnext hn

end Paced

/-- A session in front of a document is paced. No token has been read, and no candidate has
started. -/
theorem paced_start {options : Options} {d : Bytes}
    (hs : start paths options (⟨d, 0, none⟩ : Metered) = .ok s)
    (hscan : Lexer.initial.scan options (Buffer.mk d) = ⟨values.flatMap Passage.tokens, none⟩) :
    s.Paced paths values 0 [] (values.flatMap Passage.tokens) := by
  have hrow := Lexer.row_scan options d
  rw [hscan] at hrow
  rw [start] at hs
  split at hs
  · cases hs
  · cases hs
    exact
      { asked := rfl
        ongoing := rfl
        abreast := ⟨rfl, rfl⟩
        tokens := rfl
        walk := rfl
        scan := by rw [← hscan, Lexer.scan_of_holds Metered.faithful_metered options _ ⟨rfl, rfl⟩]
        done := fun l hl => absurd hl List.not_mem_nil
        ahead := fun l hl => Nat.zero_lt_of_lt (hrow.mem hl).2.1
        front_le := Nat.le_refl _
        given := rfl
        waited := fun m hm => absurd hm (Nat.not_lt_zero m) }

/-- What a session gives out in the end, and what ends it, is the same on a faithful cursor. -/
theorem rest_start {σ : Type} [Cursor σ] {Holds : σ → Bytes → Prop} (hf : Faithful Holds)
    {options : Options} {source : σ} {d : Bytes} (h : Holds source d) {s : Session σ}
    (hs : start paths options source = .ok s) {s' : Session Buffer}
    (hs' : ofDocument paths options d = .ok s') :
    s.rest.1 = s'.rest.1 ∧ s.rest.2.failure? = s'.rest.2.failure? := by
  obtain ⟨hrest, hfailure⟩ := rest_of_start hs
  obtain ⟨hrest', hfailure'⟩ := rest_ofDocument hs'
  have hscan := Lexer.scan_of_holds hf options Lexer.initial h
  rw [Lexer.scan_buffer] at hscan
  exact ⟨by rw [hrest, hrest', hscan], by rw [hfailure, hfailure', hscan]⟩

/-- When a match of a valid document is given out, the meter of the document shows the last place at
which its candidate, or one in front of it, is decided: no byte behind that place is stepped over. -/
theorem position_of_next {texts : List String} (hp : Path.parseAll texts = .ok paths)
    {options : Options} {d : Bytes} (hs : start paths options (⟨d, 0, none⟩ : Metered) = .ok s)
    (hvalid : s.rest.2.failure? = none) :
    (∃ values : List Passage, Grammar.Reads options (values.map Passage.value) d ∧
      values.flatMap Passage.tokens = (Lexer.initial.scan options (Buffer.mk d)).tokens) ∧
    ∀ values : List Passage,
      values.flatMap Passage.tokens = (Lexer.initial.scan options (Buffer.mk d)).tokens →
        ∀ (k : Nat) (found : Match) (t : Session Metered), (s.after k).next = (some found, t) →
          ∃ before f behind, values.flatMap (Passage.candidates paths) = before ++ f :: behind ∧
            before.countP (·.stake.holds) = k ∧ f.stake.holds = true ∧ f.found = found ∧
              ((before ++ [f]).map (·.stake.decidedAt)).max? = some t.source.position := by
  have hpaths := Path.forall_of_parseAll hp
  obtain ⟨s', hs'⟩ := exists_ofDocument (check_of_start hs) paths d
  obtain ⟨hrest, hfailure⟩ := rest_start Metered.faithful_metered ⟨rfl, rfl⟩ hs hs'
  have hread : (Lexer.initial.feed options .gap d).failure? = none := by
    rw [← (rest_ofDocument hs').2, ← hfailure, hvalid]
  obtain ⟨whole, hreads, hfeed⟩ := Lexer.exists_series hread
  refine ⟨⟨whole, hreads, by rw [Lexer.scan_buffer, hfeed]⟩, fun values hvalues k found t hn => ?_⟩
  have hsorted := (Lexer.row_scan options d).sorted
  rw [← hvalues] at hsorted
  have hscan : Lexer.initial.scan options (Buffer.mk d) = ⟨values.flatMap Passage.tokens, none⟩ := by
    rw [hvalues, Lexer.scan_buffer, hfeed]
  -- the match is the one at its place among those of the whole document
  have hfound : ((values.flatMap (Passage.candidates paths)).filter (·.stake.holds)).map (·.found) =
      s.rest.1 := by
    rw [hrest, rest_eq_findings hpaths hs' hvalues, List.filter_flatMap]
    exact congrArg (List.map _)
      (List.flatMap_congr fun p _ => (p.findings_eq_candidates paths).symm)
  have hat := getElem?_rest s k
  rw [hn, ← hfound, List.getElem?_map, Option.map_eq_some_iff] at hat
  obtain ⟨f, hf, rfl⟩ := hat
  obtain ⟨before, behind, hsplit, hcount, hholds⟩ := exists_split_of_getElem?_filter hf
  obtain ⟨hlt, hleast⟩ := (paced_start hs hscan).next_after hpaths hsorted k hn
  rw [Nat.zero_add, hsplit, ← hcount] at hlt hleast
  exact ⟨before, f, behind, hsplit, hcount, hholds, rfl, Finding.max?_decidedAt hholds hlt hleast⟩

/-- Of two matches in one object the first waits for a filter, which a member behind both decides. The
second is decided before, but is given out only there, too. -/
theorem position_of_next_behind_filter :
    ∃ (s : Session Metered) (value : Passage),
      start [.ofLinks "$?(@.k == \"x\").a+" [⟨.selector .root, false⟩,
          ⟨.filter (.member (.named (Bytes.ofString "k")) (Bytes.ofString "x")), false⟩,
          ⟨.selector (.key (Bytes.ofString "a")), true⟩],
        .ofLinks "$.c+" [⟨.selector .root, false⟩, ⟨.selector (.key (Bytes.ofString "c")), true⟩]] {}
        ⟨Bytes.ofString r#"{"a":1,"c":2,"k":"x"}"#, 0, none⟩ = .ok s ∧
      value.tokens = (Lexer.initial.scan {} (Buffer.mk s.source.rest)).tokens ∧
      (value.candidates s.paths).map (·.stake.decidedAt) = [20, 12] ∧
      (s.after 1).next.1 = some ⟨"$.c+", Bytes.ofString "2", .number, [.key (Bytes.ofString "c")]⟩ ∧
      (s.after 1).next.2.source.position = 20 := by
  let paths : List Path := [.ofLinks "$?(@.k == \"x\").a+" [⟨.selector .root, false⟩,
      ⟨.filter (.member (.named (Bytes.ofString "k")) (Bytes.ofString "x")), false⟩,
      ⟨.selector (.key (Bytes.ofString "a")), true⟩],
    .ofLinks "$.c+" [⟨.selector .root, false⟩, ⟨.selector (.key (Bytes.ofString "c")), true⟩]]
  let d : Bytes := Bytes.ofString r#"{"a":1,"c":2,"k":"x"}"#
  let value : Passage := .object ⟨0, 1⟩
    [(⟨[0x61], ⟨1, 4⟩⟩, .scalar (.number [0x31]) ⟨5, 6⟩),
      (⟨[0x63], ⟨7, 10⟩⟩, .scalar (.number [0x32]) ⟨11, 12⟩),
      (⟨[0x6b], ⟨13, 16⟩⟩, .scalar (.string [0x78]) ⟨17, 20⟩)] ⟨20, 21⟩
  have hparse : Path.parseAll ["$?(@.k == \"x\").a+", "$.c+"] = .ok paths := by decide +kernel
  have hscan : Lexer.initial.scan {} (Buffer.mk d) = ⟨value.tokens, none⟩ := by decide +kernel
  have hdecided : (value.candidates paths).map (·.stake.decidedAt) = [20, 12] := by decide +kernel
  obtain ⟨s, hs⟩ : ∃ s : Session Metered, start paths {} ⟨d, 0, none⟩ = .ok s := ⟨_, rfl⟩
  have hvalid : s.rest.2.failure? = none := by
    rw [(rest_of_start hs).2, Lexer.scan_of_holds Metered.faithful_metered {} _ ⟨rfl, rfl⟩, hscan]
  have hnext :
      (s.after 1).next.1 = some ⟨"$.c+", Bytes.ofString "2", .number, [.key (Bytes.ofString "c")]⟩ := by
    cases hs
    decide +kernel
  obtain ⟨before, f, behind, hsplit, hcount, -, -, hmax⟩ :=
    (position_of_next hparse hs hvalid).2 [value] (by rw [hscan, List.flatMap_singleton]) 1 _ _
      (Prod.ext hnext rfl)
  rw [List.flatMap_singleton] at hsplit
  -- there are two candidates, and a match stands in front, so the second one is given out
  obtain rfl : behind = [] := by
    have hlength := congrArg List.length hdecided
    rw [List.length_map, hsplit] at hlength
    simp only [List.length_append, List.length_cons, List.length_nil] at hlength
    have hle := hcount ▸ List.countP_le_length (p := fun f : Finding => f.stake.holds) (l := before)
    exact List.length_eq_zero_iff.1 (by omega)
  rw [← hsplit, hdecided] at hmax
  refine ⟨s, value, hs, ?_, ?_, hnext, (Option.some.inj hmax).symm⟩
  · cases hs
    exact (congrArg Scanned.tokens hscan).symm
  · cases hs
    exact hdecided

end Session

end JsonExtract
