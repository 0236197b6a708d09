import JsonExtract.Proofs.Delivery.Independence

/-!
# Answers do not depend on bytes that were not reached

A session looks at most one byte beyond the bytes that it has stepped over. Two documents that are
the same up to that byte cannot be told apart by it: it gives the same answers, is ended by the same
failure and has stepped over as many bytes.

Two metered documents are `Alike` up to position `n` if they stand at the same place and go on with
the same bytes up to the one at `n`. Reading keeps them alike as long as it does not step beyond `n`.

* `Metered.Alike` — the relation, with a lemma for each operation of the cursor;
* `Lexer.pullFrom_alike` — a token;
* `Session.next_alike`, `Session.after_alike` — the next answer, and all of them;
* `Session.answers_of_take_eq` — sessions on documents that have the bytes in common that count.
-/

namespace JsonExtract

/-! ## Metered documents

To look at the byte at a position is not to step over it, so the two documents have to agree on
one byte more than the meter shows. Each operation keeps them alike, or leads beyond the
position, and then nothing has to be shown. -/

namespace Metered

/-- Two metered documents cannot be told apart without stepping beyond position `n`. So neither
goes on where the other has ended. -/
structure Alike (n : Nat) (s t : Metered) : Prop where
  /-- they stand at the same place -/
  position : t.position = s.position
  /-- they refuse to go on at the same place -/
  refusal : t.refusal = s.refusal
  /-- the bytes up to the one at `n` are the same -/
  bytes : ∀ i, s.position + i ≤ n → t.rest[i]? = s.rest[i]?

variable {n : Nat} {s t : Metered}

/-- The next byte is the same. -/
theorem Alike.peek (h : s.Alike n t) (hn : s.position ≤ n) : t.peek = s.peek := by
  have hhead := h.bytes 0 hn
  rw [← List.head?_eq_getElem?, ← List.head?_eq_getElem?] at hhead
  rw [Metered.peek, Metered.peek, h.position, h.refusal, hhead]

/-- Documents stay alike behind the next byte. -/
theorem Alike.advance (h : s.Alike n t) : s.advance.Alike n t.advance := by
  refine ⟨congrArg (· + 1) h.position, h.refusal, ?_⟩
  intro i hi
  simp only [Metered.advance, List.getElem?_tail] at hi ⊢
  exact h.bytes (i + 1) (by omega)

theorem position_le_takeFrom (p : UInt8 → Bool) (refusal : Option Refusal) (position : Nat)
    (xs : Bytes) : position ≤ (takeFrom p refusal position xs).source.position := by
  induction xs generalizing position with
  | nil => exact Nat.le_refl _
  | cons b rest ih =>
    rw [takeFrom]
    split
    · exact Nat.le_refl _
    · split
      · exact Nat.le_of_succ_le (ih _)
      · exact Nat.le_refl _

/-- A run is the same if it ends in time. -/
theorem takeFrom_alike {p : UInt8 → Bool} {refusal : Option Refusal} {position : Nat}
    {xs ys : Bytes} (h : ∀ i, position + i ≤ n → ys[i]? = xs[i]?)
    (hn : (takeFrom p refusal position xs).source.position ≤ n) :
    (takeFrom p refusal position ys).bytes = (takeFrom p refusal position xs).bytes ∧
      (takeFrom p refusal position ys).failure = (takeFrom p refusal position xs).failure ∧
      (takeFrom p refusal position xs).source.Alike n
        (takeFrom p refusal position ys).source := by
  have hposition := Nat.le_trans (position_le_takeFrom p refusal position xs) hn
  induction xs generalizing ys position with
  | nil =>
    cases ys with
    | nil => exact ⟨rfl, rfl, rfl, rfl, fun _ _ => rfl⟩
    | cons _ _ => cases h 0 hposition
  | cons b xs ih =>
    cases ys with
    | nil => cases h 0 hposition
    | cons c ys =>
      obtain rfl : c = b := by simpa using h 0 hposition
      rw [takeFrom] at hn
      rw [takeFrom, takeFrom]
      cases hr : refused? refusal position with
      | some reason => exact ⟨rfl, rfl, rfl, rfl, h⟩
      | none =>
        rw [hr] at hn
        cases hp : p c with
        | false => exact ⟨rfl, rfl, rfl, rfl, h⟩
        | true =>
          simp only [hp, if_true] at hn ⊢
          have hlater := Nat.le_trans (position_le_takeFrom p refusal (position + 1) xs) hn
          have htail : ∀ i, position + 1 + i ≤ n → ys[i]? = xs[i]? := by
            intro i hi
            simpa using h (i + 1) (by omega)
          obtain ⟨hbytes, hfailure, hsource⟩ := ih htail hn hlater
          exact ⟨congrArg (c :: ·) hbytes, hfailure, hsource⟩

end Metered

/-! ## Tokens

A pull only ever goes forward. If it ends in time, so did every run and every look on the way,
and each of these was the same for both documents. -/

namespace Lexer

open Metered (Alike)

variable {options : Options} {lexer : Lexer} {unfinished : Unfinished} {n : Nat} {s t : Metered}

theorem position_le_takeRun (lexer : Lexer) (unfinished : Unfinished) (s : Metered) :
    s.position ≤ (lexer.takeRun unfinished s).2.position := by
  rw [takeRun]
  split
  · exact Nat.le_refl _
  · simp only
    split <;> exact Metered.position_le_takeFrom _ _ _ _

/-- Reading never goes back. -/
theorem position_le_pullFrom (options : Options) (lexer : Lexer) (unfinished : Unfinished)
    (s : Metered) : s.position ≤ (pullFrom options lexer unfinished s).source.position := by
  fun_induction pullFrom options lexer unfinished s with
  | case1 lexer unfinished s failure behind hr
  | case2 lexer unfinished s lexer₁ unfinished₁ behind hr =>
    simpa [hr] using position_le_takeRun lexer unfinished s
  | case3 lexer unfinished s _ _ behind hr _ _ _ hp
  | case4 lexer unfinished s _ _ behind hr _ _ hp
  | case5 lexer unfinished s _ _ behind hr _ _ hp
  | case6 lexer unfinished s _ _ behind hr _ _ hp
  | case9 lexer unfinished s _ _ behind hr _ _ _ hp
  | case10 lexer unfinished s _ _ behind hr _ _ _ hp =>
    obtain ⟨-, rfl⟩ := Prod.mk.inj hp
    simpa [hr] using position_le_takeRun lexer unfinished s
  | case7 lexer unfinished s _ _ behind hr _ _ _ hp _ _ _ ih =>
    obtain ⟨-, rfl⟩ := Prod.mk.inj hp
    have hrun := position_le_takeRun lexer unfinished s
    rw [hr] at hrun
    exact Nat.le_trans (Nat.le_succ_of_le hrun) ih
  | case8 lexer unfinished s _ _ behind hr _ _ _ hp
  | case11 lexer unfinished s _ _ behind hr _ _ _ hp =>
    obtain ⟨-, rfl⟩ := Prod.mk.inj hp
    have hrun := position_le_takeRun lexer unfinished s
    rw [hr] at hrun
    exact Nat.le_succ_of_le hrun

/-- A run is the same if it ends in time. A run that ends in time has met a byte that does not
belong to it, in both documents. -/
theorem takeRun_alike {answer : Except Failure (Lexer × Unfinished)} {behind : Metered}
    (h : s.Alike n t) (hr : lexer.takeRun unfinished s = (answer, behind))
    (hn : behind.position ≤ n) :
    ∃ behind', lexer.takeRun unfinished t = (answer, behind') ∧ behind.Alike n behind' := by
  rw [takeRun] at hr ⊢
  cases hrun : unfinished.run? with
  | none =>
    rw [hrun] at hr
    cases hr
    exact ⟨t, rfl, h⟩
  | some p =>
    rw [hrun] at hr
    have hsource : behind = (s.takeWhile p).source := by
      simp only [Cursor.takeWhile] at hr
      split at hr <;> cases hr <;> rfl
    subst hsource
    obtain ⟨hbytes, hfailure, hsource⟩ := Metered.takeFrom_alike h.bytes hn
    have htake : t.takeWhile p = Metered.takeFrom p s.refusal s.position t.rest := by
      rw [Metered.takeWhile, h.position, h.refusal]
    refine ⟨(t.takeWhile p).source, ?_, htake ▸ hsource⟩
    simp only [Cursor.takeWhile, Metered.takeWhile] at hr
    simp only [Cursor.takeWhile, htake, hbytes, hfailure]
    split at hr <;> cases hr <;> rfl

/-- Behind a run the next byte, or the end, is the same if the run ends in time. -/
theorem peek_alike {lexer' : Lexer} {unfinished' : Unfinished} {behind shown : Metered}
    {answer : Except String (Option UInt8)} (h : s.Alike n t)
    (hr : lexer.takeRun unfinished s = (.ok (lexer', unfinished'), behind))
    (hp : Cursor.peek behind = (answer, shown)) (hn : shown.position ≤ n) :
    ∃ behind', lexer.takeRun unfinished t = (.ok (lexer', unfinished'), behind') ∧
      Cursor.peek behind' = (answer, behind') ∧ shown.Alike n behind' := by
  obtain ⟨hanswer, rfl⟩ := Prod.mk.inj hp
  obtain ⟨behind', hrun, hbehind⟩ := takeRun_alike h hr hn
  exact ⟨behind', hrun, Prod.ext ((hbehind.peek hn).trans hanswer) rfl, hbehind⟩

/-- A token is the same if it ends in time. -/
theorem pullFrom_alike (h : s.Alike n t)
    (hn : (pullFrom options lexer unfinished s).source.position ≤ n) :
    ∃ behind, pullFrom options lexer unfinished t =
        ⟨(pullFrom options lexer unfinished s).answer,
          (pullFrom options lexer unfinished s).lexer, behind⟩ ∧
      (pullFrom options lexer unfinished s).source.Alike n behind := by
  rw [pullFrom_eq options lexer unfinished t]
  fun_induction pullFrom options lexer unfinished s generalizing t with
  | case1 lexer unfinished s failure behind hr =>
    obtain ⟨behind', hrun, hbehind⟩ := takeRun_alike h hr hn
    simp only [hrun]
    exact ⟨behind', rfl, hbehind⟩
  | case2 lexer unfinished s lexer₁ unfinished₁ behind hr token lexer₂ hc =>
    obtain ⟨behind', hrun, hbehind⟩ := takeRun_alike h hr hn
    simp only [hrun, hc]
    exact ⟨behind', rfl, hbehind⟩
  | case3 lexer unfinished s lexer₁ unfinished₁ behind hr hc reason shown hp =>
    obtain ⟨behind', hrun, hpeek, hshown⟩ := peek_alike h hr hp hn
    simp only [hrun, hc, hpeek]
    exact ⟨behind', rfl, hshown⟩
  -- the byte that was shown, or the end, is left where it is
  | case4 lexer unfinished s lexer₁ unfinished₁ behind hr hc shown hp failure hend
  | case5 lexer unfinished s lexer₁ unfinished₁ behind hr hc shown hp hend
  | case6 lexer unfinished s lexer₁ unfinished₁ behind hr hc shown hp token lexer₂ hend
  | case9 lexer unfinished s lexer₁ unfinished₁ behind hr hc b shown hp token lexer₂ hend
  | case10 lexer unfinished s lexer₁ unfinished₁ behind hr hc b shown hp failure hend =>
    obtain ⟨behind', hrun, hpeek, hshown⟩ := peek_alike h hr hp hn
    simp only [hrun, hc, hpeek, hend]
    exact ⟨behind', rfl, hshown⟩
  -- the byte that was shown is stepped over
  | case7 lexer unfinished s lexer₁ unfinished₁ behind hr hc b shown hp unfinished₂ lexer₂ hread
      ih =>
    have hlater := position_le_pullFrom options lexer₂ unfinished₂ (Cursor.advance shown)
    have hshown : shown.position ≤ n :=
      Nat.le_trans (Nat.le_of_succ_le hlater) hn
    obtain ⟨behind', hrun, hpeek, halike⟩ := peek_alike h hr hp hshown
    simp only [hrun, hc, hpeek, hread]
    rw [pullFrom_eq options lexer₂ unfinished₂ (Cursor.advance behind')]
    exact ih halike.advance hn
  | case8 lexer unfinished s lexer₁ unfinished₁ behind hr hc b shown hp token lexer₂ hread
  | case11 lexer unfinished s lexer₁ unfinished₁ behind hr hc b shown hp failure hread =>
    obtain ⟨behind', hrun, hpeek, halike⟩ := peek_alike h hr hp (Nat.le_of_succ_le hn)
    simp only [hrun, hc, hpeek, hread]
    exact ⟨_, rfl, halike.advance⟩

end Lexer

/-! ## Sessions

A session is moved to the other document with everything else unchanged. It then goes through
the same states, answer by answer, as long as the meter does not go beyond the position. -/

namespace Session

variable {n : Nat} {s : Session Metered} {source : Metered}

/-- The same session on another metered document. -/
def moved (source : Metered) (s : Session Metered) : Session Metered :=
  { s with source }

theorem position_le_proceed (s : Session Metered) :
    s.source.position ≤ s.proceed.source.position := by
  have hpull := Lexer.position_le_pullFrom s.options s.lexer .gap s.source
  have hsource : s.proceed.source = (s.lexer.pull s.options s.source).source := by
    simp only [proceed]
    rcases (s.lexer.pull s.options s.source).answer with _ | _ | _ <;> rfl
  rw [hsource]
  exact hpull

theorem position_le_next (s : Session Metered) :
    s.source.position ≤ s.next.2.source.position := by
  fun_induction next s with
  | case1 => exact Nat.le_refl _
  | case2 => exact Nat.le_refl _
  | case3 s front hr passed hover ih => exact Nat.le_trans (position_le_proceed passed) ih

theorem position_le_after (k : Nat) (s : Session Metered) :
    s.source.position ≤ (s.after k).source.position := by
  induction k generalizing s with
  | zero => exact Nat.le_refl _
  | succ k ih => exact Nat.le_trans (position_le_next s) (ih s.next.2)

/-- Taking in one token is the same if the token ends in time. -/
theorem proceed_alike (h : s.source.Alike n source) (hn : s.proceed.source.position ≤ n) :
    ∃ behind, (s.moved source).proceed = s.proceed.moved behind ∧
      s.proceed.source.Alike n behind := by
  have hsource : s.proceed.source = (s.lexer.pull s.options s.source).source := by
    simp only [proceed]
    rcases (s.lexer.pull s.options s.source).answer with _ | _ | _ <;> rfl
  rw [hsource] at hn ⊢
  obtain ⟨behind, hpull, hbehind⟩ := Lexer.pullFrom_alike h hn
  have hpulled : (s.moved source).lexer.pull (s.moved source).options (s.moved source).source =
      ⟨(s.lexer.pull s.options s.source).answer, (s.lexer.pull s.options s.source).lexer,
        behind⟩ :=
    hpull
  refine ⟨behind, ?_, hbehind⟩
  simp only [proceed, hpulled]
  rcases (s.lexer.pull s.options s.source).answer with _ | _ | _ <;> rfl

/-- The next answer is the same if it comes in time. -/
theorem next_alike (h : s.source.Alike n source) (hn : s.next.2.source.position ≤ n) :
    ∃ behind, (s.moved source).next = (s.next.1, s.next.2.moved behind) ∧
      s.next.2.source.Alike n behind := by
  fun_induction next s generalizing source with
  | case1 s found front hr =>
    have hrelease : (s.moved source).walk.slots.release (s.moved source).isOver
        (s.moved source).front = (some found, front) :=
      hr
    refine ⟨source, ?_, h⟩
    rw [next, hrelease]
    rfl
  | case2 s front hr passed =>
    rename_i hover
    have hrelease : (s.moved source).walk.slots.release (s.moved source).isOver
        (s.moved source).front = (none, front) :=
      hr
    have hended : (s.moved source).isOver = true := hover
    refine ⟨source, ?_, h⟩
    rw [next, hrelease]
    simp only [hended]
    rfl
  | case3 s front hr passed hover =>
    rename_i ih
    have hproceeded := Nat.le_trans (position_le_next passed.proceed) hn
    obtain ⟨between, hproceed, hbetween⟩ := proceed_alike (s := passed) h hproceeded
    obtain ⟨behind, hnext, hbehind⟩ := ih hbetween hn
    have hrelease : (s.moved source).walk.slots.release (s.moved source).isOver
        (s.moved source).front = (none, front) :=
      hr
    have hongoing : ¬ (s.moved source).isOver = true := hover
    refine ⟨behind, ?_, hbehind⟩
    rw [next, hrelease]
    simp only [hongoing]
    rw [← hnext, ← hproceed]
    rfl

/-- All answers up to the `k`-th are the same if they come in time. -/
theorem after_alike (k : Nat) (h : s.source.Alike n source)
    (hn : (s.after k).source.position ≤ n) :
    (∀ j < k, (s.moved source).answer j = s.answer j) ∧
      ∃ behind, (s.moved source).after k = (s.after k).moved behind ∧
        (s.after k).source.Alike n behind := by
  induction k generalizing s source with
  | zero => exact ⟨fun j hj => absurd hj (Nat.not_lt_zero j), source, rfl, h⟩
  | succ k ih =>
    have hfirst := Nat.le_trans (position_le_after k s.next.2) hn
    obtain ⟨between, hnext, hbetween⟩ := next_alike h hfirst
    obtain ⟨hanswers, behind, hafter, hbehind⟩ := ih hbetween hn
    have hmoved : (s.moved source).next.2 = s.next.2.moved between := congrArg Prod.snd hnext
    refine ⟨?_, behind, ?_, hbehind⟩
    · intro j hj
      cases j with
      | zero =>
        rw [answer, answer, after, after, hnext]
        rfl
      | succ j =>
        have hlater := hanswers j (Nat.lt_of_succ_lt_succ hj)
        rw [answer, answer] at hlater ⊢
        rw [after, after, hmoved]
        exact hlater
    · rw [after, after, hmoved]
      exact hafter

/-- If `k` answers of a session took `p` bytes, then a document that is the same up to its first
`p + 1` bytes, as far as there are that many, gets the same answers from as many bytes. Nothing is
said of what the documents have behind these bytes, or of whether they are documents at all. -/
theorem answers_of_take_eq {paths : List Path} {options : Options} {d d' : Bytes}
    {refusal : Option Refusal} {k : Nat} {s : Session Metered}
    (hs : start paths options ⟨d, 0, refusal⟩ = .ok s)
    (h : d'.take ((s.after k).source.position + 1) = d.take ((s.after k).source.position + 1)) :
    ∃ s' : Session Metered, start paths options ⟨d', 0, refusal⟩ = .ok s' ∧
      (∀ j < k, s'.answer j = s.answer j) ∧
      (s'.after k).failure? = (s.after k).failure? ∧
      (s'.after k).source.position = (s.after k).source.position := by
  have hbytes : ∀ i ≤ (s.after k).source.position, d'[i]? = d[i]? := by
    intro i hi
    have hat := congrArg (·[i]?) h
    simpa [List.getElem?_take, Nat.lt_succ_of_le hi] using hat
  rw [start] at hs
  cases hc : options.check with
  | error failure =>
    rw [hc] at hs
    cases hs
  | ok _ =>
    rw [hc] at hs
    cases hs
    have halike : (⟨d, 0, refusal⟩ : Metered).Alike _ ⟨d', 0, refusal⟩ :=
      ⟨rfl, rfl, fun i hi => hbytes i (Nat.zero_add i ▸ hi)⟩
    obtain ⟨hanswers, behind, hafter, hbehind⟩ := after_alike k halike (Nat.le_refl _)
    refine ⟨_, ?_, hanswers, ?_, ?_⟩
    · rw [start, hc]
      rfl
    · rw [hafter]
      rfl
    · rw [hafter]
      exact hbehind.position

/-- A number in an object is given out once the byte behind it was seen. Whether a member or a fault
follows behind that byte is not known yet. -/
theorem answers_in_front_of_fault :
    ∃ s s' : Session Metered,
      start [.ofLinks "$.a+" [⟨.selector .root, false⟩, ⟨.selector (.key (Bytes.ofString "a")), true⟩]] {}
        ⟨Bytes.ofString r#"{"a":1,"b":2}"#, 0, none⟩ = .ok s ∧
      start [.ofLinks "$.a+" [⟨.selector .root, false⟩, ⟨.selector (.key (Bytes.ofString "a")), true⟩]] {}
        ⟨Bytes.ofString r#"{"a":1,]"#, 0, none⟩ = .ok s' ∧
      s.answer 0 = (some ⟨"$.a+", Bytes.ofString "1", .number, [.key (Bytes.ofString "a")]⟩, none) ∧
      s'.answer 0 = s.answer 0 ∧
      (s'.after 1).source.position = 6 := by
  obtain ⟨s, hs⟩ : ∃ s : Session Metered,
      start [.ofLinks "$.a+" [⟨.selector .root, false⟩, ⟨.selector (.key (Bytes.ofString "a")), true⟩]] {}
        ⟨Bytes.ofString r#"{"a":1,"b":2}"#, 0, none⟩ = .ok s :=
    ⟨_, rfl⟩
  have hposition : (s.after 1).source.position = 6 := by
    cases hs
    decide +kernel
  have hanswer :
      s.answer 0 = (some ⟨"$.a+", Bytes.ofString "1", .number, [.key (Bytes.ofString "a")]⟩, none) := by
    cases hs
    decide +kernel
  have hprefix : (Bytes.ofString r#"{"a":1,]"# : Bytes).take
        ((s.after 1).source.position + 1) = (Bytes.ofString r#"{"a":1,"b":2}"#).take
        ((s.after 1).source.position + 1) := by
    rw [hposition]
    rfl
  obtain ⟨s', hs', hanswers, -, hsame⟩ := answers_of_take_eq hs hprefix
  exact ⟨s, s', hs, hs', hanswer, hanswers 0 Nat.zero_lt_one, hsame.trans hposition⟩

end Session

end JsonExtract
