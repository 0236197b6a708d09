import JsonExtract.Proofs.Delivery.Faithful
import JsonExtract.Session.Basic

/-!
# What is extracted does not depend on how the bytes arrive

Whatever a session does with a document in memory, it does with any cursor that is faithful to the
document: each token is the same, so is each match, and so is what ends the session.

* `Lexer.pullFrom_of_holds` — tokens;
* `Session.onto`, `Session.next_onto` — a session moved to another cursor does the same, step by step;
* `Delivery` — a way in which the bytes of a document may arrive.
-/

namespace JsonExtract

namespace Lexer

/-- What reading on to the end of a token does, by cases. The recursion is hidden behind this
equation, and each proof about a pull starts from it. -/
theorem pullFrom_eq {σ : Type} [Cursor σ] (options : Options) (lexer : Lexer)
    (unfinished : Unfinished) (source : σ) :
    pullFrom options lexer unfinished source =
      match lexer.takeRun unfinished source with
      | (.error failure, behind) => ⟨.error failure, lexer, behind⟩
      | (.ok (lexer₁, unfinished₁), behind) =>
        match lexer₁.complete? unfinished₁ with
        | some (token, lexer₂) => ⟨.ok (some token), lexer₂, behind⟩
        | none =>
          match Cursor.peek behind with
          | (.error reason, shown) => ⟨.error (.unreadable lexer₁.here.offset reason), lexer₁, shown⟩
          | (.ok none, shown) =>
            match lexer₁.finish options unfinished₁ with
            | .error failure => ⟨.error failure, lexer₁, shown⟩
            | .ok none => ⟨.ok none, lexer₁, shown⟩
            | .ok (some (token, lexer₂)) => ⟨.ok (some token), lexer₂, shown⟩
          | (.ok (some b), shown) =>
            match lexer₁.read options unfinished₁ b with
            | .more unfinished₂ lexer₂ =>
              pullFrom options lexer₂ unfinished₂ (Cursor.advance shown)
            | .token token lexer₂ => ⟨.ok (some token), lexer₂, Cursor.advance shown⟩
            | .tokenBefore token lexer₂ => ⟨.ok (some token), lexer₂, shown⟩
            | .error failure => ⟨.error failure, lexer₁, shown⟩
            | .errorBehind failure => ⟨.error failure, lexer₁, Cursor.advance shown⟩ := by
  fun_cases pullFrom options lexer unfinished source <;> simp only [*]

variable {σ : Type} [Cursor σ] {Holds : σ → Bytes → Prop}

/-- A run is taken as from a document in memory. -/
theorem takeRun_of_holds (hf : Faithful Holds) {lexer : Lexer} {unfinished : Unfinished}
    {source : σ} {buffer rest : Buffer} {answer : Except Failure (Lexer × Unfinished)}
    (h : Holds source buffer.rest) (hr : lexer.takeRun unfinished buffer = (answer, rest)) :
    ∃ behind, lexer.takeRun unfinished source = (answer, behind) ∧ Holds behind rest.rest := by
  rw [takeRun] at hr ⊢
  cases hrun : unfinished.run? with
  | none =>
    rw [hrun] at hr
    cases hr
    exact ⟨source, rfl, h⟩
  | some p =>
    rw [hrun] at hr
    cases hr
    obtain ⟨behind, htake, hbehind⟩ := hf.takeWhile p h
    refine ⟨behind, ?_, hbehind⟩
    simp only [htake]
    rfl

/-- Behind a run the next byte, or the end, is shown as by a document in memory. -/
theorem peek_of_holds (hf : Faithful Holds) {lexer lexer' : Lexer}
    {unfinished unfinished' : Unfinished} {source : σ} {buffer rest shown : Buffer}
    {answer : Except String (Option UInt8)} (h : Holds source buffer.rest)
    (hr : lexer.takeRun unfinished buffer = (.ok (lexer', unfinished'), rest))
    (hp : Cursor.peek rest = (answer, shown)) :
    ∃ behind t, lexer.takeRun unfinished source = (.ok (lexer', unfinished'), behind) ∧
      Cursor.peek behind = (answer, t) ∧ Holds t shown.rest ∧
        ∀ b, answer = .ok (some b) → Holds (Cursor.advance t) (Cursor.advance shown).rest := by
  obtain ⟨behind, htake, hbehind⟩ := takeRun_of_holds hf h hr
  obtain ⟨hanswer, rfl⟩ := Prod.mk.inj hp
  obtain ⟨t, hpeek, ht, hadvance⟩ := hf.peek hbehind
  refine ⟨behind, t, htake, hpeek.trans (by rw [← hanswer]), ht, ?_⟩
  intro b hb
  rw [hb] at hanswer
  obtain ⟨more, hmore⟩ := List.head?_eq_some_iff.1 (Except.ok.inj hanswer)
  refine hadvance b _ ?_
  change rest.rest = b :: rest.rest.tail
  rw [hmore, List.tail_cons]

/-- A token is read as from a document in memory. -/
theorem pullFrom_of_holds (hf : Faithful Holds) (options : Options) (lexer : Lexer)
    (unfinished : Unfinished) {source : σ} {buffer : Buffer} (h : Holds source buffer.rest) :
    ∃ behind, pullFrom options lexer unfinished source =
        ⟨(pullFrom options lexer unfinished buffer).answer,
          (pullFrom options lexer unfinished buffer).lexer, behind⟩ ∧
      Holds behind (pullFrom options lexer unfinished buffer).source.rest := by
  rw [pullFrom_eq options lexer unfinished source]
  fun_induction pullFrom options lexer unfinished buffer generalizing source with
  | case1 lexer unfinished buffer failure rest hr =>
    obtain ⟨behind, htake, hbehind⟩ := takeRun_of_holds hf h hr
    simp only [htake]
    exact ⟨behind, rfl, hbehind⟩
  | case2 lexer unfinished buffer lexer₁ unfinished₁ rest hr token lexer₂ hc =>
    obtain ⟨behind, htake, hbehind⟩ := takeRun_of_holds hf h hr
    simp only [htake, hc]
    exact ⟨behind, rfl, hbehind⟩
  | case3 _ _ _ _ _ _ _ _ _ _ hp => cases hp
  -- the byte that was shown, or the end, is left where it is
  | case4 lexer unfinished buffer lexer₁ unfinished₁ rest hr hc shown hp failure hend
  | case5 lexer unfinished buffer lexer₁ unfinished₁ rest hr hc shown hp hend
  | case6 lexer unfinished buffer lexer₁ unfinished₁ rest hr hc shown hp token lexer₂ hend
  | case9 lexer unfinished buffer lexer₁ unfinished₁ rest hr hc b shown hp token lexer₂ hend
  | case10 lexer unfinished buffer lexer₁ unfinished₁ rest hr hc b shown hp failure hend =>
    obtain ⟨behind, t, htake, hpeek, ht, -⟩ := peek_of_holds hf h hr hp
    simp only [htake, hc, hpeek, hend]
    exact ⟨t, rfl, ht⟩
  -- the byte that was shown is stepped over
  | case7 lexer unfinished buffer lexer₁ unfinished₁ rest hr hc b shown hp unfinished₂ lexer₂ hread
      ih =>
    obtain ⟨behind, t, htake, hpeek, -, hadvance⟩ := peek_of_holds hf h hr hp
    simp only [htake, hc, hpeek, hread]
    rw [pullFrom_eq options lexer₂ unfinished₂ (Cursor.advance t)]
    exact ih (hadvance b rfl)
  | case8 lexer unfinished buffer lexer₁ unfinished₁ rest hr hc b shown hp token lexer₂ hread
  | case11 lexer unfinished buffer lexer₁ unfinished₁ rest hr hc b shown hp failure hread =>
    obtain ⟨behind, t, htake, hpeek, -, hadvance⟩ := peek_of_holds hf h hr hp
    simp only [htake, hc, hpeek, hread]
    exact ⟨_, rfl, hadvance b rfl⟩

end Lexer

/-! ## Sessions

Two sessions that differ in their cursors only are compared step by step. If the cursors have
the same bytes in front of them, each step gives the same token or the same end, and leaves
cursors that have the same bytes in front of them again. -/

namespace Session

/-- The session behind `k` answers. Nothing is said of whether these answers were matches, so it
is defined behind the end of a session, too. -/
def after {σ : Type} [Cursor σ] : Nat → Session σ → Session σ
  | 0, s => s
  | k + 1, s => after k s.next.2

/-- The answer behind `k` others, and what has ended the session by then. -/
def answer {σ : Type} [Cursor σ] (k : Nat) (s : Session σ) : Option Match × Option Failure :=
  ((s.after k).next.1, (s.after k).next.2.failure?)

variable {σ : Type} [Cursor σ] {Holds : σ → Bytes → Prop}

/-- A session on a document in memory, moved to another cursor. Everything but the source is taken
over. -/
def onto (source : σ) (t : Session Buffer) : Session σ :=
  { t with source }

/-- Taking in one token is the same on a faithful cursor. -/
theorem proceed_onto (hf : Faithful Holds) {source : σ} {t : Session Buffer}
    (h : Holds source t.source.rest) :
    ∃ behind, (t.onto source).proceed = t.proceed.onto behind ∧
      Holds behind t.proceed.source.rest := by
  obtain ⟨behind, hpull, hbehind⟩ := Lexer.pullFrom_of_holds hf t.options t.lexer .gap h
  have hpulled : (t.onto source).lexer.pull (t.onto source).options (t.onto source).source =
      ⟨(t.lexer.pull t.options t.source).answer, (t.lexer.pull t.options t.source).lexer,
        behind⟩ :=
    hpull
  refine ⟨behind, ?_, ?_⟩
  · simp only [proceed, hpulled]
    rcases (t.lexer.pull t.options t.source).answer with _ | _ | _ <;> rfl
  · have hsource : t.proceed.source = (t.lexer.pull t.options t.source).source := by
      simp only [proceed]
      rcases (t.lexer.pull t.options t.source).answer with _ | _ | _ <;> rfl
    rw [hsource]
    exact hbehind

/-- The next match is the same on a faithful cursor. -/
theorem next_onto (hf : Faithful Holds) {source : σ} {t : Session Buffer}
    (h : Holds source t.source.rest) :
    ∃ behind, (t.onto source).next = (t.next.1, t.next.2.onto behind) ∧
      Holds behind t.next.2.source.rest := by
  fun_induction next t generalizing source with
  | case1 t found front hr =>
    refine ⟨source, ?_, h⟩
    have hrelease : (t.onto source).walk.slots.release (t.onto source).isOver
        (t.onto source).front = (some found, front) :=
      hr
    rw [next, hrelease]
    rfl
  | case2 t front hr passed =>
    rename_i hover
    refine ⟨source, ?_, h⟩
    have hrelease : (t.onto source).walk.slots.release (t.onto source).isOver
        (t.onto source).front = (none, front) :=
      hr
    have hended : (t.onto source).isOver = true := hover
    rw [next, hrelease]
    simp only [hended]
    rfl
  | case3 t front hr passed hover =>
    rename_i ih
    obtain ⟨between, hproceed, hbetween⟩ := proceed_onto hf (t := passed) h
    obtain ⟨behind, hnext, hbehind⟩ := ih hbetween
    refine ⟨behind, ?_, hbehind⟩
    have hrelease : (t.onto source).walk.slots.release (t.onto source).isOver
        (t.onto source).front = (none, front) :=
      hr
    have hongoing : ¬ (t.onto source).isOver = true := hover
    rw [next, hrelease]
    simp only [hongoing]
    rw [← hnext, ← hproceed]
    rfl

/-- All answers are the same on a faithful cursor. The number of calls is arbitrary, and calls
behind the end are included. -/
theorem answer_onto (hf : Faithful Holds) (k : Nat) {source : σ} {t : Session Buffer}
    (h : Holds source t.source.rest) : (t.onto source).answer k = t.answer k := by
  induction k generalizing source t with
  | zero =>
    obtain ⟨behind, hnext, -⟩ := next_onto hf h
    rw [answer, answer, after, after, hnext]
    rfl
  | succ k ih =>
    obtain ⟨behind, hnext, hbehind⟩ := next_onto hf h
    have hagain := ih hbehind
    rw [answer, answer] at hagain ⊢
    rw [after, after, hnext]
    exact hagain

/-- A session starts on any cursor as on a document in memory. -/
theorem answer_start (hf : Faithful Holds) (paths : List Path) (options : Options) (k : Nat)
    {source : σ} {d : Bytes} (h : Holds source d) :
    (start paths options source).map (answer k) =
      (ofDocument paths options d).map (answer k) := by
  rw [ofDocument, start, start]
  cases options.check with
  | error failure => rfl
  | ok _ =>
    refine congrArg Except.ok ?_
    exact answer_onto hf k (t := ⟨paths, options, .initial, ⟨d⟩, {}, 0, 0, none⟩) h

end Session

/-! ## Deliveries

The three kinds of faithful cursors are gathered into one type, over the document that they
deliver. Statements about a document then speak of all deliveries at once. -/

/-- A way in which the bytes of a document may arrive without a failure. Each comes with the proof
that it delivers the document. -/
inductive Delivery (d : Bytes) : Type 1
  /-- all at once -/
  | memory
  /-- from a source that is asked for one byte at a time -/
  | stepwise {σ : Type} [Stepper σ] (source : σ) (h : Stepper.HandsOut source d)
  /-- from a reader, at most `size` bytes at a time -/
  | reader (script : Script) (size : Nat) (h : Script.Delivers script d)

namespace Delivery

variable {d : Bytes}

/-- The cursor that a delivery is read with. It is a type of its own for each kind of delivery,
since the sessions are sessions over different cursors. -/
def Source : Delivery d → Type
  | memory => Buffer
  | stepwise (σ := σ) _ _ => Stepwise σ
  | reader _ _ _ => Reader

instance : (delivery : Delivery d) → Cursor delivery.Source
  | memory => inferInstanceAs (Cursor Buffer)
  | stepwise (σ := σ) _ _ => inferInstanceAs (Cursor (Stepwise σ))
  | reader _ _ _ => inferInstanceAs (Cursor Reader)

/-- The cursor in front of the document. -/
def source : (delivery : Delivery d) → delivery.Source
  | memory => (⟨d⟩ : Buffer)
  | stepwise (σ := σ) source _ => (⟨source⟩ : Stepwise σ)
  | reader script size _ => Reader.ofScript script size

/-- Every answer of a session, and what has ended the session by then, depends on the bytes of the
document only. -/
theorem answer_eq (a b : Delivery d) (paths : List Path) (options : Options) (k : Nat) :
    (Session.start paths options a.source).map (Session.answer k) =
      (Session.start paths options b.source).map (Session.answer k) := by
  have hmemory : ∀ c : Delivery d, (Session.start paths options c.source).map (Session.answer k) =
      (Session.ofDocument paths options d).map (Session.answer k) := by
    intro c
    cases c with
    | memory => rfl
    | stepwise source h => exact Session.answer_start faithful_stepwise paths options k h
    | reader script size h =>
      exact Session.answer_start faithful_reader paths options k (Reader.holds_ofScript h size)
  rw [hmemory a, hmemory b]

end Delivery

end JsonExtract
