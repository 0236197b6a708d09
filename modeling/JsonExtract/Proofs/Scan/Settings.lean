import JsonExtract.Proofs.Delivery.Independence
import JsonExtract.Proofs.Scan.Pulling

/-!
# Reading under looser settings

Settings are looser than others if they leave at least as much room for containers and take every liberty
that the others take. What is read under some settings is read in the same way under looser ones. Only a
failure may go away: a bracket too many, or a byte that a liberty would have allowed.

* `Options.Relaxes` — looser settings;
* `Verdict.Loosened`, `Lexer.read_loosened` — a byte;
* `Pulled.Loosened`, `Lexer.pull_loosened` — a token, from any cursor;
* `Lexer.pull_of_relaxes`, `Lexer.scan_of_relaxes` — a token that is read, and a document that is read to
  its end.
-/

namespace JsonExtract

/-- Whether `o'` leaves at least as much room as `o`, and takes the same liberties or more. How
much is read at a time does not matter. The relation is reflexive, so settings count as looser
than themselves. -/
structure Options.Relaxes (o o' : Options) : Prop where
  /-- no fewer containers may be open -/
  maxDepth : o.maxDepth ≤ o'.maxDepth
  /-- several values are allowed where they were -/
  multipleValues : o.multipleValues = true → o'.multipleValues = true
  /-- all space characters are allowed where they were -/
  unicodeSpace : o.unicodeSpace = true → o'.unicodeSpace = true

/-- Whether `o'` takes a liberty that `o` does not. -/
def Options.Frees (o o' : Options) : Prop :=
  o.multipleValues ≠ o'.multipleValues ∨ o.unicodeSpace ≠ o'.unicodeSpace

/-! ## Single bytes

A verdict that is no failure is the same under looser settings. A failure may stay. Or there is
room now for a bracket that was one too many; or, if a liberty is taken that was not, the byte may
be read in any other way. -/

/-- What becomes of a verdict under looser settings. There is no case in which a token gives way
to anything else. -/
inductive Verdict.Loosened (o o' : Options) (lexer : Lexer) : Unfinished → Verdict → Verdict → Prop
  | same {unfinished : Unfinished} (v : Verdict) : Loosened o o' lexer unfinished v v
  /-- there is room for a container that was one too many -/
  | deeper (c : Container) (hd : o.maxDepth ≤ lexer.nesting.depth)
    (hd' : lexer.nesting.depth < o'.maxDepth) :
    Loosened o o' lexer .gap (.error (.tooDeep (lexer.nesting.depth + 1) lexer.here.offset))
      (.token ⟨.opening c, lexer.here.offset, (lexer.past c.opening).here.offset⟩ (lexer.inside c))
  /-- a byte is allowed that was not -/
  | freer {unfinished : Unfinished} {e : Failure} {v : Verdict} (h : o.Frees o') :
    Loosened o o' lexer unfinished (.error e) v

namespace Lexer

variable {o o' : Options} (h : o.Relaxes o') (lexer : Lexer) (b : UInt8)

include h

theorem openContainer_loosened (c : Container) :
    Verdict.Loosened o o' lexer .gap (lexer.openContainer o c) (lexer.openContainer o' c) := by
  have hopen : ∀ {o : Options}, lexer.nesting.depth < o.maxDepth → lexer.openContainer o c =
      .token ⟨.opening c, lexer.here.offset, (lexer.past c.opening).here.offset⟩ (lexer.inside c) :=
    fun hd => if_neg (Nat.not_le.2 hd)
  have hfull : ∀ {o : Options}, o.maxDepth ≤ lexer.nesting.depth → lexer.openContainer o c =
      .error (.tooDeep (lexer.nesting.depth + 1) lexer.here.offset) :=
    fun hd => if_pos hd
  rcases Nat.lt_or_ge lexer.nesting.depth o.maxDepth with hd | hd
  · rw [hopen hd, hopen (Nat.lt_of_lt_of_le hd h.maxDepth)]
    exact .same _
  · rw [hfull hd]
    rcases Nat.lt_or_ge lexer.nesting.depth o'.maxDepth with hd' | hd'
    · rw [hopen hd']
      exact .deeper c hd hd'
    · rw [hfull hd']
      exact .same _

theorem readValue_loosened :
    Verdict.Loosened o o' lexer .gap (lexer.readValue o b) (lexer.readValue o' b) := by
  rw [readValue, readValue]
  split
  · exact openContainer_loosened h lexer _
  · split
    · exact openContainer_loosened h lexer _
    · exact .same _

theorem readStart_loosened :
    Verdict.Loosened o o' lexer .gap (lexer.readStart o b) (lexer.readStart o' b) := by
  have hvalue := readValue_loosened h lexer b
  rw [readStart, readStart]
  cases lexer.phase
  case start | beforeMember | beforeElement => exact hvalue
  case arrayOpen =>
    dsimp only
    split
    · exact .same _
    · exact hvalue
  case done =>
    dsimp only
    cases hm : o.multipleValues with
    | true =>
      rw [h.multipleValues hm]
      exact hvalue
    | false =>
      rw [if_neg Bool.false_ne_true]
      cases hm' : o'.multipleValues with
      | true => exact .freer (.inl (by rw [hm, hm']; exact Bool.false_ne_true))
      | false => exact .same _
  all_goals exact .same _

omit h in
/-- No token starts with the lead of a space character. -/
theorem readStart_of_missing? {n : Nat} (hb : Space.missing? b = some n) :
    ∃ e, lexer.readStart o b = .error e := by
  have hlead : b ∈ [0xc2, 0xe1, 0xe2, 0xe3, 0xef] := by
    rw [Space.missing?] at hb
    split at hb
    · next hlead => exact hlead ▸ List.mem_cons_self
    · split at hb
      · next hlead => exact List.mem_cons_of_mem _ hlead
      · cases hb
  have hvalue : lexer.readValue o b = .error (lexer.fault (.character b)) := by
    have hnone : ∀ b ∈ [0xc2, 0xe1, 0xe2, 0xe3, 0xef], b ≠ Ascii.openBrace ∧ b ≠ Ascii.openBracket ∧
        b ≠ Ascii.quote ∧ NumberPart.first? b = none ∧ word? b = none := by
      decide +kernel
    obtain ⟨hbrace, hbracket, hquote, hnumber, hword⟩ := hnone b hlead
    rw [readValue, if_neg hbrace, if_neg hbracket, if_neg hquote, hnumber, hword]
  have hother : ∀ b ∈ [0xc2, 0xe1, 0xe2, 0xe3, 0xef], b ≠ Ascii.closeBracket ∧ b ≠ Ascii.closeBrace ∧
      b ≠ Ascii.quote ∧ b ≠ Ascii.colon ∧ b ≠ Ascii.comma := by
    decide +kernel
  obtain ⟨hbracket, hbrace, hquote, hcolon, hcomma⟩ := hother b hlead
  rw [readStart]
  cases lexer.phase
  all_goals simp only [hvalue, readName, hbracket, hbrace, hquote, hcolon, hcomma, if_false]
  case done => split <;> exact ⟨_, rfl⟩
  all_goals exact ⟨_, rfl⟩

theorem readGap_loosened :
    Verdict.Loosened o o' lexer .gap (lexer.readGap o b) (lexer.readGap o' b) := by
  have hstart := readStart_loosened h lexer b
  rw [readGap, readGap]
  split
  · exact .same _
  · cases hu : o.unicodeSpace with
    | true =>
      rw [h.unicodeSpace hu]
      cases Space.missing? b with
      | none => exact hstart
      | some n =>
        cases n with
        | zero => exact hstart
        | succ more => exact .same _
    | false =>
      cases hu' : o'.unicodeSpace with
      | false => exact hstart
      | true =>
        cases hm : Space.missing? b with
        | none => exact hstart
        | some n =>
          obtain ⟨e, he⟩ := lexer.readStart_of_missing? (o := o) b hm
          have hfrees : o.Frees o' := .inr (by rw [hu, hu']; exact Bool.false_ne_true)
          rw [he]
          exact .freer hfrees

/-- A byte is read as before, unless it was at fault. -/
theorem read_loosened (unfinished : Unfinished) :
    Verdict.Loosened o o' lexer unfinished (lexer.read o unfinished b) (lexer.read o' unfinished b) := by
  cases unfinished with
  | gap => exact readGap_loosened h lexer b
  | space | string | number | word => exact .same _

/-- The end of the input is read as before, unless it came too early. -/
theorem finish_loosened (unfinished : Unfinished) :
    lexer.finish o' unfinished = lexer.finish o unfinished ∨
      o.Frees o' ∧ ∃ e, lexer.finish o unfinished = .error e := by
  cases unfinished with
  | gap =>
    rw [finish, finish]
    cases hm : o.multipleValues with
    | true => rw [h.multipleValues hm]; exact .inl rfl
    | false =>
      cases hm' : o'.multipleValues with
      | false => exact .inl rfl
      | true =>
        rw [Bool.and_false, Bool.or_false]
        by_cases hdone : lexer.phase = .done
        · rw [hdone]
          exact .inl rfl
        · refine .inr ⟨.inl (by rw [hm, hm']; exact Bool.false_ne_true), lexer.fault .endOfInput, ?_⟩
          rw [decide_eq_false hdone, if_neg Bool.false_ne_true]
  | space | string | number | word => exact .inl rfl

end Lexer

/-! ## Tokens

The cases for a byte are lifted to pulls, along the recursion of a pull. A pull that gives a
token, or the end of the input, is the same under looser settings, from any cursor, and leaves
the cursor in the same state. -/

/-- What becomes of a pull under looser settings, when `depth` containers were open. -/
inductive Pulled.Loosened {σ : Type} (o o' : Options) (depth : Nat) : Pulled σ → Pulled σ → Prop
  | same (p : Pulled σ) : Loosened o o' depth p p
  /-- there is room for a container that was one too many -/
  | deeper {c : Container} {start stop : Nat} {lexer lexer' : Lexer} {source source' : σ}
    (hd : o.maxDepth ≤ depth) (hd' : depth < o'.maxDepth) :
    Loosened o o' depth ⟨.error (.tooDeep (depth + 1) start), lexer, source⟩
      ⟨.ok (some ⟨.opening c, start, stop⟩), lexer', source'⟩
  /-- a document goes on that did not -/
  | freer {e : Failure} {lexer : Lexer} {source : σ} {p : Pulled σ} (h : o.Frees o') :
    Loosened o o' depth ⟨.error e, lexer, source⟩ p

namespace Lexer

variable {σ : Type} [Cursor σ] {o o' : Options}

/-- A run stays in its container. -/
theorem nesting_takeRun {lexer lexer' : Lexer} {unfinished unfinished' : Unfinished}
    {source behind : σ} (h : lexer.takeRun unfinished source = (.ok (lexer', unfinished'), behind)) :
    lexer'.nesting = lexer.nesting := by
  rw [takeRun] at h
  split at h
  · cases h
    rfl
  · dsimp only at h
    split at h
    · cases h
      rfl
    · cases h

/-- A byte that completes no token stays in its container. -/
theorem nesting_of_more {lexer lexer' : Lexer} {unfinished unfinished' : Unfinished} {b : UInt8}
    (h : lexer.read o unfinished b = .more unfinished' lexer') : lexer'.nesting = lexer.nesting := by
  have hc := containers_of_reads (m := ⟨lexer', unfinished'⟩) (reads_read o lexer b unfinished)
    (by rw [h]; rfl)
  rw [h] at hc
  exact Nesting.ext hc

theorem pullFrom_loosened (h : o.Relaxes o') (lexer : Lexer) (unfinished : Unfinished) (source : σ) :
    Pulled.Loosened o o' lexer.nesting.depth (pullFrom o lexer unfinished source)
      (pullFrom o' lexer unfinished source) := by
  rw [pullFrom_eq o' lexer unfinished source]
  fun_induction pullFrom o lexer unfinished source with
  | case1 lexer unfinished source failure behind hr =>
    simp only [hr]
    exact .same _
  | case2 lexer unfinished source lexer₁ unfinished₁ behind hr token lexer₂ hc =>
    simp only [hr, hc]
    exact .same _
  | case3 lexer unfinished source lexer₁ unfinished₁ behind hr hc reason shown hp =>
    simp only [hr, hc, hp]
    exact .same _
  -- the end of the input
  | case4 lexer unfinished source lexer₁ unfinished₁ behind hr hc shown hp failure hend =>
    simp only [hr, hc, hp]
    obtain hsame | ⟨hfrees, -⟩ := finish_loosened h lexer₁ unfinished₁
    · rw [hsame, hend]
      exact .same _
    · exact .freer hfrees
  | case5 lexer unfinished source lexer₁ unfinished₁ behind hr hc shown hp hend
  | case6 lexer unfinished source lexer₁ unfinished₁ behind hr hc shown hp token lexer₂ hend =>
    simp only [hr, hc, hp]
    obtain hsame | ⟨-, e, he⟩ := finish_loosened h lexer₁ unfinished₁
    · rw [hsame, hend]
      exact .same _
    · cases hend.symm.trans he
  -- a byte
  | case7 lexer unfinished source lexer₁ unfinished₁ behind hr hc b shown hp unfinished₂ lexer₂ hread
      ih =>
    have hl := read_loosened h lexer₁ b unfinished₁
    have hnesting := (nesting_of_more hread).trans (nesting_takeRun hr)
    rw [hread] at hl
    simp only [hr, hc, hp]
    generalize lexer₁.read o' unfinished₁ b = v at hl
    cases hl
    dsimp only
    rw [pullFrom_eq o' lexer₂ unfinished₂, ← hnesting]
    exact ih
  | case8 lexer unfinished source lexer₁ unfinished₁ behind hr hc b shown hp token lexer₂ hread
  | case9 lexer unfinished source lexer₁ unfinished₁ behind hr hc b shown hp token lexer₂ hread
  | case11 lexer unfinished source lexer₁ unfinished₁ behind hr hc b shown hp failure hread =>
    have hl := read_loosened h lexer₁ b unfinished₁
    rw [hread] at hl
    simp only [hr, hc, hp]
    generalize lexer₁.read o' unfinished₁ b = v at hl
    cases hl
    exact .same _
  | case10 lexer unfinished source lexer₁ unfinished₁ behind hr hc b shown hp failure hread =>
    have hl := read_loosened h lexer₁ b unfinished₁
    have hnesting := nesting_takeRun hr
    rw [hread] at hl
    simp only [hr, hc, hp]
    generalize lexer₁.read o' unfinished₁ b = v at hl
    cases hl with
    | same => exact .same _
    | deeper c hd hd' =>
      rw [hnesting] at hd hd' ⊢
      exact .deeper hd hd'
    | freer hfrees => exact .freer hfrees

/-- A token is read as before, unless there was a failure. If the looser settings take a liberty
more, nothing is said of what comes instead. -/
theorem pull_loosened (h : o.Relaxes o') (lexer : Lexer) (source : σ) :
    Pulled.Loosened o o' lexer.nesting.depth (lexer.pull o source) (lexer.pull o' source) :=
  pullFrom_loosened h lexer .gap source

/-- A token that is read is read in the same way under looser settings. -/
theorem pull_of_relaxes (h : o.Relaxes o') (lexer : Lexer) {source : σ} {token? : Option Lexed}
    (ha : (lexer.pull o source).answer = .ok token?) : lexer.pull o' source = lexer.pull o source := by
  have hl := pull_loosened h lexer source
  generalize lexer.pull o source = pulled, lexer.pull o' source = pulled' at hl ha
  cases hl with
  | same => rfl
  | deeper | freer => cases ha

/-- What is read to its end is read in the same way under looser settings. -/
theorem scan_of_relaxes (h : o.Relaxes o') (lexer : Lexer) {source : σ}
    (hend : (lexer.scan o source).failure? = none) : lexer.scan o' source = lexer.scan o source := by
  rw [scan_eq_resume o' lexer source]
  fun_induction scan o lexer source with
  | case1 lexer source failure ha => cases hend
  | case2 lexer source ha => rw [pull_of_relaxes h lexer ha, resume, ha]
  | case3 lexer source token ha pulled ih =>
    rw [pull_of_relaxes h lexer ha, resume, ha]
    dsimp only
    rw [scan_eq_resume o' _ _]
    exact congrArg (Scanned.prepend [token]) (ih hend)

end Lexer

/-! ## A bracket too many

Settings that differ only in how deep containers may be nested read the same tokens up to the
first bracket at the depth that is too deep for one of them. Which bracket that is can be told
from the tokens that are read with more room. -/

theorem Pulled.Leaves.of_token {σ : Type} {options : Options} {before : List Container}
    {pulled : Pulled σ} {found : Lexed} (h : pulled.Leaves options before)
    (ha : pulled.answer = .ok (some found)) :
    Midway.Fits options ⟨pulled.lexer, .gap⟩ ∧
      pulled.lexer.nesting.containers = found.token.nest before := by
  cases h with
  | token hf hc => cases ha; exact ⟨hf, hc⟩
  | ending | failure => cases ha

/-- The first bracket that opens a container at nesting depth `n`, if `depth` containers are open in front
of the tokens. -/
def Lexed.firstOpening? (n depth : Nat) : List Lexed → Option Lexed
  | [] => none
  | l :: more =>
    match l.token with
    | .opening _ => if depth + 1 = n then some l else firstOpening? n (depth + 1) more
    | .closing _ => firstOpening? n (depth - 1) more
    | .name _ | .scalar .. => firstOpening? n depth more

/-- A bracket that is not the first at some depth changes the depth only. -/
theorem Lexed.firstOpening?_cons {n depth : Nat} {containers : List Container} {l : Lexed}
    (hdepth : depth = containers.length) (hn : (l.token.nest containers).length ≠ n) (more : List Lexed) :
    firstOpening? n depth (l :: more) = firstOpening? n (l.token.nest containers).length more := by
  subst hdepth
  rw [firstOpening?]
  cases ht : l.token with
  | opening c =>
    rw [ht] at hn
    exact if_neg hn
  | closing c => rw [Token.nest, List.length_tail]
  | name | scalar => rfl

namespace Lexer

variable {σ : Type} [Cursor σ] {options : Options} {m : Nat}

/-- With less room for containers, the same token is pulled, unless it is a bracket that is one too many. -/
theorem pull_of_maxDepth (hle : m ≤ options.maxDepth) {lexer : Lexer} (source : σ)
    (hd : lexer.nesting.depth ≤ m) :
    lexer.pull { options with maxDepth := m } source = lexer.pull options source ∨
      lexer.nesting.depth = m ∧ ∃ c start stop,
        (lexer.pull options source).answer = .ok (some ⟨.opening c, start, stop⟩) ∧
        (lexer.pull { options with maxDepth := m } source).answer =
          .error (.tooDeep (m + 1) start) := by
  have hrelaxes : Options.Relaxes { options with maxDepth := m } options := ⟨hle, id, id⟩
  have hfrees : ¬ Options.Frees { options with maxDepth := m } options := by
    rintro (h | h) <;> exact h rfl
  have hl := pull_loosened hrelaxes lexer source
  generalize lexer.pull { options with maxDepth := m } source = pulled, lexer.pull options source = pulled'
    at hl
  cases hl with
  | same => exact .inl rfl
  | @deeper c start stop _ _ _ _ hfull =>
    have hdepth : lexer.nesting.depth = m := Nat.le_antisymm hd hfull
    exact .inr ⟨hdepth, c, start, stop, rfl, by rw [hdepth]⟩
  | freer h => exact absurd h hfrees

/-- With less room for containers, the same is read up to the first bracket that is one too many.
If there is no such bracket, the whole document is read alike, whatever its end. -/
theorem scan_of_maxDepth (hle : m ≤ options.maxDepth) {lexer : Lexer} (source : σ)
    (hf : Midway.Fits { options with maxDepth := m } ⟨lexer, .gap⟩) :
    (Lexed.firstOpening? (m + 1) lexer.nesting.depth (lexer.scan options source).tokens = none →
      lexer.scan { options with maxDepth := m } source = lexer.scan options source) ∧
    ∀ l, Lexed.firstOpening? (m + 1) lexer.nesting.depth (lexer.scan options source).tokens = some l →
      ∃ front behind, (lexer.scan options source).tokens = front ++ l :: behind ∧
        lexer.scan { options with maxDepth := m } source = ⟨front, some (.tooDeep (m + 1) l.start)⟩ := by
  rw [scan_eq_resume { options with maxDepth := m } lexer source]
  fun_induction scan options lexer source with
  | case1 lexer source failure ha | case2 lexer source ha =>
    obtain hpull | ⟨-, c, start, stop, hbracket, -⟩ := pull_of_maxDepth hle source hf.room
    · exact ⟨fun _ => by rw [hpull, resume, ha], fun l hsome => by cases hsome⟩
    · cases ha.symm.trans hbracket
  | case3 lexer source token ha pulled ih =>
    let later := pulled.lexer.scan options pulled.source
    obtain hpull | ⟨hdepth, c, start, stop, hbracket, htooDeep⟩ := pull_of_maxDepth hle source hf.room
    -- the token is not the bracket, because there is room for what is open behind it
    · have hleaves := pull_leaves source hf
      rw [hpull] at hleaves ⊢
      obtain ⟨hfits, hnest⟩ := hleaves.of_token ha
      have hroom : (token.token.nest lexer.nesting.containers).length ≤ m := by
        rw [← hnest, ← Nesting.depth_eq]
        exact hfits.room
      have hopening : Lexed.firstOpening? (m + 1) lexer.nesting.depth (token :: later.tokens) =
          Lexed.firstOpening? (m + 1) pulled.lexer.nesting.depth later.tokens := by
        rw [Lexed.firstOpening?_cons lexer.nesting.depth_eq (Nat.ne_of_lt (Nat.lt_succ_of_le hroom)),
          ← hnest, ← Nesting.depth_eq]
      obtain ⟨hsame, hfirst⟩ := ih hfits
      rw [← scan_eq_resume] at hsame hfirst
      rw [resume, ha]
      refine ⟨fun hnone => ?_, fun l hsome => ?_⟩
      · exact congrArg (Scanned.prepend [token]) (hsame (hopening.symm.trans hnone))
      · obtain ⟨front, behind, hsplit, hscan⟩ := hfirst l (hopening.symm.trans hsome)
        refine ⟨token :: front, behind, congrArg (token :: ·) hsplit, ?_⟩
        exact congrArg (Scanned.prepend [token]) hscan
    · cases ha.symm.trans hbracket
      have hopening : Lexed.firstOpening? (m + 1) lexer.nesting.depth
          (⟨.opening c, start, stop⟩ :: later.tokens) = some ⟨.opening c, start, stop⟩ := by
        rw [hdepth]
        exact if_pos rfl
      rw [resume, htooDeep]
      refine ⟨fun hnone => ?_, fun l hsome => ?_⟩
      · cases hopening.symm.trans hnone
      · obtain rfl := Option.some.inj (hopening.symm.trans hsome)
        exact ⟨[], later.tokens, rfl, rfl⟩

end Lexer

end JsonExtract
