import JsonExtract.Proofs.Scan.Step

/-!
# Pulling tokens, from any cursor

Whatever a cursor delivers, and even if it fails, pulling a token keeps the lexer in a state that fits
the settings. A token opens or closes the container of its bracket, and at the end of the input no
container is open.

* `Pulled.Leaves` — what a pull may leave behind;
* `Lexer.fits_takeRun` — a run of bytes;
* `Lexer.pull_leaves` — every pull.
-/

namespace JsonExtract

/-- What a pull leaves behind, when `before` were the open containers. -/
inductive Pulled.Leaves {σ : Type} (options : Options) (before : List Container) : Pulled σ → Prop
  | token {found : Lexed} {lexer : Lexer} {source : σ} (hf : Midway.Fits options ⟨lexer, .gap⟩)
    (hc : lexer.nesting.containers = found.token.nest before)
    (hs : ∀ kind raw, found.token = .scalar kind raw → kind.container? = none) :
    Leaves options before ⟨.ok (some found), lexer, source⟩
  | ending {lexer : Lexer} {source : σ} (hc : lexer.nesting.containers = before) (hn : before = []) :
    Leaves options before ⟨.ok none, lexer, source⟩
  | failure {e : Failure} {lexer : Lexer} {source : σ} (hc : lexer.nesting.containers = before) :
    Leaves options before ⟨.error e, lexer, source⟩

namespace Lexer

variable {σ : Type} {options : Options} {lexer : Lexer} {unfinished : Unfinished}

/-- A run of bytes belongs to the token that is being read. -/
theorem fits_absorb {p : UInt8 → Bool} (hp : unfinished.run? = some p)
    (hf : Midway.Fits options ⟨lexer, unfinished⟩) (bytes : Bytes) (n : Nat) :
    Midway.Fits options ⟨lexer.skip n, unfinished.absorb bytes⟩ := by
  obtain ⟨hi, hd, ha, hb⟩ := hf
  have hlater : unfinished ≠ .gap → unfinished.start lexer.here.offset < (lexer.skip n).here.offset :=
    fun hu => Nat.lt_of_lt_of_le (hb hu) (Nat.le_add_right _ _)
  cases unfinished with
  | gap | space | word => cases hp
  | string | number => exact ⟨hi, hd, ha, fun _ => hlater (by simp)⟩

/-- At the end of the input no container is open. -/
theorem containers_of_finish (hf : Midway.Fits options ⟨lexer, unfinished⟩)
    (h : lexer.finish options unfinished = .ok none) : lexer.nesting.containers = [] := by
  have hphase : lexer.phase.container? = none := by
    cases unfinished with
    | gap =>
      rw [finish] at h
      split at h
      · next hp =>
        rw [Bool.or_eq_true, Bool.and_eq_true] at hp
        rcases hp with hp | ⟨hp, -⟩ <;> exact of_decide_eq_true hp ▸ rfl
      · cases h
    | number =>
      rw [finish] at h
      split at h <;> cases h
    | space | string | word => cases h
  have hi := hf.innermost
  dsimp only at hi
  rw [hphase] at hi
  exact List.head?_eq_none_iff.1 hi

/-- A number may end with the input. -/
theorem of_finish_token {found : Lexed} {lexer' : Lexer}
    (h : lexer.finish options unfinished = .ok (some (found, lexer'))) :
    lexer' = lexer.afterValue ∧ ∃ lexeme, found = lexer.numberToken lexeme := by
  cases unfinished with
  | gap => exact absurd h finish_gap_ne_some
  | number part lexeme =>
    rw [finish] at h
    split at h
    · cases h
      exact ⟨rfl, lexeme, rfl⟩
    · cases h
  | space | string | word => cases h

theorem of_complete? {found : Lexed} {lexer' : Lexer}
    (h : lexer.complete? unfinished = some (found, lexer')) :
    lexer' = lexer.afterValue ∧ ∃ lexeme, found = lexer.numberToken lexeme := by
  unfold complete? at h
  split at h
  · cases h
    exact ⟨rfl, _, rfl⟩
  · cases h

/-- A number that is complete opens and closes nothing. -/
theorem leaves_number {source : σ} {found : Lexed} {lexer' : Lexer}
    (hd : lexer.nesting.depth ≤ options.maxDepth)
    (h : lexer' = lexer.afterValue ∧ ∃ lexeme, found = lexer.numberToken lexeme) :
    Pulled.Leaves options lexer.nesting.containers ⟨.ok (some found), lexer', source⟩ := by
  obtain ⟨rfl, lexeme, rfl⟩ := h
  refine .token (fits_afterValue lexer hd) rfl ?_
  intro kind raw hs
  cases hs
  rfl

/-- A token that a byte completes, or shows to be complete. -/
theorem leaves_read {source : σ} {b : UInt8} {found : Lexed} {lexer' : Lexer}
    (hf : Midway.Fits options ⟨lexer, unfinished⟩)
    (hn : (lexer.read options unfinished b).next? = some ⟨lexer', .gap⟩)
    (ht : (lexer.read options unfinished b).token? = some found) :
    Pulled.Leaves options lexer.nesting.containers ⟨.ok (some found), lexer', source⟩ := by
  have hr := reads_read options lexer b unfinished
  refine .token (fits_of_reads hf hr hn) ?_ fun kind raw hs => container?_of_reads hf hr ht hs
  have hc := containers_of_reads hr hn
  rw [ht] at hc
  exact hc

variable [Cursor σ]

theorem fits_takeRun {source behind : σ} {lexer' : Lexer} {unfinished' : Unfinished}
    (hf : Midway.Fits options ⟨lexer, unfinished⟩)
    (h : lexer.takeRun unfinished source = (.ok (lexer', unfinished'), behind)) :
    Midway.Fits options ⟨lexer', unfinished'⟩ ∧ lexer'.nesting = lexer.nesting := by
  rw [takeRun] at h
  split at h
  · cases h
    exact ⟨hf, rfl⟩
  · next hp =>
    dsimp only at h
    split at h
    · cases h
      exact ⟨fits_absorb hp hf _ _, rfl⟩
    · cases h

theorem pullFrom_leaves (source : σ) (hf : Midway.Fits options ⟨lexer, unfinished⟩) :
    Pulled.Leaves options lexer.nesting.containers (pullFrom options lexer unfinished source) := by
  fun_induction pullFrom options lexer unfinished source with
  | case1 => exact .failure rfl
  | case2 lexer unfinished source lexer₁ unfinished₁ behind hr found lexer₂ hcomplete =>
    obtain ⟨hf₁, hn⟩ := fits_takeRun hf hr
    exact hn ▸ leaves_number hf₁.room (of_complete? hcomplete)
  | case3 lexer unfinished source lexer₁ unfinished₁ behind hr
  | case4 lexer unfinished source lexer₁ unfinished₁ behind hr
  | case10 lexer unfinished source lexer₁ unfinished₁ behind hr
  | case11 lexer unfinished source lexer₁ unfinished₁ behind hr =>
    obtain ⟨-, hn⟩ := fits_takeRun hf hr
    exact .failure (congrArg Nesting.containers hn)
  | case5 lexer unfinished source lexer₁ unfinished₁ behind hr _ _ hp hfinish =>
    obtain ⟨hf₁, hn⟩ := fits_takeRun hf hr
    have hnone := containers_of_finish hf₁ hfinish
    rw [hn] at hnone
    exact .ending (congrArg Nesting.containers hn) hnone
  | case6 lexer unfinished source lexer₁ unfinished₁ behind hr _ _ hp found lexer₂ hfinish =>
    obtain ⟨hf₁, hn⟩ := fits_takeRun hf hr
    exact hn ▸ leaves_number hf₁.room (of_finish_token hfinish)
  | case7 lexer unfinished source lexer₁ unfinished₁ behind hr _ b shown hp unfinished₂ lexer₂ hv ih =>
    obtain ⟨hf₁, hn⟩ := fits_takeRun hf hr
    have hreads := reads_read options lexer₁ b unfinished₁
    have hnext : (lexer₁.read options unfinished₁ b).next? = some ⟨lexer₂, unfinished₂⟩ := by
      rw [hv]
      rfl
    have hc := containers_of_reads hreads hnext
    rw [hv] at hc
    rw [← hn, show lexer₁.nesting.containers = lexer₂.nesting.containers from hc.symm]
    exact ih (fits_of_reads hf₁ hreads hnext)
  | case8 lexer unfinished source lexer₁ unfinished₁ behind hr _ b shown hp found lexer₂ hv
  | case9 lexer unfinished source lexer₁ unfinished₁ behind hr _ b shown hp found lexer₂ hv =>
    obtain ⟨hf₁, hn⟩ := fits_takeRun hf hr
    rw [← hn]
    exact leaves_read hf₁ (by rw [hv]; rfl) (by rw [hv]; rfl)

/-- Every pull leaves the open containers as its token says. -/
theorem pull_leaves (source : σ) (hf : Midway.Fits options ⟨lexer, .gap⟩) :
    Pulled.Leaves options lexer.nesting.containers (lexer.pull options source) :=
  pullFrom_leaves source hf

end Lexer

end JsonExtract
