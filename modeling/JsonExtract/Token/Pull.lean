import JsonExtract.Cursor.Basic
import JsonExtract.Token.Lexer

/-!
# Pulling tokens from a cursor

The lexer asks a cursor for as few bytes as it can: it looks at a byte only when it needs one, and
takes a run of bytes at once. A run counts as read only when it was taken without a failure. Behind
the run of a token that is complete then, it does not look at the next byte.

* `Lexer.takeRun` — takes the run that may come next;
* `Lexer.pull` — reads up to the end of the next token;
* `Lexer.left_pull_lt` — a token costs at least one byte, so a cursor has only finitely many.
-/

namespace JsonExtract

/-- The result of asking for a token. -/
structure Pulled (σ : Type) where
  /-- the token, `none` at the end of the input, or what went wrong -/
  answer : Except Failure (Option Lexed)
  /-- the state of the lexer behind the token -/
  lexer : Lexer
  /-- the cursor behind the token -/
  source : σ

namespace Lexer

variable {σ : Type} [Cursor σ]

/-- Takes the bytes that may come in one run. -/
def takeRun (lexer : Lexer) (unfinished : Unfinished) (source : σ) :
    Except Failure (Lexer × Unfinished) × σ :=
  match unfinished.run? with
  | none => (.ok (lexer, unfinished), source)
  | some p =>
    let taken := Cursor.takeWhile p source
    match taken.failure with
    | none => (.ok (lexer.skip taken.bytes.length, unfinished.absorb taken.bytes), taken.source)
    | some reason => (.error (.unreadable lexer.here.offset reason), taken.source)

theorem left_takeRun_le (lexer : Lexer) (unfinished : Unfinished) (source : σ) :
    Cursor.left (takeRun lexer unfinished source).2 ≤ Cursor.left source := by
  rw [takeRun]
  split
  · exact Nat.le_refl _
  · simp only
    split <;> exact Cursor.left_takeWhile_le _ _

/-- Reads on to the end of the token that `unfinished` starts. -/
def pullFrom (options : Options) (lexer : Lexer) (unfinished : Unfinished) (source : σ) :
    Pulled σ :=
  match _hr : lexer.takeRun unfinished source with
  | (.error failure, behind) => ⟨.error failure, lexer, behind⟩
  | (.ok (lexer₁, unfinished₁), behind) =>
    match lexer₁.complete? unfinished₁ with
    | some (token, lexer₂) => ⟨.ok (some token), lexer₂, behind⟩
    | none =>
      match _hp : Cursor.peek behind with
      | (.error reason, shown) => ⟨.error (.unreadable lexer₁.here.offset reason), lexer₁, shown⟩
      | (.ok none, shown) =>
        match lexer₁.finish options unfinished₁ with
        | .error failure => ⟨.error failure, lexer₁, shown⟩
        | .ok none => ⟨.ok none, lexer₁, shown⟩
        | .ok (some (token, lexer₂)) => ⟨.ok (some token), lexer₂, shown⟩
      | (.ok (some b), shown) =>
        match lexer₁.read options unfinished₁ b with
        | .more unfinished₂ lexer₂ => pullFrom options lexer₂ unfinished₂ (Cursor.advance shown)
        | .token token lexer₂ => ⟨.ok (some token), lexer₂, Cursor.advance shown⟩
        | .tokenBefore token lexer₂ => ⟨.ok (some token), lexer₂, shown⟩
        | .error failure => ⟨.error failure, lexer₁, shown⟩
        | .errorBehind failure => ⟨.error failure, lexer₁, Cursor.advance shown⟩
termination_by Cursor.left source
decreasing_by
  have hr := left_takeRun_le lexer unfinished source
  rw [_hr] at hr
  exact Nat.lt_of_lt_of_le (Cursor.left_advance_lt _hp) hr

/-- Reads the next token. It starts in the gap in front of it, where no byte of it has been seen. -/
def pull (options : Options) (lexer : Lexer) (source : σ) : Pulled σ :=
  pullFrom options lexer .gap source

/-! ## Progress

Pulling comes to an end because the bytes to come get fewer. A token needs a strict decrease, so
it has to be excluded that one is found without stepping over a byte: no token ends in front of
the byte that starts it, nor at an end of the input that comes first. -/

variable {options : Options} {lexer : Lexer}

/-- No token ends in front of the byte that starts it. -/
theorem read_gap_ne_tokenBefore {b : UInt8} {token : Lexed} {behind : Lexer} :
    lexer.read options .gap b ≠ .tokenBefore token behind := by
  simp only [read, readGap, readStart, readValue, readName, openContainer, closeContainer, separate]
  intro h
  repeat' split at h
  all_goals simp at h

/-- The end of the input is no token. -/
theorem finish_gap_ne_some {found : Lexed × Lexer} :
    lexer.finish options .gap ≠ .ok (some found) := by
  simp only [finish]
  split <;> simp

/-- Reading does not make more bytes come. -/
theorem left_pullFrom_le (options : Options) (lexer : Lexer) (unfinished : Unfinished)
    (source : σ) :
    Cursor.left (pullFrom options lexer unfinished source).source ≤ Cursor.left source := by
  fun_induction pullFrom options lexer unfinished source with
  | case1 lexer unfinished source failure behind hr =>
    simpa [hr] using left_takeRun_le lexer unfinished source
  | case2 lexer unfinished source _ _ behind hr =>
    simpa [hr] using left_takeRun_le lexer unfinished source
  | case3 lexer unfinished source _ _ behind hr _ _ _ hp
  | case4 lexer unfinished source _ _ behind hr _ _ hp
  | case5 lexer unfinished source _ _ behind hr _ _ hp
  | case6 lexer unfinished source _ _ behind hr _ _ hp
  | case9 lexer unfinished source _ _ behind hr _ _ _ hp
  | case10 lexer unfinished source _ _ behind hr _ _ _ hp =>
    have h₁ := left_takeRun_le lexer unfinished source
    have h₂ := Cursor.left_peek_le behind
    rw [hr] at h₁
    rw [hp] at h₂
    exact Nat.le_trans h₂ h₁
  | case7 lexer unfinished source _ _ behind hr _ _ _ hp _ _ _ ih =>
    have h₁ := left_takeRun_le lexer unfinished source
    rw [hr] at h₁
    exact Nat.le_trans ih (Nat.le_trans (Nat.le_of_lt (Cursor.left_advance_lt hp)) h₁)
  | case8 lexer unfinished source _ _ behind hr _ _ _ hp
  | case11 lexer unfinished source _ _ behind hr _ _ _ hp =>
    have h₁ := left_takeRun_le lexer unfinished source
    rw [hr] at h₁
    exact Nat.le_trans (Nat.le_of_lt (Cursor.left_advance_lt hp)) h₁

/-- Each token costs at least one byte. -/
theorem left_pull_lt {source : σ} {token : Lexed}
    (h : (lexer.pull options source).answer = .ok (some token)) :
    Cursor.left (lexer.pull options source).source < Cursor.left source := by
  have no_run : lexer.takeRun .gap source = (.ok (lexer, .gap), source) := rfl
  have incomplete : lexer.complete? .gap = none := rfl
  revert h
  rw [pull]
  fun_cases pullFrom options lexer .gap source <;> simp_all
  case case6 hf => exact absurd hf finish_gap_ne_some
  case case7 hp _ =>
    exact fun _ => Nat.lt_of_le_of_lt (left_pullFrom_le _ _ _ _) (Cursor.left_advance_lt hp)
  case case8 hp _ => exact fun _ => Cursor.left_advance_lt hp
  case case9 hr => exact absurd hr read_gap_ne_tokenBefore

end Lexer

end JsonExtract
