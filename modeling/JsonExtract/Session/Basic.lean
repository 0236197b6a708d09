import JsonExtract.Cursor.Buffer
import JsonExtract.Cursor.Reader
import JsonExtract.Session.Walk
import JsonExtract.Token.Pull

/-!
# Sessions

A session extracts what a list of paths asks for from one document, which comes from a cursor. It
gives out one match at a time, in the order in which the values start, and reads no further than the
next match needs. When the document cannot be read to its end, matches that were complete before are
still given out.

* `Session` — the state of an extraction;
* `Session.start`, `Session.ofDocument`, `Session.ofScript` — a session with settings in range;
* `Session.proceed` — takes in one token;
* `Session.next`, `Session.rest`, `Session.collect` — the next match, all that are left, or all of a
  document that can be read to its end;
* `Session.failure?` — what ended the session early.
-/

namespace JsonExtract

/-- How the reading of a document ended. -/
structure Ending where
  /-- what ended it early, if anything did -/
  failure? : Option Failure
  /-- number of matches given out before -/
  given : Nat
  deriving DecidableEq, Repr

/-- An extraction from one document. The lexer and the source are ahead of the walk by no token:
each token that is read is walked at once. Matches lag behind the walk where slots wait, and
`front` says how far they have come. -/
structure Session (σ : Type) where
  /-- what is asked for -/
  paths : List Path
  /-- the settings -/
  options : Options
  /-- the state of the lexer -/
  lexer : Lexer
  /-- the rest of the document -/
  source : σ
  /-- the walk down the document -/
  walk : Walk
  /-- number of slots that are given out or passed over -/
  front : Nat
  /-- number of matches given out -/
  given : Nat
  /-- the end of the document, once it was met -/
  ending? : Option Ending

namespace Session

variable {σ : Type}

/-- A session in front of a document. -/
def start (paths : List Path) (options : Options) (source : σ) : Except Failure (Session σ) :=
  match options.check with
  | .error failure => .error failure
  | .ok () =>
    .ok
      { paths, options, lexer := .initial, source, walk := {}, front := 0, given := 0,
        ending? := none }

/-- A session in front of a complete document. -/
def ofDocument (paths : List Path) (options : Options) (document : Bytes) :
    Except Failure (Session Buffer) :=
  start paths options ⟨document⟩

/-- A session in front of what a reader delivers, in reads of the size that the settings give. -/
def ofScript (paths : List Path) (options : Options) (script : Script) :
    Except Failure (Session Reader) :=
  start paths options (Reader.ofScript script options.readSize)

/-- Whether the end of the document was met. Slots may still be given out then, but no more are
reserved. -/
def isOver (s : Session σ) : Bool :=
  s.ending?.isSome

/-- What ended the session early. -/
def failure? (s : Session σ) : Option Failure :=
  s.ending?.bind (·.failure?)

variable [Cursor σ]

/-- Takes in one token, or the end of the document. -/
def proceed (s : Session σ) : Session σ :=
  let pulled := s.lexer.pull s.options s.source
  let s := { s with lexer := pulled.lexer, source := pulled.source }
  match pulled.answer with
  | .ok (some token) => { s with walk := s.walk.token s.paths token }
  | .ok none => { s with ending? := some ⟨none, s.given⟩ }
  | .error failure => { s with ending? := some ⟨some failure, s.given⟩ }

/-- A bound on the number of tokens to come, the end of the document among them. -/
def budget (s : Session σ) : Nat :=
  if s.isOver then 0 else Cursor.left s.source + 1

theorem budget_proceed_lt {s : Session σ} (h : s.isOver = false) : s.proceed.budget < s.budget := by
  have hlt := @Lexer.left_pull_lt σ _ s.options s.lexer s.source
  rw [isOver] at h
  rcases ha : (s.lexer.pull s.options s.source).answer with failure | _ | token
  · simp [proceed, budget, isOver, ha, h]
  · simp [proceed, budget, isOver, ha, h]
  · simpa [proceed, budget, isOver, ha, h] using hlt ha

/-- The next match. A match that is ready is given out before anything is read, so a session never
reads ahead of its matches. -/
def next (s : Session σ) : Option Match × Session σ :=
  match s.walk.slots.release s.isOver s.front with
  | (some found, front) => (some found, { s with front, given := s.given + 1 })
  | (none, front) =>
    let passed := { s with front }
    if _h : s.isOver then (none, passed) else passed.proceed.next
termination_by s.budget
decreasing_by exact budget_proceed_lt (s := passed) (by simpa [isOver] using _h)

/-- The number of slots that are neither given out nor passed over. -/
def queued (s : Session σ) : Nat :=
  s.walk.slots.size - s.front

/-- A match that is given out takes a token or a slot away. -/
theorem next_some_lt {s t : Session σ} {found : Match} (h : s.next = (some found, t)) :
    t.budget < s.budget ∨ t.budget = s.budget ∧ t.queued < s.queued := by
  fun_induction next s with
  | case1 s _ front hr =>
    cases h
    exact .inr ⟨rfl, Slots.release_some_lt _ hr⟩
  | case2 => cases h
  | case3 s front hr passed hover ih =>
    have hadv : passed.proceed.budget < s.budget :=
      budget_proceed_lt (s := passed) (by simpa [isOver] using hover)
    rcases ih h with hlt | ⟨heq, _⟩
    · exact .inl (Nat.lt_trans hlt hadv)
    · exact .inl (heq ▸ hadv)

/-- All matches that are left. The session behind them is over, and tells what ended it. -/
def rest (s : Session σ) : List Match × Session σ :=
  match _h : s.next with
  | (none, ended) => ([], ended)
  | (some found, behind) =>
    let more := behind.rest
    (found :: more.1, more.2)
termination_by (s.budget, s.queued)
decreasing_by
  rcases next_some_lt _h with hlt | ⟨heq, hlt⟩
  · exact Prod.Lex.left _ _ hlt
  · rw [heq]
    exact Prod.Lex.right _ hlt

/-- All matches that are left, if the document can be read to its end; otherwise what ended it. -/
def collect (s : Session σ) : Except Failure (List Match) × Session σ :=
  let (found, ended) := s.rest
  match ended.failure? with
  | none => (.ok found, ended)
  | some failure => (.error failure, ended)

end Session

end JsonExtract
