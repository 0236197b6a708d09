import JsonExtract.Cursor.Stepwise
import JsonExtract.Proofs.Delivery.Severance
import JsonExtract.Proofs.Scan.Runs

/-!
# Sources that refuse to go on

A source that steps byte by byte may refuse to show any byte from some position on. Where it does so inside
of a run, the bytes of the run were stepped over, but the failure is all that is known of the run. So the
place of the failure is the start of the run, and only elsewhere it is the position of the source.

* `Refusing` — cursors that give nothing out of a run that meets the refusal;
* `Lexer.pullFrom_of_refusing` — the tokens in front of the refusal, and its place;
* `Session.Nears`, `Session.rest_of_refusing` — a session on the way to the refusal;
* `Stepper.RefusesAt`, `Stepper.refusing_stepwise` — sources that refuse to go on at a position;
* `Lexed.runAt` — the run inside of a token in front of a position;
* `Session.rest_of_refusesAt` — how a session over a valid document ends there.
-/

namespace JsonExtract

/-- Whether cursors that have the bytes `d` and then a refusal in front of them, which `Holds s d`
says, show and step over the bytes, and step over a run up to the refusal, but report only the
refusal then. A cursor of this sort loses the count of the bytes in the run. -/
structure Refusing {σ : Type} [Cursor σ] (reason : String) (Holds : σ → Bytes → Prop) : Prop where
  /-- the first byte is shown, and can be stepped over then -/
  peek : ∀ {s b rest}, Holds s (b :: rest) →
    ∃ t, Cursor.peek s = (.ok (some b), t) ∧ Holds (Cursor.advance t) rest ∧ Holds t (b :: rest)
  /-- behind the bytes, no byte is shown -/
  peek_nil : ∀ {s}, Holds s [] → ∃ t, Cursor.peek s = (.error reason, t) ∧ Holds t []
  /-- a run is taken, unless it goes up to the refusal -/
  takeWhile : ∀ {s d} p, Holds s d →
    ∃ t, Cursor.takeWhile p s =
        ⟨d.takeWhile p, if d.dropWhile p = [] then some reason else none, t⟩ ∧
      Holds t (d.dropWhile p)

/-! ## Tokens in front of the refusal

A pull is followed on its way through the bytes in front of the refusal. It gives the tokens on
the way, and the last pull meets the refusal: with a look, and then the failure is where the
lexer stands, or inside of a run, and then the lexer has not moved yet. -/

/-- The failure of a source that refuses to go on: the run that is going on is not counted. The
place is that of the lexer when the run began. -/
def Midway.refused (reason : String) (m : Midway) : Failure :=
  .unreadable (m.lexer.here.offset - m.unfinished.trailing) reason

namespace Lexer

variable {σ : Type} [Cursor σ] {reason : String} {Holds : σ → Bytes → Prop} {options : Options}
  {lexer lexer' : Lexer} {unfinished unfinished' : Unfinished} {source behind : σ} {xs : Bytes}
  {tokens : List Lexed} {m : Midway}

/-- What a run leaves, on a way to `m` over `tokens`, if it does not go up to the refusal. -/
structure Spares (options : Options) (tokens : List Lexed) (m : Midway) (rest : Bytes)
    (left : Midway) : Prop where
  /-- the rest leads the same way -/
  follows : Follows options left rest tokens m
  /-- what is noted of a string or a number is so with the run -/
  noted : left.Noted
  /-- the byte behind the run is left -/
  ended : ∀ p, left.unfinished.run? = some p → ∃ b more, rest = b :: more ∧ p b = false
  /-- outside of runs no bytes of a run were read -/
  outside : left.unfinished.run? = none → left.unfinished.trailing = 0

/-- A run is taken in front of the refusal, or goes up to it. -/
theorem takeRun_of_refusing (hr : Refusing reason Holds) (h : Holds source xs)
    (hf : Follows options ⟨lexer, unfinished⟩ xs tokens m) (hm : (Midway.mk lexer unfinished).Noted)
    (hfresh : unfinished.trailing = 0) {answer : Except Failure (Lexer × Unfinished)}
    (htake : lexer.takeRun unfinished source = (answer, behind)) :
    (answer = .error (m.refused reason) ∧ tokens = [] ∧ Holds behind []) ∨
      ∃ left rest, answer = .ok (left.lexer, left.unfinished) ∧ Holds behind rest ∧
        Spares options tokens m rest left := by
  rw [takeRun] at htake
  split at htake
  · next hrun =>
    cases htake
    refine .inr ⟨⟨lexer, unfinished⟩, xs, rfl, h, hf, hm, ?_, fun _ => hfresh⟩
    intro p hp
    cases hrun.symm.trans hp
  · next p hp =>
    obtain ⟨t, hrun, ht⟩ := hr.takeWhile p h
    simp only [hrun] at htake
    have hxs : ∀ b ∈ xs.takeWhile p, p b = true := List.all_eq_true.1 List.all_takeWhile
    have hfollows : Follows options ⟨lexer, unfinished⟩ (xs.takeWhile p) [] _ := .run hp hxs
    obtain ⟨_, rfl, hrest⟩ := hfollows.behind (by rwa [List.takeWhile_append_dropWhile])
    cases hdrop : xs.dropWhile p with
    | nil =>
      rw [hdrop] at htake hrest ht
      cases htake
      cases hrest
      refine .inl ⟨?_, rfl, ht⟩
      rw [Midway.refused, trailing_absorb hm hp hxs, hfresh, Nat.zero_add]
      exact congrArg (fun offset => Except.error (Failure.unreadable offset reason))
        (Nat.add_sub_cancel ..).symm
    | cons b more =>
      rw [hdrop] at htake hrest ht
      cases htake
      refine .inr ⟨_, b :: more, rfl, ht, hrest, hfollows.noted hm, ?_, ?_⟩
      · intro q hq
        rw [run?_absorb, hp] at hq
        cases hq
        exact ⟨b, more, rfl, eq_false_of_mem_head?_dropWhile (by rw [hdrop]; rfl)⟩
      · intro hnone
        rw [run?_absorb, hp] at hnone
        cases hnone

/-- The next byte is shown, or the refusal. -/
theorem peek_of_refusing (hr : Refusing reason Holds) (h : Holds source xs)
    {answer : Except String (Option UInt8)} (hp : Cursor.peek source = (answer, behind)) :
    xs = [] ∧ answer = .error reason ∧ Holds behind [] ∨
      ∃ b rest, xs = b :: rest ∧ answer = .ok (some b) ∧ Holds (Cursor.advance behind) rest ∧
        Holds behind (b :: rest) := by
  cases xs with
  | nil =>
    obtain ⟨t, hpeek, ht⟩ := hr.peek_nil h
    cases hp.symm.trans hpeek
    exact .inl ⟨rfl, rfl, ht⟩
  | cons b rest =>
    obtain ⟨t, hpeek, hadvance, ht⟩ := hr.peek h
    cases hp.symm.trans hpeek
    exact .inr ⟨b, rest, rfl, rfl, hadvance, ht⟩

/-- The byte that is shown behind a run is the next one, and the refusal does not stand in front of it. -/
theorem spares_of_peek (hr : Refusing reason Holds) (h : Holds source xs)
    (hf : Follows options ⟨lexer, unfinished⟩ xs tokens m) (hm : (Midway.mk lexer unfinished).Noted)
    (hfresh : unfinished.trailing = 0)
    (htake : lexer.takeRun unfinished source = (.ok (lexer', unfinished'), behind)) {b : UInt8} {shown : σ}
    (hp : Cursor.peek behind = (.ok (some b), shown)) :
    ∃ rest, Spares options tokens m (b :: rest) ⟨lexer', unfinished'⟩ ∧
      Holds (Cursor.advance shown) rest ∧ Holds shown (b :: rest) := by
  obtain ⟨hanswer, -⟩ | ⟨left, rest, hanswer, hrest, hspares⟩ := takeRun_of_refusing hr h hf hm hfresh htake
  · cases hanswer
  · cases hanswer
    obtain ⟨-, hshown, -⟩ | ⟨_, rest, rfl, hshown, hadvance, hkept⟩ := peek_of_refusing hr hrest hp
    · cases hshown
    · cases hshown
      exact ⟨rest, hspares, hadvance, hkept⟩

/-- What reading on to the end of a token does on a way to `m` over `tokens`: it gives the first of them,
or there is none, and the source refuses to go on. -/
theorem pullFrom_of_refusing (hr : Refusing reason Holds) (h : Holds source xs)
    (hf : Follows options ⟨lexer, unfinished⟩ xs tokens m) (hm : (Midway.mk lexer unfinished).Noted)
    (hfresh : unfinished.trailing = 0) :
    ((pullFrom options lexer unfinished source).answer = .error (m.refused reason) ∧ tokens = [] ∧
      Holds (pullFrom options lexer unfinished source).source []) ∨
    ∃ found later rest, (pullFrom options lexer unfinished source).answer = .ok (some found) ∧
      tokens = found :: later ∧ Holds (pullFrom options lexer unfinished source).source rest ∧
      Follows options ⟨(pullFrom options lexer unfinished source).lexer, .gap⟩ rest later m := by
  fun_induction pullFrom options lexer unfinished source generalizing xs tokens with
  | case1 lexer unfinished source failure behind htake =>
    obtain ⟨hanswer, hnil, hbehind⟩ | ⟨_, _, hanswer, -⟩ := takeRun_of_refusing hr h hf hm hfresh htake
    · cases hanswer
      exact .inl ⟨rfl, hnil, hbehind⟩
    · cases hanswer
  | case2 lexer unfinished source lexer₁ unfinished₁ behind htake token lexer₂ hc =>
    obtain ⟨hanswer, -⟩ | ⟨left, rest, hanswer, hrest, hspares⟩ :=
      takeRun_of_refusing hr h hf hm hfresh htake
    · cases hanswer
    · cases hanswer
      -- the byte behind the run shows the number to be complete, although nothing looks at it here
      obtain ⟨b, more, rfl, hb⟩ := hspares.ended _ (run?_of_complete? hc)
      obtain ⟨later, rfl, hlater⟩ :=
        hspares.follows.of_tokenBefore (read_of_complete? options left.lexer hc hb)
      exact .inr ⟨token, later, _, rfl, rfl, hrest, hlater⟩
  | case3 lexer unfinished source lexer₁ unfinished₁ behind htake hc reason' shown hp =>
    obtain ⟨hanswer, -⟩ | ⟨left, rest, hanswer, hrest, hspares⟩ :=
      takeRun_of_refusing hr h hf hm hfresh htake
    · cases hanswer
    · cases hanswer
      obtain ⟨rfl, hshown, hbehind⟩ | ⟨_, _, -, hshown, -⟩ := peek_of_refusing hr hrest hp
      · cases hshown
        have hfollows := hspares.follows
        cases hfollows
        have houtside := hspares.outside (Option.eq_none_iff_forall_not_mem.2 fun p hrun => by
          obtain ⟨_, _, hnil, -⟩ := hspares.ended p hrun
          cases hnil)
        refine .inl ⟨?_, rfl, hbehind⟩
        rw [Midway.refused, houtside]
        rfl
      · cases hshown
  | case4 lexer unfinished source lexer₁ unfinished₁ behind htake hc shown hp
  | case5 lexer unfinished source lexer₁ unfinished₁ behind htake hc shown hp
  | case6 lexer unfinished source lexer₁ unfinished₁ behind htake hc shown hp =>
    obtain ⟨hanswer, -⟩ | ⟨left, rest, hanswer, hrest, -⟩ := takeRun_of_refusing hr h hf hm hfresh htake
    · cases hanswer
    · obtain ⟨-, hshown, -⟩ | ⟨_, _, -, hshown, -⟩ := peek_of_refusing hr hrest hp
      · cases hshown
      · cases hshown
  | case7 lexer unfinished source lexer₁ unfinished₁ behind htake hc b shown hp unfinished₂ lexer₂ hread ih =>
    obtain ⟨rest, hspares, hadvance, -⟩ := spares_of_peek hr h hf hm hfresh htake hp
    have hnoted : (Midway.mk lexer₂ unfinished₂).Noted :=
      hspares.noted.next (by rw [Midway.read, hread]; rfl)
    refine ih hadvance (hspares.follows.of_more hread) hnoted (trailing_of_read hspares.noted ?_ hread)
    intro p hrun
    obtain ⟨_, _, hcons, hb⟩ := hspares.ended p hrun
    cases hcons
    exact hb
  | case8 lexer unfinished source lexer₁ unfinished₁ behind htake hc b shown hp token lexer₂ hread =>
    obtain ⟨rest, hspares, hadvance, -⟩ := spares_of_peek hr h hf hm hfresh htake hp
    obtain ⟨later, rfl, hlater⟩ := hspares.follows.of_token hread
    exact .inr ⟨token, later, rest, rfl, rfl, hadvance, hlater⟩
  | case9 lexer unfinished source lexer₁ unfinished₁ behind htake hc b shown hp token lexer₂ hread =>
    obtain ⟨rest, hspares, -, hkept⟩ := spares_of_peek hr h hf hm hfresh htake hp
    obtain ⟨later, rfl, hlater⟩ := hspares.follows.of_tokenBefore hread
    exact .inr ⟨token, later, b :: rest, rfl, rfl, hkept, hlater⟩
  | case10 lexer unfinished source lexer₁ unfinished₁ behind htake hc b shown hp failure hread =>
    obtain ⟨rest, hspares, -⟩ := spares_of_peek hr h hf hm hfresh htake hp
    exact absurd hread hspares.follows.not_error.1
  | case11 lexer unfinished source lexer₁ unfinished₁ behind htake hc b shown hp failure hread =>
    obtain ⟨rest, hspares, -⟩ := spares_of_peek hr h hf hm hfresh htake hp
    exact absurd hread hspares.follows.not_error.2

end Lexer

/-! ## Sessions in front of the refusal

A session pulls until the refusal is met, so it is on a way to it in each of its states, and is
ended by it. -/

namespace Session

variable {σ : Type} [Cursor σ] {reason : String} {Holds : σ → Bytes → Prop} {m : Midway} {s : Session σ}

/-- Whether a session is on its way to the refusal, which its lexer meets at `m`, or was ended by
it. In front of the refusal some bytes are left, and they lead to `m`. -/
def Nears (reason : String) (Holds : σ → Bytes → Prop) (m : Midway) (s : Session σ) : Prop :=
  (s.ending? = none ∧
    ∃ xs tokens, Holds s.source xs ∧ Follows s.options ⟨s.lexer, .gap⟩ xs tokens m) ∨
  (s.isOver = true ∧ s.failure? = some (m.refused reason) ∧ Holds s.source [])

/-- One token brings a session nearer to the refusal. -/
theorem nears_proceed (hr : Refusing reason Holds) (h : s.Nears reason Holds m)
    (hover : ¬ s.isOver = true) : s.proceed.Nears reason Holds m := by
  obtain ⟨hnone, xs, tokens, hholds, hf⟩ | ⟨hended, -⟩ := h
  · obtain ⟨hanswer, -, hbehind⟩ | ⟨found, later, rest, hanswer, -, hbehind, hlater⟩ :=
      Lexer.pullFrom_of_refusing hr hholds hf (Midway.noted_gap s.lexer) rfl
    all_goals
      replace hanswer : (s.lexer.pull s.options s.source).answer = _ := hanswer
      rw [proceed]
      simp only [hanswer]
    · exact .inr ⟨rfl, rfl, hbehind⟩
    · exact .inl ⟨hnone, rest, later, hbehind, hlater⟩
  · exact absurd hended hover

theorem nears_next (hr : Refusing reason Holds) (h : s.Nears reason Holds m) :
    s.next.2.Nears reason Holds m ∧ (s.next.1 = none → s.next.2.isOver = true) := by
  fun_induction next s with
  | case1 s found front hrelease => exact ⟨h, fun hnone => absurd hnone (Option.some_ne_none found)⟩
  | case2 s front hrelease passed hover => exact ⟨h, fun _ => hover⟩
  | case3 s front hrelease passed hover ih => exact ih (nears_proceed hr h hover)

/-- A session on its way to the refusal is ended by it. -/
theorem rest_of_refusing (hr : Refusing reason Holds) (h : s.Nears reason Holds m) :
    s.rest.2.failure? = some (m.refused reason) ∧ Holds s.rest.2.source [] := by
  fun_induction rest s with
  | case1 s ended hnext =>
    obtain ⟨hnears, hover⟩ := nears_next hr h
    rw [hnext] at hnears hover
    obtain ⟨hnone, -⟩ | ⟨-, hfailure, hsource⟩ := hnears
    · have hended := hover rfl
      rw [isOver, hnone] at hended
      cases hended
    · exact ⟨hfailure, hsource⟩
  | case2 s found behind hnext more ih =>
    have hnears := (nears_next hr h).1
    rw [hnext] at hnears
    exact ih hnears

end Session

/-! ## Sources that step byte by byte

For a source of this kind, with the way of taking runs that comes with it, the three facts about
refusals hold: a look shows the next byte or the refusal, and a run that goes up to the refusal
gives nothing out, although its bytes were stepped over. -/

namespace Stepper

variable {σ : Type} [Stepper σ] {d : Bytes} {n : Nat} {reason : String} {At : σ → Nat → Prop}

/-- Whether sources that keep a position in `d`, which is `k` where `At s k`, refuse to go on at `n`: up to
there they show the byte at the position, or the end, and from there on nothing. -/
structure RefusesAt (d : Bytes) (n : Nat) (reason : String) (At : σ → Nat → Prop) : Prop where
  /-- in front of `n` there is a byte, which can be stepped over then, or the end -/
  peek : ∀ {s k}, At s k → k < n → ∃ t, Stepper.peek s = (.ok d[k]?, t) ∧ At t k ∧
    (k < d.length → At (Stepper.advance t) (k + 1))
  /-- from `n` on nothing is shown -/
  refuse : ∀ {s k}, At s k → n ≤ k → ∃ t, Stepper.peek s = (.error reason, t) ∧ At t k

/-- Whether a source has the bytes `xs` in front of it, up to the place where it refuses to go on. -/
def Faces (d : Bytes) (n : Nat) (At : σ → Nat → Prop) (s : Stepwise σ) (xs : Bytes) : Prop :=
  ∃ k, At s.source k ∧ k ≤ n ∧ xs = (d.take n).drop k

variable (h : RefusesAt d n reason At) (hn : n ≤ d.length) {s : σ} {b : UInt8} {xs : Bytes}

include h hn

/-- The next byte is shown. -/
theorem peek_of_faces (hs : Faces d n At ⟨s⟩ (b :: xs)) :
    ∃ t, Stepper.peek s = (.ok (some b), t) ∧ Faces d n At ⟨t⟩ (b :: xs) ∧
      Faces d n At ⟨Stepper.advance t⟩ xs := by
  obtain ⟨k, hat, hle, hxs⟩ := hs
  have hlt : k < n := by
    refine Nat.lt_of_le_of_ne hle ?_
    rintro rfl
    rw [List.drop_take_self] at hxs
    cases hxs
  have hbyte : d[k]? = some b := by
    rw [← List.getElem?_take_of_lt hlt, ← List.head?_drop, ← hxs]
    rfl
  have hrest : xs = (d.take n).drop (k + 1) := by
    rw [← List.tail_drop, ← hxs]
    rfl
  obtain ⟨t, hpeek, ht, hadvance⟩ := h.peek hat hlt
  rw [hbyte] at hpeek
  exact ⟨t, hpeek, ⟨k, ht, hle, hxs⟩, k + 1, hadvance (Nat.lt_of_lt_of_le hlt hn), hlt, hrest⟩

/-- Behind all bytes, the refusal is. -/
theorem peek_of_faces_nil (hs : Faces d n At ⟨s⟩ []) :
    ∃ t, Stepper.peek s = (.error reason, t) ∧ Faces d n At ⟨t⟩ [] := by
  obtain ⟨k, hat, hle, hxs⟩ := hs
  have hend : n ≤ k := by
    rw [eq_comm, List.drop_eq_nil_iff, List.length_take, Nat.min_eq_left hn] at hxs
    exact hxs
  obtain ⟨t, hpeek, ht⟩ := h.refuse hat hend
  exact ⟨t, hpeek, k, ht, hle, hxs⟩

/-- A source that steps byte by byte gives nothing out of a run that meets the refusal. -/
theorem refusing_stepwise : Refusing reason (Faces d n At) where
  peek := by
    rintro ⟨s⟩ b rest hs
    obtain ⟨t, hpeek, ht, hadvance⟩ := peek_of_faces h hn hs
    exact ⟨⟨t⟩, congrArg (Prod.map id Stepwise.mk) hpeek, hadvance, ht⟩
  peek_nil := by
    rintro ⟨s⟩ hs
    obtain ⟨t, hpeek, ht⟩ := peek_of_faces_nil h hn hs
    exact ⟨⟨t⟩, congrArg (Prod.map id Stepwise.mk) hpeek, ht⟩
  takeWhile := by
    rintro ⟨s⟩ xs p hs
    change ∃ t, Stepwise.takeWhile p ⟨s⟩ = _ ∧ _
    induction xs generalizing s with
    | nil =>
      obtain ⟨t, hpeek, ht⟩ := peek_of_faces_nil h hn hs
      exact ⟨⟨t⟩, Stepwise.takeWhile_error hpeek, ht⟩
    | cons b xs ih =>
      obtain ⟨t, hpeek, ht, hadvance⟩ := peek_of_faces h hn hs
      rw [Stepwise.takeWhile_byte hpeek, List.takeWhile_cons, List.dropWhile_cons]
      cases hb : p b with
      | false => exact ⟨⟨t⟩, rfl, ht⟩
      | true =>
        obtain ⟨u, htake, hu⟩ := ih _ hadvance
        refine ⟨u, ?_, hu⟩
        simp only [if_true, htake]

end Stepper

/-! ## The run at a position

In the whole document, the run that goes up to a position can be told from the token around it,
without following the lexer: by the bytes of the token in front of the position. This is what a
statement about the document has to say. -/

/-- The number of bytes in front of a position that belong to a run which the position stands in:
of a string up to its end, and of a number also at its end. For a number at its end the lexer
still has to see that no digit follows. -/
def Lexed.runAt (n : Nat) (l : Lexed) : Nat :=
  match l.token with
  | .name raw | .scalar .string raw => if n < l.stop then Quotation.trailing (raw.take (n - l.start)) else 0
  | .scalar .number raw => if n ≤ l.stop then NumberPart.trailing (raw.take (n - l.start)) else 0
  | .opening _ | .closing _ | .scalar .. => 0

theorem Lexed.runAt_of_string {n : Nat} {l : Lexed} {raw : Bytes}
    (h : l.token = .name raw ∨ l.token = .scalar .string raw) :
    l.runAt n = if n < l.stop then Quotation.trailing (raw.take (n - l.start)) else 0 := by
  rw [runAt]
  rcases h with h | h <;> rw [h]

theorem Lexed.runAt_of_number {n : Nat} {l : Lexed} {raw : Bytes} (h : l.token = .scalar .number raw) :
    l.runAt n = if n ≤ l.stop then NumberPart.trailing (raw.take (n - l.start)) else 0 := by
  rw [runAt, h]

/-- Nothing was read of a token that has not started. -/
theorem Lexed.runAt_eq_zero_of_le {n : Nat} {l : Lexed} (h : n ≤ l.start) : l.runAt n = 0 := by
  rw [runAt, Nat.sub_eq_zero_of_le h]
  split
  all_goals
    try split
    all_goals rfl

/-- What was noted of a token are its bytes up to the position. -/
theorem Lexeme.take_of_prefix {lexeme : Lexeme} {n start : Nat} {raw : Bytes} (hstart : lexeme.start = start)
    (hlength : lexeme.start + lexeme.raw.length = n) (hpre : lexeme.raw <+: raw) :
    raw.take (n - start) = lexeme.raw := by
  rw [← hlength, ← hstart, Nat.add_sub_cancel_left]
  exact (List.prefix_iff_eq_take.1 hpre).symm

namespace Follows

variable {options : Options} {m m' : Midway} {xs : Bytes} {tokens : List Lexed}

/-- A number is given out at a byte behind it. -/
theorem stop_lt_of_number (h : Follows options m xs tokens m') (hm : m.Counted) {l : Lexed}
    (hl : l ∈ tokens) {raw : Bytes} (hraw : l.token = .scalar .number raw) :
    l.stop < m'.lexer.here.offset := by
  induction h with
  | nil => cases hl
  | taken hn hb _ ih =>
    obtain hl | hl := List.mem_append.1 hl
    · have hbefore := Lexer.isBefore_of_number hm (Midway.reads_read ..) (Option.mem_toList.1 hl) hraw
      rw [hb] at hbefore
      cases hbefore
    · exact ih (hm.next hn) hl
  | @before m m' b bytes found lexer tokens hv h ih =>
    obtain rfl | hl := List.mem_cons.1 hl
    · obtain ⟨rfl, _, _, -, -, rfl⟩ := Midway.of_tokenBefore hv
      rw [h.here, Location.offset_along]
      exact Nat.lt_add_of_pos_right (Nat.zero_lt_succ _)
    · exact ih (Midway.counted_gap _) hl

/-- Behind a token that was given out there is no run in it. -/
theorem runAt_eq_zero (h : Follows options m xs tokens m') (hm : m.Counted) (hf : m.Fits options)
    {l : Lexed} (hl : l ∈ tokens) : l.runAt m'.lexer.here.offset = 0 := by
  have hstop := Nat.not_lt_of_le (h.stop_le hf hl)
  rw [Lexed.runAt]
  split
  · exact if_neg hstop
  · exact if_neg hstop
  · next hraw => exact if_neg (Nat.not_le_of_lt (h.stop_lt_of_number hm hl hraw))
  · rfl
  · rfl
  · rfl

end Follows

namespace Midway

variable {options : Options} {m : Midway} {xs : Bytes}

/-- A run inside of a token is the run that is going on. The token that is complete later has the
same bytes in front of the position. -/
theorem runAt_eq_trailing (hm : m.Noted) {l : Lexed} (hl : l ∈ (m.feed options xs).tokens)
    (hpos : 0 < l.runAt m.lexer.here.offset) : l.runAt m.lexer.here.offset = m.unfinished.trailing := by
  have hstart : l.start < m.lexer.here.offset := by
    refine Nat.lt_of_not_le fun hle => ?_
    rw [Lexed.runAt_eq_zero_of_le hle] at hpos
    cases hpos
  obtain ⟨front, tokens, m', more, -, h, hlast, htokens, -⟩ := exists_scan options m xs
  rw [htokens] at hl
  obtain ⟨lexeme, raw, hbecomes, hsame, hpre⟩ := h.becomes_of_start_lt hlast hl hstart
  obtain ⟨lexer, unfinished⟩ := m
  cases unfinished with
  | gap | space => cases hbecomes
  | string isName q lexeme =>
    obtain ⟨rfl, htoken⟩ := Prod.mk.inj (Option.some.inj hbecomes)
    have hstring : l.token = .name raw ∨ l.token = .scalar .string raw := by
      rw [← htoken]
      cases isName
      · exact .inr rfl
      · exact .inl rfl
    rw [Lexed.runAt_of_string hstring, Lexeme.take_of_prefix hsame (hm.string _ _ _ rfl).2 hpre]
      at hpos ⊢
    split at hpos
    · next hstop => rw [if_pos hstop]; rfl
    · cases hpos
  | number part lexeme =>
    obtain ⟨rfl, htoken⟩ := Prod.mk.inj (Option.some.inj hbecomes)
    rw [Lexed.runAt_of_number htoken.symm, Lexeme.take_of_prefix hsame (hm.number _ _ rfl).2 hpre]
      at hpos ⊢
    split at hpos
    · next hstop => rw [if_pos hstop]; rfl
    · cases hpos
  | word kind next more lexeme =>
    obtain ⟨rfl, htoken⟩ := Prod.mk.inj (Option.some.inj hbecomes)
    rw [Lexed.runAt, ← htoken] at hpos
    cases kind with
    | string => exact absurd rfl (hm.noString _ _ _ _ rfl)
    | number => exact absurd rfl (hm.word _ _ _ _ rfl)
    | object | array | boolean | null => cases hpos

/-- The run that is going on is one inside of a token. -/
theorem exists_of_trailing (hm : m.Noted) (hfeed : (m.feed options xs).failure? = none)
    (hpos : 0 < m.unfinished.trailing) :
    ∃ l ∈ (m.feed options xs).tokens, l.runAt m.lexer.here.offset = m.unfinished.trailing := by
  obtain ⟨lexer, unfinished⟩ := m
  cases unfinished with
  | gap | space | word => cases hpos
  | string isName q lexeme =>
    obtain ⟨⟨k, hk⟩, hlength⟩ := hm.string _ _ _ rfl
    have hplain : 0 < k := by
      rwa [Unfinished.trailing, Quotation.trailing_of_idle? hk] at hpos
    obtain rfl := Quotation.eq_plain_of_idle? hk hplain
    obtain ⟨body, rest, rfl, hbody⟩ := Lexer.string_of_feed hfeed
    have hpre : lexeme.raw <+: ((lexeme.append body).push Ascii.quote).raw := by
      rw [Lexeme.raw_push, Lexeme.raw_append, List.append_assoc]
      exact List.prefix_append ..
    have hstop : lexer.here.offset < ((lexer.along body).past Ascii.quote).here.offset := by
      have hbody : (lexer.along body).here.offset = lexer.here.offset + body.length :=
        Location.offset_along ..
      have hquote : ((lexer.along body).past Ascii.quote).here.offset =
          (lexer.along body).here.offset + 1 := Location.offset_past ..
      omega
    have hrun := congrArg Quotation.trailing (Lexeme.take_of_prefix rfl hlength hpre)
    refine ⟨(((lexer.along body).past Ascii.quote).closeString isName
      ((lexeme.append body).push Ascii.quote)).1, ?_, ?_⟩
    · rw [feed, Lexer.feed_string hbody, Lexer.feed_string_end]
      exact List.mem_cons_self
    · cases isName
      · rw [Lexed.runAt_of_string (.inr rfl)]
        exact (if_pos hstop).trans hrun
      · rw [Lexed.runAt_of_string (.inl rfl)]
        exact (if_pos hstop).trans hrun
  | number part lexeme =>
    obtain ⟨more, rest, q, rfl, hmore, hq, hrest⟩ := Lexer.number_of_feed hfeed
    have hpre : lexeme.raw <+: (lexeme.append more).raw := by
      rw [Lexeme.raw_append]
      exact List.prefix_append ..
    have hstop : lexer.here.offset ≤ (lexer.along more).here.offset := by
      have hplace : (lexer.along more).here.offset = lexer.here.offset + more.length :=
        Location.offset_along ..
      omega
    refine ⟨(lexer.along more).numberToken (lexeme.append more), ?_, ?_⟩
    · rw [feed, Lexer.feed_number hmore, Lexer.feed_number_end hq hrest]
      exact List.mem_cons_self
    · rw [Lexed.runAt_of_number rfl]
      exact (if_pos hstop).trans (congrArg NumberPart.trailing
        (Lexeme.take_of_prefix rfl (hm.number _ _ rfl).2 hpre))

end Midway

/-! ## Documents in front of a source that refuses to go on

A valid document is followed up to the position, and the failure of the lexer there is compared
with the run that the document has at the position. -/

namespace Metered

/-- A metered document that stands at a position and refuses to go on at `n`. -/
def RefusedAt (d : Bytes) (n : Nat) (reason : String) (s : Metered) (k : Nat) : Prop :=
  s.position = k ∧ s.rest = d.drop k ∧ s.refusal = some ⟨n, reason⟩

theorem refusesAt (d : Bytes) (n : Nat) (reason : String) :
    Stepper.RefusesAt d n reason (RefusedAt d n reason) where
  peek := by
    rintro s k ⟨rfl, hrest, hrefusal⟩ hlt
    refine ⟨s, ?_, ⟨rfl, hrest, hrefusal⟩, fun _ => ⟨rfl, ?_, hrefusal⟩⟩
    · change (s.peek, s) = _
      rw [peek, hrefusal, refused?, if_neg (Nat.not_le_of_lt hlt), hrest, List.head?_drop]
    · change s.rest.tail = _
      rw [hrest, List.tail_drop]
  refuse := by
    rintro s k ⟨rfl, hrest, hrefusal⟩ hle
    refine ⟨s, ?_, rfl, hrest, hrefusal⟩
    change (s.peek, s) = _
    rw [peek, hrefusal, refused?, if_pos hle]

end Metered

namespace Session

variable {paths : List Path} {options : Options} {d : Bytes} {whole : Session Buffer}

/-- A source that steps byte by byte, and steps over runs in this way, keeps a position in a valid
document and refuses to go on at `n`. The session ends with this failure when the source has come
to `n`. The failure is at `n`, unless a run of a string or a number goes up to `n`: then it is at
the start of the run. All documents and all positions are covered, the end of the document among
them. -/
theorem rest_of_refusesAt {σ : Type} [Stepper σ] {n : Nat} {reason : String} {At : σ → Nat → Prop}
    (h : Stepper.RefusesAt d n reason At) (hn : n ≤ d.length) {source : σ} (hsource : At source 0)
    (hs : ofDocument paths options d = .ok whole) (hvalid : whole.rest.2.failure? = none) :
    ∃ (refused : Session (Stepwise σ)) (offset : Nat),
      start paths options (⟨source⟩ : Stepwise σ) = .ok refused ∧
      refused.rest.2.failure? = some (.unreadable offset reason) ∧
      At refused.rest.2.source.source n ∧
      ((∀ l ∈ (Lexer.initial.scan options (Buffer.mk d)).tokens, l.runAt n = 0) → offset = n) ∧
      ∀ l ∈ (Lexer.initial.scan options (Buffer.mk d)).tokens, 0 < l.runAt n →
        offset = n - l.runAt n := by
  have hread : (Midway.initial.feed options d).failure? = none :=
    (rest_ofDocument hs).2.symm.trans hvalid
  obtain ⟨tokens, m, hfront, rfl, hwhole⟩ := Follows.exists_split hread hn
  have htokens : (Lexer.initial.scan options (Buffer.mk d)).tokens = tokens ++ (m.feed options
      (d.drop m.lexer.here.offset)).tokens := by
    rw [Lexer.scan_buffer]
    exact congrArg Scanned.tokens hwhole
  rw [hwhole] at hread
  have hnoted := hfront.noted (Midway.noted_gap _)
  obtain ⟨refused, hrefused⟩ : ∃ refused, start paths options (⟨source⟩ : Stepwise σ) = .ok refused := by
    rw [start, check_of_ofDocument hs]
    exact ⟨_, rfl⟩
  have hnears : refused.Nears reason (Stepper.Faces d m.lexer.here.offset At) m := by
    rw [start, check_of_ofDocument hs] at hrefused
    cases hrefused
    exact .inl ⟨rfl, _, tokens, ⟨0, hsource, Nat.zero_le _, rfl⟩, hfront⟩
  obtain ⟨hfailure, k, hat, hle, hnil⟩ := rest_of_refusing (Stepper.refusing_stepwise h hn) hnears
  have hend : m.lexer.here.offset ≤ k := by
    rw [eq_comm, List.drop_eq_nil_iff, List.length_take, Nat.min_eq_left hn] at hnil
    exact hnil
  obtain rfl := Nat.le_antisymm hle hend
  refine ⟨refused, _, hrefused, hfailure, hat, fun hzero => ?_, fun l hl hpos => ?_⟩
  · -- a run that is going on would be one of a token
    have hnone : m.unfinished.trailing = 0 := by
      refine Nat.eq_zero_of_not_pos fun hpos => ?_
      obtain ⟨l, hl, hrun⟩ := Midway.exists_of_trailing hnoted hread hpos
      rw [← hrun, hzero l (htokens ▸ List.mem_append_right _ hl)] at hpos
      cases hpos
    rw [hnone, Nat.sub_zero]
  · rw [htokens, List.mem_append] at hl
    obtain hl | hl := hl
    · rw [hfront.runAt_eq_zero (Midway.counted_gap _) (Midway.fits_initial options) hl] at hpos
      cases hpos
    · rw [Midway.runAt_eq_trailing hnoted hl hpos]

/-- A source that refuses to go on in the middle of a string of two bytes. -/
theorem rest_of_refused_string :
    ∃ refused : Session (Stepwise Metered),
      start [.ofLinks "$+" [⟨.selector .root, true⟩]] {}
        (⟨⟨Bytes.ofString r#""ab""#, 0, some ⟨2, "gone"⟩⟩⟩ : Stepwise Metered) = .ok refused ∧
      refused.rest.2.failure? = some (.unreadable 1 "gone") ∧
      refused.rest.2.source.source.position = 2 := by
  obtain ⟨whole, hs⟩ := exists_ofDocument (rfl : ({} : Options).check = .ok ())
    [.ofLinks "$+" [⟨.selector .root, true⟩]] (Bytes.ofString r#""ab""#)
  have hvalid : whole.rest.2.failure? = none := by
    rw [(rest_of_start hs).2]
    decide +kernel
  have htokens : (Lexer.initial.scan {} (Buffer.mk (Bytes.ofString r#""ab""#))).tokens =
      [⟨.scalar .string (Bytes.ofString r#""ab""#), 0, 4⟩] := by
    decide +kernel
  have hsource : Metered.RefusedAt (Bytes.ofString r#""ab""#) 2 "gone"
      ⟨Bytes.ofString r#""ab""#, 0, some ⟨2, "gone"⟩⟩ 0 :=
    ⟨rfl, rfl, rfl⟩
  obtain ⟨refused, offset, hrefused, hfailure, hposition, -, hrun⟩ :=
    rest_of_refusesAt (Metered.refusesAt _ _ _) (by decide) hsource hs hvalid
  rw [htokens] at hrun
  obtain rfl := hrun _ List.mem_cons_self (by decide)
  exact ⟨refused, hrefused, hfailure, hposition.1⟩

end Session

end JsonExtract
