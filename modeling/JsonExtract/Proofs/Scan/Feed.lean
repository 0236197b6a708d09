import JsonExtract.Cursor.Buffer
import JsonExtract.Token.Pull

/-!
# Reading a whole document

Pulling tokens one after the other, up to the end of the input or the first failure, is what every
extraction does with its document. Over a document in memory this is the same as feeding the bytes
one by one to the automaton, which is the form that proofs about the grammar work with.

* `Scanned`, `Lexer.scan` — the tokens of a document, and what ended it early;
* `Lexer.feed` — the automaton over single bytes;
* `Lexer.scan_buffer` — both read the same.
-/

namespace JsonExtract

/-- What reading a whole document gives. The tokens in front of a failure are kept, for a session
has already acted on them. -/
structure Scanned where
  /-- the tokens, in their order -/
  tokens : List Lexed
  /-- what ended the reading early, if anything did -/
  failure? : Option Failure
  deriving DecidableEq, Repr

namespace Scanned

/-- More tokens in front. -/
def prepend (more : List Lexed) (s : Scanned) : Scanned :=
  { s with tokens := more ++ s.tokens }

/-- The tokens without their places. -/
def plain (s : Scanned) : List Token :=
  s.tokens.map (·.token)

@[simp]
theorem prepend_prepend (xs ys : List Lexed) (s : Scanned) :
    (s.prepend ys).prepend xs = s.prepend (xs ++ ys) := by
  simp [prepend]

@[simp]
theorem tokens_prepend (xs : List Lexed) (s : Scanned) :
    (s.prepend xs).tokens = xs ++ s.tokens := rfl

@[simp]
theorem failure?_prepend (xs : List Lexed) (s : Scanned) :
    (s.prepend xs).failure? = s.failure? := rfl

end Scanned

namespace Lexer

/-! ## Pulling all tokens

`scan` is the reference for whole documents: the tokens that a cursor gives one by one, and what
came instead of a further token. Each token costs a byte, so the recursion ends. -/

section

variable {σ : Type} [Cursor σ]

/-- Pulls tokens up to the end of the input or the first failure. The recursion is on what is left
of the cursor. -/
def scan (options : Options) (lexer : Lexer) (source : σ) : Scanned :=
  match _h : (lexer.pull options source).answer with
  | .error failure => ⟨[], some failure⟩
  | .ok none => ⟨[], none⟩
  | .ok (some token) =>
    let pulled := lexer.pull options source
    (scan options pulled.lexer pulled.source).prepend [token]
termination_by Cursor.left source
decreasing_by exact left_pull_lt _h

/-- Goes on behind one answer. -/
def resume (options : Options) (pulled : Pulled σ) : Scanned :=
  match pulled.answer with
  | .error failure => ⟨[], some failure⟩
  | .ok none => ⟨[], none⟩
  | .ok (some token) => (pulled.lexer.scan options pulled.source).prepend [token]

theorem scan_eq_resume (options : Options) (lexer : Lexer) (source : σ) :
    lexer.scan options source = resume options (lexer.pull options source) := by
  rw [scan, resume]
  split <;> simp_all

end

/-! ## Single bytes

`feed` reads the same from a list of bytes, with a state between any two of them. Statements
about the grammar are proved for `feed`, since there is nothing to see in it but the automaton:
no buffer, no look at the next byte and no runs. -/

/-- A token can end in front of a byte only if one has begun. -/
theorem ne_gap_of_tokenBefore {options : Options} {lexer behind : Lexer} {unfinished : Unfinished}
    {b : UInt8} {token : Lexed}
    (h : lexer.read options unfinished b = .tokenBefore token behind) : unfinished ≠ .gap := by
  rintro rfl
  exact read_gap_ne_tokenBefore h

/-- Feeds bytes one by one to the automaton. A byte that is not taken is fed again behind the
token that ended in front of it. Where a token has ended in front of a byte, the token that is
being read is dropped, so the byte is fed again at most once. -/
def feed (options : Options) (lexer : Lexer) (unfinished : Unfinished) (bytes : Bytes) : Scanned :=
  match bytes with
  | [] =>
    match _h : lexer.finish options unfinished with
    | .error failure => ⟨[], some failure⟩
    | .ok none => ⟨[], none⟩
    | .ok (some (token, behind)) => (feed options behind .gap []).prepend [token]
  | b :: rest =>
    match _h : lexer.read options unfinished b with
    | .more unfinished behind => feed options behind unfinished rest
    | .token token behind => (feed options behind .gap rest).prepend [token]
    | .tokenBefore token behind => (feed options behind .gap (b :: rest)).prepend [token]
    | .error failure => ⟨[], some failure⟩
    | .errorBehind failure => ⟨[], some failure⟩
termination_by (bytes.length, if unfinished = .gap then 0 else 1)
decreasing_by
  · rw [if_pos trivial, if_neg (by rintro rfl; exact finish_gap_ne_some _h)]
    decreasing_tactic
  · decreasing_tactic
  · decreasing_tactic
  · rw [if_pos trivial, if_neg (ne_gap_of_tokenBefore _h)]
    decreasing_tactic

/-! ### Equation lemmas

`feed` is defined by well-founded recursion; these are the equations proofs work with. -/

section

variable {options : Options} {lexer behind : Lexer} {unfinished unfinished' : Unfinished}
  {b : UInt8} {rest : Bytes} {token : Lexed} {e : Failure}

theorem feed_more (h : lexer.read options unfinished b = .more unfinished' behind) :
    lexer.feed options unfinished (b :: rest) = behind.feed options unfinished' rest := by
  rw [feed]
  split <;> simp_all

theorem feed_token (h : lexer.read options unfinished b = .token token behind) :
    lexer.feed options unfinished (b :: rest) =
      (behind.feed options .gap rest).prepend [token] := by
  rw [feed]
  split <;> simp_all

theorem feed_tokenBefore (h : lexer.read options unfinished b = .tokenBefore token behind) :
    lexer.feed options unfinished (b :: rest) =
      (behind.feed options .gap (b :: rest)).prepend [token] := by
  rw [feed]
  split <;> simp_all

theorem feed_error (h : lexer.read options unfinished b = .error e) :
    lexer.feed options unfinished (b :: rest) = ⟨[], some e⟩ := by
  rw [feed]
  split <;> simp_all

theorem feed_errorBehind (h : lexer.read options unfinished b = .errorBehind e) :
    lexer.feed options unfinished (b :: rest) = ⟨[], some e⟩ := by
  rw [feed]
  split <;> simp_all

theorem feed_nil_error (h : lexer.finish options unfinished = .error e) :
    lexer.feed options unfinished [] = ⟨[], some e⟩ := by
  rw [feed]
  split <;> simp_all

theorem feed_nil_end (h : lexer.finish options unfinished = .ok none) :
    lexer.feed options unfinished [] = ⟨[], none⟩ := by
  rw [feed]
  split <;> simp_all

theorem feed_nil_token (h : lexer.finish options unfinished = .ok (some (token, behind))) :
    lexer.feed options unfinished [] = (behind.feed options .gap []).prepend [token] := by
  rw [feed]
  split <;> simp_all

end

/-! ## Runs

A pull takes the bytes of a run in one go and adds them to the lexeme at once. That comes to the
same as reading them one by one, because each of them changes the lexeme and the place and
nothing else. -/

theorem skip_skip (lexer : Lexer) (m n : Nat) : (lexer.skip m).skip n = lexer.skip (m + n) := by
  simp [skip, Location.skip, Nat.add_assoc]

theorem append_append (l : Lexeme) (xs ys : Bytes) :
    (l.append xs).append ys = l.append (xs ++ ys) := by
  simp [Lexeme.append, List.reverseAux_eq]

theorem absorb_absorb (unfinished : Unfinished) (xs ys : Bytes) :
    (unfinished.absorb xs).absorb ys = unfinished.absorb (xs ++ ys) := by
  cases unfinished <;> simp [Unfinished.absorb, append_append]

/-- No bytes change nothing. -/
theorem absorb_nil (unfinished : Unfinished) : unfinished.absorb [] = unfinished := by
  cases unfinished <;> rfl

/-- A run may go on behind its first bytes. -/
theorem run?_absorb (unfinished : Unfinished) (xs : Bytes) :
    (unfinished.absorb xs).run? = unfinished.run? := by
  cases unfinished with
  | string _ quotation _ => cases quotation <;> rfl
  | _ => rfl

/-- Feeding the bytes of a run is the same as taking the run. -/
theorem feed_run {options : Options} {unfinished : Unfinished} {p : UInt8 → Bool}
    (hp : unfinished.run? = some p) (lexer : Lexer) {xs : Bytes} (hxs : ∀ b ∈ xs, p b = true)
    (rest : Bytes) :
    lexer.feed options unfinished (xs ++ rest) =
      (lexer.skip xs.length).feed options (unfinished.absorb xs) rest := by
  induction xs generalizing lexer unfinished with
  | nil => rw [absorb_nil]; rfl
  | cons b xs ih =>
    rw [List.forall_mem_cons] at hxs
    rw [List.cons_append, feed_more (read_run options lexer hp hxs.1),
      ih ((run?_absorb unfinished [b]).trans hp) _ hxs.2, skip_skip, absorb_absorb,
      List.length_cons, Nat.add_comm xs.length, List.singleton_append]

/-- A complete token is there whatever comes next, as long as its run has ended. -/
theorem feed_complete {options : Options} {lexer behind : Lexer} {unfinished : Unfinished}
    {token : Lexed} {rest : Bytes}
    (h : lexer.complete? unfinished = some (token, behind))
    (hrest : ∀ b ∈ rest.head?, Ascii.isDigit b = false) :
    lexer.feed options unfinished rest = (behind.feed options .gap rest).prepend [token] := by
  cases rest with
  | nil => exact feed_nil_token (finish_of_complete? options lexer h)
  | cons b rest => exact feed_tokenBefore (read_of_complete? options lexer h (hrest b rfl))

/-- A token that can be complete takes digits in its run. -/
theorem run?_of_complete? {lexer behind : Lexer} {unfinished : Unfinished} {token : Lexed}
    (h : lexer.complete? unfinished = some (token, behind)) :
    unfinished.run? = some Ascii.isDigit := by
  match unfinished, h with
  | .number .exponent _, _ => rfl

/-! ## Both read the same

The two readings differ in where they stop: a pull stops behind each token and looks at bytes
that it does not take. The proof goes by the number of bytes that are left, and inside of one
pull by the run, the byte that is shown and what the lexer makes of it. -/

/-- The byte behind the longest run that satisfies `p` does not. -/
theorem eq_false_of_mem_head?_dropWhile {p : UInt8 → Bool} {xs : Bytes} {b : UInt8}
    (h : b ∈ (xs.dropWhile p).head?) : p b = false := by
  have hnot := List.head?_dropWhile_not p xs
  rw [Option.mem_def.1 h] at hnot
  exact hnot

/-- Taking a run of a buffer at once changes nothing in what is read, and leaves no byte of the
run behind. The second part is needed for tokens that are complete with their run: what comes
behind is no part of the run. -/
theorem feed_takeRun (options : Options) {lexer lexer' : Lexer}
    {unfinished unfinished' : Unfinished} {source source' : Buffer}
    (h : lexer.takeRun unfinished source = (.ok (lexer', unfinished'), source')) :
    lexer.feed options unfinished source.rest = lexer'.feed options unfinished' source'.rest ∧
      ∀ p, unfinished'.run? = some p → ∀ b ∈ source'.rest.head?, p b = false := by
  rw [takeRun] at h
  split at h
  · next hrun =>
    cases h
    refine ⟨rfl, ?_⟩
    intro p hp
    rw [hrun] at hp
    cases hp
  · next p hp =>
    have hxs : ∀ b ∈ source.rest.takeWhile p, p b = true := List.all_eq_true.1 List.all_takeWhile
    cases h
    refine ⟨?_, ?_⟩
    · calc lexer.feed options unfinished source.rest
          = lexer.feed options unfinished
              (source.rest.takeWhile p ++ source.rest.dropWhile p) := by
            rw [List.takeWhile_append_dropWhile]
        _ = _ := feed_run hp lexer hxs _
    · intro q hq b hb
      rw [run?_absorb, hp] at hq
      cases hq
      exact eq_false_of_mem_head?_dropWhile hb

/-- A buffer never refuses a run. -/
theorem takeRun_buffer_ne_error {lexer : Lexer} {unfinished : Unfinished} {failure : Failure}
    {source source' : Buffer} :
    lexer.takeRun unfinished source ≠ (.error failure, source') := by
  rw [takeRun]
  split
  · simp
  · simp [Cursor.takeWhile, Buffer.takeWhile]

/-- Outside of tokens no run is taken. -/
theorem ne_gap_of_takeRun {σ : Type} [Cursor σ] {lexer lexer' : Lexer}
    {unfinished unfinished' : Unfinished} {source source' : σ}
    (h : lexer.takeRun unfinished source = (.ok (lexer', unfinished'), source'))
    (hne : unfinished' ≠ .gap) : unfinished ≠ .gap := by
  rintro rfl
  cases h
  exact hne rfl

/-- At the end of a buffer nothing is left to feed. -/
theorem feed_of_peek_none (options : Options) {lexer lexer' : Lexer}
    {unfinished unfinished' : Unfinished} {source behind shown : Buffer}
    (hr : lexer.takeRun unfinished source = (.ok (lexer', unfinished'), behind))
    (hp : Cursor.peek behind = (.ok none, shown)) :
    lexer.feed options unfinished source.rest = lexer'.feed options unfinished' [] ∧
      shown.rest = [] := by
  obtain ⟨hnone, rfl⟩ := Prod.mk.inj hp
  have hnil : behind.rest = [] := List.head?_eq_none_iff.1 (Except.ok.inj hnone)
  rw [← hnil]
  exact ⟨(feed_takeRun options hr).1, rfl⟩

/-- The byte that a buffer shows is the next one to feed. -/
theorem feed_of_peek_some (options : Options) {lexer lexer' : Lexer}
    {unfinished unfinished' : Unfinished} {source behind shown : Buffer} {b : UInt8}
    (hr : lexer.takeRun unfinished source = (.ok (lexer', unfinished'), behind))
    (hp : Cursor.peek behind = (.ok (some b), shown)) :
    lexer.feed options unfinished source.rest = lexer'.feed options unfinished' shown.rest ∧
      shown.rest = b :: (Cursor.advance shown).rest ∧
      shown.rest.length ≤ source.rest.length := by
  have hle := left_takeRun_le lexer unfinished source
  rw [hr] at hle
  obtain ⟨hsome, rfl⟩ := Prod.mk.inj hp
  obtain ⟨rest, hrest⟩ := List.head?_eq_some_iff.1 (Except.ok.inj hsome)
  refine ⟨(feed_takeRun options hr).1, ?_, hle⟩
  change behind.rest = b :: behind.rest.tail
  rw [hrest, List.tail_cons]

/-- Going on behind a pull from a buffer is feeding what the pull was asked to read, if this is so
behind fewer than `n` bytes. Only a pull that starts inside of a token may end without a byte. -/
theorem resume_pullFrom {n : Nat} (options : Options)
    (ih : ∀ (lexer : Lexer) (source : Buffer), source.rest.length < n →
      lexer.scan options source = lexer.feed options .gap source.rest)
    (lexer : Lexer) (unfinished : Unfinished) (source : Buffer) (hle : source.rest.length ≤ n)
    (hlt : unfinished ≠ .gap → source.rest.length < n) :
    resume options (pullFrom options lexer unfinished source) =
      lexer.feed options unfinished source.rest := by
  -- one step of `pullFrom` takes a run and looks at the byte behind it; `ih` takes over behind a token
  fun_induction pullFrom options lexer unfinished source with
  | case1 _ _ _ _ _ hr => exact absurd hr takeRun_buffer_ne_error
  | case2 lexer unfinished source lexer₁ unfinished₁ behind hr token lexer₂ hc =>
    obtain ⟨hfeed, hrun⟩ := feed_takeRun options hr
    have hlen := left_takeRun_le lexer unfinished source
    rw [hr] at hlen
    have hne : unfinished₁ ≠ .gap := by
      rintro rfl
      cases hc
    rw [hfeed, feed_complete hc (hrun _ (run?_of_complete? hc)), resume,
      ih _ _ (Nat.lt_of_le_of_lt hlen (hlt (ne_gap_of_takeRun hr hne)))]
  | case3 _ _ _ _ _ _ _ _ _ _ hp => cases hp
  | case4 lexer unfinished source lexer₁ unfinished₁ behind hr _ shown hp failure hf =>
    rw [(feed_of_peek_none options hr hp).1, feed_nil_error hf, resume]
  | case5 lexer unfinished source lexer₁ unfinished₁ behind hr _ shown hp hf =>
    rw [(feed_of_peek_none options hr hp).1, feed_nil_end hf, resume]
  | case6 lexer unfinished source lexer₁ unfinished₁ behind hr _ shown hp token lexer₂ hf =>
    obtain ⟨hfeed, hnil⟩ := feed_of_peek_none options hr hp
    have hne : unfinished₁ ≠ .gap := by
      rintro rfl
      exact finish_gap_ne_some hf
    have hlen : shown.rest.length < n := by
      have := hlt (ne_gap_of_takeRun hr hne)
      rw [hnil, List.length_nil]
      omega
    rw [hfeed, feed_nil_token hf, resume, ih _ _ hlen, hnil]
  | case7 lexer unfinished source lexer₁ unfinished₁ behind hr _ b shown hp _ lexer₂ hread ih' =>
    obtain ⟨hfeed, hrest, hlen⟩ := feed_of_peek_some options hr hp
    rw [hrest, List.length_cons] at hlen
    rw [hfeed, hrest, feed_more hread]
    exact ih' (by omega) fun _ => by omega
  | case8 lexer unfinished source lexer₁ unfinished₁ behind hr _ b shown hp token lexer₂ hread =>
    obtain ⟨hfeed, hrest, hlen⟩ := feed_of_peek_some options hr hp
    have hfewer : (Cursor.advance shown).rest.length < n := by
      rw [hrest, List.length_cons] at hlen
      omega
    rw [hfeed, hrest, feed_token hread, resume, ih _ _ hfewer]
  | case9 lexer unfinished source lexer₁ unfinished₁ behind hr _ b shown hp token lexer₂ hread =>
    obtain ⟨hfeed, hrest, hlen⟩ := feed_of_peek_some options hr hp
    have hfewer : shown.rest.length < n :=
      Nat.lt_of_le_of_lt hlen (hlt (ne_gap_of_takeRun hr (ne_gap_of_tokenBefore hread)))
    rw [hfeed, hrest, feed_tokenBefore hread, resume, ih _ _ hfewer, ← hrest]
  | case10 lexer unfinished source lexer₁ unfinished₁ behind hr _ b shown hp failure hread =>
    obtain ⟨hfeed, hrest, -⟩ := feed_of_peek_some options hr hp
    rw [hfeed, hrest, feed_error hread, resume]
  | case11 lexer unfinished source lexer₁ unfinished₁ behind hr _ b shown hp failure hread =>
    obtain ⟨hfeed, hrest, -⟩ := feed_of_peek_some options hr hp
    rw [hfeed, hrest, feed_errorBehind hread, resume]

/-- Pulling tokens from a document in memory is feeding its bytes one by one. Every theorem about
`feed` thereby becomes one about sessions over documents in memory. -/
theorem scan_buffer (options : Options) (lexer : Lexer) (source : Buffer) :
    lexer.scan options source = lexer.feed options .gap source.rest := by
  induction hn : source.rest.length using Nat.strongRecOn generalizing lexer source with
  | _ n ih =>
    rw [scan_eq_resume, pull]
    exact resume_pullFrom options (fun lexer source hlt => ih _ hlt lexer source rfl) lexer .gap
      source (Nat.le_of_eq hn) fun h => absurd rfl h

end Lexer

end JsonExtract
