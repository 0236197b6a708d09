import JsonExtract.Proofs.Scan.Acceptance
import JsonExtract.Proofs.Scan.Follow

/-!
# Documents that can still be completed

From every state that fits the settings some bytes lead on to the end of a document: the token that is
being read is completed, a value that is asked for is `null`, and the open containers are closed. None
of this needs room for another container. The one exception is a character that has to be a space, whose
bytes may already be wrong.

* `Lexer.feed_closings` — behind a value all containers can be closed;
* `Lexer.completable_gap` — outside of tokens a document can be completed;
* `Midway.completable` — inside of tokens, too;
* `Follows.exists_extension` — what was read of a document starts one that can be read to its end.
-/

namespace JsonExtract

open Grammar

namespace Lexer

variable {options : Options} {lexer : Lexer}

/-- Some bytes lead on to the end of a document. The bytes may depend on the state, and nothing is
said about which tokens they are. -/
def Completable (options : Options) (lexer : Lexer) (unfinished : Unfinished) : Prop :=
  ∃ rest, (lexer.feed options unfinished rest).failure? = none

/-- What is read leads on to the end if this is so behind it. -/
theorem Completable.of_feed {lexer lexer' : Lexer} {unfinished unfinished' : Unfinished}
    (bytes : Bytes) (tokens : List Lexed)
    (h : ∀ rest, lexer.feed options unfinished (bytes ++ rest) =
      (lexer'.feed options unfinished' rest).prepend tokens)
    (hc : Completable options lexer' unfinished') : Completable options lexer unfinished := by
  obtain ⟨rest, hrest⟩ := hc
  exact ⟨bytes ++ rest, by rw [h]; exact hrest⟩

/-! ## Behind values

Where a value has just ended, the brackets of all open containers may follow, and behind the
last of them the document may end. This needs no room, since brackets only leave containers. -/

/-- The brackets that close all open containers, the innermost first. They are written without
space between them. -/
def closings (lexer : Lexer) : Bytes :=
  lexer.nesting.containers.map Container.closing

theorem mayClose_phaseBehind (c : Container) : MayClose c (phaseBehind (some c)) := by
  cases c <;> exact .inr rfl

/-- Behind a value all containers can be closed. -/
theorem feed_closings (options : Options) (lexer : Lexer) :
    (lexer.afterValue.feed options .gap lexer.closings).failure? = none := by
  generalize hcs : lexer.nesting.containers = cs
  induction cs generalizing lexer with
  | nil =>
    have hdone : lexer.afterValue.phase = .done := by
      rw [afterValue, Nesting.innermost?, hcs]
      rfl
    rw [closings, hcs, List.map_nil, feed_nil_end (by rw [finish, hdone]; rfl)]
  | cons c cs ih =>
    have hc : lexer.nesting.innermost? = some c := by
      rw [Nesting.innermost?, hcs]
      rfl
    have hmay : MayClose c lexer.afterValue.phase := by
      rw [afterValue, hc]
      exact mayClose_phaseBehind c
    have hleave : lexer.nesting.leave.containers = cs := congrArg List.tail hcs
    rw [closings, hcs, List.map_cons]
    obtain ⟨token, -, hfeed⟩ := feed_close options lexer.afterValue hmay (cs.map Container.closing)
    have hrest := ih { lexer.afterValue.past c.closing with nesting := lexer.nesting.leave } hleave
    rw [closings, hleave] at hrest
    rw [hfeed]
    exact hrest

theorem completable_afterValue (options : Options) (lexer : Lexer) :
    Completable options lexer.afterValue .gap :=
  ⟨_, feed_closings options lexer⟩

/-! ## In front of values and names

Elsewhere between two tokens a value is made up where one is asked for: `null` needs no room
either. In front of a name the member `"": null` is made up, and where a colon is missing, the
colon and `null`. All of that leads behind a value. -/

/-- Where a value is asked for, it may be `null`. -/
theorem completable_value (hp : TakesValue options lexer.phase) : Completable options lexer .gap := by
  obtain ⟨rest, hrest⟩ := completable_afterValue options (lexer.along Scalar.null.raw)
  have hends : EndsBefore Scalar.null.raw rest := endsBefore_of_first?_eq_none rfl _ _
  obtain ⟨token, -, hfeed⟩ := feed_scalar (s := .null) trivial hp hends
  exact ⟨Scalar.null.raw ++ rest, by rw [hfeed]; exact hrest⟩

/-- Behind the colon comes a value. -/
theorem completable_beforeMember (options : Options) (lexer : Lexer) (bytes : Bytes) :
    Completable options (lexer.reach .beforeMember bytes) .gap :=
  completable_value trivial

/-- Where a name is asked for, it may be empty. -/
theorem completable_name (hp : TakesName lexer.phase) : Completable options lexer .gap := by
  obtain ⟨rest, hrest⟩ := completable_beforeMember options lexer
    ([] ++ (Bytes.quoted [] ++ ([] ++ [Ascii.colon])))
  obtain ⟨token, -, hfeed⟩ := @feed_member options lexer _ _ _ .nil .nil .nil hp rest
  exact ⟨_, by rw [hfeed]; exact hrest⟩

/-- Outside of tokens a document can be completed. By the phase: each phase asks for a value, for
a name, for a separator, or for the end of a container. -/
theorem completable_gap (hf : Midway.Fits options ⟨lexer, .gap⟩) : Completable options lexer .gap := by
  have hbehind : lexer.phase = phaseBehind lexer.nesting.innermost? → Completable options lexer .gap := by
    intro hp
    have hafter : lexer.afterValue = lexer := by rw [afterValue, ← hp]
    exact hafter ▸ completable_afterValue options lexer
  have hi := hf.innermost
  dsimp only at hi
  cases hp : lexer.phase with
  | start | beforeMember | beforeElement | arrayOpen => exact completable_value (hp ▸ trivial)
  | objectOpen => exact completable_name (.inl hp)
  | beforeName => exact completable_name (.inr hp)
  | afterName =>
    have hcolon : lexer.readStart options Ascii.colon = lexer.separate .beforeMember Ascii.colon := by
      rw [readStart, hp]
      rfl
    exact .of_feed [Ascii.colon] []
      (fun rest => feed_separator .beforeMember hcolon (startsToken_of_lt rfl (by decide)) rest)
      (completable_beforeMember options lexer _)
  | done | afterMember | afterElement =>
    exact hbehind (by rw [hi, hp]; rfl)

/-! ## Inside of tokens

Each automaton for a scalar can reach the end of its token: a string is closed after the bytes
that its escape still needs, a number gets a digit where one is missing, a literal its remaining
letters. The exception is a character that must turn out to be a space, because two of its bytes
may already belong to none. -/

/-- A string can be closed. -/
theorem completable_plain {isName : Bool} {lexeme : Lexeme}
    (hf : Midway.Fits options ⟨lexer, .string isName .plain lexeme⟩) :
    Completable options lexer (.string isName .plain lexeme) :=
  .of_feed [Ascii.quote] _ (fun rest => feed_string_end rest)
    (completable_gap (fits_closeString _ hf.innermost hf.room hf.asked))

/-- A string can be closed if this is so one byte further on. -/
theorem completable_of_next {isName : Bool} {q q' : Quotation} {lexeme : Lexeme} {b : UInt8}
    (hf : Midway.Fits options ⟨lexer, .string isName q lexeme⟩) (hq : q.next b = .ok (some q'))
    (hc : Midway.Fits options ⟨lexer.past b, .string isName q' (lexeme.push b)⟩ →
      Completable options (lexer.past b) (.string isName q' (lexeme.push b))) :
    Completable options lexer (.string isName q lexeme) := by
  have hread := @read_string options lexer isName q q' lexeme b hq
  have hnext : (Midway.read options ⟨lexer, .string isName q lexeme⟩ b).next? =
      some ⟨lexer.past b, .string isName q' (lexeme.push b)⟩ := congrArg Verdict.next? hread
  exact .of_feed [b] [] (fun rest => feed_more hread) (hc (hf.next hnext))

/-- The digits of an escape can be completed, and then the string. Zeros will do for the digits
that are missing. -/
theorem completable_digits {isName : Bool} {more : Nat} {lexeme : Lexeme}
    (hf : Midway.Fits options ⟨lexer, .string isName (.digits more) lexeme⟩) :
    Completable options lexer (.string isName (.digits more) lexeme) := by
  induction more generalizing lexer lexeme with
  | zero => exact completable_of_next (b := Ascii.zero) hf rfl completable_plain
  | succ more ih => exact completable_of_next (b := Ascii.zero) hf rfl ih

theorem completable_string {isName : Bool} {q : Quotation} {lexeme : Lexeme}
    (hf : Midway.Fits options ⟨lexer, .string isName q lexeme⟩) :
    Completable options lexer (.string isName q lexeme) := by
  cases q with
  | plain => exact completable_plain hf
  | escape => exact completable_of_next (b := Ascii.quote) hf rfl completable_plain
  | digits => exact completable_digits hf

/-- No number goes on with a closing bracket. -/
theorem next?_closing (part : NumberPart) (c : Container) : part.next? c.closing = none := by
  cases part <;> cases c <;> decide

/-- A complete number ends in front of a closing bracket, and at the end of a document. -/
theorem feed_number_closings {part : NumberPart} (hp : part.isComplete = true) (lexeme : Lexeme) :
    lexer.feed options (.number part lexeme) lexer.closings =
      (lexer.afterValue.feed options .gap lexer.closings).prepend [lexer.numberToken lexeme] := by
  refine feed_number_end hp fun b hb => ?_
  rw [closings, List.head?_map] at hb
  obtain ⟨c, -, rfl⟩ := Option.map_eq_some_iff.1 hb
  exact next?_closing part c

theorem completable_number (options : Options) (lexer : Lexer) (part : NumberPart)
    (lexeme : Lexeme) : Completable options lexer (.number part lexeme) := by
  obtain ⟨more, q, hrun, hq⟩ := exists_run_isComplete part
  refine .of_feed _ [] (fun rest => feed_number hrun lexeme rest)
    ⟨(lexer.along more).closings, ?_⟩
  rw [feed_number_closings hq]
  exact feed_closings options (lexer.along more)

theorem completable_word (options : Options) (lexer : Lexer) (kind : Kind) (next : UInt8)
    (more : Bytes) (lexeme : Lexeme) : Completable options lexer (.word kind next more lexeme) :=
  .of_feed (next :: more) _ (fun rest => feed_word kind next more lexeme rest)
    (completable_afterValue options _)

end Lexer

namespace Midway

variable {options : Options} {m : Midway}

/-- Whether the bytes read last have to be a space character. -/
def InSpace (m : Midway) : Prop :=
  ∃ start lead seen more, m.unfinished = .space start lead seen more

/-- No token is complete inside of a space character. -/
theorem token?_of_inSpace {m' : Midway} {b : UInt8} (hn : (m.read options b).next? = some m')
    (hb : (m.read options b).isBefore = false) (hs : m'.InSpace) : (m.read options b).token? = none := by
  obtain ⟨start, lead, seen, more, hu⟩ := hs
  cases hv : m.read options b with
  | more => rfl
  | token =>
    rw [hv] at hn
    cases hn
    cases hu
  | tokenBefore => rw [hv] at hb; cases hb
  | error | errorBehind => rfl

/-- In and outside of tokens a document can be completed. No room for a further container is
needed, so the settings may be as narrow as the state allows. -/
theorem completable (hf : m.Fits options) (hs : ¬ m.InSpace) :
    ∃ rest, (m.feed options rest).failure? = none := by
  obtain ⟨lexer, unfinished⟩ := m
  cases unfinished with
  | gap => exact Lexer.completable_gap hf
  | space start lead seen more => exact absurd ⟨start, lead, seen, more, rfl⟩ hs
  | string => exact Lexer.completable_string hf
  | number => exact Lexer.completable_number ..
  | word => exact Lexer.completable_word ..

/-- A document can be completed behind what may be given out at its end. -/
theorem completable_last {more : List Lexed} (hf : m.Fits options) (hs : ¬ m.InSpace)
    (hl : m.Last more) :
    ∃ rest, (m.feed options rest).failure? = none ∧ more <+: (m.feed options rest).tokens := by
  rcases hl with rfl | ⟨part, lexeme, hu, hp, rfl⟩
  · obtain ⟨rest, hrest⟩ := completable hf hs
    exact ⟨rest, hrest, List.nil_prefix⟩
  · refine ⟨m.lexer.closings, ?_⟩
    rw [feed, hu, Lexer.feed_number_closings hp]
    exact ⟨Lexer.feed_closings options m.lexer, List.prefix_append [_] _⟩

end Midway

/-! ## What was read of a document

A document that was followed to some place can be completed from there, if the place is not
inside of a space character. If it is, the document can be completed from the place in front of
the character, which gave the same tokens. -/

namespace Follows

variable {options : Options} {m m' : Midway} {d : Bytes} {tokens more : List Lexed}

/-- Inside of a space character, nothing was read since the byte that leads it. -/
theorem before_space (h : Follows options m d tokens m') (hs : m'.InSpace) :
    m.InSpace ∧ tokens = [] ∨
      ∃ front tokens' m₁ more, front <+: d ∧ Follows options m front tokens' m₁ ∧ ¬ m₁.InSpace ∧
        m₁.Last more ∧ tokens = tokens' ++ more := by
  induction h with
  | nil => exact .inl ⟨hs, rfl⟩
  | @taken m m₁ m₂ b bytes tokens hn hb _ ih =>
    obtain ⟨hspace, rfl⟩ | ⟨front, tokens', m₃, more, hpre, h, hm, hl, rfl⟩ := ih hs
    · have hnone := Midway.token?_of_inSpace hn hb hspace
      by_cases hm : m.InSpace
      · exact .inl ⟨hm, by rw [hnone]; rfl⟩
      · exact .inr ⟨[], [], m, [], List.nil_prefix, .nil, hm, .inl rfl, by rw [hnone]; rfl⟩
    · refine .inr ⟨b :: front, _, m₃, more, List.cons_prefix_cons.2 ⟨rfl, hpre⟩, .taken hn hb h, hm,
        hl, ?_⟩
      rw [List.append_assoc]
  | @before m m₁ b bytes found lexer tokens hv _ ih =>
    obtain ⟨⟨start, lead, seen, more, hu⟩, -⟩ | ⟨front, tokens', m₃, more, hpre, h, hm, hl, rfl⟩ := ih hs
    · cases hu
    · obtain ⟨-, part, lexeme, hu, hp, rfl⟩ := Midway.of_tokenBefore hv
      have hnumber : ¬ m.InSpace := by
        rintro ⟨start, lead, seen, more, hspace⟩
        rw [hu] at hspace
        cases hspace
      cases h with
      | nil =>
        -- nothing was read behind the number either
        obtain rfl | ⟨part', lexeme', hgap, -⟩ := hl
        · exact .inr ⟨[], [], m, _, List.nil_prefix, .nil, hnumber, .inr ⟨_, _, hu, hp, rfl⟩, rfl⟩
        · cases hgap
      | taken hn hb h =>
        obtain ⟨rfl, -⟩ := List.cons_prefix_cons.1 hpre
        exact .inr ⟨_, _, m₃, more, hpre, .before hv (.taken hn hb h), hm, hl, rfl⟩
      | before hv' h =>
        obtain ⟨rfl, -⟩ := List.cons_prefix_cons.1 hpre
        exact .inr ⟨_, _, m₃, more, hpre, .before hv (.before hv' h), hm, hl, rfl⟩

/-- What was followed can be completed, but inside of a space character. -/
theorem exists_completion (h : Follows options m d tokens m') (hf : m.Fits options)
    (hs : ¬ m'.InSpace) : ∃ more, (m.feed options (d ++ more)).failure? = none := by
  obtain ⟨more, hmore⟩ := Midway.completable (h.fits hf) hs
  exact ⟨more, by rw [h.feed]; exact hmore⟩

/-- The tokens that were read of a document start those of one that can be read to its end. -/
theorem exists_extension (h : Follows options m d tokens m') (hf : m.Fits options)
    (hs : ¬ m.InSpace) (hl : m'.Last more) :
    ∃ d', (m.feed options d').failure? = none ∧ tokens ++ more <+: (m.feed options d').tokens := by
  have hextend : ∀ {front tokens m₁ more}, Follows options m front tokens m₁ → ¬ m₁.InSpace →
      m₁.Last more → ∃ d', (m.feed options d').failure? = none ∧
        tokens ++ more <+: (m.feed options d').tokens := by
    intro front tokens m₁ more h hm hl
    obtain ⟨rest, hrest, hpre⟩ := Midway.completable_last (h.fits hf) hm hl
    refine ⟨front ++ rest, ?_, ?_⟩
    · rw [h.feed]
      exact hrest
    · rw [h.feed]
      exact (List.prefix_append_right_inj tokens).2 hpre
  by_cases hm : m'.InSpace
  · obtain ⟨hspace, -⟩ | ⟨front, tokens', m₁, more', -, h', hm₁, hl', rfl⟩ := h.before_space hm
    · exact absurd hspace hs
    · obtain rfl | ⟨part, lexeme, hu, -⟩ := hl
      · rw [List.append_nil]
        exact hextend h' hm₁ hl'
      · obtain ⟨start, lead, seen, n, hspace⟩ := hm
        rw [hu] at hspace
        cases hspace
  · exact hextend h hm hl

end Follows

end JsonExtract
