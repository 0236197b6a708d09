import JsonExtract.Proofs.Scan.Follow
import JsonExtract.Proofs.Scan.Number

/-!
# Partway through a document

The bytes that have been read of a number lead the automaton of numbers to the part that the lexer has
noted. So the state of the lexer behind some bytes of a document tells how far its last number has come.
What follows on such a state goes the way that the lexer takes.

* `NumberPart.of?` — the part of a number that some bytes lead to;
* `Midway.Counted`, `Follows.counted` — the lexer notes this part, and every byte of the number;
* `Midway.Fresh` — an exponent that has just begun;
* `Follows.of_more`, `Follows.of_token`, `Follows.of_tokenBefore`, `Follows.not_error` — what is followed
  behind a byte, by what the lexer makes of it;
* `Follows.run` — a run of bytes;
* `Follows.behind` — there is only one way to go.
-/

namespace JsonExtract

/-! ## Numbers that are being read

The part that the lexer has noted for a number is the state that the number's bytes lead to from
the first one on. That ties the state of the lexer to the text of the document, so what can
follow at a place can be told by looking at the bytes in front of it. -/

namespace NumberPart

/-- The part of a number that some bytes lead to, if they start one. -/
def of? : Bytes → Option NumberPart
  | [] => none
  | b :: rest => (first? b).bind (·.run rest)

theorem of?_append {p : NumberPart} {xs : Bytes} (h : of? xs = some p) (ys : Bytes) :
    of? (xs ++ ys) = p.run ys := by
  cases xs with
  | nil => cases h
  | cons b xs =>
    obtain ⟨first, hfirst, hrun⟩ := Option.bind_eq_some_iff.1 h
    rw [List.cons_append, of?, hfirst, Option.bind_some, run_append, hrun, Option.bind_some]

/-- No first byte stands in an exponent. -/
theorem first?_ne_exponent (b : UInt8) : first? b ≠ some exponent := by
  rw [first?]
  repeat' split
  all_goals simp

end NumberPart

/-- Whether a number or a literal that a byte starts is one that starts with this byte. -/
def Verdict.StartedBy (b : UInt8) : Verdict → Prop
  | more (.number part _) _ => NumberPart.first? b = some part
  | more (.word kind next rest _) _ => Lexer.word? b = some (kind, next, rest)
  | more .. | token .. | tokenBefore .. | error _ | errorBehind _ => True

namespace Lexer

variable (options : Options) (lexer : Lexer) (b : UInt8)

theorem startedBy_openContainer (c : Container) : (lexer.openContainer options c).StartedBy b := by
  unfold openContainer
  split <;> trivial

theorem startedBy_readValue : (lexer.readValue options b).StartedBy b := by
  rw [readValue]
  split
  · exact startedBy_openContainer ..
  · split
    · exact startedBy_openContainer ..
    · split
      · trivial
      · split
        · assumption
        · assumption
        · trivial

theorem startedBy_readName : (lexer.readName b).StartedBy b := by
  rw [readName]
  split <;> trivial

theorem startedBy_readStart : (lexer.readStart options b).StartedBy b := by
  rw [readStart]
  repeat' split
  all_goals first
    | exact startedBy_readValue ..
    | exact startedBy_readName ..
    | trivial

theorem startedBy_readGap : (lexer.readGap options b).StartedBy b := by
  rw [readGap]
  split
  · trivial
  · split
    · trivial
    · exact startedBy_readStart ..

/-- No literal is a number. -/
theorem word?_ne_number (next : UInt8) (more : Bytes) : word? b ≠ some (.number, next, more) := by
  rw [word?]
  repeat' split
  all_goals simp

end Lexer

namespace Midway

/-- What the lexer has noted of a scalar value that is being read. Only numbers and literals are
of interest here; strings are noted in more detail elsewhere. -/
structure Counted (m : Midway) : Prop where
  /-- of a number, every byte, and the part that these bytes lead to -/
  number : ∀ part lexeme, m.unfinished = .number part lexeme →
    NumberPart.of? lexeme.raw = some part ∧ lexeme.start + lexeme.raw.length = m.lexer.here.offset
  /-- of a literal, that it is no number -/
  word : ∀ kind next more lexeme, m.unfinished = .word kind next more lexeme → kind ≠ .number

variable {options : Options} {m m' : Midway} {b : UInt8}

theorem counted_gap (lexer : Lexer) : (mk lexer .gap).Counted :=
  ⟨nofun, nofun⟩

theorem Counted.next (h : m.Counted) (hn : (m.read options b).next? = some m') : m'.Counted := by
  have hr := reads_read options m b
  have hstarted := m.lexer.startedBy_readGap options b
  obtain ⟨lexer, unfinished⟩ := m
  have hgap : unfinished = .gap → ((Midway.mk lexer unfinished).read options b).StartedBy b := by
    rintro rfl
    exact hstarted
  generalize (Midway.mk lexer unfinished).read options b = v at hr hn hgap
  have hpast : (lexer.past b).here.offset = lexer.here.offset + 1 := Location.offset_past _ _
  cases hr
  all_goals cases hn
  -- only a byte that starts a number or a literal, or goes on with one, leaves the lexer in one
  case scalar.refl hs =>
    cases hs with
    | string => exact ⟨by rintro _ _ ⟨⟩, by rintro _ _ _ _ ⟨⟩⟩
    | number =>
      refine ⟨?_, by rintro _ _ _ _ ⟨⟩⟩
      rintro _ _ ⟨⟩
      refine ⟨?_, hpast.symm⟩
      rw [Lexer.lexeme, Lexeme.raw_first, NumberPart.of?, show NumberPart.first? b = _ from hgap rfl]
      rfl
    | word =>
      refine ⟨by rintro _ _ ⟨⟩, ?_⟩
      rintro _ _ _ _ ⟨⟩ rfl
      exact Lexer.word?_ne_number _ _ _ (hgap rfl)
  case number.refl hp =>
    refine ⟨?_, by rintro _ _ _ _ ⟨⟩⟩
    rintro _ _ ⟨⟩
    obtain ⟨hpart, hlength⟩ := h.number _ _ rfl
    refine ⟨?_, ?_⟩
    · rw [Lexeme.raw_push, NumberPart.of?_append hpart, NumberPart.run, hp]
      rfl
    · rw [Lexeme.start_push, Lexeme.raw_push, List.length_append, List.length_singleton,
        ← Nat.add_assoc, hlength]
      exact hpast.symm
  case word.refl =>
    refine ⟨by rintro _ _ ⟨⟩, ?_⟩
    rintro _ _ _ _ ⟨⟩
    exact h.word _ _ _ _ rfl
  case stringEnd.refl isName _ _ => cases isName <;> exact counted_gap _
  all_goals exact ⟨by rintro _ _ ⟨⟩, by rintro _ _ _ _ ⟨⟩⟩

/-- Nothing was read of the exponent but its first digit. Such an exponent has had its first digit
and no run yet. -/
def Fresh (m : Midway) : Prop :=
  ∀ lexeme, m.unfinished = .number .exponent lexeme →
    NumberPart.of? lexeme.raw.dropLast ≠ some .exponent

theorem fresh_gap (lexer : Lexer) : (mk lexer .gap).Fresh :=
  nofun

end Midway

/-! ## What is followed behind a byte

A chain of steps is taken apart from its front: its first byte was taken, or a token ended in
front of it, and the lexer's verdict says which. So a run through a document by pulls, with
their runs and looks ahead, can be compared with the chain. -/

namespace Follows

variable {options : Options} {m m' : Midway} {b : UInt8} {xs : Bytes} {tokens : List Lexed}

theorem counted (h : Follows options m xs tokens m') (hm : m.Counted) : m'.Counted := by
  induction h with
  | nil => exact hm
  | taken hn _ _ ih => exact ih (hm.next hn)
  | before _ _ ih => exact ih (Midway.counted_gap _)

/-- A byte that completes nothing. -/
theorem of_more {lexer : Lexer} {unfinished : Unfinished} (h : Follows options m (b :: xs) tokens m')
    (hv : m.read options b = .more unfinished lexer) :
    Follows options ⟨lexer, unfinished⟩ xs tokens m' := by
  cases h with
  | taken hn hb h =>
    rw [hv] at hn ⊢
    cases hn
    exact h
  | before hv' => cases hv.symm.trans hv'

/-- A byte that completes a token. -/
theorem of_token {lexer : Lexer} {found : Lexed} (h : Follows options m (b :: xs) tokens m')
    (hv : m.read options b = .token found lexer) :
    ∃ later, tokens = found :: later ∧ Follows options ⟨lexer, .gap⟩ xs later m' := by
  cases h with
  | taken hn hb h =>
    rw [hv] at hn ⊢
    cases hn
    exact ⟨_, rfl, h⟩
  | before hv' => cases hv.symm.trans hv'

/-- A byte that shows a token to be complete. -/
theorem of_tokenBefore {lexer : Lexer} {found : Lexed} (h : Follows options m (b :: xs) tokens m')
    (hv : m.read options b = .tokenBefore found lexer) :
    ∃ later, tokens = found :: later ∧ Follows options ⟨lexer, .gap⟩ (b :: xs) later m' := by
  cases h with
  | taken hn hb h =>
    rw [hv] at hb
    cases hb
  | before hv' h =>
    cases hv.symm.trans hv'
    exact ⟨_, rfl, h⟩

/-- A byte at which the document is at fault. -/
theorem not_error {e : Failure} (h : Follows options m (b :: xs) tokens m') :
    m.read options b ≠ .error e ∧ m.read options b ≠ .errorBehind e := by
  cases h with
  | taken hn =>
    constructor
    all_goals
      intro hv
      rw [hv] at hn
      cases hn
  | before hv =>
    rw [hv]
    exact ⟨Verdict.noConfusion, Verdict.noConfusion⟩

/-- A run of bytes completes nothing. -/
theorem run {lexer : Lexer} {unfinished : Unfinished} {p : UInt8 → Bool} {run : Bytes}
    (hp : unfinished.run? = some p) (hrun : ∀ b ∈ run, p b = true) :
    Follows options ⟨lexer, unfinished⟩ run [] ⟨lexer.skip run.length, unfinished.absorb run⟩ := by
  induction run generalizing lexer unfinished with
  | nil =>
    rw [Lexer.absorb_nil]
    exact .nil
  | cons b run ih =>
    rw [List.forall_mem_cons] at hrun
    have hread : (Midway.mk lexer unfinished).read options b =
        .more (unfinished.absorb [b]) (lexer.skip 1) :=
      Lexer.read_run options lexer hp hrun.1
    have hrest : Follows options ⟨lexer.skip 1, unfinished.absorb [b]⟩ run [] _ :=
      ih ((Lexer.run?_absorb unfinished [b]).trans hp) hrun.2
    rw [Lexer.skip_skip, Lexer.absorb_absorb, Nat.add_comm 1] at hrest
    have hall := Follows.taken (by rw [hread]; rfl) (by rw [hread]; rfl) hrest
    rwa [hread] at hall

/-- What is followed behind the first bytes goes on from the state that these lead to. Reading is
deterministic, so the way to a place is a part of every longer way. -/
theorem behind {m₁ : Midway} {ys : Bytes} {first : List Lexed} (h : Follows options m xs first m₁)
    (h' : Follows options m (xs ++ ys) tokens m') :
    ∃ later, tokens = first ++ later ∧ Follows options m₁ ys later m' := by
  induction h generalizing tokens with
  | nil => exact ⟨tokens, rfl, h'⟩
  | taken hn hb _ ih =>
    cases h' with
    | taken hn' _ h' =>
      cases hn.symm.trans hn'
      obtain ⟨later, rfl, hlater⟩ := ih h'
      exact ⟨later, (List.append_assoc ..).symm, hlater⟩
    | before hv => rw [hv] at hb; cases hb
  | before hv _ ih =>
    obtain ⟨_, rfl, h''⟩ := of_tokenBefore h' hv
    obtain ⟨later, rfl, hlater⟩ := ih h''
    exact ⟨later, rfl, hlater⟩

end Follows

end JsonExtract
