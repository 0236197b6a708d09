import JsonExtract.Proofs.Document.Compact
import JsonExtract.Proofs.Scan.Cut

/-!
# Tokens are excerpts of their document

A token is what its document has between the two places of the token. If it is a scalar value, it is one of
the grammar, even where the document is at fault behind it.

* `Lexed.Quotes` — a token that is what a document has at its place;
* `Midway.Holds` — the lexer holds what was read of a token;
* `Follows.holds`, `Lexer.quotes_of_feed` — so each token is what was read;
* `Grammar.scalar_of_spells`, `Lexer.scalar_of_feed` — scalar values.
-/

namespace JsonExtract

/-! ## Excerpts

While a token is read, the lexer collects its bytes in a lexeme, together with the place where
it started. The invariant is that the lexeme is what the bytes read so far have from that place
on. It is kept by each byte, and so a token that is complete is a piece of the document. -/

/-- A token is what a document has at the place of the token. -/
def Lexed.Quotes (d : Bytes) (l : Lexed) : Prop :=
  l.stop ≤ d.length ∧ (d.take l.stop).drop l.start = l.token.text

/-- What follows on a token does not matter. -/
theorem Lexed.Quotes.append {d : Bytes} {l : Lexed} (h : l.Quotes d) (more : Bytes) :
    l.Quotes (d ++ more) := by
  refine ⟨Nat.le_trans h.1 (List.length_append ▸ Nat.le_add_right _ _), ?_⟩
  rw [List.take_append_of_le_length h.1]
  exact h.2

/-- A token that ends with what was read. -/
theorem Lexed.quotes_of_drop {d : Bytes} {l : Lexed} (hstop : l.stop = d.length)
    (hdrop : d.drop l.start = l.token.text) : l.Quotes d := by
  refine ⟨Nat.le_of_eq hstop, ?_⟩
  rw [hstop, List.take_length, hdrop]

/-- What was read of the token that is being read. -/
def Unfinished.lexeme? : Unfinished → Option Lexeme
  | string _ _ lexeme | number _ lexeme | word _ _ _ lexeme => some lexeme
  | gap | space .. => none

/-- The state of the lexer behind the first bytes of a document holds what was read of a token.
Between two tokens no lexeme is kept, and only the place is compared. -/
structure Midway.Holds (front : Bytes) (m : Midway) : Prop where
  /-- the place is behind these bytes -/
  offset : m.lexer.here.offset = front.length
  /-- the token starts in them, and goes on to their end -/
  drop : ∀ lexeme, m.unfinished.lexeme? = some lexeme →
    lexeme.start ≤ front.length ∧ front.drop lexeme.start = lexeme.raw

namespace Midway

variable {front : Bytes} {lexer : Lexer} {unfinished : Unfinished} {lexeme : Lexeme}

theorem holds_initial : Midway.initial.Holds [] :=
  ⟨rfl, nofun⟩

/-- Outside of tokens only the place matters. -/
theorem holds_of_none (h : lexer.here.offset = front.length) (hu : unfinished.lexeme? = none) :
    (Midway.mk lexer unfinished).Holds front :=
  ⟨h, by simp [hu]⟩

/-- Inside of a token, its bytes matter, too. -/
theorem holds_of_some (h : lexer.here.offset = front.length) (hu : unfinished.lexeme? = some lexeme)
    (hdrop : lexeme.start ≤ front.length ∧ front.drop lexeme.start = lexeme.raw) :
    (Midway.mk lexer unfinished).Holds front :=
  ⟨h, fun _ hu' => Option.some.inj (hu.symm.trans hu') ▸ hdrop⟩

/-- A token starts with a byte. -/
theorem Holds.first (h : (Midway.mk lexer unfinished).Holds front) (b : UInt8) :
    (lexer.lexeme b).start ≤ (front ++ [b]).length ∧
      (front ++ [b]).drop (lexer.lexeme b).start = (lexer.lexeme b).raw := by
  rw [Lexer.lexeme, Lexeme.start_first, Lexeme.raw_first, h.offset, List.length_append]
  exact ⟨Nat.le_add_right _ _, List.drop_left ..⟩

/-- A token goes on with a byte. -/
theorem Holds.push (h : (Midway.mk lexer unfinished).Holds front) (hu : unfinished.lexeme? = some lexeme)
    (b : UInt8) :
    (lexeme.push b).start ≤ (front ++ [b]).length ∧
      (front ++ [b]).drop (lexeme.push b).start = (lexeme.push b).raw := by
  obtain ⟨hle, hdrop⟩ := h.drop lexeme hu
  rw [Lexeme.start_push, Lexeme.raw_push, List.drop_append_of_le_length hle, hdrop, List.length_append]
  exact ⟨Nat.le_succ_of_le hle, rfl⟩

/-- A number that is complete is what was read of it. -/
theorem Holds.last {m : Midway} {more : List Lexed} (h : m.Holds front) (hlast : m.Last more) :
    ∀ l ∈ more, l.Quotes front := by
  obtain rfl | ⟨part, lexeme, hu, -, rfl⟩ := hlast
  · exact fun l hl => nomatch hl
  · have hdrop := (h.drop lexeme (by rw [hu]; rfl)).2
    exact List.forall_mem_singleton.2 (Lexed.quotes_of_drop h.offset hdrop)

end Midway

namespace Lexer

variable {options : Options} {front : Bytes} {lexer : Lexer} {unfinished : Unfinished} {b : UInt8}
  {v : Verdict} {m' : Midway}

/-- A byte that is taken is held, and completes the token that was read. There is one case for
each thing that a byte can do to a token: begin it, go on with it, end it, or show that it has
ended. -/
theorem holds_of_reads (h : Reads options lexer b unfinished v)
    (hm : (Midway.mk lexer unfinished).Holds front) (hn : v.next? = some m') (hv : v.isBefore = false) :
    m'.Holds (front ++ [b]) ∧ ∀ l ∈ v.token?, l.Quotes (front ++ [b]) := by
  have hpast : (lexer.past b).here.offset = (front ++ [b]).length := by
    rw [List.length_append, ← hm.offset]
    exact Location.offset_past _ _
  cases h
  case tooDeep | fault | spaceFault | spaceFaultBehind => cases hn
  case numberEnd => cases hv
  all_goals cases hn
  -- outside of tokens
  case blank | lead | separator | spaceMore | spaceEnd =>
    exact ⟨Midway.holds_of_none hpast rfl, fun l hl => nomatch hl⟩
  -- a token starts
  case name => exact ⟨Midway.holds_of_some hpast rfl (hm.first b), fun l hl => nomatch hl⟩
  case scalar hu =>
    refine ⟨?_, fun l hl => nomatch hl⟩
    cases hu <;> exact Midway.holds_of_some hpast rfl (hm.first b)
  -- a token goes on
  case string | number | word =>
    exact ⟨Midway.holds_of_some hpast rfl (hm.push rfl b), fun l hl => nomatch hl⟩
  -- a token is complete
  case opening hb _ _ | closing hb _ =>
    subst hb
    refine ⟨Midway.holds_of_none hpast rfl, ?_⟩
    rintro l ⟨⟩
    exact Lexed.quotes_of_drop hpast (hm.first _).2
  case stringEnd isName _ _ =>
    cases isName
    all_goals
      refine ⟨Midway.holds_of_none hpast rfl, ?_⟩
      rintro l ⟨⟩
      exact Lexed.quotes_of_drop hpast (hm.push rfl b).2
  case wordEnd =>
    refine ⟨Midway.holds_of_none hpast rfl, ?_⟩
    rintro l ⟨⟩
    exact Lexed.quotes_of_drop hpast (hm.push rfl b).2

end Lexer

namespace Follows

variable {options : Options} {m m' : Midway} {front xs : Bytes} {tokens : List Lexed}

/-- What is followed is held, and the tokens on the way are what was read. -/
theorem holds (h : Follows options m xs tokens m') (hm : m.Holds front) :
    m'.Holds (front ++ xs) ∧ ∀ l ∈ tokens, l.Quotes (front ++ xs) := by
  induction h generalizing front with
  | nil =>
    rw [List.append_nil]
    exact ⟨hm, fun l hl => nomatch hl⟩
  | @taken m m₁ m₂ b bytes tokens hn hb _ ih =>
    obtain ⟨hnext, htoken⟩ := Lexer.holds_of_reads (Midway.reads_read options m b) hm hn hb
    obtain ⟨hlast, htokens⟩ := ih hnext
    rw [List.append_assoc, List.singleton_append] at hlast htokens
    refine ⟨hlast, fun l hl => ?_⟩
    obtain hl | hl := List.mem_append.1 hl
    · have hquotes := (htoken l (Option.mem_toList.1 hl)).append bytes
      rwa [List.append_assoc, List.singleton_append] at hquotes
    · exact htokens l hl
  | @before m m₁ b bytes found lexer tokens hv _ ih =>
    obtain ⟨rfl, part, lexeme, hu, hp, rfl⟩ := Midway.of_tokenBefore hv
    obtain ⟨hlast, htokens⟩ := ih (Midway.holds_of_none hm.offset rfl)
    refine ⟨hlast, List.forall_mem_cons.2 ⟨?_, htokens⟩⟩
    exact (hm.last (.inr ⟨part, lexeme, hu, hp, rfl⟩) _ (List.mem_singleton_self _)).append _

end Follows

/-! ## Documents

The invariant is carried along the way that reading takes through a document, up to its end or
to the byte at which it is at fault. -/

namespace Lexer

variable {options : Options} {d : Bytes} {l : Lexed}

/-- Each token is what the document has at its place. -/
theorem quotes_of_feed (h : l ∈ (initial.feed options .gap d).tokens) : l.Quotes d := by
  obtain ⟨front, tokens, m', more, ⟨behind, rfl⟩, hfollows, hlast, htokens, -⟩ :=
    Midway.exists_scan options .initial d
  obtain ⟨hholds, hquotes⟩ := hfollows.holds Midway.holds_initial
  rw [List.nil_append] at hholds hquotes
  obtain hl | hl := List.mem_append.1 (htokens ▸ h)
  · exact (hquotes l hl).append behind
  · exact (hholds.last hlast l hl).append behind

end Lexer

/-! ## Scalar values

A scalar that was read is one of the grammar, and this is not known from the automata alone, but
by way of documents: what was read so far can be completed to a document that is read to its
end, such a document is one of the grammar, and its tokens are spelled by the rules. -/

namespace Grammar

variable {wide : Bool}

/-- The scalar tokens of a value that is spelled are those of scalars that can be written. -/
theorem scalar_of_spells {t : Tree} {text : Bytes} {kind : Kind} {raw : Bytes} (h : Spells wide t text)
    (hmem : .scalar kind raw ∈ t.tokens) : ∃ s : Scalar, IsScalar s ∧ s.kind = kind ∧ s.raw = raw := by
  induction t using Tree.induction generalizing text with
  | scalar s =>
    rw [Tree.tokens, List.mem_singleton] at hmem
    cases hmem
    cases h with
    | scalar hs => exact ⟨s, hs, rfl, rfl⟩
  | array elements ih =>
    obtain ⟨e, he, hmem⟩ : ∃ e ∈ elements, .scalar kind raw ∈ e.tokens := by
      simpa [Tree.tokens] using hmem
    cases h with
    | emptyArray => cases he
    | array hbody =>
      obtain ⟨text, htext⟩ := spells_of_spellsElements hbody e he
      exact ih e he htext hmem
  | object members ih =>
    obtain ⟨m, hm, hmem⟩ : ∃ m ∈ members, .scalar kind raw ∈ m.2.tokens := by
      simpa [Tree.tokens] using hmem
    cases h with
    | emptyObject => cases hm
    | object hbody =>
      obtain ⟨-, text, htext⟩ := spells_of_spellsMembers hbody m hm
      exact ih m hm htext hmem

theorem exists_spells_of_isSeries {values : List Tree} {d : Bytes} (h : IsSeries wide values d) {t : Tree}
    (ht : t ∈ values) : ∃ text, Spells wide t text := by
  induction h with
  | nil => cases ht
  | cons _ htext _ _ ih =>
    obtain rfl | ht := List.mem_cons.1 ht
    · exact ⟨_, htext⟩
    · exact ih ht

/-- Each value of a document is spelled. -/
theorem exists_spells_of_reads {options : Options} {values : List Tree} {d : Bytes}
    (h : Reads options values d) {t : Tree} (ht : t ∈ values) :
    ∃ text, Spells options.unicodeSpace t text := by
  rw [Reads] at h
  split at h
  · exact exists_spells_of_isSeries h ht
  · obtain ⟨t', rfl, hdocument⟩ := h
    obtain rfl := List.mem_singleton.1 ht
    cases hdocument with
    | mk _ htext _ => exact ⟨_, htext⟩

end Grammar

namespace Lexer

variable {options : Options} {d : Bytes} {l : Lexed} {kind : Kind} {raw : Bytes}

/-- A scalar value is one of the grammar, even where the document is at fault behind it. A fault
further behind cannot change a token that is complete. -/
theorem scalar_of_feed (h : l ∈ (initial.feed options .gap d).tokens) (hl : l.token = .scalar kind raw) :
    ∃ s : Scalar, Grammar.IsScalar s ∧ s.kind = kind ∧ s.raw = raw := by
  obtain ⟨front, tokens, m', more, -, hfollows, hlast, htokens, -⟩ := Midway.exists_scan options .initial d
  have hspace : ¬ Midway.initial.InSpace := by
    rintro ⟨_, _, _, _, hs⟩
    cases hs
  -- what was read is read of a document without fault, too
  obtain ⟨d', hd', hprefix⟩ := hfollows.exists_extension (Midway.fits_initial options) hspace hlast
  obtain ⟨values, hreads, hdepth⟩ := reads_of_feed hd'
  obtain ⟨tokens', htokens', hfeed⟩ := feed_reads hreads hdepth
  have hmem : l ∈ tokens' := by
    have hl' : l ∈ (Midway.initial.feed options d').tokens := hprefix.subset (htokens ▸ h)
    have hsame : (Midway.initial.feed options d').tokens = tokens' := congrArg Scanned.tokens hfeed
    exact hsame ▸ hl'
  have htoken : .scalar kind raw ∈ values.flatMap Tree.tokens := htokens' ▸ hl ▸ List.mem_map_of_mem hmem
  obtain ⟨t, ht, htoken⟩ := List.mem_flatMap.1 htoken
  obtain ⟨text, hspells⟩ := Grammar.exists_spells_of_reads hreads ht
  exact Grammar.scalar_of_spells hspells htoken

end Lexer

end JsonExtract
