import JsonExtract.Proofs.Extraction.Progress
import JsonExtract.Proofs.Scan.Completion

/-!
# Documents that are cut off

What is read of a document that is cut off at some place, or at fault there, are the tokens that end in
front of the place. A number is the exception: it may end only at the byte behind it, so a place inside
of a number may stand behind a shorter one.

* `Midway.exists_scan` — what is read of any bytes, and where reading them fails;
* `Lexed.Row.sorted`, `Midway.row_feed`, `Lexer.row_scan` — tokens are in order;
* `Midway.exists_later` — tokens end behind the place at which reading starts;
* `Midway.place_of_malformed` — and in front of the place at which it fails;
* `Follows.exists_split`, `Follows.exists_take`, `Follows.upTo_tokens` — a whole document at some place in
  it;
* `Lexer.tokens_of_cut` — the tokens of a document that is cut off.
-/

namespace JsonExtract

/-! ## The order of tokens

Tokens in a row start and end in order, and each ends in front of where the next one starts. So
those that end in front of a given place are the first ones. -/

namespace Lexed.Row

variable {first last : Nat} {tokens : List Lexed}

theorem mem (h : Row first tokens last) {l : Lexed} (hl : l ∈ tokens) :
    first ≤ l.start ∧ l.start < l.stop ∧ l.stop ≤ last := by
  induction tokens generalizing first with
  | nil => cases hl
  | cons token tokens ih =>
    obtain ⟨hfirst, hlt, hrest⟩ := h
    rcases List.mem_cons.1 hl with rfl | hl
    · exact ⟨hfirst, hlt, hrest.le⟩
    · obtain ⟨hle, hl⟩ := ih hrest hl
      exact ⟨Nat.le_trans hfirst (Nat.le_trans (Nat.le_of_lt hlt) hle), hl⟩

theorem sorted (h : Row first tokens last) : Sorted tokens := by
  induction tokens generalizing first with
  | nil => exact .nil
  | cons token tokens ih =>
    obtain ⟨-, hlt, hrest⟩ := h
    refine .cons (fun l hl => ?_) (ih hrest)
    obtain ⟨hle, hl, -⟩ := hrest.mem hl
    omega

end Lexed.Row

/-! ## Reading some bytes

Whatever the bytes are, there is a first part that can be followed and a reason why reading goes
no further: the end of the bytes, or a byte at fault. Every token stands inside of the part that
was followed, and behind the place at which reading started, with the one exception that a
number is only seen to end at the next byte. -/

namespace Midway

variable {options : Options} {m m' : Midway} {xs : Bytes}

/-- A number that is complete stands in front of the next byte. Its last byte is the one in front
of the place. -/
theorem Last.row {more : List Lexed} (h : m.Last more) (hf : m.Fits options) :
    Lexed.Row m.start more m.lexer.here.offset := by
  obtain rfl | ⟨part, lexeme, hu, -, rfl⟩ := h
  · exact start_le hf
  · have hstart : m.start = lexeme.start := by rw [start, hu]; rfl
    have hbegun := hf.begun (by rw [hu]; exact Unfinished.noConfusion)
    exact ⟨Nat.le_of_eq hstart, hstart.symm.trans_lt hbegun, Nat.le_refl _⟩

/-- Bytes are followed to their end, or to one that is at fault; a number may be given out there. -/
theorem exists_scan (options : Options) (m : Midway) (xs : Bytes) :
    ∃ front tokens m' more, front <+: xs ∧ Follows options m front tokens m' ∧ m'.Last more ∧
      (m.feed options xs).tokens = tokens ++ more ∧
      ∀ e, (m.feed options xs).failure? = some (.malformed e) →
        e.location.offset = m'.lexer.here.offset ∨
          m'.InSpace ∧ e.location.offset = m'.start := by
  obtain ⟨tokens, m', h⟩ | ⟨front, b, behind, tokens, m', more, e, rfl, h, hstops⟩ :=
    follows_or_stops options m xs
  · obtain ⟨more, failure?, hends⟩ := ends options m'
    have hfeed : m.feed options xs = ⟨tokens ++ more, failure?⟩ := by
      rw [← List.append_nil xs, h.feed, hends.feed]
      rfl
    refine ⟨xs, tokens, m', more, List.prefix_refl _, h, hends.last, by rw [hfeed], fun e he => ?_⟩
    rw [hfeed] at he
    obtain he | ⟨start, lead, seen, n, hu, he⟩ := hends.blames _ he
    · cases he
      exact .inl rfl
    · cases he
      exact .inr ⟨⟨_, _, _, _, hu⟩, by rw [Midway.start, hu]; rfl⟩
  · have hfeed : m.feed options (front ++ b :: behind) = ⟨tokens ++ more, some e⟩ := by
      rw [h.feed, hstops.feed]
      rfl
    refine ⟨front, tokens, m', more, List.prefix_append .., h, hstops.last, by rw [hfeed], fun e' he => ?_⟩
    rw [hfeed] at he
    cases he
    cases hstops.blames with
    | here => exact .inl rfl
    | space hu => exact .inr ⟨⟨_, _, _, _, hu⟩, by rw [Midway.start, hu]; rfl⟩

/-- What is read of some bytes stands in their order, and in front of their end. -/
theorem row_feed (hf : m.Fits options) (xs : Bytes) :
    Lexed.Row m.start (m.feed options xs).tokens (m.lexer.here.offset + xs.length) := by
  obtain ⟨front, tokens, m', more, hfront, h, hlast, htokens, -⟩ := exists_scan options m xs
  have hend : Lexed.Row m'.lexer.here.offset [] (m.lexer.here.offset + xs.length) := by
    rw [h.here, Location.offset_along]
    exact Nat.add_le_add_left hfront.length_le _
  have hrow := ((h.row hf).append (hlast.row (h.fits hf))).append hend
  rwa [List.append_nil, ← htokens] at hrow

end Midway

namespace Lexer

variable {options : Options} {lexer : Lexer} {unfinished : Unfinished} {b : UInt8} {v : Verdict}

/-- A token that ends with a byte ends behind it. -/
theorem stop_of_reads (h : Reads options lexer b unfinished v) (hb : v.isBefore = false)
    {l : Lexed} (hl : v.token? = some l) : l.stop = lexer.here.offset + 1 := by
  have hpast : ∀ b, (lexer.past b).here.offset = lexer.here.offset + 1 :=
    fun b => Location.offset_past _ _
  cases h
  case opening | closing | wordEnd => cases hl; exact hpast _
  case stringEnd isName _ _ => cases isName <;> cases hl <;> exact hpast _
  case numberEnd => cases hb
  all_goals cases hl

end Lexer

namespace Follows

variable {options : Options} {m m' : Midway} {xs : Bytes} {tokens more : List Lexed}

/-- A token on the way ends at most where the way does. -/
theorem stop_le (h : Follows options m xs tokens m') (hf : m.Fits options) {l : Lexed}
    (hl : l ∈ tokens) : l.stop ≤ m'.lexer.here.offset :=
  Nat.le_trans ((h.row hf).mem hl).2.2 (Midway.start_le (h.fits hf))

/-- All tokens end behind the place at which reading starts, but for a number that ends there. A
number ends at the place if the first byte read shows that it is complete. -/
theorem exists_later (h : Follows options m xs tokens m') (hlast : m'.Last more) :
    ∃ first later, tokens ++ more = first ++ later ∧ m.Last first ∧
      ∀ l ∈ later, m.lexer.here.offset < l.stop := by
  induction h with
  | nil => exact ⟨more, [], (List.append_nil _).symm, hlast, fun l hl => by cases hl⟩
  | @taken m m₁ m₂ b bytes tokens hn hb _ ih =>
    obtain ⟨first, later, hsplit, hfirst, hlater⟩ := ih hlast
    have hhere := Midway.offset_next hn hb
    refine ⟨[], (m.read options b).token?.toList ++ (first ++ later), ?_, .inl rfl, fun l hl => ?_⟩
    · rw [List.append_assoc, hsplit, List.nil_append]
    rw [List.mem_append, List.mem_append, Option.mem_toList] at hl
    rcases hl with hl | hl | hl
    · rw [Lexer.stop_of_reads (Midway.reads_read options m b) hb hl]
      exact Nat.lt_succ_self _
    · obtain rfl | ⟨part, lexeme, -, -, rfl⟩ := hfirst
      · cases hl
      · obtain rfl := List.mem_singleton.1 hl
        exact (Nat.lt_succ_self _).trans_eq hhere.symm
    · exact Nat.lt_trans ((Nat.lt_succ_self _).trans_eq hhere.symm) (hlater l hl)
  | @before m m₁ b bytes found lexer tokens hv _ ih =>
    obtain ⟨first, later, hsplit, hfirst, hlater⟩ := ih hlast
    obtain ⟨rfl, part, lexeme, hu, hp, rfl⟩ := Midway.of_tokenBefore hv
    obtain rfl | ⟨part', lexeme', hgap, -⟩ := hfirst
    · exact ⟨[_], later, by rw [List.cons_append, hsplit]; rfl, .inr ⟨_, _, hu, hp, rfl⟩, hlater⟩
    · cases hgap

/-- The first bytes of what is read without a failure are followed. -/
theorem exists_of_feed {rest : Bytes} (h : (m.feed options (xs ++ rest)).failure? = none) :
    ∃ tokens m', Follows options m xs tokens m' := by
  obtain h' | ⟨front, b, behind, tokens, m', more, e, rfl, h', hstops⟩ :=
    Midway.follows_or_stops options m xs
  · exact h'
  · rw [List.append_assoc, List.cons_append, h'.feed, hstops.feed] at h
    cases h

/-- A space character that is not complete starts behind the place at which reading starts, unless
that is inside of the character. -/
theorem start_of_inSpace (h : Follows options m xs tokens m') (hs : m'.InSpace) :
    m.InSpace ∧ m'.start = m.start ∨ m.lexer.here.offset ≤ m'.start := by
  induction h with
  | nil => exact .inl ⟨hs, rfl⟩
  | @taken m m₁ m₂ b bytes tokens hn hb h ih =>
    have hr := Midway.reads_read options m b
    have hhere := Midway.offset_next hn hb
    obtain ⟨⟨start, lead, seen, more, hu⟩, hstart⟩ | hle := ih hs
    · obtain ⟨lexer, unfinished⟩ := m
      obtain ⟨lexer₁, unfinished₁⟩ := m₁
      subst hu
      rw [hstart]
      -- the byte leads the character, or goes on with it
      generalize (Midway.mk lexer unfinished).read options b = v at hr hn
      cases hr
      all_goals cases hn
      case lead.refl => exact .inr (Nat.le_refl _)
      case scalar.refl hu => cases hu
      case spaceMore.refl => exact .inl ⟨⟨_, _, _, _, rfl⟩, rfl⟩
    · exact .inr (Nat.le_trans (Nat.le_trans (Nat.le_succ _) (Nat.le_of_eq hhere.symm)) hle)
  | @before m m₁ b bytes found lexer tokens hv _ ih =>
    obtain ⟨rfl, -⟩ := Midway.of_tokenBefore hv
    obtain ⟨⟨_, _, _, _, hgap⟩, -⟩ | hle := ih hs
    · cases hgap
    · exact .inr hle

end Follows

namespace Midway

variable {options : Options} {m : Midway} {xs : Bytes}

/-- What is read of some bytes ends behind the place at which reading starts, but for a number that ends
there. -/
theorem exists_later (options : Options) (m : Midway) (xs : Bytes) :
    ∃ first later, (m.feed options xs).tokens = first ++ later ∧ m.Last first ∧
      ∀ l ∈ later, m.lexer.here.offset < l.stop := by
  obtain ⟨front, tokens, m', more, -, h, hlast, htokens, -⟩ := exists_scan options m xs
  rw [htokens]
  exact h.exists_later hlast

/-- What is read of a malformed document ends in front of its fault, and that stands behind the
place at which reading starts, unless that is inside of a space character. A space character that
turns out to be another character is at fault at its first byte, which may have been read before. -/
theorem place_of_malformed {e : SyntaxError} (hf : m.Fits options)
    (he : (m.feed options xs).failure? = some (.malformed e)) :
    (∀ l ∈ (m.feed options xs).tokens, l.stop ≤ e.location.offset) ∧
      (¬ m.InSpace → m.lexer.here.offset ≤ e.location.offset) := by
  obtain ⟨front, tokens, m', more, -, h, hlast, htokens, hplace⟩ := exists_scan options m xs
  have hrow := h.row hf
  have hhere : m'.lexer.here.offset = m.lexer.here.offset + front.length := by
    rw [h.here, Location.offset_along]
  rw [htokens]
  obtain hplace | ⟨hspace, hplace⟩ := hplace e he
  · refine ⟨fun l hl => ?_, fun _ => by omega⟩
    exact hplace ▸ ((hrow.append (hlast.row (h.fits hf))).mem hl).2.2
  · refine ⟨fun l hl => ?_, fun hm => ?_⟩
    · obtain rfl | ⟨part, lexeme, hu, -⟩ := hlast
      · rw [List.append_nil] at hl
        exact hplace ▸ (hrow.mem hl).2.2
      · obtain ⟨start, lead, seen, n, hs⟩ := hspace
        cases hu.symm.trans hs
    · obtain ⟨hin, -⟩ | hle := h.start_of_inSpace hspace
      · exact absurd hin hm
      · exact hplace ▸ hle

end Midway

/-! ## Cutting off

Two documents that agree up to a place are followed to the same state there. What a whole
document gives beyond that state ends behind the place. A document that is cut off there, or at
fault, gives nothing beyond it, except for a number that is complete; and if the place is not
inside of a number, then the whole document has the same number. -/

namespace Midway

variable {options : Options} {m : Midway} {xs : Bytes}

/-- The number that is read if the document ends here. -/
def ready (m : Midway) : List Lexed :=
  match m.unfinished with
  | .number part lexeme => if part.isComplete then [m.lexer.numberToken lexeme] else []
  | .gap | .space .. | .string .. | .word .. => []

theorem last_ready (m : Midway) : m.Last m.ready := by
  obtain ⟨lexer, unfinished⟩ := m
  cases unfinished with
  | number part lexeme =>
    cases hp : part.isComplete with
    | true => exact .inr ⟨part, lexeme, rfl, hp, if_pos hp⟩
    | false => exact .inl (if_neg (by rw [hp]; exact Bool.false_ne_true))
  | gap | space | string | word => exact .inl rfl

/-- Nothing else is read at the end of the document. -/
theorem tokens_feed_nil (options : Options) (m : Midway) : (m.feed options []).tokens = m.ready := by
  have hgap : ∀ lexer, ((mk lexer .gap).feed options []).tokens = [] := by
    intro lexer
    obtain ⟨failure?, hfeed, -⟩ := ends_gap options lexer
    rw [hfeed]
  obtain ⟨lexer, unfinished⟩ := m
  cases unfinished with
  | gap => exact hgap lexer
  | space | string | word =>
    rw [feed, Lexer.feed_nil_error rfl]
    rfl
  | number part lexeme =>
    cases hp : part.isComplete with
    | true =>
      have hready : (mk lexer (.number part lexeme)).ready = [lexer.numberToken lexeme] := if_pos hp
      rw [hready, feed, Lexer.feed_nil_token (by rw [Lexer.finish, if_pos hp]),
        Scanned.tokens_prepend]
      exact congrArg (_ :: ·) (hgap lexer.afterValue)
    | false =>
      have hnot : ¬ part.isComplete = true := Bool.eq_false_iff.1 hp
      rw [feed, Lexer.feed_nil_error (by rw [Lexer.finish, if_neg hnot])]
      exact (if_neg hnot).symm

/-- A number that is being read ends in front of some bytes. The first of the bytes is one with
which the number cannot go on, or there is none. -/
def NumberEnds (m : Midway) (xs : Bytes) : Prop :=
  ∀ part lexeme, m.unfinished = .number part lexeme →
    part.isComplete = true ∧ ∀ c ∈ xs.head?, part.next? c = none

/-- In front of such bytes the number is read, and what is read of them ends behind it. -/
theorem NumberEnds.exists_later (h : m.NumberEnds xs) (options : Options) :
    ∃ later, (m.feed options xs).tokens = m.ready ++ later ∧
      ∀ l ∈ later, m.lexer.here.offset < l.stop := by
  obtain ⟨first, later, hsplit, hfirst, hlater⟩ := Midway.exists_later options m xs
  refine ⟨later, ?_, hlater⟩
  obtain ⟨lexer, unfinished⟩ := m
  obtain rfl | ⟨part, lexeme, hu, hp, rfl⟩ := hfirst
  -- were no number read first, it would be read later and end behind itself
  · cases unfinished with
    | number part lexeme =>
      obtain ⟨hp, hxs⟩ := h part lexeme rfl
      rw [feed, Lexer.feed_number_end hp hxs] at hsplit
      obtain rfl : _ = later := hsplit
      exact absurd (hlater _ List.mem_cons_self) (Nat.lt_irrefl _)
    | gap | space | string | word => exact hsplit
  · subst hu
    have hready : (mk lexer (.number part lexeme)).ready = [lexer.numberToken lexeme] := if_pos hp
    rw [hsplit, hready]

/-- A number ends at the place where reading starts, unless the place is inside of it. -/
theorem numberEnds_of_feed (hf : m.Fits options) (h : (m.feed options xs).failure? = none)
    (hn : ∀ l ∈ (m.feed options xs).tokens, ∀ raw, l.token = .scalar .number raw →
      l.start < m.lexer.here.offset → l.stop ≤ m.lexer.here.offset) : m.NumberEnds xs := by
  obtain ⟨lexer, unfinished⟩ := m
  rintro part lexeme rfl
  obtain ⟨more, rest, q, rfl, hrun, hq, hrest⟩ := Lexer.number_of_feed h
  have hfeed : (mk lexer (.number part lexeme)).feed options (more ++ rest) =
      ((lexer.along more).afterValue.feed options .gap rest).prepend
        [(lexer.along more).numberToken (lexeme.append more)] := by
    rw [feed, Lexer.feed_number hrun, Lexer.feed_number_end hq hrest]
  rw [hfeed] at hn
  have hbegun := hf.begun Unfinished.noConfusion
  have hstop := hn _ List.mem_cons_self _ rfl hbegun
  have hoffset : (lexer.along more).here.offset = lexer.here.offset + more.length :=
    Location.offset_along ..
  obtain rfl : more = [] := by
    rw [← List.length_eq_zero_iff]
    change (lexer.along more).here.offset ≤ lexer.here.offset at hstop
    omega
  cases hrun
  exact ⟨hq, hrest⟩

/-- Where a document ends, or is at fault, nothing is read but a number that ends there. -/
theorem tokens_of_cut (hf : m.Fits options)
    (hp : ∀ part lexeme, m.unfinished = .number part lexeme → part.isComplete = true)
    (h : xs = [] ∨ ∃ e, (m.feed options xs).failure? = some (.malformed e) ∧
      e.location.offset = m.lexer.here.offset) :
    (m.feed options xs).tokens = m.ready := by
  obtain rfl | ⟨e, he, hplace⟩ := h
  · exact tokens_feed_nil options m
  have hends : m.NumberEnds xs := by
    intro part lexeme hu
    refine ⟨hp part lexeme hu, fun c hc => ?_⟩
    cases hnext : part.next? c with
    | none => rfl
    | some part' =>
      -- the number would go on, and the fault would be found behind the byte
      obtain ⟨rest, rfl⟩ : ∃ rest, xs = c :: rest := List.head?_eq_some_iff.1 hc
      have hread : m.read options c = .more (.number part' (lexeme.push c)) (m.lexer.past c) := by
        simp [read, hu, Lexer.read, Lexer.readNumber, hnext]
      have hfeed : m.feed options (c :: rest) =
          (mk (m.lexer.past c) (.number part' (lexeme.push c))).feed options rest :=
        Lexer.feed_more hread
      rw [hfeed] at he
      have hlater := (place_of_malformed (hf.next (by rw [hread]; rfl)) he).2
        (by rintro ⟨_, _, _, _, hspace⟩; cases hspace)
      have hpast : (m.lexer.past c).here.offset = m.lexer.here.offset + 1 :=
        Location.offset_past _ _
      change (m.lexer.past c).here.offset ≤ _ at hlater
      omega
  have hle : ∀ l ∈ (m.feed options xs).tokens, l.stop ≤ m.lexer.here.offset :=
    hplace ▸ (place_of_malformed hf he).1
  obtain ⟨later, htokens, hlater⟩ := hends.exists_later options
  have hnone : later = [] := List.eq_nil_iff_forall_not_mem.2 fun l hl =>
    absurd (hle l (htokens ▸ List.mem_append_right _ hl)) (Nat.not_le_of_lt (hlater l hl))
  rw [htokens, hnone, List.append_nil]

end Midway

namespace Follows

variable {options : Options}

/-- The tokens up to a place that was followed to are those read on the way, and a number that ends
there. -/
theorem upTo_tokens {m : Midway} {front xs : Bytes} {tokens : List Lexed}
    (h : Follows options .initial front tokens m) (hends : m.NumberEnds xs) :
    Lexed.upTo m.lexer.here.offset (Midway.initial.feed options (front ++ xs)).tokens =
      tokens ++ m.ready := by
  have hfits := Midway.fits_initial options
  have hrow := (h.row hfits).append (m.last_ready.row (h.fits hfits))
  obtain ⟨later, htokens, hlater⟩ := hends.exists_later options
  rw [h.feed, Scanned.tokens_prepend, htokens, ← List.append_assoc, Lexed.upTo_append,
    Lexed.upTo_eq_self fun l hl => (hrow.mem hl).2.2, Lexed.upTo_eq_nil hlater, List.append_nil]

/-- A document that is read to its end is followed to every place in it. -/
theorem exists_split {d : Bytes} {n : Nat} (hd : (Midway.initial.feed options d).failure? = none)
    (hle : n ≤ d.length) :
    ∃ tokens m, Follows options .initial (d.take n) tokens m ∧ m.lexer.here.offset = n ∧
      Midway.initial.feed options d = (m.feed options (d.drop n)).prepend tokens := by
  rw [← List.take_append_drop n d] at hd
  obtain ⟨tokens, m, hfront⟩ := exists_of_feed hd
  refine ⟨tokens, m, hfront, ?_, ?_⟩
  · rw [hfront.here, Location.offset_along, List.length_take, Nat.min_eq_left hle]
    exact Nat.zero_add n
  · rw [← hfront.feed, List.take_append_drop]

/-- A number ends at the place unless the place is inside of it. -/
theorem exists_take {d : Bytes} {n : Nat} (hd : (Midway.initial.feed options d).failure? = none)
    (hn : ∀ l ∈ (Midway.initial.feed options d).tokens, ∀ raw, l.token = .scalar .number raw →
      l.start < n → l.stop ≤ n)
    (hle : n ≤ d.length) :
    ∃ tokens m, Follows options .initial (d.take n) tokens m ∧ m.lexer.here.offset = n ∧
      m.NumberEnds (d.drop n) := by
  obtain ⟨tokens, m, hfront, hhere, hwhole⟩ := exists_split hd hle
  rw [hwhole] at hd hn
  have hm := hfront.fits (Midway.fits_initial options)
  refine ⟨tokens, m, hfront, hhere, Midway.numberEnds_of_feed hm hd ?_⟩
  rw [hhere]
  exact fun l hl => hn l (List.mem_append_right _ hl)

end Follows

namespace Lexer

variable {options : Options} {d d' : Bytes} {n : Nat}

/-- A document that is cut off, or at fault, at a place that is not inside of a number has the
tokens of the whole document that end in front of the place. What stands behind the place in the
whole document has no influence on these tokens. -/
theorem tokens_of_cut (hd : (initial.feed options .gap d).failure? = none)
    (hn : ∀ l ∈ (initial.feed options .gap d).tokens, ∀ raw, l.token = .scalar .number raw →
      l.start < n → l.stop ≤ n)
    (h : d' = d.take n ∨ d'.take n = d.take n ∧
      ∃ e, (initial.feed options .gap d').failure? = some (.malformed e) ∧ e.location.offset = n) :
    (initial.feed options .gap d').tokens = Lexed.upTo n (initial.feed options .gap d).tokens := by
  have hfits := Midway.fits_initial options
  change (Midway.initial.feed options d').tokens = Lexed.upTo n (Midway.initial.feed options d).tokens
  have hagree : d'.take n = d.take n := by
    obtain rfl | ⟨hagree, -⟩ := h
    · rw [List.take_take, Nat.min_self]
    · exact hagree
  obtain hlong | hshort := Nat.lt_or_ge d.length n
  -- behind the end nothing is cut off
  · have hwhole : d' = d := by
      have hlength := congrArg List.length hagree
      rw [List.length_take, List.length_take] at hlength
      rwa [List.take_of_length_le (by omega), List.take_of_length_le (by omega)] at hagree
    rw [hwhole, Lexed.upTo_eq_self fun l hl => ?_]
    have hstop := ((Midway.row_feed hfits d).mem hl).2.2
    have hzero : Midway.initial.lexer.here.offset = 0 := rfl
    omega
  · obtain ⟨tokens, m, hfront, hhere, hends⟩ := Follows.exists_take hd hn hshort
    have hwhole := hfront.upTo_tokens hends
    have hcut : Midway.initial.feed options d' = (m.feed options (d'.drop n)).prepend tokens := by
      rw [← hfront.feed, ← hagree, List.take_append_drop]
    have hready : (m.feed options (d'.drop n)).tokens = m.ready := by
      refine Midway.tokens_of_cut (hfront.fits hfits)
        (fun part lexeme hu => (hends part lexeme hu).1) ?_
      obtain rfl | ⟨-, e, he, hplace⟩ := h
      · exact .inl (List.drop_eq_nil_of_le (by rw [List.length_take]; exact Nat.min_le_left ..))
      · refine .inr ⟨e, ?_, hplace.trans hhere.symm⟩
        rw [← he]
        exact (congrArg Scanned.failure? hcut).symm
    rw [List.take_append_drop, hhere] at hwhole
    rw [hwhole, hcut, Scanned.tokens_prepend, hready]

/-- Tokens that are pulled one by one stand in the order of the document, and inside of it. -/
theorem row_scan (options : Options) (d : Bytes) :
    Lexed.Row 0 (initial.scan options (Buffer.mk d)).tokens d.length := by
  have hrow := Midway.row_feed (Midway.fits_initial options) d
  rw [show Midway.initial.lexer.here.offset = 0 from rfl, Nat.zero_add] at hrow
  rwa [scan_buffer]

end Lexer

end JsonExtract
