import JsonExtract.Proofs.Delivery.Breakage
import JsonExtract.Proofs.Extraction.Several
import JsonExtract.Proofs.Scan.Runs

/-!
# Documents that break off

A reader that fails behind some bytes of a valid document ends the session with its failure, at the place
where it fails. The matches that are given out are matches of the whole document, unless the failure cuts
a number short behind the second digit of its exponent: then they are those of the bytes that came.

* `Lexed.SeveredAt` — such a number;
* `Midway.early_of_severed`, `Midway.early_prefix_of_not_severed` — what is given out at the failure;
* `Lexer.scan_of_breaksOff` — the tokens of a document that breaks off;
* `Session.rest_of_breaksOff` — what a session gives out.
-/

namespace JsonExtract

/-- Whether a token is a number that goes on at a place, behind two or more digits of its
exponent. What stands of it in front of the place is a number as well. -/
def Lexed.SeveredAt (n : Nat) (l : Lexed) : Prop :=
  ∃ raw, l.token = .scalar .number raw ∧ n < l.stop ∧
    NumberPart.of? (raw.take (n - 1 - l.start)) = some .exponent

/-- A severed number has started. -/
theorem Lexed.SeveredAt.start_lt {n : Nat} {l : Lexed} (h : l.SeveredAt n) : l.start < n := by
  obtain ⟨raw, -, -, hexponent⟩ := h
  refine Nat.lt_of_not_le fun hle => ?_
  rw [Nat.sub_eq_zero_of_le (Nat.le_trans (Nat.sub_le n 1) hle), List.take_zero] at hexponent
  cases hexponent

namespace NumberPart

/-- Only digits stand behind a digit of an exponent. -/
theorem run_exponent_digit {p : NumberPart} {b : UInt8} (h : exponent.next? b = some p) :
    p = exponent := by
  rw [next?] at h
  split at h
  · exact (Option.some.inj h).symm
  · cases h

end NumberPart

namespace Lexer

variable {options : Options} {lexer : Lexer} {unfinished : Unfinished} {b : UInt8} {v : Verdict}

/-- No byte completes a number by being part of it. -/
theorem isBefore_of_number (hm : (Midway.mk lexer unfinished).Counted)
    (h : Reads options lexer b unfinished v) {l : Lexed} {raw : Bytes} (hl : v.token? = some l)
    (hraw : l.token = .scalar .number raw) : v.isBefore = true := by
  cases h
  case numberEnd => rfl
  case wordEnd => cases hl; cases hraw; exact absurd rfl (hm.word _ _ _ _ rfl)
  case stringEnd isName _ _ => cases isName <;> cases hl <;> cases hraw
  case opening | closing => cases hl; cases hraw
  all_goals cases hl

end Lexer

namespace Follows

variable {options : Options} {m m' : Midway} {xs : Bytes} {tokens more : List Lexed}

/-- A number that has started is the token that is being read. -/
theorem number_of_start_lt (h : Follows options m xs tokens m') (hm : m.Counted)
    (hlast : m'.Last more) {l : Lexed} (hl : l ∈ tokens ++ more) {raw : Bytes}
    (hraw : l.token = .scalar .number raw) (hstart : l.start < m.lexer.here.offset) :
    ∃ part lexeme, m.unfinished = .number part lexeme ∧ lexeme.start = l.start ∧ lexeme.raw <+: raw := by
  obtain ⟨lexeme, text, hbecomes, hsame, hpre⟩ := h.becomes_of_start_lt hlast hl hstart
  rw [hraw] at hbecomes
  obtain ⟨lexer, unfinished⟩ := m
  cases unfinished with
  | gap | space => cases hbecomes
  | string isName => cases isName <;> cases hbecomes
  | number part => cases hbecomes; exact ⟨part, lexeme, rfl, hsame, hpre⟩
  | word => cases hbecomes; exact absurd rfl (hm.word _ _ _ _ rfl)

end Follows

/-! ## What is read in front of the failure

A valid document has a token that goes on at the place, or none does. If it is a number behind
two digits of its exponent, the part that came is given out as a number of its own; any other
token that goes on is dropped. -/

/-- All bytes of a prefix but its last. -/
theorem take_of_prefix {α : Type} {xs ys : List α} (h : xs <+: ys) :
    ys.take (xs.length - 1) = xs.dropLast := by
  obtain ⟨more, rfl⟩ := h
  rw [List.take_append_of_le_length (Nat.sub_le ..), List.dropLast_eq_take]

namespace Midway

variable {options : Options} {m : Midway} {xs : Bytes}

/-- Where a number is severed, the number that has come so far is given out. -/
theorem early_of_severed (hm : m.Counted) {l : Lexed} (hl : l ∈ (m.feed options xs).tokens)
    (hstart : l.start < m.lexer.here.offset) (hs : l.SeveredAt m.lexer.here.offset) :
    m.early = m.ready := by
  obtain ⟨raw, hraw, -, hexponent⟩ := hs
  obtain ⟨front, tokens, m', more, -, h, hlast, htokens, -⟩ := exists_scan options m xs
  rw [htokens] at hl
  obtain ⟨part, lexeme, hu, hsame, hpre⟩ := h.number_of_start_lt hm hlast hl hraw hstart
  obtain ⟨hpart, hlength⟩ := hm.number _ _ hu
  rw [← hlength, ← hsame, Nat.sub_right_comm, Nat.add_sub_cancel_left,
    take_of_prefix hpre] at hexponent
  -- behind a digit of an exponent the number is still there
  obtain rfl : part = .exponent := by
    have hne : lexeme.raw ≠ [] := by
      intro hnil
      rw [hnil] at hpart
      cases hpart
    rw [← List.dropLast_append_getLast hne, NumberPart.of?_append hexponent] at hpart
    obtain ⟨part', hnext, hpart⟩ := Option.bind_eq_some_iff.1 hpart
    cases hpart
    exact NumberPart.run_exponent_digit hnext
  rw [early_of_exponent hu hexponent, ready, hu]
  rfl

/-- Where no number is severed, what is given out is complete. A number that ends exactly at the
place may be given out or not. -/
theorem early_prefix_of_not_severed (hm : m.Counted) (hfeed : (m.feed options xs).failure? = none)
    (hs : ∀ l ∈ (m.feed options xs).tokens, ¬ l.SeveredAt m.lexer.here.offset) :
    m.early <+: (m.feed options xs).tokens := by
  obtain hnil | ⟨lexeme, hu, hpart⟩ := m.early_cases
  · rw [hnil]
    exact List.nil_prefix
  obtain ⟨lexer, unfinished⟩ := m
  obtain rfl : unfinished = _ := hu
  obtain ⟨more, rest, q, rfl, hrun, hq, hrest⟩ := Lexer.number_of_feed hfeed
  have htokens : ((mk lexer (.number .exponent lexeme)).feed options (more ++ rest)).tokens =
      (lexer.along more).numberToken (lexeme.append more) ::
        ((lexer.along more).afterValue.feed options .gap rest).tokens := by
    rw [feed, Lexer.feed_number hrun, Lexer.feed_number_end hq hrest]
    rfl
  rw [htokens] at hs ⊢
  cases more with
  | nil =>
    rw [early_of_exponent rfl hpart]
    exact List.prefix_append [_] _
  -- the number goes on
  | cons b more =>
    have hplace : (lexer.along (b :: more)).here.offset = lexer.here.offset + (b :: more).length :=
      Location.offset_along ..
    have hbehind : lexer.here.offset < (lexer.along (b :: more)).here.offset := by
      rw [hplace]
      exact Nat.lt_add_of_pos_right (Nat.zero_lt_succ _)
    have hpre : lexeme.raw <+: (lexeme.append (b :: more)).raw := by
      rw [Lexeme.raw_append]
      exact List.prefix_append ..
    have hlength := (hm.number _ _ rfl).2
    refine absurd ⟨_, rfl, hbehind, ?_⟩ (hs _ List.mem_cons_self)
    rw [← hlength, Nat.sub_right_comm]
    dsimp only [Lexer.numberToken, Lexeme.start_append]
    rw [Nat.add_sub_cancel_left, take_of_prefix hpre, hpart]

end Midway

/-- Of a valid document that breaks off, the tokens that are complete in front of the failure are read,
unless a number is severed there. Then those of the bytes that came are read. -/
theorem Lexer.scan_of_breaksOff {σ : Type} [Cursor σ] {reason : String} {Holds : σ → Bytes → Prop}
    (hb : Breaking reason Holds) {options : Options} {d : Bytes}
    (hd : (initial.feed options .gap d).failure? = none) {n : Nat} (hn : n ≤ d.length) {source : σ}
    (h : Holds source (d.take n)) :
    (initial.scan options source).failure? = some (.unreadable n reason) ∧
      ((∀ l ∈ (initial.feed options .gap d).tokens, ¬ l.SeveredAt n) →
        (initial.scan options source).tokens <+: (initial.feed options .gap d).tokens) ∧
      ((∃ l ∈ (initial.feed options .gap d).tokens, l.SeveredAt n) →
        (initial.scan options source).tokens = (initial.feed options .gap (d.take n)).tokens) := by
  obtain ⟨tokens, m, hfront, hhere, hwhole⟩ := Follows.exists_split hd hn
  replace hwhole : initial.feed options .gap d = (m.feed options (d.drop n)).prepend tokens := hwhole
  have hscan : initial.scan options source = (m.broken reason).prepend tokens :=
    scan_of_breaking hb initial h hfront
  have hcut : initial.feed options .gap (d.take n) = (m.feed options []).prepend tokens := by
    rw [← hfront.feed, List.append_nil]
    rfl
  have hm := hfront.counted (Midway.counted_gap _)
  rw [hwhole] at hd ⊢
  rw [hscan, hcut]
  refine ⟨by rw [← hhere]; rfl, fun hs => ?_, ?_⟩
  · refine (List.prefix_append_right_inj tokens).2 (Midway.early_prefix_of_not_severed hm hd fun l hl => ?_)
    rw [hhere]
    exact hs l (List.mem_append_right _ hl)
  · rintro ⟨l, hl, hs⟩
    obtain hl | hl := List.mem_append.1 hl
    -- what was read before ends in front of the failure
    · have hstop := hfront.stop_le (Midway.fits_initial options) hl
      obtain ⟨_, -, hbehind, -⟩ := hs
      omega
    · have hearly := Midway.early_of_severed hm hl (hhere ▸ hs.start_lt) (hhere ▸ hs)
      rw [Scanned.tokens_prepend, Scanned.tokens_prepend, Midway.tokens_feed_nil, ← hearly]
      rfl

/-! ## Sessions

The tokens in front of the failure are tokens of the document, so the slots hold matches of it,
in order. Where a number is severed, they are those of another document, which ends at the
place. -/

namespace Session

variable {paths : List Path} {options : Options} {d : Bytes} {whole : Session Buffer}

/-- Behind the first tokens of a valid document, the slots hold matches of the document. -/
theorem held_sublist_of_prefix (hp : ∀ path ∈ paths, ∃ text, Path.parse text = .ok path)
    (hs : ofDocument paths options d = .ok whole) (hvalid : whole.rest.2.failure? = none)
    {tokens : List Lexed} (hpre : tokens <+: (Lexer.initial.feed options .gap d).tokens) :
    ((({} : Walk).run paths tokens).slots.held 0).Sublist whole.rest.1 := by
  obtain ⟨values, -, hfeed⟩ := Lexer.exists_series ((rest_ofDocument hs).2.symm.trans hvalid)
  have hrow := Lexer.row_scan options d
  rw [Lexer.scan_buffer, hfeed] at hrow
  rw [hfeed] at hpre
  obtain ⟨later, hsplit⟩ := hpre
  obtain ⟨n, hn⟩ := Lexed.exists_upTo (hsplit ▸ hrow)
  rw [hsplit] at hn
  have hvalues : values.flatMap Passage.tokens = (Lexer.initial.scan options (Buffer.mk d)).tokens := by
    rw [Lexer.scan_buffer, hfeed]
  rw [rest_eq_findings hp hs hvalues, ← Slots.map_snd_owned, ← hn, Walk.owned_upTo hp hrow.sorted,
    List.map_map]
  exact List.filter_sublist.map _

/-- A reader delivers the first `n` bytes of a valid document, in any pieces and with any
interruptions, and then fails. The session ends with this failure, at `n`. What it gives out are
matches of the document, unless a number is severed there: then it gives out what a session of the
bytes that came does. In both cases the failure is that of the reader, with the number of bytes
that were delivered. -/
theorem rest_of_breaksOff {texts : List String} (hp : Path.parseAll texts = .ok paths)
    (hs : ofDocument paths options d = .ok whole) (hvalid : whole.rest.2.failure? = none) {n : Nat}
    (hn : n ≤ d.length) {script : Script} {fault : Fault} (h : Script.BreaksOff fault script (d.take n))
    (size : Nat) :
    ∃ (broken : Session Reader) (cut : Session Buffer),
      start paths options (Reader.ofScript script size) = .ok broken ∧
      ofDocument paths options (d.take n) = .ok cut ∧
      broken.rest.2.failure? = some (.unreadable n fault.message) ∧
      ((∀ l ∈ (Lexer.initial.scan options (Buffer.mk d)).tokens, ¬ l.SeveredAt n) →
        broken.rest.1.Sublist whole.rest.1) ∧
      ((∃ l ∈ (Lexer.initial.scan options (Buffer.mk d)).tokens, l.SeveredAt n) →
        broken.rest.1 = cut.rest.1) := by
  have hcheck := check_of_ofDocument hs
  obtain ⟨cut, hcut⟩ := exists_ofDocument hcheck paths (d.take n)
  obtain ⟨broken, hbroken⟩ : ∃ broken, start paths options (Reader.ofScript script size) = .ok broken := by
    rw [start, hcheck]
    exact ⟨_, rfl⟩
  obtain ⟨hrest, hfailure⟩ := rest_of_start hbroken
  have hholds : Reader.BreaksOff fault.message (Reader.ofScript script size) (d.take n) := by
    rw [Reader.BreaksOff, Reader.cells_ofScript]
    exact h.cells_eq
  obtain ⟨hended, hfirst, hsame⟩ := Lexer.scan_of_breaksOff (Reader.breaking_reader fault.message)
    ((rest_ofDocument hs).2.symm.trans hvalid) hn hholds
  refine ⟨broken, cut, hbroken, hcut, hfailure.trans hended, ?_⟩
  rw [Lexer.scan_buffer, hrest, (rest_ofDocument hcut).1]
  refine ⟨fun hnone => ?_, fun hsevered => ?_⟩
  · exact held_sublist_of_prefix (Path.forall_of_parseAll hp) hs hvalid (hfirst hnone)
  · rw [hsame hsevered]

/-- A failure between the second and the third digit of an exponent, and what is given out in front of it. -/
theorem rest_of_severed_exponent :
    ∃ (whole : Session Buffer) (broken : Session Reader),
      ofDocument [.ofLinks "$+" [⟨.selector .root, true⟩]] {} (Bytes.ofString "1e555") = .ok whole ∧
      start [.ofLinks "$+" [⟨.selector .root, true⟩]] {}
        (Reader.ofScript [.data (Bytes.ofString "1e55"), .fail ⟨.other, some "gone"⟩] 3) = .ok broken ∧
      whole.rest.1 = [⟨"$+", Bytes.ofString "1e555", .number, []⟩] ∧
      broken.rest.1 = [⟨"$+", Bytes.ofString "1e55", .number, []⟩] ∧
      broken.rest.2.failure? = some (.unreadable 4 "gone") := by
  have hparse : Path.parseAll ["$+"] = .ok [.ofLinks "$+" [⟨.selector .root, true⟩]] := by
    decide +kernel
  obtain ⟨whole, hs⟩ := exists_ofDocument (rfl : ({} : Options).check = .ok ())
    [.ofLinks "$+" [⟨.selector .root, true⟩]] (Bytes.ofString "1e555")
  have hvalid : whole.rest.2.failure? = none := by
    rw [(rest_of_start hs).2]
    decide +kernel
  have hdelivered : Script.BreaksOff ⟨.other, some "gone"⟩
      [.data (Bytes.ofString "1e55"), .fail ⟨.other, some "gone"⟩]
      ((Bytes.ofString "1e555").take 4) :=
    .data (List.cons_ne_nil _ _) (.fail [] (by decide))
  obtain ⟨broken, cut, hbroken, hcut, hfailure, -, hsevered⟩ :=
    rest_of_breaksOff hparse hs hvalid (by decide) hdelivered 3
  refine ⟨whole, broken, hs, hbroken, ?_, ?_, hfailure⟩
  · rw [(rest_of_start hs).1]
    decide +kernel
  · have htokens : (Lexer.initial.scan {} (Buffer.mk (Bytes.ofString "1e555"))).tokens =
        [⟨.scalar .number (Bytes.ofString "1e555"), 0, 5⟩] := by
      decide +kernel
    rw [hsevered ⟨_, htokens ▸ List.mem_cons_self, _, rfl, by decide, by decide⟩, (rest_of_start hcut).1]
    decide +kernel

end Session

end JsonExtract
