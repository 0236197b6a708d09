import JsonExtract.Proofs.Delivery.Metering
import JsonExtract.Proofs.Walk.Release
import Mathlib.Data.List.DropRight

/-!
# Where a document is at fault

A document that breaks the grammar is at fault at one of its bytes, or at its end. The failure says what
this place is: the bytes in front of it, and the lines and columns of these. If a fault is of a byte, it is
the byte that stands there. So the place of a character that has to be a space and is none is its lead, even
if the bytes behind the lead were stepped over before.

* `Location.along_origin` — offset, line and column of a place, by the bytes in front of it;
* `Follows.exists_lead` — a space character that is being read was led by a byte in the document;
* `Midway.exists_front` — a fault stands at a place of the document;
* `SyntaxError.Exact`, `Session.exact_of_malformed` — what a session says of a fault.
-/

namespace JsonExtract

/-! ## Lines and columns

The lexer counts lines and columns as it goes along. Here they are computed from the bytes in
front of a place, at once, and the two agree. -/

/-- Behind some bytes, the line is one more than the line feeds in them, and the column is one more than
the bytes behind the last line feed. -/
theorem Location.along_origin (xs : Bytes) :
    origin.along xs =
      ⟨xs.length, 1 + xs.count Ascii.lineFeed, 1 + (xs.rtakeWhile (· != Ascii.lineFeed)).length⟩ := by
  induction xs using List.reverseRecOn with
  | nil => rfl
  | append_singleton xs b ih =>
    rw [along_append, ih, along_cons, along_nil, past, List.length_append, List.length_singleton,
      List.count_append, List.rtakeWhile_concat]
    by_cases hb : b = Ascii.lineFeed
    · rw [if_pos hb, hb, List.count_singleton_self, if_neg (by decide)]
      rfl
    · rw [if_neg hb, List.count_singleton, if_neg (fun h => hb (eq_of_beq h)),
        if_pos (bne_iff_ne.2 hb), List.length_append]
      rfl

/-- Offset, line and column of a fault belong together, and the byte at fault stands there. If the
document ends too early, the place is its end. The offset counts bytes, and so does the column. -/
structure SyntaxError.Exact (d : Bytes) (e : SyntaxError) : Prop where
  /-- one more than the line feeds in front -/
  line : e.location.line = 1 + (d.take e.location.offset).count Ascii.lineFeed
  /-- one more than the bytes in front that stand behind the last line feed -/
  column : e.location.column =
    1 + ((d.take e.location.offset).rtakeWhile (· != Ascii.lineFeed)).length
  /-- the byte at fault -/
  byte : ∀ b, e.fault.byte? = some b → e.location.offset < d.length ∧ d[e.location.offset]? = some b
  /-- the end of the document -/
  endOfInput : e.fault = .endOfInput → e.location.offset = d.length

/-- A fault behind the bytes `front`, of the byte that stands there or of the end, is exact. -/
theorem SyntaxError.exact_of_along {front behind : Bytes} {e : SyntaxError}
    (hlocation : e.location = .along .origin front) (hbyte : e.fault.byte? = behind.head?) :
    e.Exact (front ++ behind) := by
  rw [Location.along_origin] at hlocation
  have hoffset : e.location.offset = front.length := congrArg Location.offset hlocation
  have htake : (front ++ behind).take e.location.offset = front := by
    rw [hoffset, List.take_left]
  refine ⟨?_, ?_, ?_, ?_⟩
  · rw [htake, hlocation]
  · rw [htake, hlocation]
  · intro b hb
    have hstands : (front ++ behind)[e.location.offset]? = some b := by
      rw [hoffset, List.getElem?_append_right (Nat.le_refl _), Nat.sub_self, ← List.head?_eq_getElem?,
        ← hbyte, hb]
    exact ⟨(List.getElem?_eq_some_iff.1 hstands).1, hstands⟩
  · intro hend
    rw [hend] at hbyte
    rw [hoffset, List.head?_eq_none_iff.1 hbyte.symm, List.append_nil]

/-! ## Faults of a document

The fault of a document stands behind the bytes that were followed, except for a space character
that turns out to be none. That one is at fault at its lead, which is in the document, too,
though some bytes further in front. -/

/-- A space character that is being read was led by a byte at its place, before or on the way. At
the place of the lead the document has this byte. -/
theorem Follows.exists_lead {options : Options} {m m' : Midway} {xs : Bytes} {tokens : List Lexed}
    {start : Location} {lead : UInt8} {seen : Bytes} {more : Nat}
    (h : Follows options m xs tokens m') (hu : m'.unfinished = .space start lead seen more) :
    (∃ seen' more', m.unfinished = .space start lead seen' more') ∨
      ∃ front behind, xs = front ++ lead :: behind ∧ start = m.lexer.here.along front := by
  induction h with
  | nil => exact .inl ⟨seen, more, hu⟩
  | @taken m m₁ m₂ b bytes tokens hn hb h ih =>
    have hr := Midway.reads_read options m b
    have hhere := Midway.here_next hn hb
    obtain ⟨seen', more', hu₁⟩ | ⟨front, behind, rfl, rfl⟩ := ih hu
    · obtain ⟨lexer, unfinished⟩ := m
      obtain ⟨lexer₁, unfinished₁⟩ := m₁
      obtain rfl : unfinished₁ = _ := hu₁
      -- the byte leads the character, or goes on with it
      generalize (Midway.mk lexer unfinished).read options b = v at hr hn
      cases hr
      all_goals cases hn
      case lead.refl => exact .inr ⟨[], bytes, rfl, rfl⟩
      case scalar.refl hs => cases hs
      case spaceMore.refl => exact .inl ⟨_, _, rfl⟩
    · exact .inr ⟨b :: front, behind, rfl, by rw [hhere, Location.along_cons]⟩
  | before hv _ ih =>
    obtain ⟨rfl, -⟩ := Midway.of_tokenBefore hv
    obtain ⟨_, _, hgap⟩ | hlater := ih hu
    · cases hgap
    · exact .inr hlater

namespace Midway

variable {options : Options} {d : Bytes} {e : SyntaxError}

/-- Where a document is at fault, it has bytes in front, and the byte at fault next, if it is one.
Behind these bytes stands the byte at fault, or nothing. -/
theorem exists_front (he : (initial.feed options d).failure? = some (.malformed e)) :
    ∃ front behind, d = front ++ behind ∧ e.location = .along .origin front ∧
      e.fault.byte? = behind.head? := by
  obtain ⟨tokens, m, h⟩ | ⟨before, b, after, tokens, m, more, failure, rfl, h, hstops⟩ :=
    follows_or_stops options initial d
  -- at the end of the document
  · obtain ⟨more, failure?, hends⟩ := ends options m
    have hfeed := h.feed []
    rw [List.append_nil, hends.feed] at hfeed
    rw [hfeed] at he
    obtain hend | ⟨start, lead, seen, n, hu, hspace⟩ := hends.blames _ he
    · cases hend
      exact ⟨d, [], (List.append_nil d).symm, h.here, rfl⟩
    · cases hspace
      obtain ⟨_, _, hgap⟩ | ⟨front, behind, rfl, hstart⟩ := h.exists_lead hu
      · cases hgap
      · exact ⟨front, lead :: behind, rfl, hstart, rfl⟩
  -- at a byte
  · rw [h.feed, hstops.feed] at he
    obtain rfl := Option.some.inj he
    generalize hfailure : Failure.malformed e = failure at hstops
    cases hstops.blames with
    | here hf =>
      cases hfailure
      exact ⟨before, b :: after, rfl, h.here, hf⟩
    | tooDeep => cases hfailure
    | space hu =>
      cases hfailure
      obtain ⟨_, _, hgap⟩ | ⟨front, behind, rfl, hstart⟩ := h.exists_lead hu
      · cases hgap
      · exact ⟨front, _ :: (behind ++ b :: after), List.append_assoc .., hstart, rfl⟩

theorem exact_of_feed (he : (initial.feed options d).failure? = some (.malformed e)) : e.Exact d := by
  obtain ⟨front, behind, rfl, hlocation, hbyte⟩ := exists_front he
  exact SyntaxError.exact_of_along hlocation hbyte

end Midway

/-- However the bytes of a document arrive, they are read as if they were in memory. -/
theorem Delivery.scan_source {d : Bytes} (delivery : Delivery d) (options : Options) (lexer : Lexer) :
    lexer.scan options delivery.source = lexer.feed options .gap d := by
  rw [← Lexer.scan_buffer options lexer ⟨d⟩]
  cases delivery with
  | memory => rfl
  | stepwise source h => exact Lexer.scan_of_holds faithful_stepwise options lexer h
  | reader script size h =>
    exact Lexer.scan_of_holds faithful_reader options lexer (Reader.holds_ofScript h size)

/-! ## Sessions

How the bytes arrive changes neither the failure nor its place, so the document may be thought
of as being in memory. -/

namespace Session

/-- If a session ends at a malformed document, however its bytes arrive, what it says of the place is
exact: line and column count the bytes in front of the offset, the byte at fault stands at the offset, and
a document that ends too early does so at the offset. -/
theorem exact_of_malformed {paths : List Path} {options : Options} {d : Bytes} (delivery : Delivery d)
    {s : Session delivery.Source} (hs : start paths options delivery.source = .ok s) {e : SyntaxError}
    (he : s.rest.2.failure? = some (.malformed e)) : e.Exact d := by
  rw [(rest_of_start hs).2, delivery.scan_source] at he
  exact Midway.exact_of_feed he

/-- In the second line, a quotation mark of three bytes, which come in two pieces and are all stepped over
before it is seen to be no space. -/
theorem exact_of_quotation_mark :
    ∃ (delivery : Delivery (Bytes.ofString "[\n ’")) (s : Session delivery.Source) (e : SyntaxError),
      start [] { unicodeSpace := true } delivery.source = .ok s ∧
      s.rest.2.failure? = some (.malformed e) ∧ e = ⟨.character 0xe2, ⟨3, 2, 2⟩⟩ ∧
      e.Exact (Bytes.ofString "[\n ’") := by
  -- the first piece ends behind the first byte of the mark
  let delivery : Delivery (Bytes.ofString "[\n ’") :=
    .reader [.data [0x5b, 0x0a, 0x20, 0xe2], .data [0x80, 0x99]] 4
      (.data (List.cons_ne_nil _ _) (.data (List.cons_ne_nil _ _) .nil))
  obtain ⟨s, hs⟩ : ∃ s, start [] { unicodeSpace := true } delivery.source = .ok s := ⟨_, rfl⟩
  have he : s.rest.2.failure? = some (.malformed ⟨.character 0xe2, ⟨3, 2, 2⟩⟩) := by
    rw [(rest_of_start hs).2]
    decide +kernel
  exact ⟨delivery, s, _, hs, he, rfl, exact_of_malformed delivery hs he⟩

end Session

end JsonExtract
