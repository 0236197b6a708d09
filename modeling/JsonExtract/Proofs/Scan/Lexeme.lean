import JsonExtract.Proofs.Scan.Feed
import JsonExtract.Proofs.Scan.Number
import Mathlib.Data.Bool.AllAny

/-!
# Space and scalars in the automaton

How the automaton goes through the space between tokens and through the bytes of a scalar: what the
grammar allows is read, and only that is read without a failure.

* `Lexer.along` — the state behind bytes that change nothing but the place;
* `feed_gap`, `gap_of_feed` — space;
* `feed_number`, `number_of_feed` — numbers;
* `feed_string`, `string_of_feed` — strings and names;
* `feed_word`, `word_of_feed` — literals.
-/

namespace JsonExtract

namespace Lexeme

theorem append_push (l : Lexeme) (b : UInt8) (bytes : Bytes) :
    (l.push b).append bytes = l.append (b :: bytes) := rfl

end Lexeme

namespace Lexer

open Grammar

/-- The state behind bytes that change nothing but the place. Phase and containers are those in
front of the bytes. -/
def along (lexer : Lexer) (bytes : Bytes) : Lexer :=
  { lexer with here := lexer.here.along bytes }

@[simp]
theorem along_past (lexer : Lexer) (b : UInt8) (bytes : Bytes) :
    (lexer.past b).along bytes = lexer.along (b :: bytes) := rfl

@[simp]
theorem along_along (lexer : Lexer) (xs ys : Bytes) :
    (lexer.along xs).along ys = lexer.along (xs ++ ys) := by
  simp [along]

@[simp]
theorem phase_along (lexer : Lexer) (bytes : Bytes) : (lexer.along bytes).phase = lexer.phase := rfl

@[simp]
theorem nesting_along (lexer : Lexer) (bytes : Bytes) :
    (lexer.along bytes).nesting = lexer.nesting := rfl

variable {options : Options} {lexer : Lexer}

/-- Reading that ends without a failure does not fail behind the tokens it starts with either. -/
theorem failure?_eq_none_of_eq {s t : Scanned} {tokens : List Lexed} (h : s.failure? = none)
    (heq : s = t.prepend tokens) : t.failure? = none := by
  rw [heq] at h
  exact h

/-! ## Space

A space character is a single byte in ASCII, and otherwise a character whose bytes are collected
behind a lead. The grammar lists the characters, the automaton the bytes of their encodings;
both lists are compared once, by evaluation. -/

/-- The bytes that can start a token: those that start no space. The lead of a wide space starts
none, whether or not a space follows. -/
def StartsToken (options : Options) (b : UInt8) : Prop :=
  Ascii.isSpace b = false ∧ (options.unicodeSpace = true → Space.missing? b = none)

/-- ASCII bytes other than space start tokens. -/
theorem startsToken_of_lt {b : UInt8} (hs : Ascii.isSpace b = false) (hb : b < 0x80) :
    StartsToken options b := by
  refine ⟨hs, ?_⟩
  intro _
  have hne : ∀ c : UInt8, 0x80 ≤ c → b ≠ c := by
    rintro c hc rfl
    exact absurd hb (UInt8.not_lt.2 hc)
  simp [Space.missing?, hne]

/-- A byte that starts a token is not taken for space. -/
theorem read_of_startsToken {b : UInt8} (h : StartsToken options b) :
    lexer.read options .gap b = lexer.readStart options b := by
  obtain ⟨hs, hm⟩ := h
  simp only [read, readGap, hs]
  cases hu : options.unicodeSpace with
  | false => rfl
  | true => simp [hm hu]

/-- The wide space characters are those that the automaton looks for. -/
theorem isWideSpace_iff {c : Char} : IsWideSpace c ↔ c ∈ Space.characters := by
  constructor
  · intro h
    have hc : c = Char.ofNat c.toNat := (Char.ofNat_toNat c).symm
    rcases h with h | ⟨hlow, hhigh⟩
    · have listed : ∀ n ∈ [0x85, 0xa0, 0x1680, 0x2028, 0x2029, 0x202f, 0x205f, 0x3000, 0xfeff],
          Char.ofNat n ∈ Space.characters :=
        List.all_iff_forall_prop.1 (by decide)
      exact hc ▸ listed _ h
    · have ranged : ∀ k < 11, Char.ofNat (0x2000 + k) ∈ Space.characters := by
        decide
      have hsplit : c.toNat = 0x2000 + (c.toNat - 0x2000) := by omega
      rw [hc, hsplit]
      exact ranged _ (by omega)
  · intro h
    have each : ∀ c ∈ Space.characters, c.toNat ∈
        [0x85, 0xa0, 0x1680, 0x2028, 0x2029, 0x202f, 0x205f, 0x3000, 0xfeff] ∨
          0x2000 ≤ c.toNat ∧ c.toNat ≤ 0x200a :=
      List.all_iff_forall_prop.1 (by decide)
    exact each c h

theorem isEncoding_iff {bytes : Bytes} :
    Space.isEncoding bytes = true ↔ ∃ c, IsWideSpace c ∧ String.utf8EncodeChar c = bytes := by
  simp [Space.isEncoding, isWideSpace_iff]

/-- Space starts with a byte that occurs in no number. -/
theorem not_inNumber_of_gap {wide : Bool} {gap rest : Bytes} (hg : IsGap wide gap)
    (h : ∀ b ∈ rest.head?, ¬ InNumber b) : ∀ b ∈ (gap ++ rest).head?, ¬ InNumber b := by
  cases hg with
  | nil => exact h
  | @cons blank gap hblank _ =>
    have hhead : ∃ b, blank.head? = some b ∧ ¬ InNumber b := by
      cases hblank with
      | @ascii b hb =>
        have each : ∀ b ∈ ([0x20, 0x09, 0x0a, 0x0d] : Bytes), ¬ InNumber b :=
          List.all_iff_forall_prop.1 (by decide)
        exact ⟨b, rfl, each b hb⟩
      | @encoded c _ hc =>
        have each : ∀ c ∈ Space.characters,
            (String.utf8EncodeChar c).head?.any (fun b => decide (¬ InNumber b)) = true :=
          List.all_iff_forall_prop.1 (by decide)
        obtain ⟨b, hb, hn⟩ := (Option.any_eq_true _ _).1 (each c (isWideSpace_iff.1 hc))
        exact ⟨b, hb, of_decide_eq_true hn⟩
    obtain ⟨b, hb, hn⟩ := hhead
    intro c hc
    rw [List.append_assoc, List.head?_append, hb] at hc
    cases hc
    exact hn

/-- A lead announces at least one more byte. -/
theorem exists_of_missing? {b : UInt8} {n : Nat} (h : Space.missing? b = some n) :
    ∃ more, n = more + 1 := by
  rw [Space.missing?] at h
  split at h
  · exact ⟨0, (Option.some.inj h).symm⟩
  · split at h
    · exact ⟨1, (Option.some.inj h).symm⟩
    · cases h

/-- The bytes that lead a wide space are no ASCII space. -/
theorem isSpace_of_missing? {b : UInt8} {n : Nat} (h : Space.missing? b = some n) :
    Ascii.isSpace b = false := by
  have hlead : b ∈ [0xc2, 0xe1, 0xe2, 0xe3, 0xef] := by
    rw [Space.missing?] at h
    split at h
    · simp_all
    · split at h
      · simp_all
      · cases h
  have each : ∀ b ∈ ([0xc2, 0xe1, 0xe2, 0xe3, 0xef] : Bytes), Ascii.isSpace b = false :=
    List.all_iff_forall_prop.1 (by decide)
  exact each b hlead

/-- An ASCII space is passed over. -/
theorem read_of_isSpace {b : UInt8} (hs : Ascii.isSpace b = true) :
    lexer.read options .gap b = .more .gap (lexer.past b) := by
  simp [read, readGap, hs]

/-- A lead is remembered with the number of bytes that are missing. -/
theorem read_of_missing? {b : UInt8} {more : Nat} (hu : options.unicodeSpace = true)
    (hm : Space.missing? b = some (more + 1)) :
    lexer.read options .gap b = .more (.space lexer.here b [] more) (lexer.past b) := by
  simp [read, readGap, isSpace_of_missing? hm, hu, hm]

/-- The bytes of a wide space behind its lead. -/
theorem feed_space {start : Location} {lead : UInt8} {seen tail : Bytes} {more : Nat}
    (hlen : tail.length = more + 1) (hcont : tail.all Ascii.isContinuation = true)
    (henc : Space.isEncoding (lead :: (seen ++ tail)) = true) (rest : Bytes) :
    lexer.feed options (.space start lead seen more) (tail ++ rest) =
      (lexer.along tail).feed options .gap rest := by
  induction tail generalizing lexer seen more with
  | nil => cases hlen
  | cons b tail ih =>
    rw [List.all_cons, Bool.and_eq_true] at hcont
    rw [List.length_cons, Nat.add_right_cancel_iff] at hlen
    cases more with
    | zero =>
      rw [List.length_eq_zero_iff.1 hlen] at henc ⊢
      have hread : lexer.read options (.space start lead seen 0) b = .more .gap (lexer.past b) := by
        simp [read, readSpace, hcont.1, henc]
      exact feed_more hread
    | succ more =>
      have hread : lexer.read options (.space start lead seen (more + 1)) b =
          .more (.space start lead (seen ++ [b]) more) (lexer.past b) := by
        simp [read, readSpace, hcont.1]
      rw [List.cons_append, feed_more hread, ih hlen hcont.2 (by simpa using henc), along_past]

/-- What is read behind the lead of a wide space makes a space character of it. -/
theorem space_of_feed {start : Location} {lead : UInt8} {seen d : Bytes} {more : Nat}
    (h : (lexer.feed options (.space start lead seen more) d).failure? = none) :
    ∃ tail rest, d = tail ++ rest ∧ Space.isEncoding (lead :: (seen ++ tail)) = true ∧
      lexer.feed options (.space start lead seen more) d =
        (lexer.along tail).feed options .gap rest := by
  induction d generalizing lexer seen more with
  | nil =>
    rw [feed_nil_error rfl] at h
    cases h
  | cons b d ih =>
    cases hb : Ascii.isContinuation b with
    | false =>
      have hread : lexer.read options (.space start lead seen more) b =
          .error (.malformed ⟨.character lead, start⟩) := by
        simp [read, readSpace, hb]
      rw [feed_error hread] at h
      cases h
    | true =>
      cases more with
      | zero =>
        cases henc : Space.isEncoding (lead :: (seen ++ [b])) with
        | false =>
          have hread : lexer.read options (.space start lead seen 0) b =
              .errorBehind (.malformed ⟨.character lead, start⟩) := by
            simp [read, readSpace, hb, henc]
          rw [feed_errorBehind hread] at h
          cases h
        | true =>
          have hread : lexer.read options (.space start lead seen 0) b =
              .more .gap (lexer.past b) := by
            simp [read, readSpace, hb, henc]
          exact ⟨[b], d, rfl, henc, feed_more hread⟩
      | succ more =>
        have hread : lexer.read options (.space start lead seen (more + 1)) b =
            .more (.space start lead (seen ++ [b]) more) (lexer.past b) := by
          simp [read, readSpace, hb]
        rw [feed_more hread] at h ⊢
        obtain ⟨tail, rest, rfl, henc, heq⟩ := ih h
        exact ⟨b :: tail, rest, rfl, by simpa using henc, by rw [heq, along_past]⟩

/-- A space character is passed over. -/
theorem feed_blank {blank : Bytes} (h : IsBlank options.unicodeSpace blank) (rest : Bytes) :
    lexer.feed options .gap (blank ++ rest) = (lexer.along blank).feed options .gap rest := by
  cases h with
  | @ascii b hb =>
    have hs : Ascii.isSpace b = true := by
      simp only [List.mem_cons, List.not_mem_nil, or_false] at hb
      rcases hb with rfl | rfl | rfl | rfl <;> rfl
    exact feed_more (read_of_isSpace hs)
  | @encoded c hu hc =>
    have hmem := isWideSpace_iff.1 hc
    have henc := isEncoding_iff.2 ⟨c, hc, rfl⟩
    have hmissing := Space.missing?_of_mem hmem
    have hcont := Space.isContinuation_of_mem hmem
    cases hbytes : String.utf8EncodeChar c with
    | nil => rw [hbytes] at hmissing; cases hmissing
    | cons lead tail =>
      rw [hbytes] at henc hmissing hcont
      have hlead : Space.missing? lead = some tail.length := hmissing
      obtain ⟨more, hmore⟩ := exists_of_missing? hlead
      rw [hmore] at hlead
      rw [List.cons_append, feed_more (read_of_missing? hu hlead), feed_space hmore hcont henc,
        along_past]

/-- Space is passed over. The number of space characters is arbitrary, and some may be wide if the
settings allow it. -/
theorem feed_gap {gap : Bytes} (h : IsGap options.unicodeSpace gap) (rest : Bytes) :
    lexer.feed options .gap (gap ++ rest) = (lexer.along gap).feed options .gap rest := by
  induction h generalizing lexer with
  | nil => rfl
  | cons hblank _ ih => rw [List.append_assoc, feed_blank hblank, ih, along_along]

/-- In front of the first token, or of the end, there is only space. -/
theorem gap_of_feed {d : Bytes} (h : (lexer.feed options .gap d).failure? = none) :
    ∃ gap rest, d = gap ++ rest ∧ IsGap options.unicodeSpace gap ∧
      ∀ b ∈ rest.head?, StartsToken options b := by
  induction hn : d.length using Nat.strongRecOn generalizing lexer d with
  | _ n ih =>
    cases d with
    | nil => exact ⟨[], [], rfl, .nil, fun b hb => by cases hb⟩
    | cons b d =>
      subst hn
      cases hs : Ascii.isSpace b with
      | true =>
        rw [feed_more (read_of_isSpace hs)] at h
        obtain ⟨gap, rest, rfl, hgap, hrest⟩ := ih _ (Nat.lt_succ_self _) h rfl
        refine ⟨[b] ++ gap, rest, rfl, .cons (.ascii ?_) hgap, hrest⟩
        simpa [Ascii.isSpace, or_assoc] using hs
      | false =>
        by_cases hm : options.unicodeSpace = true → Space.missing? b = none
        · refine ⟨[], b :: d, rfl, .nil, ?_⟩
          intro c hc
          cases hc
          exact ⟨hs, hm⟩
        · rw [Classical.not_imp] at hm
          obtain ⟨hu, hm⟩ := hm
          obtain ⟨n, hmissing⟩ := Option.ne_none_iff_exists'.1 hm
          obtain ⟨more, rfl⟩ := exists_of_missing? hmissing
          rw [feed_more (read_of_missing? hu hmissing)] at h
          obtain ⟨tail, rest, rfl, henc, heq⟩ := space_of_feed h
          rw [heq] at h
          -- the space character takes its lead at least, so less is left to read
          have hlt : rest.length < (b :: (tail ++ rest)).length := by
            rw [List.length_cons, List.length_append]
            omega
          obtain ⟨gap, rest, rfl, hgap, hrest⟩ := ih _ hlt h rfl
          obtain ⟨c, hc, hbytes⟩ := isEncoding_iff.1 henc
          refine ⟨b :: tail ++ gap, rest, by simp, .cons ?_ hgap, hrest⟩
          have hblank : IsBlank options.unicodeSpace (String.utf8EncodeChar c) := .encoded hu hc
          rwa [hbytes] at hblank

/-! ## Numbers

The automaton for numbers is studied on its own in terms of the grammar. Here it is run by the
lexer, which takes a byte as long as the number can go on with it, and otherwise asks whether
the number is complete. -/

/-- The bytes of a number are taken as long as the number can go on with them. -/
theorem feed_number {p q : NumberPart} {more : Bytes} (h : p.run more = some q) (lexeme : Lexeme)
    (rest : Bytes) :
    lexer.feed options (.number p lexeme) (more ++ rest) =
      (lexer.along more).feed options (.number q (lexeme.append more)) rest := by
  induction more generalizing lexer p lexeme with
  | nil => cases h; rfl
  | cons b more ih =>
    obtain ⟨p', hp', h⟩ := Option.bind_eq_some_iff.1 h
    have hread : lexer.read options (.number p lexeme) b =
        .more (.number p' (lexeme.push b)) (lexer.past b) := by
      simp [read, readNumber, hp']
    rw [List.cons_append, feed_more hread, ih h, along_past, Lexeme.append_push]

/-- A complete number ends in front of a byte that it cannot go on with. -/
theorem feed_number_end {q : NumberPart} {lexeme : Lexeme} {rest : Bytes}
    (hq : q.isComplete = true) (h : ∀ c ∈ rest.head?, q.next? c = none) :
    lexer.feed options (.number q lexeme) rest =
      (lexer.afterValue.feed options .gap rest).prepend [lexer.numberToken lexeme] := by
  cases rest with
  | nil => exact feed_nil_token (by simp [finish, hq])
  | cons c rest => exact feed_tokenBefore (by simp [read, readNumber, h c rfl, hq])

/-- A number that is read without a failure is complete in front of what follows it. The bytes up
to there are all that the automaton would take. -/
theorem number_of_feed {p : NumberPart} {lexeme : Lexeme} {d : Bytes}
    (h : (lexer.feed options (.number p lexeme) d).failure? = none) :
    ∃ more rest q, d = more ++ rest ∧ p.run more = some q ∧ q.isComplete = true ∧
      ∀ c ∈ rest.head?, q.next? c = none := by
  induction d generalizing lexer p lexeme with
  | nil =>
    cases hq : p.isComplete with
    | true => exact ⟨[], [], p, rfl, rfl, hq, fun c hc => by cases hc⟩
    | false =>
      rw [feed_nil_error (e := lexer.fault .endOfInput) (by simp [finish, hq])] at h
      cases h
  | cons b d ih =>
    cases hnext : p.next? b with
    | some p' =>
      have hread : lexer.read options (.number p lexeme) b =
          .more (.number p' (lexeme.push b)) (lexer.past b) := by
        simp [read, readNumber, hnext]
      rw [feed_more hread] at h
      obtain ⟨more, rest, q, rfl, hrun, hq, hrest⟩ := ih h
      refine ⟨b :: more, rest, q, rfl, ?_, hq, hrest⟩
      rw [NumberPart.run, hnext, Option.bind_some, hrun]
    | none =>
      cases hq : p.isComplete with
      | true => exact ⟨[], b :: d, p, rfl, rfl, hq, fun c hc => by cases hc; exact hnext⟩
      | false =>
        have hread : lexer.read options (.number p lexeme) b =
            .error (lexer.fault (.character b)) := by
          simp [read, readNumber, hnext, hq]
        rw [feed_error hread] at h
        cases h

/-! ## Strings and names

The state inside of a string says what its escape still needs. In the direction from reading to
the grammar, `StringTail` describes what must follow in each of these states, and grows by one
byte at its front. -/

/-- A byte that goes on with a string is taken. -/
theorem read_string {isName : Bool} {q r : Quotation} {lexeme : Lexeme} {b : UInt8}
    (h : q.next b = .ok (some r)) :
    lexer.read options (.string isName q lexeme) b =
      .more (.string isName r (lexeme.push b)) (lexer.past b) := by
  simp [read, readString, h]

/-- Hexadecimal digits complete a `\u` escape. -/
theorem feed_digits {isName : Bool} {more : Nat} {digits : Bytes} (hlen : digits.length = more + 1)
    (h : ∀ b ∈ digits, Ascii.isHexDigit b = true) (lexeme : Lexeme) (rest : Bytes) :
    lexer.feed options (.string isName (.digits more) lexeme) (digits ++ rest) =
      (lexer.along digits).feed options (.string isName .plain (lexeme.append digits)) rest := by
  induction digits generalizing lexer more lexeme with
  | nil => cases hlen
  | cons b digits ih =>
    rw [List.forall_mem_cons] at h
    rw [List.length_cons, Nat.add_right_cancel_iff] at hlen
    cases more with
    | zero =>
      rw [List.length_eq_zero_iff.1 hlen]
      exact feed_more (read_string (by simp [Quotation.next, h.1]))
    | succ more =>
      have hnext : (Quotation.digits (more + 1)).next b = .ok (some (.digits more)) := by
        simp [Quotation.next, h.1]
      rw [List.cons_append, feed_more (read_string hnext), ih hlen h.2, along_past,
        Lexeme.append_push]

/-- What may stand between quotes is taken. -/
theorem feed_string {isName : Bool} {body : Bytes} (h : IsStringBody body) (lexeme : Lexeme)
    (rest : Bytes) :
    lexer.feed options (.string isName .plain lexeme) (body ++ rest) =
      (lexer.along body).feed options (.string isName .plain (lexeme.append body)) rest := by
  induction h generalizing lexer lexeme with
  | nil => rfl
  | @plain b body hc hq hs _ ih =>
    have hnext : Quotation.plain.next b = .ok (some .plain) := by
      simp [Quotation.next, hq, hs, Ascii.isControl, UInt8.not_lt.2 hc]
    rw [List.cons_append, feed_more (read_string hnext), ih, along_past, Lexeme.append_push]
  | @escape b body hb _ ih =>
    have hnext : Quotation.escape.next b = .ok (some .plain) := by
      have : Quotation.isEscaped b = true := by
        simpa [Quotation.isEscaped] using hb
      simp [Quotation.next, this]
    rw [List.cons_append, List.cons_append, feed_more (read_string (r := .escape) rfl),
      feed_more (read_string hnext), ih, along_past, along_past, Lexeme.append_push,
      Lexeme.append_push]
  | @unicode digits body hlen h _ ih =>
    rw [List.cons_append, List.cons_append, List.append_assoc,
      feed_more (read_string (r := .escape) rfl),
      feed_more (read_string (r := .digits 3) rfl), feed_digits hlen h, ih, along_along,
      along_past, along_past, append_append, Lexeme.append_push, Lexeme.append_push]

/-- The closing quote completes a string. -/
theorem feed_string_end {isName : Bool} {lexeme : Lexeme} (rest : Bytes) :
    lexer.feed options (.string isName .plain lexeme) (Ascii.quote :: rest) =
      (((lexer.past Ascii.quote).closeString isName (lexeme.push Ascii.quote)).2.feed options .gap
        rest).prepend
        [((lexer.past Ascii.quote).closeString isName (lexeme.push Ascii.quote)).1] :=
  feed_token rfl

/-- What completes a string up to its closing quote, by how far it has come. It is the string body
that is left, with the escape that is in progress put back in front. -/
def StringTail : Quotation → Bytes → Prop
  | .plain, body => IsStringBody body
  | .escape, body => IsStringBody (Ascii.backslash :: body)
  | .digits more, body =>
    ∃ digits rest, digits.length = more + 1 ∧ (∀ b ∈ digits, Ascii.isHexDigit b = true) ∧
      IsStringBody rest ∧ body = digits ++ rest

/-- A byte that goes on with a string goes in front of what completes it. -/
theorem stringTail_cons {q q' : Quotation} {b : UInt8} {body : Bytes}
    (hq : q.next b = .ok (some q')) (h : StringTail q' body) : StringTail q (b :: body) := by
  cases q with
  | plain =>
    rw [Quotation.next] at hq
    split at hq
    · cases hq
    · next hquote =>
      split at hq
      · next hb => cases hq; exact hb ▸ h
      · next hslash =>
        split at hq
        · cases hq
        · next hc =>
          cases hq
          have hlow : 0x20 ≤ b := by
            rw [Ascii.isControl, decide_eq_true_eq] at hc
            exact UInt8.not_lt.1 hc
          exact .plain hlow hquote hslash h
  | escape =>
    rw [Quotation.next] at hq
    split at hq
    · next hb => cases hq; exact .escape (by simpa [Quotation.isEscaped] using hb) h
    · split at hq
      · next hb =>
        cases hq
        obtain ⟨digits, rest, hlen, hhex, hrest, rfl⟩ := h
        exact hb ▸ .unicode hlen hhex hrest
      · cases hq
  | digits more =>
    simp only [Quotation.next] at hq
    split at hq
    · next hb =>
      cases more with
      | zero =>
        cases hq
        exact ⟨[b], body, rfl, by simpa using hb, h, rfl⟩
      | succ more =>
        cases hq
        obtain ⟨digits, rest, hlen, hhex, hrest, rfl⟩ := h
        exact ⟨b :: digits, rest, by rw [List.length_cons, hlen],
          List.forall_mem_cons.2 ⟨hb, hhex⟩, hrest, rfl⟩
    · cases hq

/-- Only a quote outside of escapes closes a string. -/
theorem quotation_next_eq_none {q : Quotation} {b : UInt8} (h : q.next b = .ok none) :
    q = .plain ∧ b = Ascii.quote := by
  cases q with
  | plain =>
    rw [Quotation.next] at h
    split at h
    · next hb => exact ⟨rfl, hb⟩
    · split at h
      · cases h
      · split at h <;> cases h
  | escape =>
    rw [Quotation.next] at h
    split at h
    · cases h
    · split at h <;> cases h
  | digits more =>
    simp only [Quotation.next] at h
    split at h
    · cases more <;> cases h
    · cases h

/-- A string that is read without a failure has a closing quote. -/
theorem string_of_feed {isName : Bool} {q : Quotation} {lexeme : Lexeme} {d : Bytes}
    (h : (lexer.feed options (.string isName q lexeme) d).failure? = none) :
    ∃ body rest, d = body ++ Ascii.quote :: rest ∧ StringTail q body := by
  induction d generalizing lexer q lexeme with
  | nil =>
    rw [feed_nil_error rfl] at h
    cases h
  | cons b d ih =>
    -- a byte is refused, closes the string, or goes on with it
    rcases hnext : q.next b with fault | _ | q'
    · rw [feed_error (e := lexer.fault fault) (by simp [read, readString, hnext])] at h
      cases h
    · obtain ⟨rfl, rfl⟩ := quotation_next_eq_none hnext
      exact ⟨[], d, rfl, .nil⟩
    · rw [feed_more (read_string hnext)] at h
      obtain ⟨body, rest, rfl, htail⟩ := ih h
      exact ⟨b :: body, rest, rfl, stringTail_cons hnext htail⟩

/-! ## Literals

A literal is spelled out by the state: the letters that are still to come are kept there, and
each byte must be the next of them. -/

/-- The token that a complete literal is. -/
def wordToken (lexer : Lexer) (kind : Kind) (lexeme : Lexeme) : Lexed :=
  ⟨.scalar kind lexeme.raw, lexeme.start, lexer.here.offset⟩

/-- The bytes of a literal are taken. -/
theorem feed_word (kind : Kind) (next : UInt8) (more : Bytes) (lexeme : Lexeme) (rest : Bytes) :
    lexer.feed options (.word kind next more lexeme) (next :: (more ++ rest)) =
      ((lexer.along (next :: more)).afterValue.feed options .gap rest).prepend
        [(lexer.along (next :: more)).wordToken kind (lexeme.append (next :: more))] := by
  induction more generalizing lexer next lexeme with
  | nil =>
    refine feed_token ?_
    rw [read, readWord, if_pos rfl]
    rfl
  | cons b more ih =>
    have hread : lexer.read options (.word kind next (b :: more) lexeme) next =
        .more (.word kind b more (lexeme.push next)) (lexer.past next) := by
      simp [read, readWord]
    rw [List.cons_append, feed_more hread, ih, along_past, Lexeme.append_push]

/-- A literal that is read without a failure is there. -/
theorem word_of_feed {kind : Kind} {next : UInt8} {more d : Bytes} {lexeme : Lexeme}
    (h : (lexer.feed options (.word kind next more lexeme) d).failure? = none) :
    ∃ rest, d = next :: (more ++ rest) := by
  induction more generalizing lexer next lexeme d with
  | nil =>
    cases d with
    | nil => rw [feed_nil_error rfl] at h; cases h
    | cons b d =>
      by_cases hb : b = next
      · exact ⟨d, by rw [hb]; rfl⟩
      · rw [feed_error (e := lexer.fault (.character b))
          (by simp [read, readWord, hb])] at h
        cases h
  | cons c more ih =>
    cases d with
    | nil => rw [feed_nil_error rfl] at h; cases h
    | cons b d =>
      by_cases hb : b = next
      · have hread : lexer.read options (.word kind next (c :: more) lexeme) b =
            .more (.word kind c more (lexeme.push b)) (lexer.past b) := by
          simp [read, readWord, hb]
        rw [feed_more hread] at h
        obtain ⟨rest, rfl⟩ := ih h
        exact ⟨rest, by rw [hb]; rfl⟩
      · rw [feed_error (e := lexer.fault (.character b))
          (by simp [read, readWord, hb])] at h
        cases h

end Lexer

end JsonExtract
