import JsonExtract.Proofs.Paths.Encoding
import JsonExtract.Proofs.Paths.Grammar
import Mathlib.Data.Bool.AllAny

/-!
# Only what the grammar allows is a path

Each function of the parser hands back the characters behind what it has read. The bytes it has
read are spelled as the grammar says, and what it returns is what they mean.

* `Parser.agrees_isSpace`, `Parser.agrees_isDelimiter`, `Parser.agrees_isDigit` — the classes of the
  parser are those of the grammar;
* `Parser.spells_of_filter`, `Parser.spells_of_index`, `Parser.spells_of_segment` — the rules;
* `Parser.spells_of_path` — whole paths.
-/

namespace JsonExtract.Path.Parser

open Path.Grammar Bytes

/-! ## Classes

Each class of the parser is a list of ASCII characters, and that of the grammar the list of
their bytes. They agree by evaluation on ASCII and because no other character is in either. -/

/-- Space is what the grammar calls so. -/
theorem agrees_isSpace : Agrees isSpace Ascii.isSpace := by
  refine agrees_of_ascii (by decide) ?_ ?_
  · intro c hc
    apply Bool.eq_false_iff.2
    intro h
    simp only [isSpace, Bool.or_eq_true, beq_iff_eq] at h
    rcases h with ((rfl | rfl) | rfl) | rfl <;> exact absurd hc (by decide)
  · intro b hb
    apply Bool.eq_false_iff.2
    intro h
    simp only [Ascii.isSpace, Bool.or_eq_true, beq_iff_eq] at h
    rcases h with ((rfl | rfl) | rfl) | rfl <;> exact absurd hb (by decide)

/-- Delimiters are what the grammar calls so. -/
theorem agrees_isDelimiter : Agrees isDelimiter (fun b => decide (b ∈ delimiters)) := by
  refine agrees_of_ascii (by decide) ?_ ?_
  · intro c hc
    have listed : ∀ c ∈ ['.', '[', ']', '(', ')', '+', '?', '"', '=', '@', '*'],
        c.toNat < 0x80 :=
      List.all_iff_forall_prop.1 (by decide)
    rw [isDelimiter, Bool.or_eq_false_iff]
    refine ⟨decide_eq_false fun h => ?_, ?_⟩
    · exact absurd (listed c h) (Nat.not_lt.2 hc)
    · obtain ⟨b, hb⟩ := List.exists_mem_of_ne_nil _ (String.utf8EncodeChar_ne_nil (c := c))
      refine (agrees_isSpace c b hb).symm.trans ?_
      apply Bool.eq_false_iff.2
      intro h
      simp only [Ascii.isSpace, Bool.or_eq_true, beq_iff_eq] at h
      have hle := le_of_mem_utf8EncodeChar hc hb
      rcases h with ((rfl | rfl) | rfl) | rfl <;> exact absurd hle (by decide)
  · intro b hb
    have listed : ∀ b ∈ delimiters, b < 0x80 :=
      List.all_iff_forall_prop.1 (by decide)
    exact decide_eq_false fun h => absurd (listed b h) (UInt8.not_lt.2 hb)

/-- Decimal digits are what the grammar calls so. -/
theorem agrees_isDigit : Agrees Char.isDigit Ascii.isDigit := by
  refine agrees_of_ascii (by decide) ?_ ?_
  · intro c hc
    apply Bool.eq_false_iff.2
    intro h
    simp only [Char.isDigit, Bool.and_eq_true, decide_eq_true_eq] at h
    exact absurd (Nat.le_trans hc (UInt32.le_iff_toNat_le.1 h.2)) (by decide)
  · intro b hb
    apply Bool.eq_false_iff.2
    intro h
    rw [Ascii.isDigit, Bool.and_eq_true, decide_eq_true_eq, decide_eq_true_eq] at h
    exact absurd (UInt8.le_trans hb h.2) (by decide)

/-- The bytes of characters of a class are in the class of bytes. -/
theorem forall_mem_ofChars {p : Char → Bool} {q : UInt8 → Bool} (h : Agrees p q) {cs : List Char}
    (hcs : ∀ c ∈ cs, p c = true) : ∀ b ∈ ofChars cs, q b = true := by
  intro b hb
  obtain ⟨c, hc, hb⟩ := List.mem_flatMap.1 hb
  exact (h c b hb).trans (hcs c hc)

/-- The bytes of a run, and those behind it. -/
theorem ofChars_split (p : Char → Bool) (cs : List Char) :
    ofChars cs = ofChars (cs.takeWhile p) ++ ofChars (cs.dropWhile p) := by
  rw [← ofChars_append, List.takeWhile_append_dropWhile]

variable {cs behind : List Char}

/-- What is skipped is space. -/
theorem spells_of_skipSpace (cs : List Char) :
    ∃ gap, IsSpace gap ∧ ofChars cs = gap ++ ofChars (skipSpace cs) :=
  ⟨_, forall_mem_ofChars agrees_isSpace (List.all_eq_true.1 List.all_takeWhile),
    ofChars_split isSpace cs⟩

/-! ## Names, literals and numbers

What was read is a run of characters, or characters up to a closing quote. The bytes of these
characters are then of the form that the grammar asks for, character by character. -/

/-- What is read as a name is one. -/
theorem spells_of_name {bytes : Bytes} (h : name cs = .ok (bytes, behind)) :
    ofChars cs = bytes ++ ofChars behind ∧ IsName bytes := by
  rw [name] at h
  split at h
  · cases h
  · next c more heq =>
    cases h
    refine ⟨?_, ?_, ?_⟩
    · rw [← heq]
      exact ofChars_split _ cs
    · exact mt ofChars_eq_nil_iff.1 (List.cons_ne_nil c more)
    · intro b hb
      rw [← heq] at hb
      have hall := forall_mem_ofChars agrees_isDelimiter.not
        (List.all_eq_true.1 (List.all_takeWhile (l := cs))) b hb
      simpa using hall

/-- The first byte of a character, behind which only bytes beyond ASCII can come. -/
theorem exists_utf8EncodeChar (c : Char) :
    ∃ b tail, String.utf8EncodeChar c = b :: tail ∧ ∀ d ∈ tail, 0x80 ≤ d := by
  rcases Nat.lt_or_ge c.toNat 0x80 with hc | hc
  · exact ⟨c.toUInt8, [], utf8EncodeChar_ascii hc, by simp⟩
  · cases hbytes : String.utf8EncodeChar c with
    | nil => exact absurd hbytes String.utf8EncodeChar_ne_nil
    | cons b tail =>
      refine ⟨b, tail, rfl, fun d hd => le_of_mem_utf8EncodeChar hc ?_⟩
      rw [hbytes]
      exact List.mem_cons_of_mem b hd

/-- The bytes that stand for themselves in a literal. -/
def IsPlain (b : UInt8) : Prop :=
  b ≠ Ascii.quote ∧ b ≠ Ascii.backslash

/-- Bytes beyond ASCII stand for themselves. -/
theorem isPlain_of_le {b : UInt8} (h : 0x80 ≤ b) : IsPlain b := by
  constructor <;> rintro rfl <;> exact absurd h (by decide)

/-- The bytes of a character that is neither a quote nor a backslash stand for themselves. -/
theorem isPlain_of_mem {c : Char} (hq : c ≠ '"') (hs : c ≠ '\\') :
    ∀ b ∈ String.utf8EncodeChar c, IsPlain b := by
  intro b hb
  rcases Nat.lt_or_ge c.toNat 0x80 with hc | hc
  · rw [utf8EncodeChar_ascii hc, List.mem_singleton] at hb
    subst hb
    have hne : ∀ d : Char, d.toNat < 0x80 → c ≠ d → c.toUInt8 ≠ d.toUInt8 := by
      intro d hd hne heq
      refine hne (Char.toNat_inj.1 ?_)
      rw [← toNat_toUInt8 hc, ← toNat_toUInt8 hd, heq]
    exact ⟨hne '"' (by decide) hq, hne '\\' (by decide) hs⟩
  · exact isPlain_of_le (le_of_mem_utf8EncodeChar hc hb)

/-- Bytes that stand for themselves go in front of what a literal holds. -/
theorem isLiteral_append {xs rest : Bytes} (hxs : ∀ b ∈ xs, IsPlain b) (h : IsLiteral rest) :
    IsLiteral (xs ++ rest) := by
  induction xs with
  | nil => exact h
  | cons b xs ih =>
    rw [List.forall_mem_cons] at hxs
    exact .plain hxs.1.1 hxs.1.2 (ih hxs.2)

/-- What is read up to a quote may stand in a literal. Escaped characters may have several bytes,
of which only the first is protected; the others stand for themselves. -/
theorem spells_of_untilQuote {inner : List Char} (h : untilQuote? cs = some (inner, behind)) :
    ofChars cs = ofChars inner ++ Ascii.quote :: ofChars behind ∧ IsLiteral (ofChars inner) := by
  fun_induction untilQuote? cs generalizing inner behind with
  | case1 => cases h
  | case2 rest =>
    cases h
    exact ⟨ofChars_cons_ascii (by decide) rest, .nil⟩
  | case3 c rest ih =>
    obtain ⟨⟨inner, behind⟩, hu, he⟩ := Option.map_eq_some_iff.1 h
    cases he
    obtain ⟨heq, hliteral⟩ := ih hu
    obtain ⟨b, tail, hbytes, htail⟩ := exists_utf8EncodeChar c
    have hslash : ∀ more, ofChars ('\\' :: c :: more) =
        Ascii.backslash :: b :: (tail ++ ofChars more) := by
      intro more
      rw [ofChars_cons_ascii (by decide), ofChars_cons, hbytes]
      rfl
    rw [hslash, hslash, heq]
    refine ⟨by simp, .escape (isLiteral_append (fun d hd => isPlain_of_le (htail d hd)) hliteral)⟩
  | case4 c rest hq hs ih =>
    obtain ⟨⟨inner, behind⟩, hu, he⟩ := Option.map_eq_some_iff.1 h
    cases he
    obtain ⟨heq, hliteral⟩ := ih hu
    have hslash : c ≠ '\\' := by
      rintro rfl
      cases rest with
      | nil => cases hu
      | cons d rest => exact hs d rest rfl rfl
    rw [ofChars_cons, ofChars_cons, heq]
    exact ⟨by simp, isLiteral_append (isPlain_of_mem hq hslash) hliteral⟩

/-- What is read as a literal is one. -/
theorem spells_of_literal {bytes : Bytes} (h : literal cs = .ok (bytes, behind)) :
    ofChars ('"' :: cs) = quoted bytes ++ ofChars behind ∧ IsLiteral bytes := by
  rw [literal] at h
  split at h
  · next inner _ hu =>
    cases h
    obtain ⟨heq, hliteral⟩ := spells_of_untilQuote hu
    refine ⟨?_, hliteral⟩
    rw [ofChars_cons_ascii (by decide), heq]
    simp [quoted]
    rfl
  · cases h

/-- Decimal digits stand for the same number as their bytes. -/
theorem value_ofChars {digits : List Char} (h : ∀ c ∈ digits, c.isDigit = true) :
    value (ofChars digits) = number digits := by
  have hfold : ∀ n, (ofChars digits).foldl (fun n b => 10 * n + (b.toNat - Ascii.zero.toNat)) n =
      digits.foldl appendDigit n := by
    induction digits with
    | nil => exact fun n => rfl
    | cons c digits ih =>
      intro n
      rw [List.forall_mem_cons] at h
      have hc : c.toNat < 0x80 := by
        have hd := h.1
        simp only [Char.isDigit, Bool.and_eq_true, decide_eq_true_eq] at hd
        exact Nat.lt_of_le_of_lt (UInt32.le_iff_toNat_le.1 hd.2) (by decide)
      rw [ofChars_cons_ascii hc, List.foldl_cons, List.foldl_cons, toNat_toUInt8 hc, ih h.2]
      rfl
  exact hfold 0

/-- What is read as a number is one. -/
theorem spells_of_integer {n : Option Nat} (h : integer? cs = .ok (n, behind)) :
    ∃ digits, ofChars cs = digits ++ ofChars behind ∧ IsInteger? n digits := by
  rw [integer?] at h
  split at h
  · cases h
    exact ⟨[], rfl, .none⟩
  · next hne =>
    have hdigits : ∀ c ∈ cs.takeWhile Char.isDigit, c.isDigit = true :=
      List.all_eq_true.1 List.all_takeWhile
    rw [numberFrom?_zero] at h
    split at h
    · cases h
    · next n hn =>
      cases h
      split at hn
      · cases hn
      · next hle =>
        cases hn
        refine ⟨_, ofChars_split Char.isDigit cs, .some ⟨?_, ?_, value_ofChars hdigits, ?_⟩⟩
        · exact mt ofChars_eq_nil_iff.1 hne
        · exact forall_mem_ofChars agrees_isDigit hdigits
        · exact Nat.lt_of_le_sub_one (by decide) (Nat.not_lt.1 hle)

/-! ## Filters

A filter consists of pieces that were read one after the other; each of them is spelled, and so
is the whole. -/

/-- What is read as one side of a comparison is one. -/
theorem spells_of_operand {o : Operand} (h : operand cs = .ok (o, behind)) :
    ∃ text, ofChars cs = text ++ ofChars behind ∧ SpellsOperand o text := by
  rw [operand.eq_def] at h
  split at h
  · cases h
  · obtain ⟨⟨bytes, rest⟩, hl, hp⟩ := bind_eq_ok.1 h
    cases pure_eq_ok.1 hp
    obtain ⟨heq, hliteral⟩ := spells_of_literal hl
    exact ⟨_, heq, .literal hliteral⟩
  · cases h
    exact ⟨_, ofChars_append ['@', '.', '*'] _, .any⟩
  · next cs _ =>
    obtain ⟨⟨bytes, rest⟩, hn, hp⟩ := bind_eq_ok.1 h
    cases pure_eq_ok.1 hp
    obtain ⟨heq, hname⟩ := spells_of_name hn
    refine ⟨_, ?_, .named hname⟩
    rw [List.append_assoc, ← heq]
    exact ofChars_append ['@', '.'] cs
  · cases h
  · cases h

/-- What is compared makes a filter. -/
theorem compares_of_compare? {left right : Operand} {f : Filter}
    (h : compare? left right = some f) : Compares left right f := by
  rw [compare?.eq_def] at h
  split at h
  · cases h; exact .literals
  · cases h; exact .memberFirst
  · cases h; exact .memberLast
  · cases h

/-- What is read as an equality sign is one, with space around it. -/
theorem spells_of_equality (h : equality cs = .ok behind) :
    ∃ gap₁ gap₂, IsSpace gap₁ ∧ IsSpace gap₂ ∧
      ofChars cs = gap₁ ++ (ofChars ['=', '='] ++ (gap₂ ++ ofChars behind)) := by
  obtain ⟨gap₁, hgap₁, heq₁⟩ := spells_of_skipSpace cs
  rw [equality] at h
  split at h
  · next rest hrest =>
    cases h
    obtain ⟨gap₂, hgap₂, heq₂⟩ := spells_of_skipSpace rest
    refine ⟨gap₁, gap₂, hgap₁, hgap₂, ?_⟩
    rw [heq₁, hrest, ← heq₂]
    exact congrArg (gap₁ ++ ·) (ofChars_append ['=', '='] rest)
  · cases h

/-- What is read as a closing bracket is one, with space in front of it. -/
theorem spells_of_close {bracket closing : Char} {opened : List Char}
    (hc : closing.toNat < 0x80) (h : close bracket closing opened cs = .ok behind) :
    ∃ gap, IsSpace gap ∧ ofChars cs = gap ++ closing.toUInt8 :: ofChars behind := by
  obtain ⟨gap, hgap, heq⟩ := spells_of_skipSpace cs
  rw [close] at h
  split at h
  · cases h
  · next c rest hrest =>
    split at h
    · next hclosing =>
      cases h
      refine ⟨gap, hgap, ?_⟩
      rw [heq, hrest, hclosing, ofChars_cons_ascii hc]
    · cases h

/-- What is read as a filter is one. -/
theorem spells_of_filter {f : Filter} (h : filter cs = .ok (f, behind)) :
    ∃ text, ofChars ('?' :: cs) = text ++ ofChars behind ∧ SpellsFilter f text := by
  rw [filter.eq_def] at h
  split at h
  · cases h
  · next cs =>
    obtain ⟨⟨left, rest₁⟩, h₁, h⟩ := bind_eq_ok.1 h
    obtain ⟨rest₂, h₂, h⟩ := bind_eq_ok.1 h
    obtain ⟨⟨right, rest₃⟩, h₃, h⟩ := bind_eq_ok.1 h
    obtain ⟨rest₄, h₄, h⟩ := bind_eq_ok.1 h
    obtain ⟨gap₁, hgap₁, heq⟩ := spells_of_skipSpace cs
    obtain ⟨l, heq₁, hleft⟩ := spells_of_operand h₁
    obtain ⟨gap₂, gap₃, hgap₂, hgap₃, heq₂⟩ := spells_of_equality h₂
    obtain ⟨r, heq₃, hright⟩ := spells_of_operand h₃
    obtain ⟨gap₄, hgap₄, heq₄⟩ := spells_of_close (by decide) h₄
    split at h
    · next hcompare =>
      cases pure_eq_ok.1 h
      refine ⟨_, ?_, .mk hgap₁ hleft hgap₂ hgap₃ hright hgap₄ (compares_of_compare? hcompare)⟩
      have hopen : ofChars ('?' :: '(' :: cs) = ofChars ['?', '('] ++ ofChars cs :=
        ofChars_append ['?', '('] cs
      rw [hopen, heq, heq₁, heq₂, heq₃, heq₄]
      simp [ofChars_cons_ascii]
    · cases h
  · cases h

/-! ## Segments

The cases are those of the parser's `match` on the first character. Where space was skipped, the
grammar has space. -/

/-- What is read as a position or a range is one, with space behind it. -/
theorem spells_of_position {s : Selector} (h : position cs = .ok (s, behind)) :
    ∃ text gap, IsSpace gap ∧ ofChars cs = text ++ (gap ++ ofChars behind) ∧
      SpellsIndex [.selector s] text := by
  rw [position] at h
  obtain ⟨⟨first, rest⟩, h₁, h⟩ := bind_eq_ok.1 h
  obtain ⟨low, heq₁, hlow⟩ := spells_of_integer h₁
  obtain ⟨gap₁, hgap₁, heq₂⟩ := spells_of_skipSpace rest
  simp only at h
  split at h
  · next _ _ _ rest₂ hrest =>
    obtain ⟨gap₂, hgap₂, heq₃⟩ := spells_of_skipSpace rest₂
    split at h
    · cases h
    · obtain ⟨⟨bound, rest₃⟩, h₃, h⟩ := bind_eq_ok.1 h
      cases pure_eq_ok.1 h
      obtain ⟨high, heq₄, hhigh⟩ := spells_of_integer h₃
      refine ⟨_, [], by simp [IsSpace], ?_, .slice hlow hgap₁ hgap₂ hhigh⟩
      rw [heq₁, heq₂, hrest, ofChars_cons_ascii (by decide), heq₃, heq₄]
      simp
      rfl
  · cases pure_eq_ok.1 h
    cases hlow with
    | some hlow => exact ⟨low, gap₁, hgap₁, by rw [heq₁, heq₂], .position hlow⟩
  · cases h

/-- What is read between brackets may stand there, with space around it. It may be a wildcard, a
name, a position, a range or a filter. -/
theorem spells_of_index {parts : List Part} (h : index cs = .ok (parts, behind)) :
    ∃ gap₁ text gap₂, IsSpace gap₁ ∧ IsSpace gap₂ ∧
      ofChars cs = gap₁ ++ (text ++ (gap₂ ++ ofChars behind)) ∧ SpellsIndex parts text := by
  have hnone : IsSpace [] := by
    simp [IsSpace]
  obtain ⟨gap₁, hgap₁, heq⟩ := spells_of_skipSpace cs
  rw [heq]
  rw [index] at h
  split at h
  · cases h
  -- a star
  · next hrest =>
    cases h
    rw [hrest]
    exact ⟨gap₁, ofChars ['*'], [], hgap₁, hnone, congrArg (gap₁ ++ ·) (ofChars_append ['*'] _),
      .wildcard⟩
  -- a filter
  · next hrest =>
    obtain ⟨⟨f, rest⟩, h₁, h⟩ := bind_eq_ok.1 h
    cases pure_eq_ok.1 h
    obtain ⟨text, htext, hspells⟩ := spells_of_filter h₁
    rw [hrest, htext]
    exact ⟨gap₁, text, [], hgap₁, hnone, rfl, .filter hspells⟩
  -- a literal
  · next hrest =>
    obtain ⟨⟨bytes, rest⟩, h₁, h⟩ := bind_eq_ok.1 h
    cases pure_eq_ok.1 h
    obtain ⟨htext, hliteral⟩ := spells_of_literal h₁
    rw [hrest, htext]
    exact ⟨gap₁, quoted bytes, [], hgap₁, hnone, rfl, .key hliteral⟩
  · cases h
  · cases h
  -- a digit or a colon
  · next hrest =>
    split at h
    · obtain ⟨⟨s, rest⟩, h₁, h⟩ := bind_eq_ok.1 h
      cases pure_eq_ok.1 h
      obtain ⟨text, gap₂, hgap₂, htext, hspells⟩ := spells_of_position h₁
      rw [hrest, htext]
      exact ⟨gap₁, text, gap₂, hgap₁, hgap₂, rfl, hspells⟩
    · cases h

/-- What is read as a segment is one. -/
theorem spells_of_segment {parts : List Part} (h : segment cs = .ok (parts, behind)) :
    ∃ text, ofChars cs = text ++ ofChars behind ∧ SpellsSegment parts text := by
  rw [segment.eq_def] at h
  split at h
  · cases h
  · cases h
    exact ⟨_, ofChars_append ['.', '*'] _, .wildcard⟩
  · next cs _ =>
    obtain ⟨⟨bytes, rest⟩, h₁, h⟩ := bind_eq_ok.1 h
    cases pure_eq_ok.1 h
    obtain ⟨heq, hname⟩ := spells_of_name h₁
    refine ⟨_, ?_, .name hname⟩
    rw [ofChars_cons_ascii (by decide), heq]
    rfl
  · next cs =>
    obtain ⟨⟨parts, rest₁⟩, h₁, h⟩ := bind_eq_ok.1 h
    obtain ⟨rest₂, h₂, h⟩ := bind_eq_ok.1 h
    cases pure_eq_ok.1 h
    obtain ⟨gap₁, text, gap₂, hgap₁, hgap₂, heq₁, hspells⟩ := spells_of_index h₁
    obtain ⟨gap₃, hgap₃, heq₂⟩ := spells_of_close (by decide) h₂
    -- the parser may leave space behind an index for the bracket to skip
    refine ⟨_, ?_, @Grammar.SpellsSegment.index _ _ _ (gap₂ ++ gap₃) hgap₁ hspells ?_⟩
    · rw [ofChars_cons_ascii (by decide), heq₁, heq₂]
      simp
      exact ⟨rfl, rfl⟩
    · exact List.forall_mem_append.2 ⟨hgap₂, hgap₃⟩
  · obtain ⟨⟨f, rest⟩, h₁, h⟩ := bind_eq_ok.1 h
    cases pure_eq_ok.1 h
    obtain ⟨text, heq, hspells⟩ := spells_of_filter h₁
    exact ⟨text, heq, .filter hspells⟩
  · cases h

/-- What is read as a mark is one. -/
theorem spells_of_mark {marked : Bool} (h : mark cs = .ok (marked, behind)) :
    ∃ text, ofChars cs = text ++ ofChars behind ∧ SpellsMark marked text := by
  rw [mark.eq_def] at h
  split at h
  · cases h
  · cases h
    exact ⟨_, ofChars_append ['+'] _, .mark⟩
  · cases h
    exact ⟨[], rfl, .none⟩

/-! ## Whole paths

The loop over segments reads until nothing is left, so the bytes of all segments make up the
text. -/

/-- What is read as segments are segments. -/
theorem spells_of_segments {links : List Link} (h : segments cs = .ok links) :
    SpellsSegments links (ofChars cs) := by
  induction hn : cs.length using Nat.strongRecOn generalizing cs links with
  | _ n ih =>
    subst hn
    rw [segments.eq_def] at h
    split at h
    · cases h
      exact .nil
    · next c rest =>
      split at h
      · cases h
      · next parts behind hs =>
        split at h
        · cases h
        · next marked behind' hm =>
          obtain ⟨more, hmore, h⟩ := bind_eq_ok.1 h
          cases pure_eq_ok.1 h
          obtain ⟨text, heq₁, hsegment⟩ := spells_of_segment hs
          obtain ⟨sign, heq₂, hmark⟩ := spells_of_mark hm
          have hshort := Nat.lt_of_le_of_lt (length_mark_le hm) (length_segment_lt hs)
          rw [heq₁, heq₂]
          exact .cons hsegment hmark (ih _ hshort hmore rfl)

/-- What is read as a path is one. -/
theorem spells_of_path {links : List Link} (h : path cs = .ok links) :
    Grammar.Spells links (ofChars cs) := by
  rw [path.eq_def] at h
  split at h
  · next cs =>
    obtain ⟨⟨marked, rest⟩, hm, h⟩ := bind_eq_ok.1 h
    obtain ⟨more, hs, h⟩ := bind_eq_ok.1 h
    cases pure_eq_ok.1 h
    obtain ⟨sign, heq, hmark⟩ := spells_of_mark hm
    have hroot : ofChars ('$' :: cs) = ofChars ['$'] ++ ofChars cs := ofChars_append ['$'] cs
    rw [hroot, heq]
    exact .mk hmark (spells_of_segments hs)
  · cases h

end JsonExtract.Path.Parser
