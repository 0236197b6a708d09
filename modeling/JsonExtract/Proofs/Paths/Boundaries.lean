import JsonExtract.Proofs.Paths.Places

/-!
# Errors stand between characters

The reader that looks at bytes stands between two characters wherever it cuts its text, and whenever it
gives an answer or an error. So it does what the reader that looks at characters does.

* `Bytewise.filter_place`, `Bytewise.index_place`, `Bytewise.segment_place` — the rules;
* `Bytewise.path_place` — whole paths;
* `Path.bytewise_parse` — reading byte by byte comes to an end, and its errors fit their places.
-/

namespace JsonExtract.Path

namespace Bytewise

open Bytes

variable {whole cs : List Char}

/-! ## Filters

Each rule is read by both readers, from a place of the text and from the characters behind it.
The lemmas go down the steps of the rule side by side: an answer leaves both at the same place,
and an error stands at the same place with the same fault. -/

theorem operand_place (h : cs <:+ whole) :
    operand (ofChars whole) (place whole cs) = placed whole (standing whole) (Parser.operand cs) := by
  rw [Parser.operand.eq_def]
  split
  · rw [operand, getElem?_place_nil]
    rfl
  · next cs =>
    rw [operand, getElem?_place_cons h]
    simp (disch := decide) only [lead_eq_iff, if_true]
    exact placed_bind (literal_place h) (Parser.within_literal h) fun _ _ => rfl
  · next cs =>
    have hpoint := (List.suffix_cons '@' _).trans h
    have hstar := (List.suffix_cons '.' _).trans hpoint
    rw [operand, getElem?_place_cons h]
    simp (disch := decide) only [lead_eq_iff, ahead_place_cons h, pure_bind,
      getElem?_place_eq_iff hpoint, List.head?_cons, ahead_place_cons hpoint, getElem?_place_eq_iff hstar,
      ahead_place_cons hstar, Char.reduceEq, reduceIte]
    rfl
  · next cs hstar =>
    have hpoint := (List.suffix_cons '@' _).trans h
    have hname := (List.suffix_cons '.' _).trans hpoint
    have hhead : cs.head? ≠ some '*' := Parser.head?_ne_some hstar
    rw [operand, getElem?_place_cons h]
    simp (disch := decide) only [lead_eq_iff, ahead_place_cons h, pure_bind,
      getElem?_place_eq_iff hpoint, List.head?_cons, ahead_place_cons hpoint, getElem?_place_eq_iff hname,
      Char.reduceEq, reduceIte, hhead]
    exact placed_bind (name_place hname) (Parser.within_name hname) fun _ _ => rfl
  · next cs _ hpoint =>
    have hcs := (List.suffix_cons '@' _).trans h
    have hhead : cs.head? ≠ some '.' := Parser.head?_ne_some hpoint
    rw [operand, getElem?_place_cons h]
    simp (disch := decide) only [lead_eq_iff, ahead_place_cons h, pure_bind, getElem?_place_eq_iff hcs,
      Char.reduceEq, reduceIte, hhead]
    rfl
  · next hnil hquote _ _ hat =>
    cases cs with
    | nil => exact absurd rfl hnil
    | cons c cs =>
      have hc : c ≠ '"' ∧ c ≠ '@' := ⟨fun hc => hquote cs (hc ▸ rfl), fun hc => hat cs (hc ▸ rfl)⟩
      rw [operand, getElem?_place_cons h]
      simp (disch := decide) only [lead_eq_iff, hc, reduceIte]
      rfl

theorem equality_place (h : cs <:+ whole) :
    equality (ofChars whole) (place whole cs) = placed whole (place whole) (Parser.equality cs) := by
  have hrest := (Parser.skipSpace_suffix cs).trans h
  rw [equality, skipSpace_place h, pure_bind, cut_place hrest, pure_bind, Parser.equality.eq_def]
  generalize Parser.skipSpace cs = rest at hrest ⊢
  by_cases hsign : ['=', '='] <+: rest
  · obtain ⟨behind, rfl⟩ := hsign
    have htake : (ofChars (['=', '='] ++ behind)).take 2 = ['='.toUInt8, '='.toUInt8] := by
      rw [ofChars_append]
      rfl
    have hlength : (ofChars ['=', '=']).length = 2 := rfl
    rw [if_pos htake, ahead_place hrest hlength, pure_bind,
      skipSpace_place ((List.suffix_append ['=', '='] behind).trans hrest)]
    rfl
  · have htake : (ofChars rest).take 2 ≠ ['='.toUInt8, '='.toUInt8] := by
      intro htake
      have hsplit := List.take_append_drop 2 (ofChars rest)
      rw [htake, show ['='.toUInt8, '='.toUInt8] = ofChars ['=', '='] from rfl] at hsplit
      obtain ⟨more, hmore, -⟩ := exists_of_ofChars_eq_append (by decide) hsplit.symm
      exact hsign ⟨more, hmore.symm⟩
    rw [if_neg htake]
    split
    · next behind => exact absurd ⟨behind, rfl⟩ hsign
    · rfl

theorem close_place {bracket closing : Char} (hc : closing.toNat < 0x80) {opened : List Char}
    (h : cs <:+ whole) :
    close bracket closing (ofChars whole) (place whole (bracket :: opened)) (place whole cs) =
      placed whole (place whole) (Parser.close bracket closing opened cs) := by
  have hrest := (Parser.skipSpace_suffix cs).trans h
  rw [Parser.close, close, skipSpace_place h, pure_bind]
  generalize Parser.skipSpace cs = rest at hrest ⊢
  cases rest with
  | nil =>
    rw [getElem?_place_nil]
    rfl
  | cons c behind =>
    rw [getElem?_place_cons hrest]
    dsimp only
    by_cases hsign : c = closing
    · subst hsign
      rw [if_pos (lead_ascii hc), if_pos rfl, ahead_place_cons hrest hc]
      rfl
    · rw [if_neg (mt (lead_eq_iff hc).1 hsign), if_neg hsign, unexpected_place hrest]
      rfl

theorem filter_place (h : '?' :: cs <:+ whole) :
    filter (ofChars whole) (place whole ('?' :: cs)) =
      placed whole (standing whole) (Parser.filter cs) := by
  have hcs := (List.suffix_cons '?' cs).trans h
  rw [Parser.filter.eq_def]
  split
  · rw [filter, ahead_place_cons h (by decide), pure_bind, getElem?_place_nil]
    rfl
  · next cs =>
    have hopened := (List.suffix_cons '(' cs).trans hcs
    have hleft := (Parser.skipSpace_suffix cs).trans hopened
    rw [filter, ahead_place_cons h (by decide), pure_bind, getElem?_place_cons hcs]
    simp (disch := decide) only [lead_eq_iff, reduceIte, ahead_place_cons hcs, pure_bind,
      skipSpace_place hopened]
    refine placed_bind (operand_place hleft) (Parser.within_operand hleft) fun left hequality => ?_
    refine placed_bind (equality_place hequality) (Parser.within_equality hequality) fun _ hright => ?_
    refine placed_bind (operand_place hright) (Parser.within_operand hright) fun right hclose => ?_
    refine placed_bind (close_place (by decide) hclose) (Parser.within_close hcs hclose) fun _ _ => ?_
    dsimp only [standing]
    cases Parser.compare? left.1 right.1 <;> rfl
  · next c cs hparen =>
    have hc : c ≠ '(' := hparen
    rw [filter, ahead_place_cons h (by decide), pure_bind, getElem?_place_cons hcs]
    simp (disch := decide) only [lead_eq_iff, hc, reduceIte]
    rw [unexpected_place hcs]
    rfl

/-! ## Segments

The rules for brackets use the place of the opening bracket in their errors, so the whole text
is a parameter of every lemma. A position must not stand behind further digits, which is what
`NoDigit` says of the text in front of it. -/

theorem position_place {front : List Char} (h : whole = front ++ cs) (hd : Parser.NoDigit front) :
    position (ofChars whole) (place whole cs) = placed whole (standing whole) (Parser.position cs) := by
  have hcs : cs <:+ whole := ⟨front, h.symm⟩
  rw [position, Parser.position]
  refine placed_bind (integer_place hcs) (Parser.within_integer h hd) fun answer hbehind => ?_
  obtain ⟨first, behind⟩ := answer
  have hrest := (Parser.skipSpace_suffix behind).trans hbehind
  dsimp only [standing]
  rw [skipSpace_place hbehind, pure_bind]
  simp (disch := decide) only [getElem?_place_eq_iff hrest]
  by_cases hcolon : (Parser.skipSpace behind).head? = some ':'
  · obtain ⟨rest, heq⟩ := List.head?_eq_some_iff.1 hcolon
    rw [heq] at hrest hcolon ⊢
    have hopened := (List.suffix_cons ':' rest).trans hrest
    have hbound := (Parser.skipSpace_suffix rest).trans hopened
    obtain ⟨front, hfront, hnone⟩ := Parser.exists_noDigit hrest rfl
    rw [if_pos hcolon, ahead_place_cons hrest (by decide), pure_bind, skipSpace_place hopened, pure_bind]
    simp (disch := decide) only [getElem?_place_eq_iff hbound]
    by_cases hminus : (Parser.skipSpace rest).head? = some '-'
    · obtain ⟨more, hmore⟩ := List.head?_eq_some_iff.1 hminus
      rw [if_pos hminus, hmore]
      rfl
    · rw [if_neg hminus]
      split
      · next more hmore => exact absurd (hmore ▸ rfl) hminus
      · exact placed_bind (integer_place hbound) (Parser.within_integer hfront hnone) fun _ _ => rfl
  · rw [if_neg hcolon]
    cases first with
    | none =>
      dsimp only
      split
      · next heq => exact absurd (heq ▸ rfl) hcolon
      · next hsome _ => cases hsome
      · rfl
    | some n =>
      dsimp only
      split
      · next heq => exact absurd (heq ▸ rfl) hcolon
      · next hsome _ => cases hsome; rfl
      · next hnone _ => cases hnone

theorem index_place (h : '[' :: cs <:+ whole) :
    index (ofChars whole) (place whole ('[' :: cs)) = placed whole (standing whole) (Parser.index cs) := by
  have hcs := (List.suffix_cons '[' cs).trans h
  have hrest := (Parser.skipSpace_suffix cs).trans hcs
  obtain ⟨front, hfront, hnone⟩ := Parser.exists_noDigit h rfl
  rw [index, ahead_place_cons h (by decide), pure_bind, skipSpace_place hcs, pure_bind, Parser.index]
  generalize Parser.skipSpace cs = rest at hrest hfront ⊢
  split
  · rw [content, getElem?_place_nil]
    rfl
  · rw [content, getElem?_place_cons hrest]
    simp (disch := decide) only [lead_eq_iff, reduceIte, ahead_place_cons hrest]
    rfl
  · rw [content, getElem?_place_cons hrest]
    simp (disch := decide) only [lead_eq_iff, Char.reduceEq, reduceIte]
    exact placed_bind (filter_place hrest) (Parser.within_filter hrest) fun _ _ => rfl
  · rw [content, getElem?_place_cons hrest]
    simp (disch := decide) only [lead_eq_iff, Char.reduceEq, reduceIte]
    exact placed_bind (literal_place hrest) (Parser.within_literal hrest) fun _ _ => rfl
  · rw [content, getElem?_place_cons hrest]
    rfl
  · rw [content, getElem?_place_cons hrest]
    rfl
  · next c behind hstar hmark hquote hminus hbracket =>
    have hc : c ≠ '*' ∧ c ≠ '?' ∧ c ≠ '"' ∧ c ≠ '-' ∧ c ≠ ']' :=
      ⟨hstar, hmark, hquote, hminus, hbracket⟩
    have hdigit := Parser.agrees_isDigit c _ (lead_mem c)
    rw [content, getElem?_place_cons hrest]
    simp (disch := decide) only [lead_eq_iff, hc, hdigit, reduceIte]
    split
    · next hfirst =>
      rw [Bool.or_eq_true, decide_eq_true_iff] at hfirst
      exact placed_bind (position_place hfront hnone) (Parser.within_position hfront hnone hfirst)
        fun _ _ => rfl
    · rw [unexpected_place hrest]
      rfl

theorem segment_place (h : cs <:+ whole) :
    segment (ofChars whole) (place whole cs) = placed whole (standing whole) (Parser.segment cs) := by
  rw [Parser.segment.eq_def]
  split
  · rw [segment, getElem?_place_nil]
    rfl
  · next cs =>
    have hstar := (List.suffix_cons '.' _).trans h
    rw [segment, getElem?_place_cons h]
    simp (disch := decide) only [lead_eq_iff, ahead_place_cons h, pure_bind, getElem?_place_eq_iff hstar,
      List.head?_cons, ahead_place_cons hstar, Char.reduceEq, reduceIte]
    rfl
  · next cs hstar =>
    have hname := (List.suffix_cons '.' _).trans h
    have hhead : cs.head? ≠ some '*' := Parser.head?_ne_some hstar
    rw [segment, getElem?_place_cons h]
    simp (disch := decide) only [lead_eq_iff, ahead_place_cons h, pure_bind, getElem?_place_eq_iff hname,
      Char.reduceEq, reduceIte, hhead]
    exact placed_bind (name_place hname) (Parser.within_name hname) fun _ _ => rfl
  · next cs =>
    rw [segment, getElem?_place_cons h]
    simp (disch := decide) only [lead_eq_iff, Char.reduceEq, reduceIte]
    refine placed_bind (index_place h) (Parser.within_index h) fun _ hb => ?_
    exact placed_bind (close_place (by decide) hb) (Parser.within_close h hb) fun _ _ => rfl
  · next cs =>
    rw [segment, getElem?_place_cons h]
    simp (disch := decide) only [lead_eq_iff, Char.reduceEq, reduceIte]
    exact placed_bind (filter_place h) (Parser.within_filter h) fun _ _ => rfl
  · next c cs _ hpoint hbracket hmark =>
    have hc : c ≠ '.' ∧ c ≠ '[' ∧ c ≠ '?' := ⟨hpoint, hbracket, hmark⟩
    rw [segment, getElem?_place_cons h]
    simp (disch := decide) only [lead_eq_iff, hc, reduceIte]
    rw [unexpected_place h]
    rfl

theorem mark_place (h : cs <:+ whole) :
    mark (ofChars whole) (place whole cs) = placed whole (standing whole) (Parser.mark cs) := by
  rw [Parser.mark.eq_def]
  split
  · next cs =>
    have hcs := (List.suffix_cons '+' _).trans h
    rw [mark]
    simp (disch := decide) only [getElem?_place_eq_iff h, getElem?_place_eq_iff hcs, ahead_place_cons h,
      List.head?_cons, pure_bind, reduceIte]
    rfl
  · next cs hplus =>
    have hcs := (List.suffix_cons '+' _).trans h
    have hhead : cs.head? ≠ some '+' := Parser.head?_ne_some hplus
    rw [mark]
    simp (disch := decide) only [getElem?_place_eq_iff h, getElem?_place_eq_iff hcs, ahead_place_cons h,
      List.head?_cons, pure_bind, hhead, reduceIte]
    rfl
  · next hplus =>
    have hhead : cs.head? ≠ some '+' := Parser.head?_ne_some hplus
    rw [mark]
    simp (disch := decide) only [getElem?_place_eq_iff h, hhead, reduceIte]
    rfl

/-! ## Whole paths

The loop over segments ends for the reader of bytes as it does for the reader of characters:
each turn steps over at least one character. -/

theorem segments_place (h : cs <:+ whole) :
    segments (ofChars whole) (place whole cs) = placed whole id (Parser.segments cs) := by
  fun_induction Parser.segments cs with
  | case1 =>
    rw [segments, if_neg not_place_nil_lt]
    rfl
  | case2 c rest stuck hs =>
    obtain ⟨hlt, -⟩ := getElem_place_cons h
    rw [segments, if_pos hlt, segment_place h, hs]
    rfl
  | case3 c rest parts behind hs stuck hm =>
    obtain ⟨hlt, -⟩ := getElem_place_cons h
    have hbehind := (Parser.within_segment h).of_ok hs
    rw [segments, if_pos hlt, segment_place h, hs, placed, pure_bind]
    dsimp only [standing]
    rw [mark_place hbehind, hm]
    rfl
  | case4 c rest parts behind hs marked behind' hm ih =>
    obtain ⟨hlt, -⟩ := getElem_place_cons h
    have hbehind := (Parser.within_segment h).of_ok hs
    have hbehind' := (Parser.within_mark hbehind).of_ok hm
    have hahead := place_lt h hbehind'
      (Nat.lt_of_le_of_lt (Parser.length_mark_le hm) (Parser.length_segment_lt hs))
    rw [segments, if_pos hlt, segment_place h, hs, placed, pure_bind]
    dsimp only [standing]
    rw [mark_place hbehind, hm, placed, pure_bind]
    refine (if_pos hahead).trans ?_
    exact placed_bind (ih hbehind') (Parser.within_segments hbehind') fun _ _ => rfl

theorem path_place (cs : List Char) : path (ofChars cs) = placed cs id (Parser.path cs) := by
  have hstart : place cs cs = 0 := Nat.sub_self _
  have hsign : (ofChars cs)[place cs cs]? = some '$'.toUInt8 ↔ cs.head? = some '$' :=
    getElem?_place_eq_iff (List.suffix_refl cs) (by decide)
  rw [hstart] at hsign
  rw [path]
  by_cases hroot : cs.head? = some '$'
  · obtain ⟨rest, rfl⟩ := List.head?_eq_some_iff.1 hroot
    have hrest := List.suffix_cons '$' rest
    rw [if_pos (hsign.2 hroot), ← hstart, ahead_place_cons (List.suffix_refl _) (by decide), pure_bind]
    refine placed_bind (mark_place hrest) (Parser.within_mark hrest) fun _ hbehind => ?_
    exact placed_bind (segments_place hbehind) (Parser.within_segments hbehind) fun _ _ => rfl
  · rw [if_neg (mt hsign.1 hroot), Parser.path.eq_def]
    split
    · exact absurd rfl hroot
    · rw [placed, hstart]

end Bytewise

/-- The number of bytes of a text. -/
theorem length_ofString (text : String) : (Bytes.ofString text).length = text.utf8ByteSize := by
  rw [← String.size_toByteArray, ← String.utf8Encode_toList, List.utf8Encode, List.size_toByteArray]
  rfl

/-- Every text can be read byte by byte: no step of it cuts a character or leaves the text, every
number is kept within 64 bits, and reading comes to an end. What comes of it is what comes of
reading its characters. And where a text is no path, the error stands between two characters of
the text, at a place that fits the fault. The second half is about `parse`, as the two readers
have the same errors. -/
theorem bytewise_parse (text : String) :
    (Bytewise.path (Bytes.ofString text)).run = some ((parse text).map (·.links)) ∧
      ∀ e, parse text = .error e →
        e.offset ≤ text.utf8ByteSize ∧
          ∃ front rest, text.toList = front ++ rest ∧ e.offset = (Bytes.ofChars front).length ∧
            e.fault.Fits front rest := by
  have hlength := length_ofString text
  have hwithin := Parser.within_path text.toList
  rw [Bytes.ofString] at hlength ⊢
  rw [Bytewise.path_place, parse]
  cases hpath : Parser.path text.toList with
  | ok links => exact ⟨rfl, fun e he => nomatch he⟩
  | error stuck =>
    rw [hpath] at hwithin
    obtain ⟨front, hfront, hfits⟩ := hwithin
    have hplace : text.utf8ByteSize - (Bytes.ofChars stuck.rest).length = (Bytes.ofChars front).length := by
      rw [← hlength, hfront, Bytes.ofChars_append, List.length_append, Nat.add_sub_cancel]
    refine ⟨?_, fun e he => ?_⟩
    · rw [Bytewise.placed, Bytewise.place, hlength]
      rfl
    · cases he
      exact ⟨Nat.sub_le .., front, stuck.rest, hfront, hplace, hfits⟩

/-- The digits stand behind a character of two bytes, and exceed all positions by one. -/
theorem bytewise_parse_overflow :
    (Bytewise.path (Bytes.ofString "$.é[18446744073709551616]")).run = some (.error ⟨.indexOverflow, 5⟩) ∧
      ∃ front rest, "$.é[18446744073709551616]".toList = front ++ rest ∧
        5 = (Bytes.ofChars front).length ∧ PathFault.indexOverflow.Fits front rest := by
  have hparse : parse "$.é[18446744073709551616]" = .error ⟨.indexOverflow, 5⟩ := by decide +kernel
  obtain ⟨hread, hplace⟩ := bytewise_parse "$.é[18446744073709551616]"
  rw [hparse] at hread
  exact ⟨hread, (hplace _ hparse).2⟩

end JsonExtract.Path
