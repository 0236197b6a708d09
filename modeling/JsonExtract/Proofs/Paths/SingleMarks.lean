import JsonExtract.Proofs.Paths.Completeness
import Mathlib.Data.List.Forall2

/-!
# Paths with one of their marks each

A path with several marks asks for values at several places on its way. Each of its marks alone makes a
path, too: the text with all other marks deleted. A plus sign in a literal is no mark and stays. All
these texts are paths, and their links are the links of the path with all other marks taken off.

* `Marks.unmarked`, `Marks.singlyMarked` — characters without marks, and with one mark each;
* `Link.singlyMarked` — the same for links;
* `Marks.singlyMarked_ofChars` — it makes no difference whether characters or bytes are looked at;
* `Path.parseAll_singlyMarked` — the texts with one mark each are read as the links with one mark each.
-/

namespace JsonExtract

/-! ## Links

Taking all marks off but one gives as many chains of links as there are marks, each with the
same parts. -/

namespace Link

/-- A link without its mark. -/
def unmarked (link : Link) : Link :=
  { link with marked := false }

/-- Links with one of their marks each, in the order of the marks. -/
def singlyMarked : List Link → List (List Link)
  | [] => []
  | link :: links =>
    (if link.marked then [link :: links.map unmarked] else []) ++
      (singlyMarked links).map (link.unmarked :: ·)

theorem countP_unmarked (links : List Link) : (links.map unmarked).countP (·.marked) = 0 := by
  rw [List.countP_eq_zero]
  intro link hlink
  obtain ⟨link, -, rfl⟩ := List.mem_map.1 hlink
  exact Bool.false_ne_true

/-- There are as many as there are marks. -/
theorem length_singlyMarked (links : List Link) :
    (singlyMarked links).length = links.countP (·.marked) := by
  induction links with
  | nil => rfl
  | cons link links ih =>
    rw [singlyMarked, List.length_append, List.length_map, ih, List.countP_cons, Nat.add_comm]
    split <;> rfl

/-- Each has one mark. -/
theorem countP_of_mem_singlyMarked {links ls : List Link} (h : ls ∈ singlyMarked links) :
    ls.countP (·.marked) = 1 := by
  induction links generalizing ls with
  | nil => cases h
  | cons link links ih =>
    rw [singlyMarked, List.mem_append] at h
    obtain h | h := h
    · split at h
      · next hm =>
        rw [List.mem_singleton.1 h, List.countP_cons, countP_unmarked, if_pos hm]
      · cases h
    · obtain ⟨more, hmore, rfl⟩ := List.mem_map.1 h
      rw [List.countP_cons, ih hmore]
      rfl

theorem unmarked_ofParts (marked : Bool) (parts : List Part) :
    (ofParts marked parts).map unmarked = ofParts false parts := by
  induction parts with
  | nil => rfl
  | cons part parts ih =>
    cases parts with
    | nil => rfl
    | cons => exact congrArg (⟨part, false⟩ :: ·) ih

/-- A mark on several parts is a mark on the last of them. -/
theorem singlyMarked_ofParts {parts : List Part} (h : parts ≠ []) (marked : Bool)
    (links : List Link) :
    singlyMarked (ofParts marked parts ++ links) =
      (if marked then [ofParts true parts ++ links.map unmarked] else []) ++
        (singlyMarked links).map (ofParts false parts ++ ·) := by
  induction parts with
  | nil => exact absurd rfl h
  | cons part parts ih =>
    cases parts with
    | nil => cases marked <;> rfl
    | cons next parts =>
      have hnext := ih (List.cons_ne_nil _ _)
      change singlyMarked (⟨part, false⟩ :: (ofParts marked (next :: parts) ++ links)) = _
      rw [singlyMarked, hnext, List.map_append, List.map_append, List.map_map]
      cases marked <;> rfl

end Link

/-! ## Characters

In the text one has to tell marks from plus signs in literals, which takes one pass with three
states. The pass is defined for anything that has a sign, so that it can be made over characters
and over bytes. -/

namespace Marks

/-- What a character of a path can mean for its marks. -/
inductive Sign
  /-- a quote, which starts or ends a literal -/
  | quote
  /-- a backslash, which goes with the character behind it in a literal -/
  | backslash
  /-- a plus sign, which is a mark outside of literals -/
  | plus
  /-- anything else -/
  | other
  deriving DecidableEq, Repr

/-- What a character means. -/
def Sign.ofChar (c : Char) : Sign :=
  if c = '"' then quote else if c = '\\' then backslash else if c = '+' then plus else other

/-- What a byte means. -/
def Sign.ofByte (b : UInt8) : Sign :=
  if b = Ascii.quote then quote
  else if b = Ascii.backslash then backslash
  else if b = Ascii.plus then plus
  else other

/-- Where a character of a path stands. This is all one has to know of a path to tell its marks,
as a plus sign outside of literals is always one. -/
inductive Stand
  /-- outside of literals -/
  | outside
  /-- in a literal -/
  | inside
  /-- behind a backslash in a literal -/
  | escaped
  deriving DecidableEq, Repr

/-- Where the next character stands. Backslashes matter in literals only. -/
def Stand.next : Stand → Sign → Stand
  | outside, .quote => inside
  | outside, _ => outside
  | inside, .quote => outside
  | inside, .backslash => escaped
  | inside, _ => inside
  | escaped, _ => inside

/-- Whether a character is a mark where it stands. -/
def Stand.isMark : Stand → Sign → Bool
  | outside, .plus => true
  | _, _ => false

section

variable {α : Type} (sign : α → Sign)

/-- Characters without their marks. They go through the same stands, since a mark does not change
where the next character stands. -/
def unmarked : Stand → List α → List α
  | _, [] => []
  | stand, a :: as =>
    if stand.isMark (sign a) then unmarked stand as
    else a :: unmarked (stand.next (sign a)) as

/-- Characters with one of their marks each, in the order of the marks. Where a mark is met, one
result keeps it and loses the marks behind, and all others lose it. -/
def singlyMarked : Stand → List α → List (List α)
  | _, [] => []
  | stand, a :: as =>
    if stand.isMark (sign a) then (a :: unmarked sign stand as) :: singlyMarked stand as
    else (singlyMarked (stand.next (sign a)) as).map (a :: ·)

/-- Where one gets to over characters, if there is no mark among them. -/
def behind? : Stand → List α → Option Stand
  | stand, [] => some stand
  | stand, a :: as =>
    if stand.isMark (sign a) then none else behind? (stand.next (sign a)) as

variable {sign}

theorem behind?_append {stand stand' : Stand} {as : List α} (h : behind? sign stand as = some stand')
    (bs : List α) : behind? sign stand (as ++ bs) = behind? sign stand' bs := by
  induction as generalizing stand with
  | nil =>
    cases h
    rfl
  | cons a as ih =>
    rw [behind?] at h
    split at h
    · cases h
    · next hm => rw [List.cons_append, behind?, if_neg hm, ih h]

/-- Characters without a mark stay as they are. -/
theorem unmarked_append {stand stand' : Stand} {as : List α}
    (h : behind? sign stand as = some stand') (bs : List α) :
    unmarked sign stand (as ++ bs) = as ++ unmarked sign stand' bs := by
  induction as generalizing stand with
  | nil =>
    cases h
    rfl
  | cons a as ih =>
    rw [behind?] at h
    split at h
    · cases h
    · next hm => rw [List.cons_append, unmarked, if_neg hm, ih h, List.cons_append]

theorem singlyMarked_append {stand stand' : Stand} {as : List α}
    (h : behind? sign stand as = some stand') (bs : List α) :
    singlyMarked sign stand (as ++ bs) = (singlyMarked sign stand' bs).map (as ++ ·) := by
  induction as generalizing stand with
  | nil =>
    cases h
    exact (List.map_id _).symm
  | cons a as ih =>
    rw [behind?] at h
    split at h
    · cases h
    · next hm =>
      rw [List.cons_append, singlyMarked, if_neg hm, ih h, List.map_map]
      rfl

/-- Outside of literals only quotes and plus signs matter. -/
theorem behind?_outside {as : List α} (h : ∀ a ∈ as, sign a ≠ .quote ∧ sign a ≠ .plus) :
    behind? sign .outside as = some .outside := by
  induction as with
  | nil => rfl
  | cons a as ih =>
    rw [List.forall_mem_cons] at h
    rw [behind?]
    cases hs : sign a with
    | quote => exact absurd hs h.1.1
    | plus => exact absurd hs h.1.2
    | backslash | other => exact ih h.2

end

/-! ## Characters and bytes

The texts are made of characters and the grammar of bytes. As only ASCII characters mean
anything for marks, both passes delete the same. -/

theorem ofByte_eq_other {b : UInt8} (h : 0x80 ≤ b) : Sign.ofByte b = .other := by
  have hne : ∀ c < (0x80 : UInt8), b ≠ c := by
    rintro c hc rfl
    exact absurd hc (UInt8.not_lt.2 h)
  rw [Sign.ofByte, if_neg (hne _ (by decide)), if_neg (hne _ (by decide)),
    if_neg (hne _ (by decide))]

theorem ofChar_eq_other {c : Char} (h : 0x80 ≤ c.toNat) : Sign.ofChar c = .other := by
  have hne : ∀ d : Char, d.toNat < 0x80 → c ≠ d := by
    rintro d hd rfl
    exact absurd hd (Nat.not_lt.2 h)
  rw [Sign.ofChar, if_neg (hne _ (by decide)), if_neg (hne _ (by decide)),
    if_neg (hne _ (by decide))]

/-- The byte of an ASCII character means the same. -/
theorem ofByte_toUInt8 {c : Char} (h : c.toNat < 0x80) : Sign.ofByte c.toUInt8 = Sign.ofChar c := by
  have hlow : ∀ n < 0x80, Sign.ofByte (Char.ofNat n).toUInt8 = Sign.ofChar (Char.ofNat n) := by
    decide
  have := hlow c.toNat h
  rwa [Char.ofNat_toNat] at this

open Bytes (ofChars)

/-- No byte of a character beyond ASCII is a mark, and all of them lead to the same place. -/
theorem behind?_utf8EncodeChar {c : Char} (h : 0x80 ≤ c.toNat) (stand : Stand) :
    behind? Sign.ofByte stand (String.utf8EncodeChar c) = some (stand.next .other) := by
  have hall : ∀ b ∈ String.utf8EncodeChar c, Sign.ofByte b = .other :=
    fun b hb => ofByte_eq_other (Bytes.le_of_mem_utf8EncodeChar h hb)
  have hrun : ∀ (bytes : Bytes), (∀ b ∈ bytes, Sign.ofByte b = .other) →
      behind? Sign.ofByte (stand.next .other) bytes = some (stand.next .other) := by
    intro bytes hbytes
    induction bytes with
    | nil => rfl
    | cons b bytes ih =>
      rw [List.forall_mem_cons] at hbytes
      rw [behind?, hbytes.1]
      cases stand <;> exact ih hbytes.2
  cases hbytes : String.utf8EncodeChar c with
  | nil => exact absurd hbytes String.utf8EncodeChar_ne_nil
  | cons b bytes =>
    rw [hbytes, List.forall_mem_cons] at hall
    rw [behind?, hall.1, ← hrun bytes hall.2]
    cases stand <;> rfl

theorem isMark_other (stand : Stand) : stand.isMark .other = false := by
  cases stand <;> rfl

theorem unmarked_ofChars (stand : Stand) (cs : List Char) :
    unmarked Sign.ofByte stand (ofChars cs) = ofChars (unmarked Sign.ofChar stand cs) := by
  induction cs generalizing stand with
  | nil => rfl
  | cons c cs ih =>
    rcases Nat.lt_or_ge c.toNat 0x80 with hc | hc
    · rw [Bytes.ofChars_cons_ascii hc, unmarked, unmarked, ofByte_toUInt8 hc]
      split
      · exact ih stand
      · rw [Bytes.ofChars_cons_ascii hc, ih]
    · rw [Bytes.ofChars_cons, unmarked_append (behind?_utf8EncodeChar hc stand), ih, unmarked,
        ofChar_eq_other hc, isMark_other, if_neg Bool.false_ne_true, Bytes.ofChars_cons]

/-- Marks may be looked for among characters or among their bytes. -/
theorem singlyMarked_ofChars (stand : Stand) (cs : List Char) :
    singlyMarked Sign.ofByte stand (ofChars cs) =
      (singlyMarked Sign.ofChar stand cs).map ofChars := by
  induction cs generalizing stand with
  | nil => rfl
  | cons c cs ih =>
    rcases Nat.lt_or_ge c.toNat 0x80 with hc | hc
    · rw [Bytes.ofChars_cons_ascii hc, singlyMarked, singlyMarked, ofByte_toUInt8 hc]
      split
      · rw [List.map_cons, Bytes.ofChars_cons_ascii hc, unmarked_ofChars, ih]
      · rw [ih, List.map_map, List.map_map]
        exact List.map_congr_left fun more _ => (Bytes.ofChars_cons_ascii hc more).symm
    · rw [Bytes.ofChars_cons, singlyMarked_append (behind?_utf8EncodeChar hc stand), ih, singlyMarked,
        ofChar_eq_other hc, isMark_other, if_neg Bool.false_ne_true, List.map_map, List.map_map]
      rfl

/-! ## The parts of a path

What lies between two marks of a path holds no mark and does not change the state of the pass,
because its literals are closed. This is shown for each rule of the grammar. -/

open JsonExtract.Path JsonExtract.Path.Grammar

/-- In a part of a path that stands outside of literals there is no mark, and it ends there. A
part that is inert can be passed over in one step, from outside of literals. -/
def Inert (text : Bytes) : Prop :=
  behind? Sign.ofByte .outside text = some .outside

theorem Inert.append {text text' : Bytes} (h : Inert text) (h' : Inert text') :
    Inert (text ++ text') :=
  (behind?_append h text').trans h'

theorem inert_of_forall {text : Bytes} (h : ∀ b ∈ text, b ≠ Ascii.quote ∧ b ≠ Ascii.plus) :
    Inert text := by
  refine behind?_outside fun b hb => ?_
  obtain ⟨hquote, hplus⟩ := h b hb
  rw [Sign.ofByte, if_neg hquote, if_neg hplus]
  split <;> decide

theorem inert_space {gap : Bytes} (h : IsSpace gap) : Inert gap := by
  refine inert_of_forall fun b hb => ⟨?_, ?_⟩
  · rintro rfl
    exact absurd (h _ hb) (by decide)
  · rintro rfl
    exact absurd (h _ hb) (by decide)

theorem inert_name {name : Bytes} (h : IsName name) : Inert name := by
  refine inert_of_forall fun b hb => ⟨?_, ?_⟩
  · rintro rfl
    exact h.2 _ hb (by decide)
  · rintro rfl
    exact h.2 _ hb (by decide)

theorem inert_integer {n : Nat} {digits : Bytes} (h : IsInteger n digits) : Inert digits := by
  refine inert_of_forall fun b hb => ⟨?_, ?_⟩
  · rintro rfl
    exact absurd (h.2.1 _ hb) (by decide)
  · rintro rfl
    exact absurd (h.2.1 _ hb) (by decide)

theorem inert_integer? {n : Option Nat} {digits : Bytes} (h : IsInteger? n digits) :
    Inert digits := by
  cases h with
  | none => rfl
  | some h => exact inert_integer h

/-- A literal stays, whatever it holds. -/
theorem inert_literal {inner : Bytes} (h : IsLiteral inner) : Inert (Bytes.quoted inner) := by
  have hinner : behind? Sign.ofByte .inside inner = some .inside := by
    induction h with
    | nil => rfl
    | plain hq hs _ ih =>
      rw [behind?, Sign.ofByte, if_neg hq, if_neg hs]
      split <;> exact ih
    | escape _ ih => exact ih
  have hclosing : behind? Sign.ofByte .inside (inner ++ [Ascii.quote]) = some .outside :=
    behind?_append hinner [Ascii.quote]
  exact hclosing

theorem inert_operand {o : Parser.Operand} {text : Bytes} (h : SpellsOperand o text) :
    Inert text := by
  cases h with
  | literal h => exact inert_literal h
  | any => rfl
  | named h => exact Inert.append rfl (inert_name h)

theorem inert_filter {f : Filter} {text : Bytes} (h : SpellsFilter f text) : Inert text := by
  cases h with
  | mk hgap₁ hleft hgap₂ hgap₃ hright hgap₄ _ =>
    have hclosing : Inert (Bytes.ofChars [')']) := rfl
    have hequality : Inert (Bytes.ofChars ['=', '=']) := rfl
    have hopening : Inert (Bytes.ofChars ['?', '(']) := rfl
    exact hopening.append ((inert_space hgap₁).append ((inert_operand hleft).append
      ((inert_space hgap₂).append (hequality.append ((inert_space hgap₃).append
        ((inert_operand hright).append ((inert_space hgap₄).append hclosing)))))))

theorem inert_index {parts : List Part} {text : Bytes} (h : SpellsIndex parts text) :
    Inert text := by
  cases h with
  | wildcard => rfl
  | key h => exact inert_literal h
  | position h => exact inert_integer h
  | slice hlow hgap₁ hgap₂ hhigh =>
    have hcolon : Inert [Ascii.colon] := rfl
    exact (inert_integer? hlow).append ((inert_space hgap₁).append
      (hcolon.append ((inert_space hgap₂).append (inert_integer? hhigh))))
  | filter h => exact inert_filter h

/-- A segment without its mark has no mark. -/
theorem inert_segment {parts : List Part} {text : Bytes} (h : SpellsSegment parts text) :
    Inert text := by
  cases h with
  | wildcard => rfl
  | name h =>
    have hpoint : Inert [Ascii.point] := rfl
    exact hpoint.append (inert_name h)
  | index hgap₁ hindex hgap₂ =>
    have hopening : Inert [Ascii.openBracket] := rfl
    have hclosing : Inert [Ascii.closeBracket] := rfl
    exact hopening.append ((inert_space hgap₁).append ((inert_index hindex).append
      ((inert_space hgap₂).append hclosing)))
  | filter h => exact inert_filter h

theorem ne_nil_of_spellsSegment {parts : List Part} {text : Bytes} (h : SpellsSegment parts text) :
    parts ≠ [] := by
  cases h with
  | wildcard | name | filter => exact List.cons_ne_nil _ _
  | index _ hindex _ => cases hindex <;> exact List.cons_ne_nil _ _

/-! ## Whole paths

Going along the grammar, each mark is met between two parts that stay as they are. Deleting it
takes the mark off one link, and so the texts with one mark are spelled by the links with one
mark. -/

/-- Segments without their marks are links without their marks. -/
theorem spellsSegments_unmarked {links : List Link} {text : Bytes} (h : SpellsSegments links text) :
    SpellsSegments (links.map Link.unmarked) (unmarked Sign.ofByte .outside text) := by
  induction h with
  | nil => exact .nil
  | cons hsegment hmark _ ih =>
    rw [List.map_append, Link.unmarked_ofParts, unmarked_append (inert_segment hsegment)]
    cases hmark with
    | none | mark => exact .cons hsegment .none ih

/-- Segments with one of their marks each are links with one of their marks each. -/
theorem spellsSegments_singlyMarked {links : List Link} {text : Bytes}
    (h : SpellsSegments links text) :
    List.Forall₂ SpellsSegments (Link.singlyMarked links)
      (singlyMarked Sign.ofByte .outside text) := by
  induction h with
  | nil => exact .nil
  | @cons parts marked links text mark rest hsegment hmark hrest ih =>
    have hlater : List.Forall₂ SpellsSegments
        ((Link.singlyMarked links).map (Link.ofParts false parts ++ ·))
        ((singlyMarked Sign.ofByte .outside rest).map (text ++ ·)) := by
      rw [List.forall₂_map_left_iff, List.forall₂_map_right_iff]
      exact ih.imp fun _ _ h => .cons hsegment .none h
    rw [Link.singlyMarked_ofParts (ne_nil_of_spellsSegment hsegment),
      singlyMarked_append (inert_segment hsegment)]
    cases hmark with
    | none => exact hlater
    | mark => exact .cons (.cons hsegment .mark (spellsSegments_unmarked hrest)) hlater

/-- A path with one of its marks each is its links with one of their marks each. -/
theorem spells_singlyMarked {links : List Link} {text : Bytes} (h : Spells links text) :
    List.Forall₂ Spells (Link.singlyMarked links) (singlyMarked Sign.ofByte .outside text) := by
  cases h with
  | @mk marked links mark rest hmark hsegments =>
    have hroot : Inert (Bytes.ofChars ['$']) := rfl
    have hlater : List.Forall₂ Spells
        ((Link.singlyMarked links).map (⟨.selector .root, false⟩ :: ·))
        ((singlyMarked Sign.ofByte .outside rest).map (Bytes.ofChars ['$'] ++ ·)) := by
      rw [List.forall₂_map_left_iff, List.forall₂_map_right_iff]
      exact (spellsSegments_singlyMarked hsegments).imp fun _ _ h => .mk .none h
    rw [singlyMarked_append hroot]
    cases hmark with
    | none => exact hlater
    | mark => exact .cons (.mk .mark (spellsSegments_unmarked hsegments)) hlater

end Marks

namespace Path

/-- The texts of a path with all of its marks deleted but one, for each of the marks in order. -/
def singlyMarked (text : String) : List String :=
  (Marks.singlyMarked Marks.Sign.ofChar .outside text.toList).map String.ofList

/-- Texts that the grammar spells are read as paths. -/
theorem parseAll_of_spells {ls : List (List Link)} {texts : List String}
    (h : List.Forall₂ (fun links text => Grammar.Spells links (Bytes.ofString text)) ls texts) :
    ∃ paths, parseAll texts = .ok paths ∧ paths.map (·.links) = ls := by
  induction h with
  | nil => exact ⟨[], rfl, rfl⟩
  | @cons links text ls texts hfirst _ ih =>
    obtain ⟨paths, hpaths, rfl⟩ := ih
    have hparse := parse_of_spells hfirst
    refine ⟨ofLinks text links :: paths, ?_, rfl⟩
    rw [parseAll] at hpaths ⊢
    rw [List.mapM_cons, hparse, hpaths]
    rfl

/-- The texts that leave one mark of a path are paths, and leave one mark of its links. -/
theorem parseAll_singlyMarked {text : String} {p : Path} (h : parse text = .ok p) :
    ∃ paths, parseAll (singlyMarked text) = .ok paths ∧
      paths.map (·.links) = Link.singlyMarked p.links := by
  obtain ⟨links, hspells, rfl⟩ := exists_spells_of_parse h
  have hall := Marks.spells_singlyMarked hspells
  change List.Forall₂ Grammar.Spells _ (Marks.singlyMarked _ _ (Bytes.ofChars text.toList)) at hall
  rw [Marks.singlyMarked_ofChars, List.forall₂_map_right_iff] at hall
  refine parseAll_of_spells (List.forall₂_map_right_iff.2 (hall.imp fun links cs hcs => ?_))
  rwa [Bytes.ofString, String.toList_ofList]

end Path

end JsonExtract
