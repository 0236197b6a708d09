import JsonExtract.Path.Basic
import Mathlib.Data.List.Infix

/-!
# The places of errors

Reading a path stops at the first thing that cannot be part of it. The place of the error is a place
between two characters of the path, and what stands there depends on the fault.

* `PathFault.Fits` — what stands at the place of a fault;
* `Parser.Within` — reading stays within a text, and an error stands at a place that fits it;
* `Parser.within_filter`, `Parser.within_index`, `Parser.within_segment` — the rules;
* `Parser.within_path` — whole paths.
-/

namespace JsonExtract

open Path.Parser in
/-- What stands at the place of a fault, where the characters are those in front of the place and
those behind it. There is one case for each fault, by what can be seen at the place. -/
def PathFault.Fits (front rest : List Char) : PathFault → Prop
  | expectedRoot => front = [] ∧ rest.head? ≠ some '$'
  | unexpectedChar c => rest.head? = some c
  | unexpectedEnd => rest = []
  | emptyKey => ∃ c, rest.head? = some c ∧ isDelimiter c = true
  | emptyIndex => rest.head? = some ']'
  | negativeIndex => rest.head? = some '-'
  -- the place of the first digit
  | indexOverflow =>
    (∀ c, front.getLast? = some c → c.isDigit = false) ∧
      maxPosition < number (rest.takeWhile Char.isDigit)
  | unbalanced bracket => rest.head? = some bracket
  | malformedFilter .noEquality => ¬ ['=', '='] <+: rest
  | malformedFilter .noPoint => front.getLast? = some '@' ∧ rest.head? ≠ some '.'
  | malformedFilter .noOperand => ∃ c, rest.head? = some c ∧ c ≠ '"' ∧ c ≠ '@'
  | malformedFilter .noLiteral => rest.head? = some '?'
  | unterminatedLiteral => rest.head? = some '"'
  | repeatedMarker => front.getLast? = some '+' ∧ rest.head? = some '+'

namespace Path.Parser

/-! ## Staying within a text

A rule takes characters from the front and leaves the others, so what is left is always the end
of the text. That makes the place of an error a place of the text, and the characters on both
sides of it can be named. -/

/-- Reading stands at a place of a text that fits its fault. The characters in front of the place
are those that were read. -/
def Stuck.Stands (whole : List Char) (s : Stuck) : Prop :=
  ∃ front, whole = front ++ s.rest ∧ s.fault.Fits front s.rest

/-- What is left of a text behind an answer is its end, and an error stands at a place of the
text. `behind` says which part of an answer is the text that is left. -/
def Within {α : Type} (whole : List Char) (behind : α → List Char) : Answer α → Prop
  | .ok a => behind a <:+ whole
  | .error stuck => stuck.Stands whole

section

variable {α β : Type} {whole : List Char}

/-- A fault that is only about what stands behind its place. -/
theorem Stuck.stands_of_suffix {s : Stuck} (h : s.rest <:+ whole)
    (hfits : ∀ front, s.fault.Fits front s.rest) : s.Stands whole := by
  obtain ⟨front, hfront⟩ := h
  exact ⟨front, hfront.symm, hfits front⟩

theorem Within.of_ok {behind : α → List Char} {x : Answer α} {a : α} (hx : Within whole behind x)
    (h : x = .ok a) : behind a <:+ whole := by
  subst h
  exact hx

theorem Within.of_error {behind : α → List Char} {x : Answer α} {stuck : Stuck}
    (hx : Within whole behind x) (h : x = .error stuck) : stuck.Stands whole := by
  subst h
  exact hx

/-- Reading in two steps stays within a text when both steps do. -/
theorem Within.bind {behind : α → List Char} {behind' : β → List Char} {x : Answer α} {f : α → Answer β}
    (hx : Within whole behind x) (hf : ∀ a, behind a <:+ whole → x = .ok a → Within whole behind' (f a)) :
    Within whole behind' (x >>= f) := by
  cases x with
  | error stuck => exact hx
  | ok a => exact hf a hx rfl

theorem skipSpace_suffix (cs : List Char) : skipSpace cs <:+ cs :=
  List.dropWhile_suffix _

theorem head?_ne_some {c : Char} {cs : List Char} (h : ∀ more, cs = c :: more → False) :
    cs.head? ≠ some c := by
  intro hhead
  obtain ⟨more, hmore⟩ := List.head?_eq_some_iff.1 hhead
  exact h more hmore

end

variable {whole cs : List Char}

theorem within_name (h : cs <:+ whole) : Within whole Prod.snd (name cs) := by
  rw [name]
  split
  · next hnone =>
    refine Stuck.stands_of_suffix h fun _ => ?_
    cases cs with
    | nil => exact rfl
    | cons c cs =>
      rw [List.takeWhile_cons] at hnone
      split at hnone
      · cases hnone
      · next hc => exact ⟨c, rfl, by simpa using hc⟩
  · exact (List.dropWhile_suffix _).trans h

/-- What stands in front of the quote that closes a literal. -/
theorem eq_append_of_untilQuote {inner behind : List Char} (h : untilQuote? cs = some (inner, behind)) :
    cs = inner ++ '"' :: behind := by
  fun_induction untilQuote? cs generalizing inner behind with
  | case1 => cases h
  | case2 rest => cases h; rfl
  | case3 c rest ih =>
    obtain ⟨⟨inner, behind⟩, hu, he⟩ := Option.map_eq_some_iff.1 h
    cases he
    rw [ih hu]
    rfl
  | case4 c rest _ _ ih =>
    obtain ⟨⟨inner, behind⟩, hu, he⟩ := Option.map_eq_some_iff.1 h
    cases he
    rw [ih hu]
    rfl

theorem within_literal (h : '"' :: cs <:+ whole) : Within whole Prod.snd (literal cs) := by
  rw [literal]
  split
  · next inner behind hu =>
    rw [eq_append_of_untilQuote hu] at h
    exact (List.suffix_append ('"' :: inner ++ ['"']) behind).trans (by simpa using h)
  · exact Stuck.stands_of_suffix h fun _ => rfl

/-- No digit stands in front of a place. -/
def NoDigit (front : List Char) : Prop :=
  ∀ c, front.getLast? = some c → c.isDigit = false

theorem within_integer {front : List Char} (h : whole = front ++ cs) (hd : NoDigit front) :
    Within whole Prod.snd (integer? cs) := by
  rw [integer?]
  split
  · exact ⟨front, h.symm⟩
  · rw [numberFrom?_zero]
    split
    · next hnone =>
      refine ⟨front, h, hd, ?_⟩
      by_contra hle
      rw [if_neg hle] at hnone
      cases hnone
    · exact (List.dropWhile_suffix _).trans ⟨front, h.symm⟩

/-- If there is no number, nothing was read. -/
theorem of_integer_eq_none {c : Char} {behind : List Char}
    (h : integer? (c :: cs) = .ok (none, behind)) : c.isDigit = false ∧ behind = c :: cs := by
  rw [integer?, List.takeWhile_cons] at h
  split at h
  · next hnone =>
    cases h
    split at hnone
    · cases hnone
    · next hc => exact ⟨by simpa using hc, rfl⟩
  · split at h <;> cases h

/-! ## Filters

An error in a filter may stand at its opening bracket, if the closing one is missing, and
otherwise where the reader got stuck. -/

theorem within_operand (h : cs <:+ whole) : Within whole Prod.snd (operand cs) := by
  rw [operand.eq_def]
  split
  · exact Stuck.stands_of_suffix h fun _ => rfl
  · exact (within_literal h).bind fun _ hb _ => hb
  · exact (List.suffix_append ['@', '.', '*'] _).trans h
  · exact (within_name ((List.suffix_append ['@', '.'] _).trans h)).bind fun _ hb _ => hb
  · next cs _ hpoint =>
    obtain ⟨front, rfl⟩ := h
    exact ⟨front ++ ['@'], by simp, by simp, head?_ne_some hpoint⟩
  · next hnil hquote _ _ hat =>
    cases cs with
    | nil => exact absurd rfl hnil
    | cons c cs =>
      refine Stuck.stands_of_suffix h fun _ => ⟨c, rfl, ?_, ?_⟩
      · rintro rfl
        exact hquote _ rfl
      · rintro rfl
        exact hat _ rfl

theorem within_equality (h : cs <:+ whole) : Within whole id (equality cs) := by
  have hrest := (skipSpace_suffix cs).trans h
  rw [equality]
  generalize skipSpace cs = rest at hrest ⊢
  split
  · next behind =>
    exact (skipSpace_suffix behind).trans ((List.suffix_append ['=', '='] behind).trans hrest)
  · next hsign =>
    refine Stuck.stands_of_suffix hrest fun _ => ?_
    rintro ⟨behind, hbehind⟩
    exact hsign behind hbehind.symm

theorem within_close {bracket closing : Char} {opened : List Char} (ho : bracket :: opened <:+ whole)
    (h : cs <:+ whole) : Within whole id (close bracket closing opened cs) := by
  have hrest := (skipSpace_suffix cs).trans h
  rw [close]
  generalize skipSpace cs = rest at hrest ⊢
  split
  · exact Stuck.stands_of_suffix ho fun _ => rfl
  · next c behind =>
    split
    · exact (List.suffix_cons c behind).trans hrest
    · exact Stuck.stands_of_suffix hrest fun _ => rfl

theorem within_filter (h : '?' :: cs <:+ whole) : Within whole Prod.snd (filter cs) := by
  have hcs := (List.suffix_cons '?' cs).trans h
  rw [filter.eq_def]
  split
  · exact Stuck.stands_of_suffix hcs fun _ => rfl
  · next cs =>
    have hopened := (List.suffix_cons '(' cs).trans hcs
    refine (within_operand ((skipSpace_suffix cs).trans hopened)).bind fun left hleft _ => ?_
    refine (within_equality hleft).bind fun _ hequality _ => ?_
    refine (within_operand hequality).bind fun right hright _ => ?_
    refine (within_close hcs hright).bind fun behind hbehind _ => ?_
    split
    · exact hbehind
    · exact Stuck.stands_of_suffix h fun _ => rfl
  · exact Stuck.stands_of_suffix hcs fun _ => rfl

/-! ## Segments

For positions the number in question must start where the reader started it, so that the error
stands at its first digit; hence the condition on what is in front. -/

/-- No digit stands in front of what comes behind space and a character that is none. -/
theorem exists_noDigit {c : Char} (h : c :: cs <:+ whole) (hc : c.isDigit = false) :
    ∃ front, whole = front ++ skipSpace cs ∧ NoDigit front := by
  obtain ⟨front, rfl⟩ := h
  refine ⟨front ++ c :: cs.takeWhile isSpace, ?_, fun d hd => ?_⟩
  · rw [List.append_assoc, List.cons_append, skipSpace, List.takeWhile_append_dropWhile]
  · rw [List.getLast?_append_of_ne_nil _ (List.cons_ne_nil _ _)] at hd
    rcases List.mem_cons.1 (List.mem_of_getLast? hd) with rfl | hspace
    · exact hc
    · have hspace := List.all_eq_true.1 List.all_takeWhile d hspace
      simp only [isSpace, Bool.or_eq_true, beq_iff_eq] at hspace
      rcases hspace with ((rfl | rfl) | rfl) | rfl <;> rfl

theorem within_position {front : List Char} {c : Char} (h : whole = front ++ c :: cs) (hd : NoDigit front)
    (hc : c.isDigit = true ∨ c = ':') : Within whole Prod.snd (position (c :: cs)) := by
  rw [position]
  refine (within_integer h hd).bind fun answer hbehind hfirst => ?_
  obtain ⟨first, behind⟩ := answer
  have hrest := (skipSpace_suffix behind).trans hbehind
  dsimp only
  split
  · next behind heq =>
    rw [heq] at hrest
    obtain ⟨front, hfront, hnone⟩ := exists_noDigit hrest rfl
    split
    · next rest hrest =>
      rw [hrest] at hfront
      exact ⟨front, hfront, rfl⟩
    · exact (within_integer hfront hnone).bind fun _ hb _ => hb
  · exact hrest
  · next hcolon =>
    -- without digits a colon comes first
    obtain ⟨hdigit, rfl⟩ := of_integer_eq_none hfirst
    obtain rfl := hc.resolve_left (hdigit ▸ Bool.false_ne_true)
    exact (hcolon cs rfl).elim

theorem within_index (h : '[' :: cs <:+ whole) : Within whole Prod.snd (index cs) := by
  have hrest := (skipSpace_suffix cs).trans ((List.suffix_cons '[' cs).trans h)
  obtain ⟨front, hfront, hnone⟩ := exists_noDigit h rfl
  rw [index]
  generalize skipSpace cs = rest at hrest hfront ⊢
  split
  · exact Stuck.stands_of_suffix h fun _ => rfl
  · exact (List.suffix_cons '*' _).trans hrest
  · exact (within_filter hrest).bind fun _ hb _ => hb
  · exact (within_literal hrest).bind fun _ hb _ => hb
  · exact Stuck.stands_of_suffix hrest fun _ => rfl
  · exact Stuck.stands_of_suffix hrest fun _ => rfl
  · split
    · next hc =>
      rw [Bool.or_eq_true, decide_eq_true_iff] at hc
      exact (within_position hfront hnone hc).bind fun _ hb _ => hb
    · exact Stuck.stands_of_suffix hrest fun _ => rfl

theorem within_segment (h : cs <:+ whole) : Within whole Prod.snd (segment cs) := by
  rw [segment.eq_def]
  split
  · exact Stuck.stands_of_suffix h fun _ => rfl
  · exact (List.suffix_append ['.', '*'] _).trans h
  · exact (within_name ((List.suffix_cons '.' _).trans h)).bind fun _ hb _ => hb
  · exact (within_index h).bind fun _ hb _ => (within_close h hb).bind fun _ hb _ => hb
  · exact (within_filter h).bind fun _ hb _ => hb
  · exact Stuck.stands_of_suffix h fun _ => rfl

theorem within_mark (h : cs <:+ whole) : Within whole Prod.snd (mark cs) := by
  rw [mark.eq_def]
  split
  · obtain ⟨front, rfl⟩ := h
    exact ⟨front ++ ['+'], by simp, by simp, rfl⟩
  · exact (List.suffix_cons '+' _).trans h
  · exact h

/-! ## Whole paths

Nothing is left behind a path, and behind an error there may be anything. -/

theorem within_segments (h : cs <:+ whole) : Within whole (fun _ => []) (segments cs) := by
  fun_induction segments cs with
  | case1 => exact List.nil_suffix
  | case2 c rest stuck hs => exact (within_segment h).of_error hs
  | case3 c rest parts behind hs stuck hm =>
    have hbehind := (within_segment h).of_ok hs
    exact (within_mark hbehind).of_error hm
  | case4 c rest parts behind hs marked behind' hm ih =>
    have hbehind := (within_segment h).of_ok hs
    exact (ih ((within_mark hbehind).of_ok hm)).bind fun _ hb _ => hb

theorem within_path (cs : List Char) : Within cs (fun _ => []) (path cs) := by
  rw [path.eq_def]
  split
  · next cs =>
    refine (within_mark (List.suffix_cons '$' cs)).bind fun _ hmark _ => ?_
    exact (within_segments hmark).bind fun _ hb _ => hb
  · next hroot =>
    exact ⟨[], rfl, rfl, head?_ne_some hroot⟩

end Path.Parser

end JsonExtract
