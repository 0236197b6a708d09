import JsonExtract.Proofs.Paths.Boundaries
import JsonExtract.Proofs.Paths.Faults
import Mathlib.Data.List.TakeWhile

/-!
# Errors that stay

A path is read from left to right, and nothing behind an error is looked at. So an error stays where it is
when the text goes on, unless it says that something is missing at the end of the text.

Reading a text and reading the same text with more behind it go together up to the end of the shorter one.
A rule that got as far as that end is `Open`: it may go on in the longer text. All other answers are the same
for both texts, and leave what they leave of the shorter one, with more behind it.

* `PathFault.isFinal` — faults that nothing behind them can mend;
* `Parser.Open`, `Parser.Extends` — open answers, and answers to a text that goes on;
* `Parser.extends_filter`, `Parser.extends_index`, `Parser.extends_segment` — the rules;
* `Path.parse_append_of_isFinal` — errors in whole paths.
-/

namespace JsonExtract

/-- Whether a fault is one that nothing behind it can mend. The others say that the text ends too early, or
stand where the rest of a sign may follow. -/
def PathFault.isFinal : PathFault → Bool
  | expectedRoot | unexpectedChar _ | emptyKey | emptyIndex | negativeIndex | indexOverflow | repeatedMarker
  | malformedFilter .noLiteral | malformedFilter .noOperand => true
  | unexpectedEnd | unbalanced _ | unterminatedLiteral
  | malformedFilter .noEquality | malformedFilter .noPoint => false

namespace Path.Parser

/-! ## Answers to a text that goes on

An answer to a longer text either is the same, with the additional characters left over, or the
answer to the shorter one was open. `Extends` says this of one rule, and it is passed from rules
to the rules that use them by `Extends.bind`. -/

/-- The same fault, with more text behind it. -/
def Stuck.append (more : List Char) (s : Stuck) : Stuck :=
  { s with rest := s.rest ++ more }

/-- Whether an answer may change if the text goes on: it is a fault that may be mended, or
something that `ends` with the text. An open answer makes no promise about the longer text. -/
def Open {α : Type} (ends : α → Prop) : Answer α → Prop
  | .ok a => ends a
  | .error stuck => stuck.fault.isFinal = false

/-- An answer to a text, and one to the text with `more` behind it. The second one is the first with more
left, which `onto` adds, unless the first one is open. -/
def Extends {α : Type} (more : List Char) (ends : α → Prop) (onto : α → α) (x y : Answer α) : Prop :=
  Open ends x ∨ y = (x.map onto).mapError (Stuck.append more)

/-- Nothing is left. -/
def atEnd {α : Type} (a : α × List Char) : Prop :=
  a.2 = []

/-- Nothing is open about what was read. The text behind does not matter for it: it was ended by
something that was read. -/
def never {α : Type} (_ : α) : Prop :=
  False

/-- Whatever was read is open, as it is with a path, behind which more segments may follow. -/
def always {α : Type} (_ : α) : Prop :=
  True

/-- What was read, with more left behind it. -/
def leaving {α : Type} (more : List Char) (a : α × List Char) : α × List Char :=
  (a.1, a.2 ++ more)

section

variable {α β : Type} {more : List Char} {ends : α → Prop} {ends' : β → Prop} {onto : α → α} {onto' : β → β}

/-- The same is read, with more left. -/
theorem Extends.ok (a : α) : Extends more ends onto (.ok a) (.ok (onto a)) :=
  .inr rfl

/-- Reading gets stuck at the same place. -/
theorem Extends.error (stuck : Stuck) :
    Extends more ends onto (.error stuck) (.error (stuck.append more)) :=
  .inr rfl

/-- Reading in two steps. Where the first one ends with the text, the second one is open as well.
The conditions say when the whole is open, by which of its two steps is. -/
theorem Extends.bind {x y : Answer α} {f g : α → Answer β} (hx : Extends more ends onto x y)
    (hopen : ∀ a, x = .ok a → ends a → Open ends' (f a))
    (hf : ∀ a, x = .ok a → ¬ ends a → Extends more ends' onto' (f a) (g (onto a))) :
    Extends more ends' onto' (x >>= f) (y >>= g) := by
  cases x with
  | error stuck =>
    rcases hx with hstuck | rfl
    · exact .inl hstuck
    · exact .inr rfl
  | ok a =>
    rcases hx with ha | rfl
    · exact .inl (hopen a rfl ha)
    · by_cases ha : ends a
      · exact .inl (hopen a rfl ha)
      · exact hf a rfl ha

/-- Reading something and then making something else of it. -/
theorem Extends.bind_pure {x y : Answer (α × List Char)} {ends : α × List Char → Prop} (make : α → β)
    {ends' : β × List Char → Prop} (hends : ∀ a, ends a → ends' (make a.1, a.2))
    (hx : Extends more ends (leaving more) x y) :
    Extends more ends' (leaving more) (do let (a, behind) ← x; return (make a, behind))
      (do let (a, behind) ← y; return (make a, behind)) :=
  hx.bind (fun a _ ha => hends a ha) fun _ _ _ => .inr rfl

end

/-! ## Runs

A run that stops at a character stops there in every longer text. If it goes up to the end it may
go on, and then nothing is said. -/

section

variable {p : Char → Bool} {cs : List Char} (more : List Char)

/-- A run that ends in a text ends there in a longer text, too. -/
theorem takeWhile_append_of_ne_nil (h : cs.dropWhile p ≠ []) :
    (cs ++ more).takeWhile p = cs.takeWhile p ∧ (cs ++ more).dropWhile p = cs.dropWhile p ++ more := by
  have hsplit := congrArg List.length (List.takeWhile_append_dropWhile (p := p) (l := cs))
  have hpos := List.length_pos_iff.2 h
  rw [List.length_append] at hsplit
  rw [List.takeWhile_append, List.dropWhile_append, if_neg (by omega), if_neg (by simpa using h)]
  exact ⟨rfl, rfl⟩

theorem skipSpace_append (h : skipSpace cs ≠ []) : skipSpace (cs ++ more) = skipSpace cs ++ more :=
  (takeWhile_append_of_ne_nil more h).2

/-- Space may be skipped in front of something that has to be there. -/
theorem Extends.skipSpace {α : Type} {ends : α → Prop} {onto : α → α} {f g : List Char → Answer α}
    (hnil : Open ends (f [])) (h : ∀ cs, Extends more ends onto (f cs) (g (cs ++ more))) :
    Extends more ends onto (f (skipSpace cs)) (g (Parser.skipSpace (cs ++ more))) := by
  by_cases hcs : Parser.skipSpace cs = []
  · rw [hcs]
    exact .inl hnil
  · rw [skipSpace_append more hcs]
    exact h _

end

variable (more cs : List Char)

/-! ## Names, literals and numbers

A name and a number that reach the end of the text are open, since the next character may belong
to them. A literal is not, as its quote ends it. -/

theorem extends_name : Extends more atEnd (leaving more) (name cs) (name (cs ++ more)) := by
  rw [name, name]
  by_cases hrest : cs.dropWhile (!isDelimiter ·) = []
  · rw [List.takeWhile_eq_self_iff.2 (List.dropWhile_eq_nil_iff.1 hrest)]
    cases cs with
    | nil => exact .inl rfl
    | cons c cs => exact .inl hrest
  · obtain ⟨htake, hdrop⟩ := takeWhile_append_of_ne_nil more hrest
    cases cs with
    | nil => exact absurd rfl hrest
    | cons c cs =>
      rw [htake, hdrop]
      split
      · exact .error _
      · exact .ok _

variable {cs} in
theorem untilQuote?_append {inner behind : List Char} (h : untilQuote? cs = some (inner, behind)) :
    untilQuote? (cs ++ more) = some (inner, behind ++ more) := by
  fun_induction untilQuote? cs generalizing inner behind with
  | case1 => cases h
  | case2 rest => cases h; rfl
  | case3 c rest ih =>
    obtain ⟨⟨inner, behind⟩, hu, he⟩ := Option.map_eq_some_iff.1 h
    cases he
    simp [untilQuote?, ih hu]
  | case4 c rest hquote hslash ih =>
    obtain ⟨⟨inner, behind⟩, hu, he⟩ := Option.map_eq_some_iff.1 h
    cases he
    cases rest with
    | nil => cases hu
    | cons d rest =>
      rw [List.cons_append, untilQuote?.eq_4 _ _ hquote, ih hu]
      · rfl
      · intro _ _ hc _
        exact hslash d rest hc rfl

theorem extends_literal : Extends more never (leaving more) (literal cs) (literal (cs ++ more)) := by
  rw [literal, literal]
  cases hu : untilQuote? cs with
  | none => exact .inl rfl
  | some found =>
    obtain ⟨inner, behind⟩ := found
    rw [untilQuote?_append more hu]
    exact .ok _

/-- A number that is too great stays so with more digits behind it. The number grows with every
digit. -/
theorem numberFrom?_append_eq_none {n : Nat} {digits : List Char} (h : numberFrom? n digits = none)
    (others : List Char) : numberFrom? n (digits ++ others) = none := by
  induction digits generalizing n with
  | nil => cases h
  | cons c digits ih =>
    rw [numberFrom?] at h
    rw [List.cons_append, numberFrom?]
    split
    · rfl
    · next hle =>
      rw [if_neg hle] at h
      exact ih h

theorem extends_integer : Extends more atEnd (leaving more) (integer? cs) (integer? (cs ++ more)) := by
  rw [integer?, integer?]
  by_cases hrest : cs.dropWhile Char.isDigit = []
  · have hdigits := List.dropWhile_eq_nil_iff.1 hrest
    rw [List.takeWhile_eq_self_iff.2 hdigits, List.takeWhile_append_of_pos hdigits]
    cases cs with
    | nil => exact .inl rfl
    | cons c cs =>
      dsimp only
      cases hn : numberFrom? 0 (c :: cs) with
      | some n => exact .inl hrest
      | none =>
        have hmore := numberFrom?_append_eq_none hn (more.takeWhile Char.isDigit)
        rw [List.cons_append] at hmore ⊢
        dsimp only
        rw [hmore]
        exact .error _
  · obtain ⟨htake, hdrop⟩ := takeWhile_append_of_ne_nil more hrest
    rw [htake, hdrop]
    split
    · exact .ok _
    · split
      · exact .error _
      · exact .ok _

/-! ## Filters

A filter ends with its bracket, so it is never open once it was read. -/

theorem extends_operand : Extends more atEnd (leaving more) (operand cs) (operand (cs ++ more)) := by
  rw [operand.eq_def cs]
  split
  · exact .inl rfl
  · next cs => exact (extends_literal more cs).bind_pure Operand.literal fun _ h => h.elim
  · exact .ok _
  · next cs hstar =>
    cases cs with
    | nil => exact .inl rfl
    | cons c cs =>
      have hname : operand ('@' :: '.' :: (c :: cs ++ more)) =
          name (c :: cs ++ more) >>= fun named => return (.field (.named named.1), named.2) :=
        operand.eq_4 _ fun cs' h => hstar cs ((List.cons.inj h).1 ▸ rfl)
      rw [List.cons_append, List.cons_append, hname]
      exact (extends_name more (c :: cs)).bind_pure (fun bytes => Operand.field (.named bytes)) fun _ h => h
  · exact .inl rfl
  · next hnil hquote _ _ hat =>
    cases cs with
    | nil => exact absurd rfl hnil
    | cons c cs =>
      have hc : c ≠ '"' ∧ c ≠ '@' :=
        ⟨fun h => hquote cs (h ▸ rfl), fun h => hat cs (h ▸ rfl)⟩
      rw [List.cons_append, operand.eq_6]
      · exact .error _
      all_goals simp [hc]

theorem extends_equality : Extends more (· = []) (· ++ more) (equality cs) (equality (cs ++ more)) := by
  rw [equality, equality]
  by_cases hcs : skipSpace cs = []
  · rw [hcs]
    exact .inl rfl
  · rw [skipSpace_append more hcs]
    split
    · next behind heq =>
      rw [heq]
      by_cases hbehind : skipSpace behind = []
      · exact .inl hbehind
      · change Extends more _ _ _ (.ok (skipSpace (behind ++ more)))
        rw [skipSpace_append more hbehind]
        exact .ok _
    · exact .inl rfl

theorem extends_close (bracket closing : Char) (opened : List Char) :
    Extends more never (· ++ more) (close bracket closing opened cs)
      (close bracket closing (opened ++ more) (cs ++ more)) := by
  rw [close, close]
  by_cases hcs : skipSpace cs = []
  · rw [hcs]
    exact .inl rfl
  · rw [skipSpace_append more hcs]
    split
    · next hnil => exact absurd hnil hcs
    · next c behind heq =>
      rw [heq, List.cons_append]
      dsimp only
      split
      · exact .ok _
      · exact .error _

theorem extends_filter : Extends more never (leaving more) (filter cs) (filter (cs ++ more)) := by
  rw [filter.eq_def]
  split
  · exact .inl rfl
  · next cs =>
    have hleft : Extends more atEnd (leaving more) (operand (skipSpace cs))
        (operand (skipSpace (cs ++ more))) :=
      .skipSpace more rfl (extends_operand more)
    rw [List.cons_append, filter]
    -- each operand has to be followed by something, so what was read up to here decides what comes next
    apply hleft.bind
    · rintro ⟨left, behind₁⟩ - rfl
      exact rfl
    rintro ⟨left, behind₁⟩ - -
    apply (extends_equality more behind₁).bind
    · rintro behind₂ - rfl
      exact rfl
    intro behind₂ _ _
    apply (extends_operand more behind₂).bind
    · rintro ⟨right, behind₃⟩ - rfl
      exact rfl
    rintro ⟨right, behind₃⟩ - -
    apply (extends_close more behind₃ '(' ')' cs).bind
    · intro _ _ hend
      exact hend.elim
    intro behind₄ _ _
    dsimp only
    split
    · exact .ok _
    · exact .error _
  · next c cs hopen =>
    rw [List.cons_append, filter]
    · exact .error _
    · exact hopen

/-! ## Segments

A segment may be open, for instance a name at the end of the text. Between brackets everything
ends with the closing bracket. -/

/-- The end of a range, behind its colon. -/
theorem extends_bound (first : Option Nat) :
    Extends more atEnd (leaving more)
      (match skipSpace cs with
        | '-' :: rest => throw ⟨.negativeIndex, '-' :: rest⟩
        | behind => do
          let (bound, behind) ← integer? behind
          return (Selector.slice (first.getD 0) bound, behind))
      (match skipSpace (cs ++ more) with
        | '-' :: rest => throw ⟨.negativeIndex, '-' :: rest⟩
        | behind => do
          let (bound, behind) ← integer? behind
          return (Selector.slice (first.getD 0) bound, behind)) := by
  by_cases hcs : skipSpace cs = []
  · rw [hcs]
    exact .inl rfl
  · obtain ⟨c, rest, hcons⟩ := List.exists_cons_of_ne_nil hcs
    rw [skipSpace_append more hcs, hcons, List.cons_append]
    by_cases hc : c = '-'
    · subst hc
      exact .error _
    · split
      · next heq => exact absurd (List.cons.inj heq).1 hc
      · split
        · next heq => exact absurd (List.cons.inj heq).1 hc
        · exact (extends_integer more (c :: rest)).bind_pure _ fun _ h => h

/-- A position or a range starts with a digit or with a colon. -/
theorem extends_position {c : Char} (hc : c.isDigit = true ∨ c = ':') :
    Extends more atEnd (leaving more) (position (c :: cs)) (position (c :: cs ++ more)) := by
  -- without a number there is a colon
  have hcolon : ∀ behind, integer? (c :: cs) = .ok (none, behind) →
      ∃ rest, skipSpace behind = ':' :: rest := by
    intro behind hnone
    obtain ⟨hdigit, rfl⟩ := of_integer_eq_none hnone
    obtain rfl := hc.resolve_left (hdigit ▸ Bool.false_ne_true)
    exact ⟨cs, rfl⟩
  rw [position, position]
  apply (extends_integer more (c :: cs)).bind
  · rintro ⟨first, behind⟩ hfirst rfl
    cases first with
    | none => obtain ⟨rest, hrest⟩ := hcolon [] hfirst; cases hrest
    | some n => exact rfl
  · rintro ⟨first, behind⟩ hfirst -
    dsimp only [leaving]
    by_cases hbehind : skipSpace behind = []
    · rw [hbehind]
      cases first with
      | none => obtain ⟨rest, hrest⟩ := hcolon behind hfirst; rw [hbehind] at hrest; cases hrest
      | some n => exact .inl rfl
    · rw [skipSpace_append more hbehind]
      obtain ⟨d, rest, hcons⟩ := List.exists_cons_of_ne_nil hbehind
      rw [hcons, List.cons_append]
      by_cases hd : d = ':'
      · subst hd
        exact extends_bound more rest first
      · cases first with
        | none =>
          obtain ⟨rest', hrest⟩ := hcolon behind hfirst
          exact absurd (List.cons.inj (hcons.symm.trans hrest)).1 hd
        | some n =>
          simp only [List.cons.injEq, hd, false_and, imp_false, not_false_eq_true, implies_true]
          exact .ok _

theorem extends_index : Extends more atEnd (leaving more) (index cs) (index (cs ++ more)) := by
  rw [index, index]
  by_cases hcs : skipSpace cs = []
  · rw [hcs]
    exact .inl rfl
  obtain ⟨c, rest, hcons⟩ := List.exists_cons_of_ne_nil hcs
  rw [skipSpace_append more hcs, hcons, List.cons_append]
  split
  · next heq => cases heq
  · next heq =>
    cases heq
    exact .ok _
  · next heq =>
    cases heq
    exact (extends_filter more rest).bind_pure (fun f : Filter => [Part.selector .wildcard, Part.filter f])
      fun _ h => h.elim
  · next heq =>
    cases heq
    exact (extends_literal more rest).bind_pure (fun bytes => [Part.selector (.key bytes)]) fun _ h => h.elim
  · next heq =>
    cases heq
    exact .error _
  · next heq =>
    cases heq
    exact .error _
  · next c' rest' hstar hfilter hquote hminus hclose heq =>
    cases heq
    simp only
    by_cases hc : (c.isDigit || c = ':') = true
    · rw [if_pos hc, if_pos hc]
      have hstarts : c.isDigit = true ∨ c = ':' := by simpa using hc
      exact (extends_position more rest hstarts).bind_pure (fun s => [Part.selector s]) fun _ h => h
    · rw [if_neg hc, if_neg hc]
      exact .error _

theorem extends_segment : Extends more atEnd (leaving more) (segment cs) (segment (cs ++ more)) := by
  rw [segment.eq_def cs]
  split
  · exact .inl rfl
  · exact .ok _
  · next cs hstar =>
    cases cs with
    | nil => exact .inl rfl
    | cons c cs =>
      have hname : segment ('.' :: (c :: cs ++ more)) =
          name (c :: cs ++ more) >>= fun named => return ([.selector (.key named.1)], named.2) :=
        segment.eq_3 _ fun cs' h => hstar cs ((List.cons.inj h).1 ▸ rfl)
      rw [List.cons_append, hname]
      exact (extends_name more (c :: cs)).bind_pure (fun bytes => [Part.selector (.key bytes)]) fun _ h => h
  · next cs =>
    rw [List.cons_append, segment]
    apply (extends_index more cs).bind
    · rintro ⟨parts, behind⟩ - rfl
      exact rfl
    · rintro ⟨parts, behind⟩ - -
      apply (extends_close more behind '[' ']' cs).bind
      · intro _ _ hend
        exact hend.elim
      · intro _ _ _
        exact .ok _
  · next cs =>
    rw [List.cons_append, segment]
    exact (extends_filter more cs).bind_pure (fun f : Filter => [Part.filter f]) fun _ h => h.elim
  · next c cs _ hpoint hbracket hquestion =>
    rw [List.cons_append, segment.eq_6]
    · exact .error _
    all_goals simp_all

theorem extends_mark : Extends more atEnd (leaving more) (mark cs) (mark (cs ++ more)) := by
  rw [mark.eq_def cs]
  split
  · exact .error _
  · next cs hplus =>
    cases cs with
    | nil => exact .inl rfl
    | cons c cs =>
      have hc : c ≠ '+' := fun h => hplus cs (h ▸ rfl)
      rw [List.cons_append, List.cons_append, mark.eq_2]
      · exact .ok _
      · simp [hc]
  · next hplus hmark =>
    cases cs with
    | nil => exact .inl rfl
    | cons c cs =>
      have hc : c ≠ '+' := fun h => hmark cs (h ▸ rfl)
      rw [List.cons_append, mark.eq_3]
      · exact .ok _
      all_goals simp [hc]

/-! ## Whole paths

The loop over segments is open in any case when it succeeds, because more segments may follow. Its
errors are open only if they may be mended. -/

/-- A segment, its mark, and the other segments. -/
theorem segments_of_ne_nil {cs : List Char} (h : cs ≠ []) :
    segments cs = (do
      let (parts, behind) ← segment cs
      let (marked, behind) ← mark behind
      let links ← segments behind
      return Link.ofParts marked parts ++ links) := by
  obtain ⟨c, rest, rfl⟩ := List.exists_cons_of_ne_nil h
  rw [segments]
  split
  · next hs => rw [hs]; rfl
  · next hs =>
    rw [hs]
    split
    · next hm => simp only [bind, Except.bind, hm]
    · next hm => simp only [bind, Except.bind, hm]

/-- Whatever was read is open, as other segments may follow. -/
theorem extends_segments (more cs : List Char) :
    Extends more always id (segments cs) (segments (cs ++ more)) := by
  by_cases hcs : cs = []
  · rw [hcs, segments]
    exact .inl trivial
  rw [segments_of_ne_nil hcs, segments_of_ne_nil (by simp [hcs])]
  -- segments that end with the text have been read well
  apply (extends_segment more cs).bind
  · rintro ⟨parts, behind₁⟩ - rfl
    change Open always (do
      let links ← segments []
      return Link.ofParts false parts ++ links)
    rw [segments]
    exact trivial
  rintro ⟨parts, behind₁⟩ hsegment -
  apply (extends_mark more behind₁).bind
  · rintro ⟨marked, behind₂⟩ - rfl
    dsimp only
    rw [segments]
    exact trivial
  rintro ⟨marked, behind₂⟩ hmark -
  have hlength : behind₂.length < cs.length :=
    Nat.lt_of_le_of_lt (length_mark_le hmark) (length_segment_lt hsegment)
  exact (extends_segments more behind₂).bind (fun _ _ _ => trivial) fun _ _ h => (h trivial).elim
termination_by cs.length

theorem extends_path (h : cs ≠ []) : Extends more always id (path cs) (path (cs ++ more)) := by
  obtain ⟨c, cs, rfl⟩ := List.exists_cons_of_ne_nil h
  by_cases hc : c = '$'
  · subst hc
    rw [List.cons_append, path, path]
    apply (extends_mark more cs).bind
    · rintro ⟨marked, behind⟩ - rfl
      dsimp only
      rw [segments]
      exact trivial
    · rintro ⟨marked, behind⟩ - -
      exact (extends_segments more behind).bind (fun _ _ _ => trivial) fun _ _ h => (h trivial).elim
  · rw [List.cons_append, path.eq_2 _ (by simp [hc]), path.eq_2 _ (by simp [hc])]
    exact .error _

end Path.Parser

namespace Path

/-- Nothing behind a final error is looked at: whatever follows a text that has one, the whole has the same
error, at the same place. The empty text is left out, as it only lacks its root until something follows. -/
theorem parse_append_of_isFinal {text more : String} {e : PathError} (hne : text ≠ "")
    (h : parse text = .error e) (hfinal : e.fault.isFinal = true) : parse (text ++ more) = .error e := by
  have hsame := Parser.extends_path more.toList text.toList (by simpa using hne)
  rw [parse] at h
  rw [parse, String.toList_append]
  cases hpath : Parser.path text.toList with
  | ok links => rw [hpath] at h; cases h
  | error stuck =>
    rw [hpath] at h hsame
    cases h
    rcases hsame with hopen | hgoes
    · exact absurd (hfinal.symm.trans hopen) (by decide)
    · -- both the text and what is left of it have grown by the same number of bytes
      have hlength := congrArg List.length (Bytes.ofChars_append stuck.rest more.toList)
      have hmore := length_ofString more
      rw [List.length_append] at hlength
      rw [Bytes.ofString] at hmore
      rw [hgoes]
      simp only [Except.map, Except.mapError, Parser.Stuck.append, String.utf8ByteSize_append]
      congr 2
      omega

/-- More digits behind a position that is too great, its closing bracket and a mark. -/
theorem parse_append_overflow :
    parse "$[18446744073709551616" = .error ⟨.indexOverflow, 2⟩ ∧
      parse ("$[18446744073709551616" ++ "0]+") = .error ⟨.indexOverflow, 2⟩ := by
  have hparse : parse "$[18446744073709551616" = .error ⟨.indexOverflow, 2⟩ := by decide +kernel
  exact ⟨hparse, parse_append_of_isFinal (by decide) hparse rfl⟩

end Path

end JsonExtract
