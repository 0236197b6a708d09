import JsonExtract.Path.Error
import JsonExtract.Path.Selector

/-!
# Reading paths

    path     := "$" mark? segment*
    segment  := ( "." ( "*" | name ) | "[" space index space "]" | filter ) mark?
    index    := "*" | filter | literal | integer | integer? space ":" space integer?
    filter   := "?(" space operand space "==" space operand space ")"
    operand  := literal | "@." ( "*" | name )
    mark     := "+"

Each function here reads one of these from the characters of a path and hands back the characters
behind it. Where it gets stuck it says which characters are left, so that the place of an error is
always a place between two characters.

* `Parser.segment`, `Parser.path` — reading, with one function for each rule;
* `Parser.length_segment_lt` and its helpers — reading gets on;
* `Parser.path` — a whole path.
-/

namespace JsonExtract.Path.Parser

/-- A fault, and the characters from the place at fault on. -/
structure Stuck where
  /-- what is wrong -/
  fault : PathFault
  /-- what is left of the path there -/
  rest : List Char
  deriving DecidableEq, Repr

/-- What was read, or where reading got stuck. -/
abbrev Answer := Except Stuck

/-! ## Characters

Names end at a character that means something elsewhere in a path, and numbers end where their
digits do. A number has to stay within the positions that a path can hold, and this is checked
digit by digit: the first digit that goes beyond them settles it, however many follow. -/

/-- Space, tab, line feed and carriage return. -/
def isSpace (c : Char) : Bool :=
  c == ' ' || c == '\t' || c == '\n' || c == '\r'

/-- The characters that end a name. Any other character may be part of a name, also those beyond
ASCII. -/
def isDelimiter (c : Char) : Bool :=
  c ∈ ['.', '[', ']', '(', ')', '+', '?', '"', '=', '@', '*'] || isSpace c

/-- The characters behind any space. -/
def skipSpace (cs : List Char) : List Char :=
  cs.dropWhile isSpace

/-- The greatest position that a path can hold. -/
def maxPosition : Nat :=
  UInt64.size - 1

/-- The number that `n` becomes with a decimal digit behind it. -/
def appendDigit (n : Nat) (c : Char) : Nat :=
  10 * n + (c.toNat - '0'.toNat)

/-- The number that decimal digits stand for. -/
def number (digits : List Char) : Nat :=
  digits.foldl appendDigit 0

/-- The number that `n` becomes with decimal digits behind it, if no position is exceeded. -/
def numberFrom? (n : Nat) : List Char → Option Nat
  | [] => some n
  | c :: digits =>
    if maxPosition < appendDigit n c then none else numberFrom? (appendDigit n c) digits

/-- Digits never make a number smaller. -/
theorem le_foldl_appendDigit (n : Nat) (digits : List Char) : n ≤ digits.foldl appendDigit n := by
  induction digits generalizing n with
  | nil => exact Nat.le_refl n
  | cons c digits ih =>
    refine Nat.le_trans ?_ (ih (appendDigit n c))
    rw [appendDigit]
    omega

/-- Whether a number exceeds all positions is decided by the first digits that do. -/
theorem numberFrom?_eq {n : Nat} (h : n ≤ maxPosition) (digits : List Char) :
    numberFrom? n digits =
      if maxPosition < digits.foldl appendDigit n then none
      else some (digits.foldl appendDigit n) := by
  induction digits generalizing n with
  | nil => rw [numberFrom?, List.foldl_nil, if_neg (Nat.not_lt.2 h)]
  | cons c digits ih =>
    rw [numberFrom?, List.foldl_cons]
    split
    · next hc => rw [if_pos (Nat.lt_of_lt_of_le hc (le_foldl_appendDigit _ digits))]
    · next hc => exact ih (Nat.not_lt.1 hc)

/-- Digits stand for a position unless their number is too great. -/
theorem numberFrom?_zero (digits : List Char) :
    numberFrom? 0 digits = if maxPosition < number digits then none else some (number digits) :=
  numberFrom?_eq (Nat.zero_le _) digits

/-! ## Names, literals and numbers

The words of the language. Each reader takes as many characters as belong to the word and hands
back those behind it; where there is no word, the error carries the characters that it is stuck
at, from which the offset is computed. -/

/-- A name, which is not empty. Names are taken as they stand, for there is no escape in them. -/
def name (cs : List Char) : Answer (Bytes × List Char) :=
  match cs.takeWhile (!isDelimiter ·) with
  | [] => .error ⟨if cs.isEmpty then .unexpectedEnd else .emptyKey, cs⟩
  | c :: more => .ok (Bytes.ofChars (c :: more), cs.dropWhile (!isDelimiter ·))

/-- The characters up to the quote that closes a literal, and those behind it. A backslash goes with
the character behind it. -/
def untilQuote? : List Char → Option (List Char × List Char)
  | [] => none
  | '"' :: rest => some ([], rest)
  | '\\' :: c :: rest => (untilQuote? rest).map fun (inner, behind) => ('\\' :: c :: inner, behind)
  | c :: rest => (untilQuote? rest).map fun (inner, behind) => (c :: inner, behind)

/-- A literal, behind its opening quote. The escapes in it are kept as they are written, as they
are in documents. -/
def literal (cs : List Char) : Answer (Bytes × List Char) :=
  match untilQuote? cs with
  | some (inner, behind) => .ok (Bytes.ofChars inner, behind)
  | none => .error ⟨.unterminatedLiteral, '"' :: cs⟩

/-- A number, if there are digits. -/
def integer? (cs : List Char) : Answer (Option Nat × List Char) :=
  match cs.takeWhile Char.isDigit with
  | [] => .ok (none, cs)
  | digits =>
    match numberFrom? 0 digits with
    | none => .error ⟨.indexOverflow, cs⟩
    | some n => .ok (some n, cs.dropWhile Char.isDigit)

/-! ## Filters

A comparison has two sides of the same form. That one of them is a literal is checked only when
both have been read, and the error then points to the question mark rather than to the side that
is wrong. -/

/-- One side of a comparison. -/
inductive Operand
  /-- a literal -/
  | literal (bytes : Bytes)
  /-- a member -/
  | field (field : Field)
  deriving DecidableEq, Repr

/-- One side of a comparison. -/
def operand : List Char → Answer (Operand × List Char)
  | [] => .error ⟨.unexpectedEnd, []⟩
  | '"' :: cs => do
    let (bytes, behind) ← literal cs
    return (.literal bytes, behind)
  | '@' :: '.' :: '*' :: cs => .ok (.field .any, cs)
  | '@' :: '.' :: cs => do
    let (bytes, behind) ← name cs
    return (.field (.named bytes), behind)
  | '@' :: cs => .error ⟨.malformedFilter .noPoint, cs⟩
  | cs => .error ⟨.malformedFilter .noOperand, cs⟩

/-- The filter that compares two operands, of which one has to be a literal. -/
def compare? : Operand → Operand → Option Filter
  | .literal left, .literal right => some (.literals left right)
  | .field field, .literal literal | .literal literal, .field field => some (.member field literal)
  | .field _, .field _ => none

/-- The equality sign of a comparison, with the space behind it. -/
def equality (cs : List Char) : Answer (List Char) :=
  match skipSpace cs with
  | '=' :: '=' :: behind => .ok (skipSpace behind)
  | rest => .error ⟨.malformedFilter .noEquality, rest⟩

/-- The end of something that was opened by `bracket`, which stands in front of `opened`. -/
def close (bracket closing : Char) (opened cs : List Char) : Answer (List Char) :=
  match skipSpace cs with
  | [] => .error ⟨.unbalanced bracket, bracket :: opened⟩
  | c :: behind => if c = closing then .ok behind else .error ⟨.unexpectedChar c, c :: behind⟩

/-- A filter, behind its question mark. -/
def filter : List Char → Answer (Filter × List Char)
  | [] => .error ⟨.unexpectedEnd, []⟩
  | '(' :: cs => do
    let (left, behind) ← operand (skipSpace cs)
    let behind ← equality behind
    let (right, behind) ← operand behind
    let behind ← close '(' ')' cs behind
    match compare? left right with
    | some filter => return (filter, behind)
    | none => throw ⟨.malformedFilter .noLiteral, '?' :: '(' :: cs⟩
  | c :: cs => .error ⟨.unexpectedChar c, c :: cs⟩

/-! ## Segments

A segment yields parts rather than links, because a filter between brackets stands for two of
them: a wildcard, and the filter on what it selects. The mark behind the segment belongs to the
last one. -/

/-- A position or a range of positions. -/
def position (cs : List Char) : Answer (Selector × List Char) := do
  let (first, behind) ← integer? cs
  match skipSpace behind, first with
  | ':' :: behind, first =>
    match skipSpace behind with
    | '-' :: rest => throw ⟨.negativeIndex, '-' :: rest⟩
    | behind =>
      let (bound, behind) ← integer? behind
      return (.slice (first.getD 0) bound, behind)
  | behind, some first => return (.index first, behind)
  | behind, none => throw ⟨.emptyIndex, behind⟩

/-- What stands between brackets; `opened` are the characters behind the opening bracket. -/
def index (opened : List Char) : Answer (List Part × List Char) :=
  match skipSpace opened with
  | [] => .error ⟨.unbalanced '[', '[' :: opened⟩
  | '*' :: cs => .ok ([.selector .wildcard], cs)
  | '?' :: cs => do
    let (filter, behind) ← filter cs
    return ([.selector .wildcard, .filter filter], behind)
  | '"' :: cs => do
    let (bytes, behind) ← literal cs
    return ([.selector (.key bytes)], behind)
  | '-' :: cs => .error ⟨.negativeIndex, '-' :: cs⟩
  | ']' :: cs => .error ⟨.emptyIndex, ']' :: cs⟩
  | c :: cs =>
    if c.isDigit || c = ':' then do
      let (selector, behind) ← position (c :: cs)
      return ([.selector selector], behind)
    else .error ⟨.unexpectedChar c, c :: cs⟩

/-- A segment without its mark. -/
def segment : List Char → Answer (List Part × List Char)
  | [] => .error ⟨.unexpectedEnd, []⟩
  | '.' :: '*' :: cs => .ok ([.selector .wildcard], cs)
  | '.' :: cs => do
    let (bytes, behind) ← name cs
    return ([.selector (.key bytes)], behind)
  | '[' :: cs => do
    let (parts, behind) ← index cs
    let behind ← close '[' ']' cs behind
    return (parts, behind)
  | '?' :: cs => do
    let (filter, behind) ← filter cs
    return ([.filter filter], behind)
  | c :: cs => .error ⟨.unexpectedChar c, c :: cs⟩

/-- A mark, if there is one. A second mark is an error and not the start of something else. -/
def mark : List Char → Answer (Bool × List Char)
  | '+' :: '+' :: cs => .error ⟨.repeatedMarker, '+' :: cs⟩
  | '+' :: cs => .ok (true, cs)
  | cs => .ok (false, cs)

/-! ## Reading gets on

Paths are read segment by segment, and the recursion needs a segment to take at least one
character. Each reader above gets a bound on the characters that it leaves, strict where it has
to take some. -/

/-- Reading in two steps succeeds when both steps do. -/
theorem bind_eq_ok {α β : Type} {x : Answer α} {f : α → Answer β} {b : β} :
    (x >>= f) = .ok b ↔ ∃ a, x = .ok a ∧ f a = .ok b := by
  cases x with
  | error e => simp [bind, Except.bind]
  | ok a => simp [bind, Except.bind]

theorem pure_eq_ok {α : Type} {a b : α} : (pure a : Answer α) = .ok b ↔ a = b := by
  simp [pure, Except.pure]

theorem length_skipSpace_le (cs : List Char) : (skipSpace cs).length ≤ cs.length :=
  (List.dropWhile_sublist isSpace).length_le

variable {cs behind : List Char}

theorem length_name_lt {bytes : Bytes} (h : name cs = .ok (bytes, behind)) :
    behind.length < cs.length := by
  have hcs :=
    congrArg List.length (List.takeWhile_append_dropWhile (p := (!isDelimiter ·)) (l := cs))
  rw [name] at h
  split at h
  · cases h
  · next c more heq =>
    cases h
    rw [heq] at hcs
    simp only [List.length_append, List.length_cons] at hcs
    omega

theorem length_untilQuote_lt {inner : List Char} (h : untilQuote? cs = some (inner, behind)) :
    behind.length < cs.length := by
  fun_induction untilQuote? cs generalizing inner behind with
  | case1 => simp at h
  | case2 rest => simp at h; simp [h]
  | case3 c rest ih =>
    obtain ⟨⟨i, b⟩, hu, he⟩ := Option.map_eq_some_iff.1 h
    have := ih hu
    cases he
    simp only [List.length_cons]
    omega
  | case4 c rest _ _ ih =>
    obtain ⟨⟨i, b⟩, hu, he⟩ := Option.map_eq_some_iff.1 h
    have := ih hu
    cases he
    simp only [List.length_cons]
    omega

theorem length_literal_lt {bytes : Bytes} (h : literal cs = .ok (bytes, behind)) :
    behind.length < cs.length := by
  rw [literal] at h
  split at h
  · next hu => cases h; exact length_untilQuote_lt hu
  · cases h

theorem length_integer_le {n : Option Nat} (h : integer? cs = .ok (n, behind)) :
    behind.length ≤ cs.length := by
  rw [integer?] at h
  split at h
  · cases h; exact Nat.le_refl _
  · split at h
    · cases h
    · cases h; exact (List.dropWhile_sublist Char.isDigit).length_le

theorem length_operand_lt {o : Operand} (h : operand cs = .ok (o, behind)) :
    behind.length < cs.length := by
  rw [operand.eq_def] at h
  split at h
  · cases h
  · obtain ⟨⟨bytes, rest⟩, hl, hp⟩ := bind_eq_ok.1 h
    cases pure_eq_ok.1 hp
    exact Nat.lt_succ_of_lt (length_literal_lt hl)
  · cases h
    simp only [List.length_cons]
    omega
  · obtain ⟨⟨bytes, rest⟩, hl, hp⟩ := bind_eq_ok.1 h
    cases pure_eq_ok.1 hp
    have := length_name_lt hl
    simp only [List.length_cons]
    omega
  · cases h
  · cases h

theorem length_equality_lt (h : equality cs = .ok behind) : behind.length < cs.length := by
  have hs := length_skipSpace_le cs
  rw [equality] at h
  split at h
  · next rest heq =>
    cases h
    rw [heq] at hs
    simp only [List.length_cons] at hs
    have := length_skipSpace_le rest
    omega
  · cases h

theorem length_close_lt {bracket closing : Char} {opened : List Char}
    (h : close bracket closing opened cs = .ok behind) : behind.length < cs.length := by
  have hs := length_skipSpace_le cs
  rw [close] at h
  split at h
  · cases h
  · next c rest heq =>
    rw [heq] at hs
    split at h
    · cases h; exact hs
    · cases h

theorem length_filter_lt {f : Filter} (h : filter cs = .ok (f, behind)) :
    behind.length < cs.length := by
  rw [filter.eq_def] at h
  split at h
  · cases h
  · next cs =>
    obtain ⟨⟨left, rest₁⟩, h₁, h⟩ := bind_eq_ok.1 h
    obtain ⟨rest₂, h₂, h⟩ := bind_eq_ok.1 h
    obtain ⟨⟨right, rest₃⟩, h₃, h⟩ := bind_eq_ok.1 h
    obtain ⟨rest₄, h₄, h⟩ := bind_eq_ok.1 h
    have hs := length_skipSpace_le cs
    have := length_operand_lt h₁
    have := length_equality_lt h₂
    have := length_operand_lt h₃
    have := length_close_lt h₄
    split at h
    · cases pure_eq_ok.1 h
      simp only [List.length_cons]
      omega
    · cases h
  · cases h

theorem length_position_le {s : Selector} (h : position cs = .ok (s, behind)) :
    behind.length ≤ cs.length := by
  rw [position] at h
  obtain ⟨⟨first, rest⟩, h₁, h⟩ := bind_eq_ok.1 h
  have := length_integer_le h₁
  have hs := length_skipSpace_le rest
  simp only at h
  split at h
  · next _ _ _ rest₂ heq =>
    rw [heq] at hs
    have hs₂ := length_skipSpace_le rest₂
    simp only [List.length_cons] at hs
    split at h
    · cases h
    · obtain ⟨⟨bound, rest₃⟩, h₃, h⟩ := bind_eq_ok.1 h
      cases pure_eq_ok.1 h
      have := length_integer_le h₃
      change rest₃.length ≤ cs.length
      omega
  · cases pure_eq_ok.1 h
    omega
  · cases h

theorem length_index_le {parts : List Part} (h : index cs = .ok (parts, behind)) :
    behind.length ≤ cs.length := by
  have hs := length_skipSpace_le cs
  rw [index] at h
  split at h
  · cases h
  · next heq => cases h; rw [heq] at hs; simp only [List.length_cons] at hs; omega
  · next heq =>
    obtain ⟨⟨f, rest⟩, h₁, h⟩ := bind_eq_ok.1 h
    cases pure_eq_ok.1 h
    have := length_filter_lt h₁
    rw [heq] at hs
    simp only [List.length_cons] at hs
    omega
  · next heq =>
    obtain ⟨⟨bytes, rest⟩, h₁, h⟩ := bind_eq_ok.1 h
    cases pure_eq_ok.1 h
    have := length_literal_lt h₁
    rw [heq] at hs
    simp only [List.length_cons] at hs
    omega
  · cases h
  · cases h
  · next heq =>
    split at h
    · obtain ⟨⟨s, rest⟩, h₁, h⟩ := bind_eq_ok.1 h
      cases pure_eq_ok.1 h
      have := length_position_le h₁
      rw [heq] at hs
      omega
    · cases h

/-- A segment takes at least one character. -/
theorem length_segment_lt {parts : List Part} (h : segment cs = .ok (parts, behind)) :
    behind.length < cs.length := by
  rw [segment.eq_def] at h
  split at h
  · cases h
  · cases h; simp only [List.length_cons]; omega
  · obtain ⟨⟨bytes, rest⟩, h₁, h⟩ := bind_eq_ok.1 h
    cases pure_eq_ok.1 h
    exact Nat.lt_succ_of_lt (length_name_lt h₁)
  · obtain ⟨⟨parts, rest₁⟩, h₁, h⟩ := bind_eq_ok.1 h
    obtain ⟨rest₂, h₂, h⟩ := bind_eq_ok.1 h
    cases pure_eq_ok.1 h
    have := length_index_le h₁
    have := length_close_lt h₂
    simp only [List.length_cons]
    omega
  · obtain ⟨⟨f, rest⟩, h₁, h⟩ := bind_eq_ok.1 h
    cases pure_eq_ok.1 h
    exact Nat.lt_succ_of_lt (length_filter_lt h₁)
  · cases h

theorem length_mark_le {marked : Bool} (h : mark cs = .ok (marked, behind)) :
    behind.length ≤ cs.length := by
  rw [mark.eq_def] at h
  split at h
  · cases h
  · cases h; exact Nat.le_succ _
  · cases h; exact Nat.le_refl _

/-! ## Whole paths

A path is a root and segments up to the end of the text. Between the root and the first segment
nothing may stand but the mark of the root. -/

/-- The links of all segments up to the end of a path. -/
def segments (cs : List Char) : Answer (List Link) :=
  match cs with
  | [] => .ok []
  | c :: rest =>
    match _hs : segment (c :: rest) with
    | .error stuck => .error stuck
    | .ok (parts, behind) =>
      match _hm : mark behind with
      | .error stuck => .error stuck
      | .ok (marked, behind) => do
        let links ← segments behind
        return Link.ofParts marked parts ++ links
termination_by cs.length
decreasing_by
  exact Nat.lt_of_le_of_lt (length_mark_le _hm) (length_segment_lt _hs)

/-- The links of a path. -/
def path : List Char → Answer (List Link)
  | '$' :: cs => do
    let (marked, behind) ← mark cs
    let links ← segments behind
    return ⟨.selector .root, marked⟩ :: links
  | cs => .error ⟨.expectedRoot, cs⟩

end JsonExtract.Path.Parser
