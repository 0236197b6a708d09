import JsonExtract.Proofs.Paths.Soundness

/-!
# What the grammar allows is a path

Where the bytes of a path go on as a rule of the grammar says, and behind that with a byte that does
not belong to it, the function for this rule reads just these bytes. So the parser accepts exactly
the grammar.

* `Parser.read_filter`, `Parser.read_index`, `Parser.read_segment` — the rules;
* `Parser.read_path` — whole paths.
-/

namespace JsonExtract.Path.Parser

open Path.Grammar Bytes

variable {cs : List Char} {rest : Bytes}

/-! ## Runs

A run of the grammar ends where the next byte is in another class. The parser takes the longest
run, so it stops in the same place, on the condition that what comes behind does not go on with
it. -/

/-- A run ends in front of a byte that is not in its class. -/
theorem takeWhile_append_of_head {q : UInt8 → Bool} {run : Bytes} (hrun : ∀ b ∈ run, q b = true)
    (hrest : ∀ b ∈ rest.head?, q b = false) : (run ++ rest).takeWhile q = run := by
  rw [List.takeWhile_append_of_pos hrun]
  cases rest with
  | nil => rw [List.takeWhile_nil, List.append_nil]
  | cons b rest =>
    rw [List.takeWhile_cons_of_neg (by rw [hrest b rfl]; decide), List.append_nil]

/-- The characters of a run, and those behind it. -/
theorem read_run {p : Char → Bool} {q : UInt8 → Bool} (h : Agrees p q) {run : Bytes}
    (hrun : ∀ b ∈ run, q b = true) (hrest : ∀ b ∈ rest.head?, q b = false)
    (heq : ofChars cs = run ++ rest) :
    ofChars (cs.takeWhile p) = run ∧ ofChars (cs.dropWhile p) = rest := by
  have htake : ofChars (cs.takeWhile p) = run := by
    rw [← takeWhile_ofChars h, heq, takeWhile_append_of_head hrun hrest]
  refine ⟨htake, ?_⟩
  rw [ofChars_split p, htake] at heq
  exact List.append_cancel_left heq

/-- Space is skipped. -/
theorem read_skipSpace {gap : Bytes} (hgap : IsSpace gap)
    (hrest : ∀ b ∈ rest.head?, Ascii.isSpace b = false) (heq : ofChars cs = gap ++ rest) :
    ofChars (skipSpace cs) = rest :=
  (read_run agrees_isSpace hgap hrest heq).2

/-! ## Names, literals and numbers

The parser decides by the first character which of these it reads. A literal ends at its first
quote that is not behind a backslash, and there is only one such place. -/

/-- A name is read up to a delimiter. -/
theorem read_name {bytes : Bytes} (h : IsName bytes) (hrest : ∀ b ∈ rest.head?, b ∈ delimiters)
    (heq : ofChars cs = bytes ++ rest) :
    ∃ behind, name cs = .ok (bytes, behind) ∧ ofChars behind = rest := by
  obtain ⟨htake, hdrop⟩ := read_run agrees_isDelimiter.not
    (fun b hb => by simpa using h.2 b hb) (fun b hb => by simpa using hrest b hb) heq
  refine ⟨cs.dropWhile (!isDelimiter ·), ?_, hdrop⟩
  rw [name]
  cases hcs : cs.takeWhile (!isDelimiter ·) with
  | nil =>
    rw [hcs] at htake
    exact absurd htake.symm h.1
  | cons c more => rw [← htake, hcs]

/-- No name starts with a star. -/
theorem ne_star_of_isName {bytes : Bytes} (h : IsName bytes) :
    ofChars ('*' :: cs) ≠ bytes ++ rest := by
  intro heq
  cases bytes with
  | nil => exact h.1 rfl
  | cons b bytes =>
    rw [ofChars_cons_ascii (by decide)] at heq
    obtain ⟨rfl, -⟩ := List.cons.inj heq
    exact h.2 _ List.mem_cons_self (by decide)

/-- What stands in a literal goes on behind bytes that stand for themselves. -/
theorem isLiteral_strip {xs more inner : Bytes} (hxs : ∀ b ∈ xs, IsPlain b) (h : IsLiteral inner)
    (heq : xs ++ more = inner ++ Ascii.quote :: rest) :
    ∃ inner', inner = xs ++ inner' ∧ IsLiteral inner' ∧ more = inner' ++ Ascii.quote :: rest := by
  induction xs generalizing inner with
  | nil => exact ⟨inner, rfl, h, heq⟩
  | cons x xs ih =>
    rw [List.forall_mem_cons] at hxs
    cases h with
    | nil => exact absurd (List.cons.inj heq).1 hxs.1.1
    | plain _ _ h =>
      obtain ⟨rfl, hsame⟩ := List.cons.inj heq
      obtain ⟨inner', rfl, hinner, hmore⟩ := ih hxs.2 h hsame
      exact ⟨inner', rfl, hinner, hmore⟩
    | escape _ => exact absurd (List.cons.inj heq).1 hxs.1.2

/-- What stands in a literal is read up to the quote behind it. -/
theorem read_untilQuote {inner : Bytes} (h : IsLiteral inner)
    (heq : ofChars cs = inner ++ Ascii.quote :: rest) :
    ∃ chars behind, untilQuote? cs = some (chars, behind) ∧ ofChars chars = inner ∧
      ofChars behind = rest := by
  -- the characters decide how far one step goes, and the grammar has to follow
  fun_induction untilQuote? cs generalizing inner with
  | case1 =>
    cases inner <;> cases heq
  | case2 more =>
    rw [ofChars_cons_ascii (by decide)] at heq
    cases h with
    | nil => exact ⟨[], more, rfl, rfl, (List.cons.inj heq).2⟩
    | plain hq _ _ => exact absurd (List.cons.inj heq).1.symm hq
    | escape _ => exact absurd (List.cons.inj heq).1 (by decide)
  | case3 c more ih =>
    obtain ⟨b, tail, hbytes, htail⟩ := exists_utf8EncodeChar c
    rw [ofChars_cons_ascii (by decide), ofChars_cons, hbytes] at heq
    cases h with
    | nil => exact absurd (List.cons.inj heq).1 (by decide)
    | plain _ hs _ => exact absurd (List.cons.inj heq).1.symm hs
    | escape h =>
      obtain ⟨rfl, hsame⟩ := List.cons.inj (List.cons.inj heq).2
      obtain ⟨inner', rfl, hinner, hmore⟩ :=
        isLiteral_strip (fun d hd => isPlain_of_le (htail d hd)) h hsame
      obtain ⟨chars, behind, hu, hchars, hbehind⟩ := ih hinner hmore
      refine ⟨'\\' :: c :: chars, behind, by rw [hu]; rfl, ?_, hbehind⟩
      rw [ofChars_cons_ascii (by decide), ofChars_cons, hbytes, hchars]
      rfl
  | case4 c more hq hs ih =>
    by_cases hslash : c = '\\'
    · subst hslash
      cases more with
      | cons d more => exact absurd rfl (hs d more rfl)
      | nil =>
        cases h with
        | nil => exact absurd (List.cons.inj heq).1 (by decide)
        | plain _ hs _ => exact absurd (List.cons.inj heq).1.symm hs
        | escape _ => cases (List.cons.inj heq).2
    · rw [ofChars_cons] at heq
      obtain ⟨inner', rfl, hinner, hmore⟩ := isLiteral_strip (isPlain_of_mem hq hslash) h heq
      obtain ⟨chars, behind, hu, hchars, hbehind⟩ := ih hinner hmore
      exact ⟨c :: chars, behind, by rw [hu]; rfl, by rw [ofChars_cons, hchars], hbehind⟩

/-- A literal is read. What stands between the quotes is kept with its backslashes. -/
theorem read_literal {inner : Bytes} (h : IsLiteral inner)
    (heq : ofChars cs = quoted inner ++ rest) :
    ∃ more behind, cs = '"' :: more ∧ literal more = .ok (inner, behind) ∧
      ofChars behind = rest := by
  rw [quoted, List.cons_append, List.append_assoc] at heq
  obtain ⟨more, rfl, hmore⟩ := exists_of_ofChars_eq_cons (c := '"') (by decide) heq
  obtain ⟨chars, behind, hu, hchars, hbehind⟩ := read_untilQuote h hmore
  refine ⟨more, behind, rfl, ?_, hbehind⟩
  rw [literal, hu, ← hchars]

/-- A number is read up to a byte that is no digit. -/
theorem read_integer {n : Option Nat} {digits : Bytes} (h : IsInteger? n digits)
    (hrest : ∀ b ∈ rest.head?, Ascii.isDigit b = false) (heq : ofChars cs = digits ++ rest) :
    ∃ behind, integer? cs = .ok (n, behind) ∧ ofChars behind = rest := by
  have hdigits : ∀ b ∈ digits, Ascii.isDigit b = true := by
    cases h with
    | none => simp
    | some h => exact h.2.1
  obtain ⟨htake, hdrop⟩ := read_run agrees_isDigit hdigits hrest heq
  have hall : ∀ c ∈ cs.takeWhile Char.isDigit, c.isDigit = true :=
    List.all_eq_true.1 List.all_takeWhile
  rw [integer?]
  cases h with
  | none =>
    rw [ofChars_eq_nil_iff.1 htake]
    exact ⟨cs, rfl, heq⟩
  | @some n _ h =>
    obtain ⟨hne, -, hvalue, hlt⟩ := h
    refine ⟨cs.dropWhile Char.isDigit, ?_, hdrop⟩
    have hnumber : number (cs.takeWhile Char.isDigit) = n := by
      rw [← value_ofChars hall, htake, hvalue]
    have hsome : numberFrom? 0 (cs.takeWhile Char.isDigit) = some n := by
      rw [numberFrom?_zero, hnumber]
      exact if_neg (Nat.not_lt.2 (Nat.le_sub_one_of_lt hlt))
    cases hcs : cs.takeWhile Char.isDigit with
    | nil =>
      rw [hcs] at htake
      exact absurd htake.symm hne
    | cons c more =>
      rw [hcs] at hsome
      simp only [hsome]

/-! ## Filters

The space around operands and signs is skipped, and each operand ends at a delimiter. That the
two operands make a filter was decided by the grammar already. -/

/-- No side of a comparison starts with space. -/
theorem isSpace_head_operand {o : Operand} {text : Bytes} (h : SpellsOperand o text) :
    ∀ b ∈ (text ++ rest).head?, Ascii.isSpace b = false := by
  cases h <;> intro b hb <;> cases hb <;> rfl

/-- One side of a comparison is read up to a delimiter. -/
theorem read_operand {o : Operand} {text : Bytes} (h : SpellsOperand o text)
    (hrest : ∀ b ∈ rest.head?, b ∈ delimiters) (heq : ofChars cs = text ++ rest) :
    ∃ behind, operand cs = .ok (o, behind) ∧ ofChars behind = rest := by
  cases h with
  | literal hliteral =>
    obtain ⟨more, behind, rfl, hread, hbehind⟩ := read_literal hliteral heq
    exact ⟨behind, by rw [operand, hread]; rfl, hbehind⟩
  | any =>
    obtain ⟨behind, rfl, hbehind⟩ := exists_of_ofChars_eq_append (by decide) heq
    exact ⟨behind, rfl, hbehind⟩
  | @named bytes hname =>
    rw [List.append_assoc] at heq
    obtain ⟨more, rfl, hmore⟩ := exists_of_ofChars_eq_append (by decide) heq
    obtain ⟨behind, hread, hbehind⟩ := read_name hname hrest hmore
    refine ⟨behind, ?_, hbehind⟩
    have hstar : ∀ cs, more ≠ '*' :: cs := by
      rintro cs rfl
      exact ne_star_of_isName hname hmore
    change operand ('@' :: '.' :: more) = _
    rw [operand]
    · exact bind_eq_ok.2 ⟨(bytes, behind), hread, rfl⟩
    · exact hstar

theorem compare?_of_compares {left right : Operand} {f : Filter} (h : Compares left right f) :
    compare? left right = some f := by
  cases h <;> rfl

/-- An equality sign is read with the space around it. -/
theorem read_equality {gap₁ gap₂ : Bytes} (hgap₁ : IsSpace gap₁) (hgap₂ : IsSpace gap₂)
    (hrest : ∀ b ∈ rest.head?, Ascii.isSpace b = false)
    (heq : ofChars cs = gap₁ ++ (ofChars ['=', '='] ++ (gap₂ ++ rest))) :
    ∃ behind, equality cs = .ok behind ∧ ofChars behind = rest := by
  have hskip := read_skipSpace hgap₁ (fun b hb => by cases hb; rfl) heq
  obtain ⟨more, hmore, hbytes⟩ := exists_of_ofChars_eq_append (by decide) hskip
  refine ⟨skipSpace more, ?_, read_skipSpace hgap₂ hrest hbytes⟩
  rw [equality, hmore]
  rfl

/-- A closing bracket is read with the space in front of it. -/
theorem read_close (bracket closing : Char) (opened : List Char) {gap : Bytes}
    (hc : closing.toNat < 0x80) (hs : Ascii.isSpace closing.toUInt8 = false) (hgap : IsSpace gap)
    (heq : ofChars cs = gap ++ closing.toUInt8 :: rest) :
    ∃ behind, close bracket closing opened cs = .ok behind ∧ ofChars behind = rest := by
  have hskip := read_skipSpace hgap (fun b hb => by cases hb; exact hs) heq
  obtain ⟨behind, hbehind, hbytes⟩ := exists_of_ofChars_eq_cons hc hskip
  refine ⟨behind, ?_, hbytes⟩
  rw [close, hbehind]
  exact if_pos rfl

/-- Behind space in front of a delimiter there is a delimiter, and space itself is one. -/
theorem mem_delimiters_of_isSpace {gap : Bytes} (hgap : IsSpace gap)
    (hrest : ∀ b ∈ rest.head?, b ∈ delimiters) : ∀ b ∈ (gap ++ rest).head?, b ∈ delimiters := by
  cases gap with
  | nil => exact hrest
  | cons b gap =>
    intro c hc
    cases hc
    have hb := hgap b List.mem_cons_self
    simp only [Ascii.isSpace, Bool.or_eq_true, beq_iff_eq] at hb
    rcases hb with ((rfl | rfl) | rfl) | rfl <;> decide

/-- A filter is read. -/
theorem read_filter {f : Filter} {text : Bytes} (h : SpellsFilter f text)
    (heq : ofChars cs = text ++ rest) :
    ∃ more behind, cs = '?' :: more ∧ filter more = .ok (f, behind) ∧ ofChars behind = rest := by
  obtain ⟨hgap₁, hleft, hgap₂, hgap₃, hright, hgap₄, hcompare⟩ := h
  simp only [List.append_assoc] at heq
  obtain ⟨more, rfl, hmore⟩ := exists_of_ofChars_eq_append (by decide) heq
  have hskip := read_skipSpace hgap₁ (isSpace_head_operand hleft) hmore
  obtain ⟨rest₁, h₁, heq₁⟩ := read_operand hleft
    (mem_delimiters_of_isSpace hgap₂ (fun b hb => by cases hb; decide)) hskip
  obtain ⟨rest₂, h₂, heq₂⟩ := read_equality hgap₂ hgap₃ (isSpace_head_operand hright) heq₁
  obtain ⟨rest₃, h₃, heq₃⟩ := read_operand hright
    (mem_delimiters_of_isSpace hgap₄ (fun b hb => by cases hb; decide)) heq₂
  obtain ⟨behind, h₄, hbehind⟩ := read_close '(' ')' more
    (by decide) (by decide) hgap₄ heq₃
  refine ⟨'(' :: more, behind, rfl, ?_, hbehind⟩
  rw [filter]
  refine bind_eq_ok.2 ⟨(_, rest₁), h₁, bind_eq_ok.2 ⟨rest₂, h₂, bind_eq_ok.2 ⟨(_, rest₃), h₃,
    bind_eq_ok.2 ⟨behind, h₄, ?_⟩⟩⟩⟩
  simp only [compare?_of_compares hcompare]
  rfl

/-! ## Segments

Between brackets the first character behind space tells the rule, with the exception of a range,
which may start with a colon. The condition on what comes behind is that it is a delimiter, or
nothing. -/

/-- Behind space in front of a byte that is no digit there is no digit, and space itself is none. -/
theorem isDigit_head_gap {gap : Bytes} (hgap : IsSpace gap)
    (hrest : ∀ b ∈ rest.head?, Ascii.isDigit b = false) :
    ∀ b ∈ (gap ++ rest).head?, Ascii.isDigit b = false := by
  cases gap with
  | nil => exact hrest
  | cons b gap =>
    intro c hc
    cases hc
    have hb := hgap b List.mem_cons_self
    simp only [Ascii.isSpace, Bool.or_eq_true, beq_iff_eq] at hb
    rcases hb with ((rfl | rfl) | rfl) | rfl <;> decide

/-- The first digit of a number. -/
theorem exists_isDigit {n : Nat} {digits : Bytes} (h : IsInteger n digits) :
    ∃ b more, digits = b :: more ∧ Ascii.isDigit b = true := by
  obtain ⟨hne, hdigits, -⟩ := h
  obtain ⟨b, more, rfl⟩ := List.exists_cons_of_ne_nil hne
  exact ⟨b, more, rfl, hdigits b List.mem_cons_self⟩

/-- No digit is space. -/
theorem isSpace_of_isDigit {b : UInt8} (h : Ascii.isDigit b = true) : Ascii.isSpace b = false := by
  apply Bool.eq_false_iff.2
  intro hs
  simp only [Ascii.isSpace, Bool.or_eq_true, beq_iff_eq] at hs
  rcases hs with ((rfl | rfl) | rfl) | rfl <;> cases h

/-- Behind the colon of a range, space is skipped up to the upper bound, or to the bracket if there
is none. -/
theorem read_bound {bound : Option Nat} {high gap₂ gap₃ : Bytes} (hgap₂ : IsSpace gap₂)
    (hhigh : IsInteger? bound high) (hgap₃ : IsSpace gap₃)
    (heq : ofChars cs = gap₂ ++ (high ++ (gap₃ ++ Ascii.closeBracket :: rest))) :
    (∀ more, skipSpace cs ≠ '-' :: more) ∧
      ∃ behind gap, integer? (skipSpace cs) = .ok (bound, behind) ∧ IsSpace gap ∧
        ofChars behind = gap ++ Ascii.closeBracket :: rest := by
  cases hhigh with
  | none =>
    rw [List.nil_append, ← List.append_assoc] at heq
    have hskip := read_skipSpace (List.forall_mem_append.2 ⟨hgap₂, hgap₃⟩)
      (fun b hb => by cases hb; rfl) heq
    constructor
    · intro more hmore
      rw [hmore, ofChars_cons_ascii (by decide)] at hskip
      exact absurd (List.cons.inj hskip).1 (by decide)
    · obtain ⟨behind, hread, hbehind⟩ :=
        read_integer .none (fun b hb => by cases hb; rfl) hskip
      exact ⟨behind, [], hread, by simp [IsSpace], hbehind⟩
  | @some n digits h =>
    obtain ⟨b, more, rfl, hb⟩ := exists_isDigit h
    have hskip := read_skipSpace hgap₂
      (fun c hc => by cases hc; exact isSpace_of_isDigit hb) heq
    constructor
    · intro more' hmore
      rw [hmore, ofChars_cons_ascii (by decide)] at hskip
      obtain ⟨rfl, -⟩ := List.cons.inj hskip
      exact absurd hb (by decide)
    · obtain ⟨behind, hread, hbehind⟩ := read_integer (.some h)
        (isDigit_head_gap hgap₃ (fun c hc => by cases hc; rfl)) hskip
      exact ⟨behind, gap₃, hread, hgap₃, hbehind⟩

/-- A range is read; the bracket behind it is left. Either bound may be missing, and space may
stand around the colon. -/
theorem read_slice {first bound : Option Nat} {low high gap₁ gap₂ gap₃ : Bytes}
    (hlow : IsInteger? first low) (hgap₁ : IsSpace gap₁) (hgap₂ : IsSpace gap₂)
    (hhigh : IsInteger? bound high) (hgap₃ : IsSpace gap₃)
    (heq : ofChars cs = low ++ (gap₁ ++ Ascii.colon :: (gap₂ ++ (high ++ (gap₃ ++
      Ascii.closeBracket :: rest))))) :
    ∃ behind gap, position cs = .ok (.slice (first.getD 0) bound, behind) ∧ IsSpace gap ∧
      ofChars behind = gap ++ Ascii.closeBracket :: rest := by
  obtain ⟨rest₁, h₁, heq₁⟩ := read_integer hlow
    (isDigit_head_gap hgap₁ (fun b hb => by cases hb; rfl)) heq
  have hskip := read_skipSpace hgap₁ (fun b hb => by cases hb; rfl) heq₁
  obtain ⟨more, hmore, heq₂⟩ := exists_of_ofChars_eq_cons (c := ':') (by decide) hskip
  obtain ⟨hminus, behind, gap, hread, hgap, hbehind⟩ := read_bound hgap₂ hhigh hgap₃ heq₂
  refine ⟨behind, gap, ?_, hgap, hbehind⟩
  rw [position]
  refine bind_eq_ok.2 ⟨(first, rest₁), h₁, ?_⟩
  simp only [hmore]
  exact bind_eq_ok.2 ⟨(bound, behind), hread, rfl⟩

/-- A position is read; the bracket behind it is left. -/
theorem read_position {n : Nat} {digits gap : Bytes} (h : IsInteger n digits) (hgap : IsSpace gap)
    (heq : ofChars cs = digits ++ (gap ++ Ascii.closeBracket :: rest)) :
    ∃ behind, position cs = .ok (.index n, behind) ∧
      ofChars behind = Ascii.closeBracket :: rest := by
  obtain ⟨rest₁, h₁, heq₁⟩ := read_integer (.some h)
    (isDigit_head_gap hgap (fun b hb => by cases hb; rfl)) heq
  have hskip := read_skipSpace hgap (fun b hb => by cases hb; rfl) heq₁
  obtain ⟨more, hmore, -⟩ := exists_of_ofChars_eq_cons (c := ']') (by decide) hskip
  refine ⟨skipSpace rest₁, ?_, hskip⟩
  rw [position]
  refine bind_eq_ok.2 ⟨(some n, rest₁), h₁, ?_⟩
  simp only [hmore]
  rfl

/-- Digits and colons between brackets are read as a position or a range. -/
theorem index_eq_position {c : Char} {more behind : List Char} {s : Selector}
    (hskip : skipSpace cs = c :: more) (hc : c.isDigit = true ∨ c = ':')
    (h : position (c :: more) = .ok (s, behind)) : index cs = .ok ([.selector s], behind) := by
  rw [index, hskip]
  split
  · next heq => cases heq
  · next heq => cases heq; exact absurd hc (by decide)
  · next heq => cases heq; exact absurd hc (by decide)
  · next heq => cases heq; exact absurd hc (by decide)
  · next heq => cases heq; exact absurd hc (by decide)
  · next heq => cases heq; exact absurd hc (by decide)
  · next heq =>
    cases heq
    rw [if_pos (by simpa using hc)]
    exact bind_eq_ok.2 ⟨(s, behind), h, rfl⟩

/-- Where bytes start with a digit, so do the characters. -/
theorem exists_digit {b : UInt8} (hb : Ascii.isDigit b = true) (heq : ofChars cs = b :: rest) :
    ∃ c more, cs = c :: more ∧ c.isDigit = true := by
  cases cs with
  | nil => cases heq
  | cons c more =>
    obtain ⟨d, tail, hbytes, -⟩ := exists_utf8EncodeChar c
    rw [ofChars_cons, hbytes] at heq
    obtain ⟨rfl, -⟩ := List.cons.inj heq
    refine ⟨c, more, rfl, ?_⟩
    rw [← agrees_isDigit c d (hbytes ▸ List.mem_cons_self), hb]

/-- Behind the space in front of a number stands its first digit. -/
theorem read_skipSpace_digit {n : Nat} {digits gap : Bytes} (hgap : IsSpace gap)
    (hn : IsInteger n digits) (heq : ofChars cs = gap ++ (digits ++ rest)) :
    ofChars (skipSpace cs) = digits ++ rest ∧
      ∃ c more, skipSpace cs = c :: more ∧ c.isDigit = true := by
  obtain ⟨b, digits, rfl, hb⟩ := exists_isDigit hn
  have hskip := read_skipSpace hgap (fun c hc => by cases hc; exact isSpace_of_isDigit hb) heq
  exact ⟨hskip, exists_digit hb hskip⟩

/-- A range between brackets is read; the closing bracket is left. -/
theorem read_index_slice {first bound : Option Nat} {low high gap₁ gap₂ gap₃ gap₄ : Bytes}
    (hgap₁ : IsSpace gap₁) (hlow : IsInteger? first low) (hgap₂ : IsSpace gap₂)
    (hgap₃ : IsSpace gap₃) (hhigh : IsInteger? bound high) (hgap₄ : IsSpace gap₄)
    (heq : ofChars cs = gap₁ ++ (low ++ (gap₂ ++ Ascii.colon :: (gap₃ ++ (high ++ (gap₄ ++
      Ascii.closeBracket :: rest)))))) :
    ∃ behind gap, index cs = .ok ([.selector (.slice (first.getD 0) bound)], behind) ∧
      IsSpace gap ∧ ofChars behind = gap ++ Ascii.closeBracket :: rest := by
  cases hlow with
  | none =>
    -- without a lower bound the space in front of the colon is all skipped at once
    rw [List.nil_append, ← List.append_assoc] at heq
    have hskip := read_skipSpace (List.forall_mem_append.2 ⟨hgap₁, hgap₂⟩)
      (fun b hb => by cases hb; rfl) heq
    obtain ⟨more, hmore, -⟩ := exists_of_ofChars_eq_cons (c := ':') (by decide) hskip
    have hnil : IsSpace [] := by simp [IsSpace]
    obtain ⟨behind, gap, hread, hgap, hbytes⟩ := read_slice .none hnil hgap₃ hhigh hgap₄ hskip
    rw [hmore] at hread
    exact ⟨behind, gap, index_eq_position hmore (.inr rfl) hread, hgap, hbytes⟩
  | some hn =>
    obtain ⟨hskip, c, more, hmore, hc⟩ := read_skipSpace_digit hgap₁ hn heq
    obtain ⟨behind, gap, hread, hgap, hbytes⟩ :=
      read_slice (.some hn) hgap₂ hgap₃ hhigh hgap₄ hskip
    rw [hmore] at hread
    exact ⟨behind, gap, index_eq_position hmore (.inl hc) hread, hgap, hbytes⟩

/-- What may stand between brackets is read there; the closing bracket is left. -/
theorem read_index {parts : List Part} {text gap₁ gap₂ : Bytes} (hgap₁ : IsSpace gap₁)
    (h : SpellsIndex parts text) (hgap₂ : IsSpace gap₂)
    (heq : ofChars cs = gap₁ ++ (text ++ (gap₂ ++ Ascii.closeBracket :: rest))) :
    ∃ behind gap, index cs = .ok (parts, behind) ∧ IsSpace gap ∧
      ofChars behind = gap ++ Ascii.closeBracket :: rest := by
  cases h with
  | wildcard =>
    have hskip := read_skipSpace hgap₁ (fun b hb => by cases hb; rfl) heq
    obtain ⟨more, hmore, hbytes⟩ := exists_of_ofChars_eq_append (by decide) hskip
    exact ⟨more, gap₂, by rw [index, hmore]; rfl, hgap₂, hbytes⟩
  | key hliteral =>
    have hskip := read_skipSpace hgap₁ (fun b hb => by cases hb; rfl) heq
    obtain ⟨more, behind, hmore, hread, hbytes⟩ := read_literal hliteral hskip
    exact ⟨behind, gap₂, by rw [index, hmore]; exact bind_eq_ok.2 ⟨_, hread, rfl⟩, hgap₂, hbytes⟩
  | filter hfilter =>
    have hskip := read_skipSpace hgap₁ (fun b hb => by cases hfilter; cases hb; rfl) heq
    obtain ⟨more, behind, hmore, hread, hbytes⟩ := read_filter hfilter hskip
    exact ⟨behind, gap₂, by rw [index, hmore]; exact bind_eq_ok.2 ⟨_, hread, rfl⟩, hgap₂, hbytes⟩
  | position hn =>
    obtain ⟨hskip, c, more, hmore, hc⟩ := read_skipSpace_digit hgap₁ hn heq
    obtain ⟨behind, hread, hbytes⟩ := read_position hn hgap₂ hskip
    rw [hmore] at hread
    exact ⟨behind, [], index_eq_position hmore (.inl hc) hread, by simp [IsSpace], hbytes⟩
  | slice hlow hgap₃ hgap₄ hhigh =>
    simp only [List.append_assoc, List.cons_append] at heq
    exact read_index_slice hgap₁ hlow hgap₃ hgap₄ hhigh hgap₂ heq

/-- A segment is read up to a delimiter. Delimiters are what a mark, another segment or the end of
a filter can start with. -/
theorem read_segment {parts : List Part} {text : Bytes} (h : SpellsSegment parts text)
    (hrest : ∀ b ∈ rest.head?, b ∈ delimiters) (heq : ofChars cs = text ++ rest) :
    ∃ behind, segment cs = .ok (parts, behind) ∧ ofChars behind = rest := by
  cases h with
  | wildcard =>
    obtain ⟨behind, rfl, hbehind⟩ := exists_of_ofChars_eq_append (by decide) heq
    exact ⟨behind, rfl, hbehind⟩
  | @name bytes hname =>
    obtain ⟨more, rfl, hmore⟩ := exists_of_ofChars_eq_cons (c := '.') (by decide) heq
    obtain ⟨behind, hread, hbehind⟩ := read_name hname hrest hmore
    refine ⟨behind, ?_, hbehind⟩
    have hstar : ∀ cs, more ≠ '*' :: cs := by
      rintro cs rfl
      exact ne_star_of_isName hname hmore
    rw [segment]
    · exact bind_eq_ok.2 ⟨(bytes, behind), hread, rfl⟩
    · exact hstar
  | index hgap₁ hindex hgap₂ =>
    simp only [List.cons_append, List.append_assoc] at heq
    obtain ⟨more, rfl, hmore⟩ := exists_of_ofChars_eq_cons (c := '[') (by decide) heq
    obtain ⟨rest₁, gap, hread, hgap, heq₁⟩ := read_index hgap₁ hindex hgap₂ hmore
    obtain ⟨behind, hclose, hbehind⟩ := read_close '[' ']' more
      (by decide) (by decide) hgap heq₁
    refine ⟨behind, ?_, hbehind⟩
    rw [segment]
    exact bind_eq_ok.2 ⟨(parts, rest₁), hread, bind_eq_ok.2 ⟨behind, hclose, rfl⟩⟩
  | filter hfilter =>
    obtain ⟨more, behind, rfl, hread, hbehind⟩ := read_filter hfilter heq
    refine ⟨behind, ?_, hbehind⟩
    rw [segment]
    exact bind_eq_ok.2 ⟨(_, behind), hread, rfl⟩

/-- A mark is read where no other mark follows. -/
theorem read_mark {marked : Bool} {text : Bytes} (h : SpellsMark marked text)
    (hrest : ∀ b ∈ rest.head?, b ≠ Ascii.plus) (heq : ofChars cs = text ++ rest) :
    ∃ behind, mark cs = .ok (marked, behind) ∧ ofChars behind = rest := by
  have hplus : ∀ {cs}, ofChars cs = rest → ∀ more, cs ≠ '+' :: more := by
    rintro cs heq more rfl
    rw [ofChars_cons_ascii (by decide)] at heq
    subst heq
    exact hrest _ rfl rfl
  cases h with
  | none =>
    refine ⟨cs, ?_, heq⟩
    rw [mark]
    · exact fun more hmore => hplus heq _ hmore
    · exact hplus heq
  | mark =>
    obtain ⟨more, rfl, hmore⟩ := exists_of_ofChars_eq_cons (c := '+') (by decide) heq
    refine ⟨more, ?_, hmore⟩
    rw [mark]
    exact hplus hmore

/-! ## Whole paths

Segments are read until nothing is left, by induction along the grammar. Together with soundness
this makes parser and grammar equal, and since the parser is a function, the links that the
grammar spells are unique. -/

/-- What segments start with. -/
theorem head_of_spellsSegments {links : List Link} {text : Bytes} (h : SpellsSegments links text) :
    ∀ b ∈ text.head?, b ∈ Bytes.ofChars ['.', '[', '?'] := by
  cases h with
  | nil => exact fun b hb => by cases hb
  | cons hsegment _ _ =>
    intro b hb
    cases hsegment with
    | wildcard | name | index => cases hb; decide
    | filter hfilter => cases hfilter; cases hb; decide

/-- Segments are read to the end. -/
theorem read_segments {links : List Link} {text : Bytes} (h : SpellsSegments links text)
    (heq : ofChars cs = text) : segments cs = .ok links := by
  have delimiting : ∀ b ∈ Bytes.ofChars ['.', '[', '?'], b ∈ delimiters ∧ b ≠ Ascii.plus :=
    List.all_iff_forall_prop.1 (by decide)
  induction h generalizing cs with
  | nil =>
    rw [ofChars_eq_nil_iff.1 heq, segments]
  | @cons parts marked links text sign rest hsegment hmark hmore ih =>
    have hrest := fun b hb => delimiting b (head_of_spellsSegments hmore b hb)
    have hdelimiter : ∀ b ∈ (sign ++ rest).head?, b ∈ delimiters := by
      cases hmark with
      | none => exact fun b hb => (hrest b hb).1
      | mark => exact fun b hb => by cases hb; decide
    obtain ⟨rest₁, h₁, heq₁⟩ := read_segment hsegment hdelimiter heq
    obtain ⟨behind, h₂, heq₂⟩ := read_mark hmark (fun b hb => (hrest b hb).2) heq₁
    cases cs with
    | nil =>
      rw [segment] at h₁
      cases h₁
    | cons c cs =>
      rw [segments]
      split
      · next heq => rw [h₁] at heq; cases heq
      · next heq =>
        rw [h₁] at heq
        cases heq
        split
        · next heq => rw [h₂] at heq; cases heq
        · next heq =>
          rw [h₂] at heq
          cases heq
          exact bind_eq_ok.2 ⟨links, ih heq₂, rfl⟩

/-- A path is read to the end. -/
theorem read_path {links : List Link} {text : Bytes} (h : Grammar.Spells links text)
    (heq : ofChars cs = text) : path cs = .ok links := by
  obtain ⟨hmark, hsegments⟩ := h
  have following : ∀ b ∈ Bytes.ofChars ['.', '[', '?'], b ≠ Ascii.plus :=
    List.all_iff_forall_prop.1 (by decide)
  obtain ⟨more, rfl, hmore⟩ := exists_of_ofChars_eq_append (by decide) heq
  obtain ⟨behind, hread, hbehind⟩ := read_mark hmark
    (fun b hb => following b (head_of_spellsSegments hsegments b hb)) hmore
  change path ('$' :: more) = _
  rw [path]
  exact bind_eq_ok.2 ⟨(_, behind), hread,
    bind_eq_ok.2 ⟨_, read_segments hsegments hbehind, rfl⟩⟩

end JsonExtract.Path.Parser

namespace JsonExtract.Path

/-- What is read as a path is one, with the links that were read. -/
theorem exists_spells_of_parse {text : String} {p : Path} (h : parse text = .ok p) :
    ∃ links, Grammar.Spells links (Bytes.ofString text) ∧ p = ofLinks text links := by
  rw [parse] at h
  split at h
  · next links hlinks =>
    cases h
    exact ⟨links, Parser.spells_of_path hlinks, rfl⟩
  · cases h

/-- A path is read as one. -/
theorem parse_of_spells {text : String} {links : List Link}
    (h : Grammar.Spells links (Bytes.ofString text)) : parse text = .ok (ofLinks text links) := by
  rw [parse, Parser.read_path h rfl]

/-- A text is read as a path exactly if the grammar spells it, and its links are then the only
ones that the grammar spells so. The second part says that the grammar is not ambiguous. -/
theorem parse_eq_ok_iff (text : String) :
    (∀ p : Path, parse text = .ok p ↔
      ∃ links, Grammar.Spells links (Bytes.ofString text) ∧ p = ofLinks text links) ∧
    (∀ links links' : List Link, Grammar.Spells links (Bytes.ofString text) →
      Grammar.Spells links' (Bytes.ofString text) → links = links') := by
  refine ⟨fun p => ⟨exists_spells_of_parse, ?_⟩, ?_⟩
  · rintro ⟨links, h, rfl⟩
    exact parse_of_spells h
  · intro links links' h h'
    have hsame := (Parser.read_path h rfl).symm.trans (Parser.read_path h' rfl)
    exact Except.ok.inj hsame

end JsonExtract.Path
