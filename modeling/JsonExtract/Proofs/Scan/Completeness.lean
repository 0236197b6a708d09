import JsonExtract.Proofs.Scan.Lexeme

/-!
# What the grammar allows is read

A value that is spelled as the grammar says is read to its end, wherever a value is asked for and
there is room for its containers, and gives the tokens of the value.

* `Lexer.TakesValue` — where a value is asked for;
* `Lexer.behind` — the state behind a value;
* `Lexer.feed_scalar`, `Lexer.feed_value` — values are read.
-/

namespace JsonExtract.Lexer

open Grammar

variable {options : Options} {lexer : Lexer}

/-- The phases that ask for a value. Where an array has just been opened, the closing bracket may
come instead of a value. -/
def TakesValue (options : Options) : Phase → Prop
  | .start | .beforeMember | .beforeElement | .arrayOpen => True
  | .done => options.multipleValues = true
  | .objectOpen | .beforeName | .afterName | .afterMember | .afterElement => False

/-- The state behind a value that is spelled `text`. Only the phase and the place have changed:
what was open in front of the value is open behind it. -/
def behind (lexer : Lexer) (text : Bytes) : Lexer :=
  (lexer.along text).afterValue

/-- Where a value is asked for, a byte that starts a token starts a value, a bracket that closes an
array apart. -/
theorem read_value (lexer : Lexer) {b : UInt8} (hp : TakesValue options lexer.phase)
    (hs : StartsToken options b) (hb : b ≠ Ascii.closeBracket) :
    lexer.read options .gap b = lexer.readValue options b := by
  rw [read_of_startsToken hs, readStart]
  cases hphase : lexer.phase <;> rw [hphase] at hp <;> simp_all [TakesValue]

/-! ## Scalars

Whatever a scalar is, a number, a string or a literal, its first byte says so, and the bytes
behind it are taken one by one by the automaton for it. What follows a number decides whether
the number has ended, so each statement carries the condition that the text ends in front of
what follows. -/

/-- The bytes that start a number. -/
theorem startsToken_of_first? {b : UInt8} {p : NumberPart} (h : NumberPart.first? b = some p) :
    StartsToken options b := by
  refine startsToken_of_lt ?_ ?_
  · apply Bool.eq_false_iff.2
    intro hs
    simp only [Ascii.isSpace, Bool.or_eq_true, beq_iff_eq] at hs
    rcases hs with ((rfl | rfl) | rfl) | rfl <;> cases h
  · rw [NumberPart.first?] at h
    split at h
    · next hb => subst hb; decide
    · split at h
      · next hb => subst hb; decide
      · split at h
        · next hb =>
          rw [Ascii.isDigit, Bool.and_eq_true, decide_eq_true_eq, decide_eq_true_eq] at hb
          exact UInt8.lt_of_le_of_lt hb.2 (by decide)
        · cases h

/-- A byte that starts a number is read as such. -/
theorem readValue_number {b : UInt8} {p : NumberPart} (h : NumberPart.first? b = some p) :
    lexer.readValue options b = .more (.number p (lexer.lexeme b)) (lexer.past b) := by
  have hbrace : b ≠ Ascii.openBrace := by rintro rfl; cases h
  have hbracket : b ≠ Ascii.openBracket := by rintro rfl; cases h
  have hquote : b ≠ Ascii.quote := by rintro rfl; cases h
  simp [readValue, hbrace, hbracket, hquote, h]

/-- A literal is read where a value is asked for. -/
theorem feed_literal {b next : UInt8} (more : Bytes) {kind : Kind}
    (hp : TakesValue options lexer.phase) (hs : StartsToken options b)
    (hb : b ≠ Ascii.closeBracket)
    (hread : lexer.readValue options b =
      .more (.word kind next more (lexer.lexeme b)) (lexer.past b)) (rest : Bytes) :
    ∃ token : Lexed, token.token = .scalar kind (b :: next :: more) ∧
      lexer.feed options .gap (b :: next :: more ++ rest) =
        ((lexer.behind (b :: next :: more)).feed options .gap rest).prepend [token] := by
  refine ⟨_, ?_, (feed_more ((read_value lexer hp hs hb).trans hread)).trans (feed_word ..)⟩
  simp [wordToken, lexeme]

/-- A scalar is read where a value is asked for. -/
theorem feed_scalar {s : Scalar} (h : IsScalar s) (hp : TakesValue options lexer.phase)
    {rest : Bytes} (hrest : EndsBefore s.raw rest) :
    ∃ token : Lexed, token.token = .scalar s.kind s.raw ∧
      lexer.feed options .gap (s.raw ++ rest) =
        ((lexer.behind s.raw).feed options .gap rest).prepend [token] := by
  cases s with
  | string inner =>
    have hread : lexer.read options .gap Ascii.quote =
        .more (.string false .plain (lexer.lexeme Ascii.quote)) (lexer.past Ascii.quote) :=
      read_value lexer hp ⟨rfl, fun _ => rfl⟩ (by decide)
    refine ⟨((((lexer.past Ascii.quote).along inner).past Ascii.quote).closeString false
      (((lexer.lexeme Ascii.quote).append inner).push Ascii.quote)).1, ?_, ?_⟩
    · simp [closeString, lexeme, Scalar.kind, Scalar.raw, Bytes.quoted]
    · rw [Scalar.raw, Bytes.quoted, List.cons_append, List.append_assoc, feed_more hread,
        feed_string h, List.singleton_append, feed_string_end]
      simp [closeString, behind, past, along]
  | number raw =>
    cases raw with
    | nil => exact absurd h not_isNumber_nil
    | cons b more =>
      obtain ⟨p, q, hfirst, hrun, hq⟩ := isNumber_cons_iff.1 h
      have hb : b ≠ Ascii.closeBracket := by
        rintro rfl
        cases hfirst
      have hread : lexer.read options .gap b =
          .more (.number p (lexer.lexeme b)) (lexer.past b) :=
        (read_value lexer hp (startsToken_of_first? hfirst) hb).trans (readValue_number hfirst)
      have hend := (endsBefore_number_iff hfirst hrun).1 hrest
      refine ⟨((lexer.past b).along more).numberToken ((lexer.lexeme b).append more), ?_, ?_⟩
      · simp [numberToken, lexeme, Scalar.kind, Scalar.raw]
      · rw [Scalar.raw, List.cons_append, feed_more hread, feed_number hrun,
          feed_number_end hq hend, along_past, behind]
  | boolean value =>
    cases value with
    | true => exact feed_literal [0x75, 0x65] hp ⟨rfl, fun _ => rfl⟩ (by decide) rfl rest
    | false =>
      exact feed_literal [0x6c, 0x73, 0x65] hp ⟨rfl, fun _ => rfl⟩ (by decide) rfl rest
  | null => exact feed_literal [0x6c, 0x6c] hp ⟨rfl, fun _ => rfl⟩ (by decide) rfl rest

/-! ## Containers

The brackets, names and separators of a container are single steps from one phase to another,
and each of them is given here as a fact about `feed`, for whatever comes behind. `reach` names
the state behind such a step, by the phase that it leads to and the bytes that it took. -/

/-- The state behind the bracket that opens a container. -/
def inside (lexer : Lexer) (c : Container) : Lexer :=
  { lexer.past c.opening with
    nesting := lexer.nesting.enter c
    phase := match c with
      | .object => .objectOpen
      | .array => .arrayOpen }

/-- The state in `phase` behind `bytes`. -/
def reach (lexer : Lexer) (phase : Phase) (bytes : Bytes) : Lexer :=
  { lexer.along bytes with phase }

@[simp]
theorem along_reach (lexer : Lexer) (phase : Phase) (xs ys : Bytes) :
    (lexer.reach phase xs).along ys = lexer.reach phase (xs ++ ys) := by
  simp [reach, along]

@[simp]
theorem reach_along (lexer : Lexer) (phase : Phase) (xs ys : Bytes) :
    (lexer.along xs).reach phase ys = lexer.reach phase (xs ++ ys) := by
  simp [reach, along]

@[simp]
theorem reach_reach (lexer : Lexer) (phase phase' : Phase) (xs ys : Bytes) :
    (lexer.reach phase xs).reach phase' ys = lexer.reach phase' (xs ++ ys) := by
  simp [reach, along]

/-- Behind a value its container is asked to go on. -/
theorem behind_eq_reach (lexer : Lexer) (text : Bytes) :
    lexer.behind text = lexer.reach (phaseBehind lexer.nesting.innermost?) text := rfl

/-- A container is opened where a value is asked for, if there is room for it. If there is no
room, reading fails at the bracket, which is the only way in which a value of the grammar is not
read. -/
theorem feed_open {c : Container} (hp : TakesValue options lexer.phase)
    (hd : lexer.nesting.depth < options.maxDepth) (rest : Bytes) :
    ∃ token : Lexed, token.token = .opening c ∧
      lexer.feed options .gap (c.opening :: rest) =
        ((lexer.inside c).feed options .gap rest).prepend [token] := by
  have hs : StartsToken options c.opening := by
    cases c <;> exact ⟨rfl, fun _ => rfl⟩
  have hb : c.opening ≠ Ascii.closeBracket := by
    cases c <;> decide
  refine ⟨⟨.opening c, lexer.here.offset, (lexer.past c.opening).here.offset⟩, rfl,
    feed_token ((read_value lexer hp hs hb).trans ?_)⟩
  cases c with
  | object => simp [readValue, Container.opening, openContainer, Nat.not_le.2 hd, inside]
  | array =>
    have hne : Ascii.openBracket ≠ Ascii.openBrace := by decide
    simp [readValue, Container.opening, openContainer, Nat.not_le.2 hd, inside, hne]

/-- The phases in which a container may be closed. -/
def MayClose (c : Container) (phase : Phase) : Prop :=
  match c with
  | .object => phase = .objectOpen ∨ phase = .afterMember
  | .array => phase = .arrayOpen ∨ phase = .afterElement

/-- A container is closed where it may be. -/
theorem feed_close (options : Options) (lexer : Lexer) {c : Container}
    (hp : MayClose c lexer.phase) (rest : Bytes) :
    ∃ token : Lexed, token.token = .closing c ∧
      lexer.feed options .gap (c.closing :: rest) =
        ((afterValue { lexer.past c.closing with nesting := lexer.nesting.leave }).feed options .gap
          rest).prepend [token] := by
  have hs : StartsToken options c.closing := by
    cases c <;> exact ⟨rfl, fun _ => rfl⟩
  refine ⟨⟨.closing c, lexer.here.offset, (lexer.past c.closing).here.offset⟩, rfl,
    feed_token ((read_of_startsToken hs).trans ?_)⟩
  cases c with
  | object =>
    rcases hp with hp | hp <;> rw [readStart, hp]
    · exact if_pos rfl
    · rfl
  | array =>
    rcases hp with hp | hp <;> rw [readStart, hp]
    · exact if_pos rfl
    · rfl

/-- A separator leads on to the next phase. -/
theorem feed_separator {b : UInt8} (phase : Phase)
    (h : lexer.readStart options b = lexer.separate phase b) (hs : StartsToken options b)
    (rest : Bytes) :
    lexer.feed options .gap (b :: rest) = (lexer.reach phase [b]).feed options .gap rest :=
  feed_more ((read_of_startsToken hs).trans h)

/-- A quote starts a name where one is asked for. -/
theorem read_quote_of_name (options : Options) (lexer : Lexer)
    (hp : lexer.phase = .objectOpen ∨ lexer.phase = .beforeName) :
    lexer.read options .gap Ascii.quote =
      .more (.string true .plain (lexer.lexeme Ascii.quote)) (lexer.past Ascii.quote) := by
  refine (read_of_startsToken ⟨rfl, fun _ => rfl⟩).trans ?_
  rcases hp with hp | hp <;> rw [readStart, hp] <;> rfl

/-- The name of a member is read where one is asked for. -/
theorem feed_name (options : Options) (lexer : Lexer) {name : Bytes} (h : IsStringBody name)
    (hp : lexer.phase = .objectOpen ∨ lexer.phase = .beforeName) (rest : Bytes) :
    ∃ token : Lexed, token.token = .name (Bytes.quoted name) ∧
      lexer.feed options .gap (Bytes.quoted name ++ rest) =
        ((lexer.reach .afterName (Bytes.quoted name)).feed options .gap rest).prepend [token] := by
  have hread := read_quote_of_name options lexer hp
  refine ⟨((((lexer.past Ascii.quote).along name).past Ascii.quote).closeString true
    (((lexer.lexeme Ascii.quote).append name).push Ascii.quote)).1, ?_, ?_⟩
  · simp [closeString, lexeme, Bytes.quoted]
  · rw [Bytes.quoted, List.cons_append, List.append_assoc, feed_more hread, feed_string h,
      List.singleton_append, feed_string_end]
    simp [closeString, reach, past, along]

/-! ## Values

The steps are put together along the derivation of a value. A container is read if what stands
in it is, and elements and members are read one after the other with their space and commas; the
three statements are proved by one induction over the mutual rules of the grammar. -/

/-- Behind a value comes what occurs in no number: space, a comma or a bracket. -/
theorem endsBefore_of_gap (b : UInt8) (rest : Bytes) {gap : Bytes} {wide : Bool} (hg : IsGap wide gap)
    (hb : ¬ InNumber b) (text : Bytes) : EndsBefore text (gap ++ b :: rest) := by
  refine endsBefore_of_not_inNumber (not_inNumber_of_gap hg fun c hc => ?_) text
  cases hc
  exact hb

/-- Closing a container leads behind the value that it is. Opening and closing a container leaves
the stack of open containers as it was. -/
theorem leave_inside (lexer : Lexer) (c : Container) (phase : Phase) (body : Bytes) :
    afterValue
      { ((lexer.inside c).reach phase body).past c.closing with
        nesting := ((lexer.inside c).reach phase body).nesting.leave } =
      lexer.behind (c.opening :: (body ++ [c.closing])) := by
  simp [behind, afterValue, reach, inside, past, along, Nesting.leave_enter]

/-- A container is read if what stands in it is. -/
theorem feed_container {c : Container} {phase : Phase} {body rest : Bytes} {inner : List Token}
    (hp : TakesValue options lexer.phase) (hd : lexer.nesting.depth < options.maxDepth)
    (hclose : MayClose c phase)
    (hinner : ∃ tokens : List Lexed, tokens.map (·.token) = inner ∧
      (lexer.inside c).feed options .gap (body ++ c.closing :: rest) =
        (((lexer.inside c).reach phase body).feed options .gap (c.closing :: rest)).prepend
          tokens) :
    ∃ tokens : List Lexed, tokens.map (·.token) = .opening c :: (inner ++ [.closing c]) ∧
      lexer.feed options .gap (c.opening :: (body ++ [c.closing]) ++ rest) =
        ((lexer.behind (c.opening :: (body ++ [c.closing]))).feed options .gap rest).prepend
          tokens := by
  obtain ⟨first, hfirst, hopen⟩ := feed_open (c := c) hp hd (body ++ c.closing :: rest)
  obtain ⟨tokens, htokens, hbody⟩ := hinner
  obtain ⟨last, hlast, hend⟩ := feed_close options ((lexer.inside c).reach phase body)
    hclose rest
  refine ⟨first :: (tokens ++ [last]), by simp [hfirst, htokens, hlast], ?_⟩
  rw [List.cons_append, List.append_assoc, List.singleton_append, hopen, hbody, hend,
    leave_inside]
  simp

/-- A value with space around it leads behind that space. -/
theorem feed_padded {before text behind rest : Bytes} {tokens : List Lexed}
    (hbefore : IsGap options.unicodeSpace before) (hbehind : IsGap options.unicodeSpace behind)
    (h : (lexer.along before).feed options .gap (text ++ (behind ++ rest)) =
      (((lexer.along before).behind text).feed options .gap (behind ++ rest)).prepend tokens) :
    lexer.feed options .gap (before ++ (text ++ (behind ++ rest))) =
      ((lexer.reach (phaseBehind lexer.nesting.innermost?) (before ++ (text ++ behind))).feed
        options .gap rest).prepend tokens := by
  rw [feed_gap hbefore, h, feed_gap hbehind, behind_eq_reach, reach_along, along_reach,
    List.append_assoc, nesting_along]

/-- A comma leads on to the next element or member. -/
theorem feed_comma {c : Container} (bytes rest : Bytes) :
    (lexer.reach (phaseBehind (some c)) bytes).feed options .gap (Ascii.comma :: rest) =
      (lexer.reach (match c with | .object => .beforeName | .array => .beforeElement)
        (bytes ++ [Ascii.comma])).feed options .gap rest := by
  rw [← reach_reach lexer (phaseBehind (some c))]
  cases c <;> exact feed_separator _ rfl ⟨rfl, fun _ => rfl⟩ rest

/-- A name and its colon lead on to the value. -/
theorem feed_member {name gap₁ gap₂ : Bytes} (hgap₁ : IsGap options.unicodeSpace gap₁)
    (hname : IsStringBody name) (hgap₂ : IsGap options.unicodeSpace gap₂)
    (hp : lexer.phase = .objectOpen ∨ lexer.phase = .beforeName) (rest : Bytes) :
    ∃ token : Lexed, token.token = .name (Bytes.quoted name) ∧
      lexer.feed options .gap (gap₁ ++ (Bytes.quoted name ++ (gap₂ ++ Ascii.colon :: rest))) =
        ((lexer.reach .beforeMember (gap₁ ++ (Bytes.quoted name ++ (gap₂ ++ [Ascii.colon])))).feed
          options .gap rest).prepend [token] := by
  obtain ⟨token, htoken, hfeed⟩ := feed_name options (lexer.along gap₁) hname hp
    (gap₂ ++ Ascii.colon :: rest)
  have hcolon : (lexer.reach .afterName (gap₁ ++ (Bytes.quoted name ++ gap₂))).feed options .gap
      (Ascii.colon :: rest) = _ :=
    feed_separator _ rfl ⟨rfl, fun _ => rfl⟩ rest
  refine ⟨token, htoken, ?_⟩
  rw [feed_gap hgap₁, hfeed, feed_gap hgap₂, reach_along, along_reach, List.append_assoc, hcolon,
    reach_reach]
  simp

mutual

/-- A value that is spelled as the grammar says is read where one is asked for, if there is room
for its containers. What comes behind the value does not matter, as long as the value ends in
front of it. -/
theorem feed_value {t : Tree} {text : Bytes} (h : Spells options.unicodeSpace t text)
    (lexer : Lexer) (hp : TakesValue options lexer.phase)
    (hd : lexer.nesting.depth + t.depth ≤ options.maxDepth) {rest : Bytes}
    (hrest : EndsBefore text rest) :
    ∃ tokens : List Lexed, tokens.map (·.token) = t.tokens ∧
      lexer.feed options .gap (text ++ rest) =
        ((lexer.behind text).feed options .gap rest).prepend tokens := by
  cases h with
  | scalar hs =>
    obtain ⟨token, htoken, hfeed⟩ := feed_scalar hs hp hrest
    exact ⟨[token], by simp [Tree.tokens, htoken], hfeed⟩
  | @emptyArray gap hg =>
    rw [Tree.depth] at hd
    have hinner : (lexer.inside .array).feed options .gap (gap ++ Ascii.closeBracket :: rest) = _ :=
      feed_gap hg _
    rw [Tree.tokens]
    exact feed_container hp (by omega) (.inl rfl) ⟨[], rfl, hinner⟩
  | @array elements body hbody =>
    obtain ⟨hdeep, helements⟩ := Tree.add_depth_array_le_iff.1 hd
    rw [Tree.tokens]
    exact feed_container hp hdeep (.inr rfl) (feed_elements hbody _ (.inl rfl) rfl helements rest)
  | @emptyObject gap hg =>
    rw [Tree.depth] at hd
    have hinner : (lexer.inside .object).feed options .gap (gap ++ Ascii.closeBrace :: rest) = _ :=
      feed_gap hg _
    rw [Tree.tokens]
    exact feed_container hp (by omega) (.inl rfl) ⟨[], rfl, hinner⟩
  | @object members body hbody =>
    obtain ⟨hdeep, hmembers⟩ := Tree.add_depth_object_le_iff.1 hd
    rw [Tree.tokens]
    exact feed_container hp hdeep (.inr rfl) (feed_members hbody _ (.inl rfl) rfl hmembers rest)

/-- The elements of an array are read. -/
theorem feed_elements {elements : List Tree} {body : Bytes}
    (h : SpellsElements options.unicodeSpace elements body) (lexer : Lexer)
    (hp : lexer.phase = .arrayOpen ∨ lexer.phase = .beforeElement)
    (hc : lexer.nesting.innermost? = some .array)
    (hd : ∀ e ∈ elements, lexer.nesting.depth + e.depth ≤ options.maxDepth) (rest : Bytes) :
    ∃ tokens : List Lexed, tokens.map (·.token) = elements.flatMap Tree.tokens ∧
      lexer.feed options .gap (body ++ Ascii.closeBracket :: rest) =
        ((lexer.reach .afterElement body).feed options .gap (Ascii.closeBracket :: rest)).prepend
          tokens := by
  have hvalue : TakesValue options lexer.phase := by
    rcases hp with hp | hp <;> rw [hp] <;> trivial
  cases h with
  | @last e before text behind hbefore he hbehind =>
    obtain ⟨tokens, htokens, hfeed⟩ := feed_value he (lexer.along before) hvalue
      (hd e (List.mem_singleton_self e))
      (endsBefore_of_gap Ascii.closeBracket rest hbehind (by decide) text)
    have hpadded := feed_padded hbefore hbehind hfeed
    rw [hc] at hpadded
    refine ⟨tokens, by simpa using htokens, ?_⟩
    simpa [phaseBehind] using hpadded
  | @more e elements before text behind body hbefore he hbehind hbody =>
    obtain ⟨tokens, htokens, hfeed⟩ := feed_value he (lexer.along before) hvalue
      (hd e List.mem_cons_self)
      (endsBefore_of_gap Ascii.comma (body ++ Ascii.closeBracket :: rest) hbehind
        (by decide) text)
    have hpadded := feed_padded hbefore hbehind hfeed
    rw [hc, feed_comma] at hpadded
    obtain ⟨others, hothers, hmore⟩ := feed_elements hbody
      (lexer.reach .beforeElement (before ++ (text ++ behind) ++ [Ascii.comma]))
      (.inr rfl) hc (fun e he => hd e (List.mem_cons_of_mem _ he)) rest
    rw [hmore] at hpadded
    refine ⟨tokens ++ others, by simp [htokens, hothers], ?_⟩
    simpa using hpadded

/-- The members of an object are read. -/
theorem feed_members {members : List (Bytes × Tree)} {body : Bytes}
    (h : SpellsMembers options.unicodeSpace members body) (lexer : Lexer)
    (hp : lexer.phase = .objectOpen ∨ lexer.phase = .beforeName)
    (hc : lexer.nesting.innermost? = some .object)
    (hd : ∀ m ∈ members, lexer.nesting.depth + m.2.depth ≤ options.maxDepth) (rest : Bytes) :
    ∃ tokens : List Lexed,
      tokens.map (·.token) =
        members.flatMap (fun m => .name (Bytes.quoted m.1) :: m.2.tokens) ∧
      lexer.feed options .gap (body ++ Ascii.closeBrace :: rest) =
        ((lexer.reach .afterMember body).feed options .gap (Ascii.closeBrace :: rest)).prepend
          tokens := by
  cases h with
  | @lastMember name value gap₁ gap₂ before text behind hgap₁ hname hgap₂ hbefore hv hbehind =>
    obtain ⟨token, htoken, hfirst⟩ := feed_member hgap₁ hname hgap₂ hp
      (before ++ (text ++ (behind ++ Ascii.closeBrace :: rest)))
    obtain ⟨tokens, htokens, hfeed⟩ := feed_value hv
      ((lexer.reach .beforeMember
        (gap₁ ++ (Bytes.quoted name ++ (gap₂ ++ [Ascii.colon])))).along before) trivial
      (hd (name, value) (List.mem_singleton_self _))
      (endsBefore_of_gap Ascii.closeBrace rest hbehind (by decide) text)
    have hpadded := feed_padded hbefore hbehind hfeed
    rw [show (lexer.reach .beforeMember _).nesting.innermost? = some .object from hc] at hpadded
    rw [hpadded] at hfirst
    refine ⟨token :: tokens, by simp [htoken, htokens], ?_⟩
    simpa [phaseBehind] using hfirst
  | @moreMembers name value members gap₁ gap₂ before text behind body hgap₁ hname hgap₂ hbefore hv
      hbehind hbody =>
    obtain ⟨token, htoken, hfirst⟩ := feed_member hgap₁ hname hgap₂ hp
      (before ++ (text ++ (behind ++ Ascii.comma :: (body ++ Ascii.closeBrace :: rest))))
    obtain ⟨tokens, htokens, hfeed⟩ := feed_value hv
      ((lexer.reach .beforeMember
        (gap₁ ++ (Bytes.quoted name ++ (gap₂ ++ [Ascii.colon])))).along before) trivial
      (hd (name, value) List.mem_cons_self)
      (endsBefore_of_gap Ascii.comma (body ++ Ascii.closeBrace :: rest) hbehind
        (by decide) text)
    have hpadded := feed_padded hbefore hbehind hfeed
    rw [show (lexer.reach .beforeMember _).nesting.innermost? = some .object from hc,
      feed_comma] at hpadded
    rw [hpadded] at hfirst
    obtain ⟨others, hothers, hmore⟩ := feed_members hbody
      (lexer.reach .beforeName (gap₁ ++ (Bytes.quoted name ++ (gap₂ ++ [Ascii.colon])) ++
        (before ++ (text ++ behind) ++ [Ascii.comma])))
      (.inr rfl) hc (fun m hm => hd m (List.mem_cons_of_mem _ hm)) rest
    rw [reach_reach, hmore] at hfirst
    refine ⟨token :: (tokens ++ others), by simp [htoken, htokens, hothers], ?_⟩
    simpa using hfirst

end

end JsonExtract.Lexer
