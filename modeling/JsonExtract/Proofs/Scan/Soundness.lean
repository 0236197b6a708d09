import JsonExtract.Proofs.Scan.Completeness

/-!
# Only what the grammar allows is read

Where a value is asked for and nothing fails, the input starts with a value of the grammar, and
there is room for its containers. The induction is on the length of the input: the elements and
members of a container are read in fewer bytes than the container.

* `Lexer.StartsValue` — an input that starts with a value;
* `Lexer.ValuesBelow` — what the induction says;
* `Lexer.elements_of_feed`, `Lexer.members_of_feed` — what stands in a container;
* `Lexer.value_of_feed` — values.
-/

namespace JsonExtract.Lexer

open Grammar

/-- Whether `d` starts with a value for which there is room inside of `depth` containers. -/
def StartsValue (options : Options) (depth : Nat) (d : Bytes) : Prop :=
  ∃ t text rest, d = text ++ rest ∧ Spells options.unicodeSpace t text ∧ EndsBefore text rest ∧
    depth + t.depth ≤ options.maxDepth

/-- What is read where a value is asked for starts with one, as far as fewer than `n` bytes go.
This is the hypothesis of the induction on the length of the input, given a name because elements
and members are proved under it. -/
def ValuesBelow (options : Options) (n : Nat) : Prop :=
  ∀ (lexer : Lexer) (b : UInt8) (d : Bytes), (b :: d).length < n →
    TakesValue options lexer.phase → lexer.nesting.depth ≤ options.maxDepth →
      lexer.read options .gap b = lexer.readValue options b →
        (lexer.feed options .gap (b :: d)).failure? = none →
          StartsValue options lexer.nesting.depth (b :: d)

variable {options : Options} {lexer : Lexer} {b : UInt8} {d : Bytes} {n : Nat}

/-! ## Single steps

Reading without a failure means that no byte on the way is an error. So at each place the
verdicts that are errors can be excluded, and the byte must be one of those that the phase
allows. -/

/-- A byte at which reading fails is not read. -/
theorem read_ne_error {unfinished : Unfinished}
    (h : (lexer.feed options unfinished (b :: d)).failure? = none) (failure : Failure) :
    lexer.read options unfinished b ≠ .error failure := by
  intro hread
  rw [feed_error hread] at h
  cases h

/-- Inside of a container there is a byte behind the space. -/
theorem next_of_feed (hs : lexer.phase ≠ .start) (hd : lexer.phase ≠ .done)
    (h : (lexer.feed options .gap d).failure? = none) :
    ∃ gap b rest, d = gap ++ b :: rest ∧ IsGap options.unicodeSpace gap ∧
      StartsToken options b ∧
        ((lexer.along gap).feed options .gap (b :: rest)).failure? = none := by
  obtain ⟨gap, rest, rfl, hgap, hrest⟩ := gap_of_feed h
  rw [feed_gap hgap] at h
  cases rest with
  | nil =>
    have hfinish : (lexer.along gap).finish options .gap =
        .error ((lexer.along gap).fault .endOfInput) := by
      simp [finish, hs, hd]
    rw [feed_nil_error hfinish] at h
    cases h
  | cons b rest => exact ⟨gap, b, rest, rfl, hgap, hrest b rfl, h⟩

/-- Behind a value in a container comes space, and then a byte that is no space. The byte is shown
to be there, as the input cannot end inside of a container. -/
theorem padded_of_feed (lexer : Lexer) {c : Container} {before : Bytes}
    (hbefore : IsGap options.unicodeSpace before) (hp : TakesValue options lexer.phase)
    (hc : lexer.nesting.innermost? = some c)
    (hv : StartsValue options lexer.nesting.depth d)
    (h : (lexer.feed options .gap (before ++ d)).failure? = none) :
    ∃ t text behind b rest, d = text ++ (behind ++ b :: rest) ∧
      Spells options.unicodeSpace t text ∧ IsGap options.unicodeSpace behind ∧
        lexer.nesting.depth + t.depth ≤ options.maxDepth ∧ StartsToken options b ∧
          ((lexer.reach (phaseBehind (some c)) (before ++ (text ++ behind))).feed options .gap
            (b :: rest)).failure? = none := by
  obtain ⟨t, text, rest, rfl, hspells, hend, hdepth⟩ := hv
  obtain ⟨tokens, -, hfeed⟩ := feed_value hspells (lexer.along before) hp hdepth hend
  rw [feed_gap hbefore, hfeed, behind_eq_reach, nesting_along, hc, reach_along] at h
  have hphase : phaseBehind (some c) ≠ .start ∧ phaseBehind (some c) ≠ .done := by
    cases c <;> decide
  obtain ⟨behind, b, rest, rfl, hbehind, hstart, h⟩ := next_of_feed hphase.1 hphase.2 h
  rw [along_reach, List.append_assoc] at h
  exact ⟨t, text, behind, b, rest, rfl, hspells, hbehind, hdepth, hstart, h⟩

/-- Behind a value in a container comes a comma or the end of the container. -/
theorem eq_of_phaseBehind (c : Container) (hp : lexer.phase = phaseBehind (some c))
    (hs : StartsToken options b) (h : (lexer.feed options .gap (b :: d)).failure? = none) :
    b = Ascii.comma ∨ b = c.closing := by
  by_cases hcomma : b = Ascii.comma
  · exact .inl hcomma
  by_cases hclose : b = c.closing
  · exact .inr hclose
  -- the closing bracket of the other kind of container has a reason of its own
  refine absurd ?_ (read_ne_error h (lexer.fault
    (if b = Ascii.closeBrace ∨ b = Ascii.closeBracket then .bracket b else .character b)))
  rw [read_of_startsToken hs, readStart, hp]
  cases c with
  | array =>
    have hclose : b ≠ Ascii.closeBracket := hclose
    simp only [phaseBehind, hcomma, hclose, if_false, or_false]
    split <;> rfl
  | object =>
    have hclose : b ≠ Ascii.closeBrace := hclose
    simp only [phaseBehind, hcomma, hclose, if_false, false_or]
    split <;> rfl

/-! ## Elements

The elements of an array are read up to its closing bracket, by an induction on the number of
bytes that are left. That each element is a value is the assumption for fewer bytes than the
array has. -/

/-- What is read in an array that is not empty are elements, up to its end. -/
theorem elements_of_feed (ih : ValuesBelow options n) (lexer : Lexer) {before : Bytes}
    (hlen : (before ++ b :: d).length < n) (hbefore : IsGap options.unicodeSpace before)
    (hp : lexer.phase = .arrayOpen ∨ lexer.phase = .beforeElement)
    (hc : lexer.nesting.innermost? = some .array) (hd : lexer.nesting.depth ≤ options.maxDepth)
    (hread : (lexer.along before).read options .gap b = (lexer.along before).readValue options b)
    (h : (lexer.feed options .gap (before ++ b :: d)).failure? = none) :
    ∃ elements body rest, before ++ b :: d = body ++ Ascii.closeBracket :: rest ∧
      SpellsElements options.unicodeSpace elements body ∧
        ∀ e ∈ elements, lexer.nesting.depth + e.depth ≤ options.maxDepth := by
  induction hn : (before ++ b :: d).length using Nat.strongRecOn
    generalizing lexer before b d with
  | _ m more =>
    subst hn
    have hvalue : TakesValue options lexer.phase := by
      rcases hp with hp | hp <;> rw [hp] <;> trivial
    have hv : StartsValue options lexer.nesting.depth (b :: d) := by
      refine ih (lexer.along before) b d ?_ hvalue hd hread (by rwa [feed_gap hbefore] at h)
      rw [List.length_append] at hlen
      omega
    obtain ⟨t, text, behind, c, rest, hsplit, hspells, hbehind, hdepth, hstart, hnext⟩ :=
      padded_of_feed lexer hbefore hvalue hc hv h
    rw [hsplit] at hlen more ⊢
    rcases eq_of_phaseBehind .array rfl hstart hnext with rfl | rfl
    · rw [feed_comma] at hnext
      obtain ⟨gap, b', rest, rfl, hgap, hstart', hfeed⟩ :=
        next_of_feed (by exact Phase.noConfusion) (by exact Phase.noConfusion) hnext
      have hshort : (gap ++ b' :: rest).length <
          (before ++ (text ++ (behind ++ Ascii.comma :: (gap ++ b' :: rest)))).length := by
        simp only [List.length_append, List.length_cons]
        omega
      obtain ⟨elements, body, rest', heq, helements, hdeep⟩ :=
        more _ hshort (lexer.reach .beforeElement (before ++ (text ++ behind) ++ [Ascii.comma]))
          (by omega) hgap (.inr rfl) hc hd (read_of_startsToken hstart') hnext rfl
      rw [heq]
      refine ⟨t :: elements, before ++ (text ++ (behind ++ Ascii.comma :: body)), rest', by simp,
        .more hbefore hspells hbehind helements, ?_⟩
      exact List.forall_mem_cons.2 ⟨hdepth, hdeep⟩
    · refine ⟨[t], before ++ (text ++ behind), rest, by simp [Container.closing],
        .last hbefore hspells hbehind, ?_⟩
      exact List.forall_mem_singleton.2 hdepth

/-! ## Members

A member is a name, a colon and a value, with space in between, and the members of an object
follow each other as elements do. -/

/-- Behind a name comes a colon. -/
theorem eq_of_afterName (hp : lexer.phase = .afterName) (hs : StartsToken options b)
    (h : (lexer.feed options .gap (b :: d)).failure? = none) : b = Ascii.colon := by
  by_cases hcolon : b = Ascii.colon
  · exact hcolon
  refine absurd ?_ (read_ne_error h (lexer.fault (.character b)))
  rw [read_of_startsToken hs, readStart, hp]
  simp only [hcolon, if_false]

/-- A member starts with a quote. -/
theorem eq_of_readName
    (hread : lexer.read options .gap b = lexer.readName b)
    (h : (lexer.feed options .gap (b :: d)).failure? = none) : b = Ascii.quote := by
  by_cases hquote : b = Ascii.quote
  · exact hquote
  refine absurd ?_ (read_ne_error h (lexer.fault (.character b)))
  rw [hread, readName, if_neg hquote]

/-- What is read of a member in front of its value is a name and a colon. -/
theorem name_of_feed {gap₁ : Bytes} (hgap₁ : IsGap options.unicodeSpace gap₁)
    (hp : lexer.phase = .objectOpen ∨ lexer.phase = .beforeName)
    (h : (lexer.feed options .gap (gap₁ ++ Ascii.quote :: d)).failure? = none) :
    ∃ name gap₂ before b rest,
      Ascii.quote :: d = Bytes.quoted name ++ (gap₂ ++ Ascii.colon :: (before ++ b :: rest)) ∧
        IsStringBody name ∧ IsGap options.unicodeSpace gap₂ ∧ IsGap options.unicodeSpace before ∧
          StartsToken options b ∧
            ((lexer.reach .beforeMember (gap₁ ++ (Bytes.quoted name ++ (gap₂ ++ [Ascii.colon])))).feed
              options .gap (before ++ b :: rest)).failure? = none := by
  have hread := read_quote_of_name options (lexer.along gap₁) hp
  rw [feed_gap hgap₁] at h
  obtain ⟨name, rest, rfl, hname⟩ := string_of_feed (by rwa [feed_more hread] at h)
  have hquoted : Ascii.quote :: (name ++ Ascii.quote :: rest) = Bytes.quoted name ++ rest := by
    simp [Bytes.quoted]
  obtain ⟨_, -, hfeed⟩ := feed_name options (lexer.along gap₁) hname hp rest
  rw [hquoted, hfeed, reach_along] at h
  obtain ⟨gap₂, b, rest, rfl, hgap₂, hstart, hcolon⟩ :=
    next_of_feed (by exact Phase.noConfusion) (by exact Phase.noConfusion) h
  obtain rfl := eq_of_afterName rfl hstart hcolon
  rw [along_reach, feed_separator .beforeMember rfl ⟨rfl, fun _ => rfl⟩, reach_reach] at hcolon
  simp only [List.append_assoc] at hcolon
  obtain ⟨before, b, rest, rfl, hbefore, hstart, -⟩ :=
    next_of_feed (by exact Phase.noConfusion) (by exact Phase.noConfusion) hcolon
  exact ⟨name, gap₂, before, b, rest, hquoted, hname, hgap₂, hbefore, hstart, hcolon⟩

/-- What is read in an object that is not empty are members, up to its end. -/
theorem members_of_feed (ih : ValuesBelow options n) (lexer : Lexer) {gap₁ : Bytes}
    (hlen : (gap₁ ++ Ascii.quote :: d).length < n) (hgap₁ : IsGap options.unicodeSpace gap₁)
    (hp : lexer.phase = .objectOpen ∨ lexer.phase = .beforeName)
    (hc : lexer.nesting.innermost? = some .object) (hd : lexer.nesting.depth ≤ options.maxDepth)
    (h : (lexer.feed options .gap (gap₁ ++ Ascii.quote :: d)).failure? = none) :
    ∃ members body rest, gap₁ ++ Ascii.quote :: d = body ++ Ascii.closeBrace :: rest ∧
      SpellsMembers options.unicodeSpace members body ∧
        ∀ m ∈ members, lexer.nesting.depth + m.2.depth ≤ options.maxDepth := by
  induction hn : (gap₁ ++ Ascii.quote :: d).length using Nat.strongRecOn
    generalizing lexer gap₁ d with
  | _ m more =>
    subst hn
    obtain ⟨name, gap₂, before, b, d, hsplit, hname, hgap₂, hbefore, hstart, hfeed⟩ :=
      name_of_feed hgap₁ hp h
    rw [hsplit] at hlen more ⊢
    have hv : StartsValue options lexer.nesting.depth (b :: d) := by
      refine ih ((lexer.reach .beforeMember
        (gap₁ ++ (Bytes.quoted name ++ (gap₂ ++ [Ascii.colon])))).along before) b d ?_ trivial
        hd (read_of_startsToken hstart) (by rwa [feed_gap hbefore] at hfeed)
      simp only [List.length_append, List.length_cons] at hlen ⊢
      omega
    obtain ⟨t, text, behind, c, rest, hsplit, hspells, hbehind, hdepth, hstart, hnext⟩ :=
      padded_of_feed (lexer.reach .beforeMember _) hbefore trivial hc hv hfeed
    rw [hsplit] at hlen more ⊢
    rw [reach_reach] at hnext
    rcases eq_of_phaseBehind .object rfl hstart hnext with rfl | rfl
    · rw [feed_comma] at hnext
      obtain ⟨gap, b', rest, rfl, hgap, hstart', hfeed⟩ :=
        next_of_feed (by exact Phase.noConfusion) (by exact Phase.noConfusion) hnext
      obtain rfl := eq_of_readName (read_of_startsToken hstart') hfeed
      have hshort : (gap ++ Ascii.quote :: rest).length <
          (gap₁ ++ (Bytes.quoted name ++ (gap₂ ++ Ascii.colon :: (before ++ (text ++
            (behind ++ Ascii.comma :: (gap ++ Ascii.quote :: rest))))))).length := by
        simp only [List.length_append, List.length_cons]
        omega
      obtain ⟨members, body, rest', heq, hmembers, hdeep⟩ :=
        more _ hshort (lexer.reach .beforeName _)
          (by simp only [List.length_append, List.length_cons] at hlen ⊢; omega)
          hgap (.inr rfl) hc hd hnext rfl
      rw [heq]
      refine ⟨(name, t) :: members, gap₁ ++ (Bytes.quoted name ++ (gap₂ ++ Ascii.colon ::
        (before ++ (text ++ (behind ++ Ascii.comma :: body))))), rest', by simp,
        .moreMembers hgap₁ hname hgap₂ hbefore hspells hbehind hmembers, ?_⟩
      exact List.forall_mem_cons.2 ⟨hdepth, hdeep⟩
    · refine ⟨[(name, t)], gap₁ ++ (Bytes.quoted name ++ (gap₂ ++ Ascii.colon ::
        (before ++ (text ++ behind)))), rest, by simp [Container.closing],
        .lastMember hgap₁ hname hgap₂ hbefore hspells hbehind, ?_⟩
      exact List.forall_mem_singleton.2 hdepth

/-! ## Values

The first byte that is no space decides what value it is. For a container the room is known to
be there, since its bracket was read; what stands in it is covered by the two sections above. -/

/-- A string starts a value. -/
theorem startsValue_of_string
    (hread : lexer.read options .gap Ascii.quote = lexer.readValue options Ascii.quote)
    (hd : lexer.nesting.depth ≤ options.maxDepth)
    (h : (lexer.feed options .gap (Ascii.quote :: d)).failure? = none) :
    StartsValue options lexer.nesting.depth (Ascii.quote :: d) := by
  have hmore : lexer.read options .gap Ascii.quote =
      .more (.string false .plain (lexer.lexeme Ascii.quote)) (lexer.past Ascii.quote) :=
    hread
  rw [feed_more hmore] at h
  obtain ⟨inner, rest, rfl, hinner⟩ := string_of_feed h
  refine ⟨.scalar (.string inner), Bytes.quoted inner, rest, by simp [Bytes.quoted],
    .scalar (s := .string inner) hinner, endsBefore_of_first?_eq_none rfl _ _, ?_⟩
  rw [Tree.depth]
  exact hd

/-- A byte that starts a number starts a value. -/
theorem startsValue_of_number {p : NumberPart} (hp : NumberPart.first? b = some p)
    (hread : lexer.read options .gap b = lexer.readValue options b)
    (hd : lexer.nesting.depth ≤ options.maxDepth)
    (h : (lexer.feed options .gap (b :: d)).failure? = none) :
    StartsValue options lexer.nesting.depth (b :: d) := by
  rw [feed_more (hread.trans (readValue_number hp))] at h
  obtain ⟨more, rest, q, rfl, hrun, hq, hend⟩ := number_of_feed h
  refine ⟨.scalar (.number (b :: more)), b :: more, rest, rfl,
    .scalar (s := .number (b :: more)) (isNumber_cons_iff.2 ⟨p, q, hp, hrun, hq⟩),
    (endsBefore_number_iff hp hrun).2 hend, ?_⟩
  rw [Tree.depth]
  exact hd

/-- A literal is the text of a scalar that is no number. -/
theorem scalar_of_word? {kind : Kind} {next : UInt8} {more : Bytes}
    (hw : word? b = some (kind, next, more)) :
    NumberPart.first? b = none ∧ ∃ s : Scalar, IsScalar s ∧ s.raw = b :: next :: more := by
  rw [word?] at hw
  split at hw
  · next hb =>
    cases hw
    subst hb
    exact ⟨by decide, .boolean true, trivial, by decide⟩
  · split at hw
    · next hb =>
      cases hw
      subst hb
      exact ⟨by decide, .boolean false, trivial, by decide⟩
    · split at hw
      · next hb =>
        cases hw
        subst hb
        exact ⟨by decide, .null, trivial, by decide⟩
      · cases hw

/-- A byte that starts a literal starts a value. -/
theorem startsValue_of_word {kind : Kind} {next : UInt8} {more : Bytes}
    (hw : word? b = some (kind, next, more))
    (hread : lexer.read options .gap b = .more (.word kind next more (lexer.lexeme b))
      (lexer.past b))
    (hd : lexer.nesting.depth ≤ options.maxDepth)
    (h : (lexer.feed options .gap (b :: d)).failure? = none) :
    StartsValue options lexer.nesting.depth (b :: d) := by
  rw [feed_more hread] at h
  obtain ⟨rest, rfl⟩ := word_of_feed h
  obtain ⟨hnumber, s, hs, hraw⟩ := scalar_of_word? hw
  refine ⟨.scalar s, s.raw, rest, by rw [hraw]; rfl, .scalar hs, ?_, ?_⟩
  · rw [hraw]
    exact endsBefore_of_first?_eq_none hnumber _ _
  · rw [Tree.depth]
    exact hd

/-- A bracket that opens a container is read only if there is room for the container. -/
theorem inside_of_feed {c : Container} (hp : TakesValue options lexer.phase)
    (hread : lexer.read options .gap c.opening = lexer.readValue options c.opening)
    (h : (lexer.feed options .gap (c.opening :: d)).failure? = none) :
    lexer.nesting.depth < options.maxDepth ∧
      ((lexer.inside c).feed options .gap d).failure? = none := by
  rcases Nat.lt_or_ge lexer.nesting.depth options.maxDepth with hd | hd
  · obtain ⟨_, -, hfeed⟩ := feed_open (c := c) hp hd d
    exact ⟨hd, failure?_eq_none_of_eq h hfeed⟩
  · refine absurd ?_ (read_ne_error h (.tooDeep (lexer.nesting.depth + 1) lexer.here.offset))
    rw [hread]
    cases c with
    | object => simp [readValue, Container.opening, openContainer, hd]
    | array =>
      have hne : Ascii.openBracket ≠ Ascii.openBrace := by decide
      simp [readValue, Container.opening, openContainer, hd, hne]

/-- A bracket that opens an array starts a value. -/
theorem startsValue_of_array (ih : ValuesBelow options (Ascii.openBracket :: d).length)
    (hp : TakesValue options lexer.phase)
    (hread : lexer.read options .gap Ascii.openBracket =
      lexer.readValue options Ascii.openBracket)
    (h : (lexer.feed options .gap (Ascii.openBracket :: d)).failure? = none) :
    StartsValue options lexer.nesting.depth (Ascii.openBracket :: d) := by
  obtain ⟨hdepth, h⟩ := inside_of_feed (c := .array) hp hread h
  obtain ⟨gap, b, rest, rfl, hgap, hstart, hnext⟩ :=
    next_of_feed (by exact Phase.noConfusion) (by exact Phase.noConfusion) h
  by_cases hb : b = Ascii.closeBracket
  · subst hb
    refine ⟨.array [], Ascii.openBracket :: (gap ++ [Ascii.closeBracket]), rest, by simp,
      .emptyArray hgap, endsBefore_of_first?_eq_none rfl _ _, ?_⟩
    exact Tree.add_depth_array_le_iff.2 ⟨hdepth, by simp⟩
  · obtain ⟨elements, body, rest', heq, helements, hdeep⟩ :=
      elements_of_feed ih (lexer.inside .array) (by rw [List.length_cons]; omega) hgap (.inl rfl) rfl
        hdepth (read_value ((lexer.inside .array).along gap) trivial hstart hb) h
    rw [heq]
    refine ⟨.array elements, Ascii.openBracket :: (body ++ [Ascii.closeBracket]), rest', by simp,
      .array helements, endsBefore_of_first?_eq_none rfl _ _, ?_⟩
    exact Tree.add_depth_array_le_iff.2 ⟨hdepth, hdeep⟩

/-- A brace that opens an object starts a value. -/
theorem startsValue_of_object (ih : ValuesBelow options (Ascii.openBrace :: d).length)
    (hp : TakesValue options lexer.phase)
    (hread : lexer.read options .gap Ascii.openBrace = lexer.readValue options Ascii.openBrace)
    (h : (lexer.feed options .gap (Ascii.openBrace :: d)).failure? = none) :
    StartsValue options lexer.nesting.depth (Ascii.openBrace :: d) := by
  obtain ⟨hdepth, h⟩ := inside_of_feed (c := .object) hp hread h
  obtain ⟨gap, b, rest, rfl, hgap, hstart, hnext⟩ :=
    next_of_feed (by exact Phase.noConfusion) (by exact Phase.noConfusion) h
  by_cases hb : b = Ascii.closeBrace
  · subst hb
    refine ⟨.object [], Ascii.openBrace :: (gap ++ [Ascii.closeBrace]), rest, by simp,
      .emptyObject hgap, endsBefore_of_first?_eq_none rfl _ _, ?_⟩
    exact Tree.add_depth_object_le_iff.2 ⟨hdepth, by simp⟩
  · have hname : ((lexer.inside .object).along gap).read options .gap b =
        ((lexer.inside .object).along gap).readName b :=
      (read_of_startsToken hstart).trans (if_neg hb)
    obtain rfl := eq_of_readName hname hnext
    obtain ⟨members, body, rest', heq, hmembers, hdeep⟩ :=
      members_of_feed ih (lexer.inside .object) (by rw [List.length_cons]; omega) hgap (.inl rfl)
        rfl hdepth h
    rw [heq]
    refine ⟨.object members, Ascii.openBrace :: (body ++ [Ascii.closeBrace]), rest', by simp,
      .object hmembers, endsBefore_of_first?_eq_none rfl _ _, ?_⟩
    exact Tree.add_depth_object_le_iff.2 ⟨hdepth, hdeep⟩

/-- What is read without a failure where a value is asked for starts with a value. All cases for
the first byte were prepared as lemmas of their own, so the proof only distinguishes them. -/
theorem value_of_feed (options : Options) (n : Nat) : ValuesBelow options n := by
  induction n with
  | zero =>
    intro lexer b d hlen
    exact absurd hlen (Nat.not_lt_zero _)
  | succ n ih =>
    intro lexer b d hlen hp hd hread h
    -- what stands in a container is shorter than the container
    have hbelow : ValuesBelow options (b :: d).length := fun lexer c more hshort =>
      ih lexer c more (by omega)
    by_cases hbrace : b = Ascii.openBrace
    · subst hbrace
      exact startsValue_of_object hbelow hp hread h
    by_cases hbracket : b = Ascii.openBracket
    · subst hbracket
      exact startsValue_of_array hbelow hp hread h
    by_cases hquote : b = Ascii.quote
    · subst hquote
      exact startsValue_of_string hread hd h
    rw [readValue, if_neg hbrace, if_neg hbracket, if_neg hquote] at hread
    rcases hfirst : NumberPart.first? b with _ | p
    · rcases hword : word? b with _ | ⟨kind, next, more⟩
      · rw [hfirst, hword] at hread
        exact absurd hread (read_ne_error h _)
      · rw [hfirst, hword] at hread
        exact startsValue_of_word hword hread hd h
    · rw [hfirst] at hread
      exact startsValue_of_number hfirst (hread.trans (readValue_number hfirst).symm) hd h

end JsonExtract.Lexer
