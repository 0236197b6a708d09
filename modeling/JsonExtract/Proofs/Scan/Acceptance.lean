import JsonExtract.Proofs.Scan.Soundness

/-!
# Which documents are read

A document is read to its end exactly if it is one of the grammar, single or in a series as the
settings have it, and its containers are not nested too deep. Its tokens are then those of its
values, one value after the other.

* `Lexer.feed_document`, `Lexer.feed_series` — documents of the grammar are read;
* `Lexer.document_of_feed`, `Lexer.series_of_feed` — no others are.
-/

namespace JsonExtract.Lexer

open Grammar

variable {options : Options} {lexer : Lexer} {d : Bytes}

/-! ## Ends of documents

The end of the input is accepted where a single document is complete, or where any number of
values is asked for and none is in progress. Space may stand in front of it. The lemmas are
about both sides of the equivalence. -/

/-- Space in front of the end is passed over, where the document may end. -/
theorem feed_end {gap : Bytes} (hgap : IsGap options.unicodeSpace gap)
    (h : lexer.phase = .done ∨ lexer.phase = .start ∧ options.multipleValues = true) :
    lexer.feed options .gap gap = ⟨[], none⟩ := by
  have hfinish : (lexer.along gap).finish options .gap = .ok none := by
    rcases h with h | ⟨h, hm⟩
    · simp [finish, h]
    · simp [finish, h, hm]
  rw [← List.append_nil gap, feed_gap hgap, feed_nil_end hfinish]

/-- A value that is followed by nothing but space ends in front of it. -/
theorem endsBefore_gap {gap : Bytes} {wide : Bool} (hgap : IsGap wide gap) (text : Bytes) :
    EndsBefore text gap := by
  refine endsBefore_of_not_inNumber ?_ text
  rw [← List.append_nil gap]
  exact not_inNumber_of_gap hgap fun b hb => by cases hb

/-- Behind a value that stands in no container the document may end. -/
theorem phase_behind (lexer : Lexer) (hc : lexer.nesting.innermost? = none) (text : Bytes) :
    (lexer.behind text).phase = .done := by
  rw [behind_eq_reach, hc]
  rfl

/-- Every value has a text. -/
theorem ne_nil_of_spells {wide : Bool} {t : Tree} {text : Bytes} (h : Spells wide t text) :
    text ≠ [] := by
  cases h with
  | @scalar s hs =>
    cases s with
    | number raw =>
      rintro rfl
      exact not_isNumber_nil hs
    | boolean value => cases value <;> decide
    | string | null => exact List.cons_ne_nil _ _
  | emptyArray | array | emptyObject | object => exact List.cons_ne_nil _ _

/-! ## Documents of the grammar

A document of the grammar is a value with space around it, or a series of such values, and for
each value it is known that it is read to its end and leads behind itself. What is left is the
end of the input, and for a series an induction over its values. -/

/-- A document of one value is read. -/
theorem feed_document {t : Tree} (h : IsDocument options.unicodeSpace t d) (lexer : Lexer)
    (hp : TakesValue options lexer.phase) (hc : lexer.nesting.innermost? = none)
    (hd : lexer.nesting.depth + t.depth ≤ options.maxDepth) :
    ∃ tokens : List Lexed, tokens.map (·.token) = t.tokens ∧
      lexer.feed options .gap d = ⟨tokens, none⟩ := by
  obtain ⟨hbefore, hspells, hbehind⟩ := h
  obtain ⟨tokens, htokens, hfeed⟩ :=
    feed_value hspells (lexer.along _) hp hd (endsBefore_gap hbehind _)
  refine ⟨tokens, htokens, ?_⟩
  rw [feed_gap hbefore, hfeed, feed_end hbehind (.inl (phase_behind (lexer.along _) hc _)),
    Scanned.prepend,
    List.append_nil]

/-- A series of values is read. Two values of a series need no space between them unless the first
is a number that would go on, which is what the grammar asks for, too. -/
theorem feed_series (lexer : Lexer) {values : List Tree} (hm : options.multipleValues = true)
    (h : IsSeries options.unicodeSpace values d)
    (hp : lexer.phase = .start ∨ lexer.phase = .done) (hc : lexer.nesting.innermost? = none)
    (hd : ∀ t ∈ values, lexer.nesting.depth + t.depth ≤ options.maxDepth) :
    ∃ tokens : List Lexed, tokens.map (·.token) = values.flatMap Tree.tokens ∧
      lexer.feed options .gap d = ⟨tokens, none⟩ := by
  induction h generalizing lexer with
  | nil hgap =>
    refine ⟨[], rfl, feed_end hgap ?_⟩
    rcases hp with hp | hp
    · exact .inr ⟨hp, hm⟩
    · exact .inl hp
  | @cons t values before text rest hbefore hspells hend _ ih =>
    have hvalue : TakesValue options lexer.phase := by
      rcases hp with hp | hp <;> rw [hp]
      · trivial
      · exact hm
    rw [List.forall_mem_cons] at hd
    obtain ⟨tokens, htokens, hfeed⟩ :=
      feed_value hspells (lexer.along before) hvalue hd.1 hend
    obtain ⟨others, hothers, hrest⟩ := ih ((lexer.along before).behind text)
      (.inr (phase_behind _ hc text)) hc hd.2
    refine ⟨tokens ++ others, by simp [htokens, hothers], ?_⟩
    rw [feed_gap hbefore, hfeed, hrest, Scanned.prepend]

/-! ## Documents that are read

In the other direction a document is known to be read without a failure, and its spelling has to
be found. In front of the first token stands space, and what starts there is a value by the
soundness of reading; the rest is the end, or further values, for which the length of the input
goes down. -/

/-- What is read outside of containers is space, or starts with a value. -/
theorem startsValue_of_feed (hp : TakesValue options lexer.phase)
    (ho : lexer.phase ≠ .arrayOpen) (hd : lexer.nesting.depth ≤ options.maxDepth)
    (h : (lexer.feed options .gap d).failure? = none) :
    ∃ gap rest, d = gap ++ rest ∧ IsGap options.unicodeSpace gap ∧
      (rest = [] ∨ StartsValue options lexer.nesting.depth rest) := by
  obtain ⟨gap, rest, rfl, hgap, hrest⟩ := gap_of_feed h
  refine ⟨gap, rest, rfl, hgap, ?_⟩
  rw [feed_gap hgap] at h
  cases rest with
  | nil => exact .inl rfl
  | cons b rest =>
    refine .inr (value_of_feed options _ (lexer.along gap) b rest (Nat.lt_succ_self _) hp hd ?_ h)
    rw [read_of_startsToken (hrest b rfl), readStart, phase_along]
    cases hphase : lexer.phase <;> rw [hphase] at hp ho <;> simp_all [TakesValue]

/-- A document that is read where only one value is asked for is that value. Outside of all
containers the phase behind a value is `done`, and then nothing but space is allowed. -/
theorem document_of_feed (hm : options.multipleValues = false) (hp : lexer.phase = .start)
    (hc : lexer.nesting.innermost? = none) (hd : lexer.nesting.depth ≤ options.maxDepth)
    (h : (lexer.feed options .gap d).failure? = none) :
    ∃ t, IsDocument options.unicodeSpace t d ∧
      lexer.nesting.depth + t.depth ≤ options.maxDepth := by
  have hvalue : TakesValue options lexer.phase := by
    rw [hp]
    trivial
  obtain ⟨before, rest, rfl, hbefore, rfl | ⟨t, text, rest, rfl, hspells, hend, hdepth⟩⟩ :=
    startsValue_of_feed hvalue (by rw [hp]; decide) hd h
  · have hfinish : (lexer.along before).finish options .gap =
        .error ((lexer.along before).fault .endOfInput) := by
      simp [finish, hp, hm]
    rw [feed_gap hbefore, feed_nil_error hfinish] at h
    cases h
  · obtain ⟨tokens, -, hfeed⟩ :=
      feed_value hspells (lexer.along before) hvalue hdepth hend
    rw [feed_gap hbefore, hfeed] at h
    obtain ⟨behind, rest, rfl, hbehind, hrest⟩ := gap_of_feed h
    rw [feed_gap hbehind] at h
    cases rest with
    | nil =>
      rw [List.append_nil]
      exact ⟨t, .mk hbefore hspells hbehind, hdepth⟩
    | cons b rest =>
      refine absurd ?_ (read_ne_error h
        ((((lexer.along before).behind text).along behind).fault (.character b)))
      rw [read_of_startsToken (hrest b rfl), readStart, phase_along,
        phase_behind (lexer.along before) hc]
      simp [hm]

/-- A document that is read where any number of values is asked for is a series of values. -/
theorem series_of_feed (lexer : Lexer) (hm : options.multipleValues = true)
    (hp : lexer.phase = .start ∨ lexer.phase = .done) (hc : lexer.nesting.innermost? = none)
    (hd : lexer.nesting.depth ≤ options.maxDepth)
    (h : (lexer.feed options .gap d).failure? = none) :
    ∃ values, IsSeries options.unicodeSpace values d ∧
      ∀ t ∈ values, lexer.nesting.depth + t.depth ≤ options.maxDepth := by
  induction hn : d.length using Nat.strongRecOn generalizing lexer d with
  | _ n ih =>
    have hvalue : TakesValue options lexer.phase := by
      rcases hp with hp | hp <;> rw [hp]
      · trivial
      · exact hm
    obtain ⟨before, rest, rfl, hbefore, rfl | ⟨t, text, rest, rfl, hspells, hend, hdepth⟩⟩ :=
      startsValue_of_feed hvalue (by rcases hp with hp | hp <;> rw [hp] <;> decide) hd h
    · rw [List.append_nil]
      exact ⟨[], .nil hbefore, by simp⟩
    · obtain ⟨tokens, -, hfeed⟩ :=
        feed_value hspells (lexer.along before) hvalue hdepth hend
      rw [feed_gap hbefore, hfeed] at h
      have hshort : rest.length < n := by
        have hpos := List.length_pos_iff.2 (ne_nil_of_spells hspells)
        simp only [List.length_append] at hn
        omega
      obtain ⟨values, hseries, hdeep⟩ := ih _ hshort ((lexer.along before).behind text)
        (.inr (phase_behind _ hc text)) hc hd h rfl
      exact ⟨t :: values, .cons hbefore hspells hend hseries,
        List.forall_mem_cons.2 ⟨hdepth, hdeep⟩⟩

/-! ## Tokens that are pulled one by one

A session pulls tokens instead of feeding bytes. Over a document in memory both read the same,
so the two directions meet in one statement about the tokens that are pulled. -/

/-- What the settings ask for is read from the start. -/
theorem feed_reads {values : List Tree} (h : Reads options values d)
    (hd : ∀ t ∈ values, t.depth ≤ options.maxDepth) :
    ∃ tokens : List Lexed, tokens.map (·.token) = values.flatMap Tree.tokens ∧
      Lexer.initial.feed options .gap d = ⟨tokens, none⟩ := by
  have hroom : ∀ t ∈ values, Lexer.initial.nesting.depth + t.depth ≤ options.maxDepth := by
    intro t ht
    exact Nat.le_trans (Nat.le_of_eq (Nat.zero_add _)) (hd t ht)
  rw [Reads] at h
  split at h
  · next hm => exact feed_series _ hm h (.inl rfl) rfl hroom
  · obtain ⟨t, rfl, hdoc⟩ := h
    obtain ⟨tokens, htokens, hfeed⟩ :=
      feed_document hdoc .initial trivial rfl (hroom t (List.mem_singleton_self t))
    exact ⟨tokens, by simpa using htokens, hfeed⟩

/-- What is read from the start is what the settings ask for. -/
theorem reads_of_feed (h : (Lexer.initial.feed options .gap d).failure? = none) :
    ∃ values, Reads options values d ∧ ∀ t ∈ values, t.depth ≤ options.maxDepth := by
  have hroom : ∀ t : Tree, Lexer.initial.nesting.depth + t.depth ≤ options.maxDepth →
      t.depth ≤ options.maxDepth := by
    intro t
    exact Nat.le_trans (Nat.le_of_eq (Nat.zero_add _).symm)
  cases hm : options.multipleValues with
  | true =>
    obtain ⟨values, hseries, hdeep⟩ := series_of_feed _ hm (.inl rfl) rfl (Nat.zero_le _) h
    exact ⟨values, (if_pos hm).mpr hseries, fun t ht => hroom t (hdeep t ht)⟩
  | false =>
    obtain ⟨t, hdoc, hdeep⟩ := document_of_feed hm rfl rfl (Nat.zero_le _) h
    refine ⟨[t], ?_, List.forall_mem_singleton.2 (hroom t hdeep)⟩
    rw [Reads, if_neg (by rw [hm]; decide)]
    exact ⟨t, rfl, hdoc⟩

/-- Pulling tokens reaches the end of a document without a failure exactly if the document is one
of the grammar and is not nested too deep, and what is pulled are then the tokens of its values.
Neither side mentions the other's notions: on the left an automaton is run, on the right a value
is spelled by rules. -/
theorem scan_complete_iff (options : Options) (d : Bytes) (tokens : List Token) :
    (∃ lexed : List Lexed, Lexer.initial.scan options (Buffer.mk d) = ⟨lexed, none⟩ ∧
        lexed.map (·.token) = tokens) ↔
      ∃ values, Reads options values d ∧ (∀ t ∈ values, t.depth ≤ options.maxDepth) ∧
        tokens = values.flatMap Tree.tokens := by
  rw [scan_buffer]
  constructor
  · rintro ⟨lexed, hfeed, rfl⟩
    have h : (Lexer.initial.feed options .gap d).failure? = none := by
      rw [hfeed]
    obtain ⟨values, hreads, hdeep⟩ := reads_of_feed h
    obtain ⟨tokens, htokens, hagain⟩ := feed_reads hreads hdeep
    rw [hfeed] at hagain
    cases hagain
    exact ⟨values, hreads, hdeep, htokens⟩
  · rintro ⟨values, hreads, hdeep, rfl⟩
    obtain ⟨lexed, htokens, hfeed⟩ := feed_reads hreads hdeep
    exact ⟨lexed, hfeed, htokens⟩

end JsonExtract.Lexer
