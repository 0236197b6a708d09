import JsonExtract.Proofs.Scan.Partway

/-!
# Runs inside of tokens

The bytes of a run leave the automaton of strings, or that of numbers, in the state in which it is, and all
other bytes lead it to another state. So the bytes of a token tell how many of them, at their end, belong to
the run that is going on. Behind a byte that belongs to no run there are none.

* `idle?` — an automaton and the number of bytes read last that left it in its state;
* `Quotation.trailing`, `NumberPart.trailing` — the run at the end of some bytes of a string or a number;
* `Midway.Noted`, `Follows.noted` — what the lexer has noted of strings and numbers;
* `Unfinished.trailing`, `Lexer.trailing_of_read`, `Lexer.trailing_absorb` — the run that is going on;
* `Unfinished.becomes`, `Follows.becomes_of_start_lt` — the token that an unfinished one becomes.
-/

namespace JsonExtract

/-! ## Bytes that leave an automaton in its state

Strings and numbers are read by two automata, and for both the bytes of a run are those that
leave the state alone. The number of such bytes at the end of what was read is counted along
with the state, for any automaton. The two instances follow. -/

section

variable {S : Type} [DecidableEq S]

/-- One byte more: the state, and the number of bytes read last that left it as it was. A byte
that changes the state starts the count anew. -/
def idleStep (next? : S → UInt8 → Option S) (now : S × Nat) (b : UInt8) : Option (S × Nat) :=
  (next? now.1 b).map fun s => (s, if s = now.1 then now.2 + 1 else 0)

/-- The state that some bytes lead to, the first of which starts the automaton, and the number of
bytes at their end that left it as it was. The first byte starts the automaton and is not counted. -/
def idle? (first? : UInt8 → Option S) (next? : S → UInt8 → Option S) : Bytes → Option (S × Nat)
  | [] => none
  | b :: rest => (first? b).bind fun s => rest.foldlM (idleStep next?) (s, 0)

variable {first? : UInt8 → Option S} {next? : S → UInt8 → Option S} {s s' : S} {k : Nat} {xs : Bytes}

theorem idle?_append {now : S × Nat} (h : idle? first? next? xs = some now) (ys : Bytes) :
    idle? first? next? (xs ++ ys) = ys.foldlM (idleStep next?) now := by
  cases xs with
  | nil => cases h
  | cons b xs =>
    obtain ⟨s, hs, hrest⟩ := Option.bind_eq_some_iff.1 h
    rw [List.cons_append, idle?, hs, Option.bind_some, List.foldlM_append, hrest]
    rfl

theorem idle?_concat (h : idle? first? next? xs = some (s, k)) {b : UInt8} (hb : next? s b = some s') :
    idle? first? next? (xs ++ [b]) = some (s', if s' = s then k + 1 else 0) := by
  rw [idle?_append h, List.foldlM_cons, idleStep, hb]
  rfl

/-- Bytes that leave the automaton in its state are counted. -/
theorem idle?_run (h : idle? first? next? xs = some (s, k)) {run : Bytes}
    (hrun : ∀ b ∈ run, next? s b = some s) :
    idle? first? next? (xs ++ run) = some (s, k + run.length) := by
  induction run generalizing xs k with
  | nil => rwa [List.append_nil]
  | cons b run ih =>
    rw [List.forall_mem_cons] at hrun
    have hfirst := idle?_concat h hrun.1
    rw [if_pos rfl] at hfirst
    rw [← List.singleton_append, ← List.append_assoc, ih hfirst hrun.2, List.length_append,
      List.length_singleton, Nat.add_assoc]

/-- There is a run only if some byte can leave the automaton in its state. -/
theorem exists_of_idle? (h : idle? first? next? xs = some (s, k)) (hk : 0 < k) :
    ∃ b, next? s b = some s := by
  have hfold : ∀ (xs : Bytes) (now : S × Nat), xs.foldlM (idleStep next?) now = some (s, k) →
      s = now.1 ∧ 0 < now.2 ∨ ∃ b, next? s b = some s := by
    intro xs
    induction xs with
    | nil =>
      intro now h
      cases h
      exact .inl ⟨rfl, hk⟩
    | cons b xs ih =>
      intro now h
      rw [List.foldlM_cons] at h
      obtain ⟨later, hstep, h⟩ := Option.bind_eq_some_iff.1 h
      obtain ⟨s₁, hb, rfl⟩ := Option.map_eq_some_iff.1 hstep
      obtain ⟨rfl, hpos⟩ | hfound := ih _ h
      · dsimp only at hpos
        split at hpos
        · next hsame => exact .inr ⟨b, by rwa [← hsame] at hb⟩
        · cases hpos
      · exact .inr hfound
  cases xs with
  | nil => cases h
  | cons b xs =>
    obtain ⟨first, -, h⟩ := Option.bind_eq_some_iff.1 h
    obtain ⟨-, hpos⟩ | hfound := hfold xs _ h
    · cases hpos
    · exact hfound

/-- A byte that leads to another state is at the end of no run. -/
theorem idle?_concat_of_ne (h : idle? first? next? xs = some (s, k)) {b : UInt8}
    (hb : next? s b = some s') (hne : s' ≠ s) : idle? first? next? (xs ++ [b]) = some (s', 0) := by
  rw [idle?_concat h hb, if_neg hne]

end

/-! ### Strings -/

namespace Quotation

/-- How far a byte brings a string, unless it closes the string or is at fault. -/
def next? (q : Quotation) (b : UInt8) : Option Quotation :=
  match q.next b with
  | .ok q' => q'
  | .error _ => none

theorem next?_of_next {q q' : Quotation} {b : UInt8} (h : q.next b = .ok (some q')) :
    q.next? b = some q' := by
  rw [next?, h]

/-- Only plain bytes outside of escapes leave a string in its state. -/
theorem isPlain_of_next {q : Quotation} {b : UInt8} (h : q.next b = .ok (some q)) :
    q = plain ∧ isPlain b = true := by
  cases q with
  | plain =>
    refine ⟨rfl, ?_⟩
    rw [next] at h
    split at h
    · cases h
    · next hquote =>
      split at h
      · cases h
      · next hslash =>
        split at h
        · cases h
        · next hcontrol => simp [isPlain, hquote, hslash, hcontrol]
  | escape =>
    rw [next] at h
    repeat' split at h
    all_goals cases h
  | digits more =>
    cases more <;> simp only [next] at h
    all_goals
      split at h
      · simp at h
      · cases h

/-- The state behind some bytes of a string, the first of which is its quote, and the number of bytes at
their end that are plain. -/
def idle? (raw : Bytes) : Option (Quotation × Nat) :=
  JsonExtract.idle? (fun _ => some plain) next? raw

/-- The number of bytes at the end of a part of a string that belong to a run. -/
def trailing (raw : Bytes) : Nat :=
  (idle? raw).elim 0 (·.2)

theorem trailing_of_idle? {raw : Bytes} {q : Quotation} {k : Nat} (h : idle? raw = some (q, k)) :
    trailing raw = k := by
  rw [trailing, h]
  rfl

/-- A run goes on outside of escapes. -/
theorem eq_plain_of_idle? {raw : Bytes} {q : Quotation} {k : Nat} (h : idle? raw = some (q, k))
    (hk : 0 < k) : q = plain := by
  obtain ⟨b, hb⟩ := exists_of_idle? h hk
  rw [next?] at hb
  split at hb
  · next hnext =>
    rw [hb] at hnext
    exact (isPlain_of_next hnext).1
  · cases hb

end Quotation

/-! ### Numbers -/

namespace NumberPart

/-- Only digits leave a number in its state, in the parts that take any number of them. -/
theorem isDigit_of_next? {p : NumberPart} {b : UInt8} (h : p.next? b = some p) :
    p.takesDigits = true ∧ Ascii.isDigit b = true := by
  cases p <;> simp only [next?, exponent?] at h
  all_goals
    repeat' split at h
    all_goals simp_all [takesDigits]

/-- The state behind some bytes of a number, and the number of digits at their end that follow on others of
the same part. -/
def idle? (raw : Bytes) : Option (NumberPart × Nat) :=
  JsonExtract.idle? first? next? raw

/-- The number of digits at the end of a part of a number that belong to a run. -/
def trailing (raw : Bytes) : Nat :=
  (idle? raw).elim 0 (·.2)

theorem trailing_of_idle? {raw : Bytes} {p : NumberPart} {k : Nat} (h : idle? raw = some (p, k)) :
    trailing raw = k := by
  rw [trailing, h]
  rfl

/-- Bytes that lead to some part have a run at their end, which may be empty. -/
theorem exists_idle {raw : Bytes} {p : NumberPart} (h : of? raw = some p) :
    ∃ k, idle? raw = some (p, k) := by
  have hrun : ∀ {xs : Bytes} {first : NumberPart} (j : Nat), first.run xs = some p →
      ∃ k, xs.foldlM (idleStep next?) (first, j) = some (p, k) := by
    intro xs
    induction xs with
    | nil =>
      intro first j hrun
      cases hrun
      exact ⟨j, rfl⟩
    | cons b xs ih =>
      intro first j hrun
      obtain ⟨second, hsecond, hrun⟩ := Option.bind_eq_some_iff.1 hrun
      obtain ⟨k, hk⟩ := ih (if second = first then j + 1 else 0) hrun
      refine ⟨k, ?_⟩
      rw [List.foldlM_cons, idleStep, hsecond]
      exact hk
  cases raw with
  | nil => cases h
  | cons b rest =>
    obtain ⟨first, hfirst, hrest⟩ := Option.bind_eq_some_iff.1 h
    obtain ⟨k, hk⟩ := hrun 0 hrest
    exact ⟨k, by rw [idle?, JsonExtract.idle?, hfirst, Option.bind_some, hk]⟩

end NumberPart

/-! ## What the lexer has noted

The lexer keeps the state of the automaton and the bytes of the lexeme, and the first is the
state that the second lead to. This makes the length of the run that is going on a function of
the lexeme. -/

/-- A string goes on as its automaton does. -/
theorem Lexer.next_of_read {options : Options} {lexer lexer' : Lexer} {unfinished : Unfinished} {b : UInt8}
    {isName isName' : Bool} {q q' : Quotation} {lexeme lexeme' : Lexeme}
    (hu : unfinished = .string isName q lexeme)
    (h : lexer.read options unfinished b = .more (.string isName' q' lexeme') lexer') :
    q.next b = .ok (some q') := by
  subst hu
  rw [read, readString] at h
  split at h
  · next hq => cases h; exact hq
  · cases h
  · cases h

/-- No literal is a string. -/
theorem Lexer.word?_ne_string (b next : UInt8) (more : Bytes) : word? b ≠ some (.string, next, more) := by
  rw [word?]
  repeat' split
  all_goals simp

namespace Midway

/-- What the lexer has noted of a name or a scalar value that is being read. A literal has no
runs, and it is only noted that it is no string. -/
structure Noted (m : Midway) : Prop extends m.Counted where
  /-- of a string, every byte, and how far these bytes have come -/
  string : ∀ isName q lexeme, m.unfinished = .string isName q lexeme →
    (∃ k, Quotation.idle? lexeme.raw = some (q, k)) ∧
      lexeme.start + lexeme.raw.length = m.lexer.here.offset
  /-- of a literal, that it is no string -/
  noString : ∀ kind next more lexeme, m.unfinished = .word kind next more lexeme → kind ≠ .string

variable {options : Options} {m m' : Midway} {b : UInt8}

theorem noted_gap (lexer : Lexer) : (mk lexer .gap).Noted :=
  ⟨counted_gap lexer, nofun, nofun⟩

theorem Noted.next (h : m.Noted) (hn : (m.read options b).next? = some m') : m'.Noted := by
  have hcounted := h.toCounted.next hn
  have hr := reads_read options m b
  have hstarted := m.lexer.startedBy_readGap options b
  obtain ⟨lexer, unfinished⟩ := m
  have hgap : unfinished = .gap → ((Midway.mk lexer unfinished).read options b).StartedBy b := by
    rintro rfl
    exact hstarted
  generalize hread : (Midway.mk lexer unfinished).read options b = v at hr hn hgap
  have hpast : (lexer.past b).here.offset = lexer.here.offset + 1 := Location.offset_past _ _
  cases hr
  all_goals cases hn
  case name.refl =>
    refine ⟨hcounted, ?_, nofun⟩
    rintro _ _ _ ⟨⟩
    exact ⟨⟨0, rfl⟩, hpast.symm⟩
  case scalar.refl hs =>
    cases hs with
    | string =>
      refine ⟨hcounted, ?_, nofun⟩
      rintro _ _ _ ⟨⟩
      exact ⟨⟨0, rfl⟩, hpast.symm⟩
    | number => exact ⟨hcounted, nofun, nofun⟩
    | word =>
      refine ⟨hcounted, nofun, ?_⟩
      rintro _ _ _ _ ⟨⟩ rfl
      exact Lexer.word?_ne_string _ _ _ (hgap rfl)
  case string.refl =>
    refine ⟨hcounted, ?_, nofun⟩
    rintro _ _ _ ⟨⟩
    obtain ⟨⟨k, hk⟩, hlength⟩ := h.string _ _ _ rfl
    have hpush := idle?_concat hk (Quotation.next?_of_next (Lexer.next_of_read rfl hread))
    refine ⟨⟨_, by rw [Lexeme.raw_push]; exact hpush⟩, ?_⟩
    rw [Lexeme.start_push, Lexeme.raw_push, List.length_append, List.length_singleton,
      ← Nat.add_assoc, hlength]
    exact hpast.symm
  case word.refl =>
    refine ⟨hcounted, nofun, ?_⟩
    rintro _ _ _ _ ⟨⟩
    exact h.noString _ _ _ _ rfl
  case stringEnd.refl isName _ _ => cases isName <;> exact noted_gap _
  all_goals exact ⟨hcounted, nofun, nofun⟩

end Midway

theorem Follows.noted {options : Options} {m m' : Midway} {xs : Bytes} {tokens : List Lexed}
    (h : Follows options m xs tokens m') (hm : m.Noted) : m'.Noted := by
  induction h with
  | nil => exact hm
  | taken hn _ _ ih => exact ih (hm.next hn)
  | before _ _ ih => exact ih (Midway.noted_gap _)

/-! ## The run that is going on

A pull takes a whole run at once, and then looks at a single byte, which does not go on with the
run. So the run that is going on is either the one just taken, or there is none. The statements
compare the count with what a run, and what a single byte, does to a lexeme. -/

/-- The number of bytes read last that belong to a run. -/
def Unfinished.trailing : Unfinished → Nat
  | string _ _ lexeme => Quotation.trailing lexeme.raw
  | number _ lexeme => NumberPart.trailing lexeme.raw
  | gap | space .. | word .. => 0

namespace Lexer

variable {options : Options} {lexer lexer' : Lexer} {unfinished unfinished' : Unfinished}

/-- Behind a byte that does not go on with a run there is no run. Either the byte is one of an
escape, or it leads to another part of a number. -/
theorem trailing_of_read {b : UInt8} (hm : (Midway.mk lexer unfinished).Noted)
    (hended : ∀ p, unfinished.run? = some p → p b = false)
    (hread : lexer.read options unfinished b = .more unfinished' lexer') : unfinished'.trailing = 0 := by
  have hr := reads_read options lexer b unfinished
  generalize hv : lexer.read options unfinished b = v at hr
  obtain rfl := hv.symm.trans hread
  cases hr
  case scalar hs =>
    cases hs with
    | string | word => rfl
    | number =>
      rw [Unfinished.trailing, lexeme, Lexeme.raw_first, NumberPart.trailing, NumberPart.idle?, idle?]
      cases NumberPart.first? b <;> rfl
  case string q q' lexeme =>
    obtain ⟨⟨k, hk⟩, -⟩ := hm.string _ _ _ rfl
    have hnext := next_of_read rfl hv
    have hne : q' ≠ q := by
      rintro rfl
      obtain ⟨rfl, hplain⟩ := Quotation.isPlain_of_next hnext
      rw [hended _ rfl] at hplain
      cases hplain
    rw [Unfinished.trailing, Lexeme.raw_push]
    exact Quotation.trailing_of_idle? (idle?_concat_of_ne hk (Quotation.next?_of_next hnext) hne)
  case number p p' lexeme hp =>
    obtain ⟨k, hk⟩ := NumberPart.exists_idle (hm.number _ _ rfl).1
    have hne : p' ≠ p := by
      rintro rfl
      obtain ⟨htakes, hdigit⟩ := NumberPart.isDigit_of_next? hp
      rw [hended _ (if_pos htakes)] at hdigit
      cases hdigit
    rw [Unfinished.trailing, Lexeme.raw_push]
    exact NumberPart.trailing_of_idle? (idle?_concat_of_ne hk hp hne)
  all_goals rfl

/-- The bytes of a run belong to it. -/
theorem trailing_absorb {p : UInt8 → Bool} {run : Bytes} (hm : (Midway.mk lexer unfinished).Noted)
    (hp : unfinished.run? = some p) (hrun : ∀ b ∈ run, p b = true) :
    (unfinished.absorb run).trailing = unfinished.trailing + run.length := by
  match unfinished, hp with
  | .string isName .plain lexeme, hp =>
    cases hp
    obtain ⟨⟨k, hk⟩, -⟩ := hm.string _ _ _ rfl
    have hall := idle?_run hk fun b hb => Quotation.next?_of_next (Quotation.next_plain (hrun b hb))
    rw [Unfinished.absorb, Unfinished.trailing, Unfinished.trailing, Lexeme.raw_append,
      Quotation.trailing_of_idle? hk]
    exact Quotation.trailing_of_idle? hall
  | .number part lexeme, hp =>
    rw [Unfinished.run?] at hp
    split at hp
    · next htakes =>
      cases hp
      obtain ⟨k, hk⟩ := NumberPart.exists_idle (hm.number _ _ rfl).1
      have hall := idle?_run hk fun b hb => NumberPart.next?_of_takesDigits htakes (hrun b hb)
      rw [Unfinished.absorb, Unfinished.trailing, Unfinished.trailing, Lexeme.raw_append,
        NumberPart.trailing_of_idle? hk]
      exact NumberPart.trailing_of_idle? hall
    · cases hp

end Lexer

/-! ## What an unfinished token becomes

When a place inside of a token is looked at from the whole document, the token that is complete
later is the one in progress now, with more bytes. The relation is carried from the end of the
token back to the place, byte by byte. -/

/-- The token that an unfinished one becomes if its text is `raw`, with what was noted of it so far. -/
def Unfinished.becomes (raw : Bytes) : Unfinished → Option (Lexeme × Token)
  | string isName _ lexeme => some (lexeme, if isName then .name raw else .scalar .string raw)
  | number _ lexeme => some (lexeme, .scalar .number raw)
  | word kind _ _ lexeme => some (lexeme, .scalar kind raw)
  | gap | space .. => none

namespace Lexer

variable {options : Options} {lexer : Lexer} {unfinished : Unfinished} {b : UInt8} {v : Verdict}

theorem prefix_raw_push (lexeme : Lexeme) (b : UInt8) : lexeme.raw <+: (lexeme.push b).raw := by
  rw [Lexeme.raw_push]
  exact List.prefix_append ..

/-- What a token becomes behind a byte it becomes in front, unless it starts with the byte. -/
theorem becomes_of_reads {m : Midway} {raw : Bytes} {lexeme : Lexeme} {token : Token}
    (h : Reads options lexer b unfinished v) (hn : v.next? = some m)
    (hb : m.unfinished.becomes raw = some (lexeme, token)) :
    lexeme.start = lexer.here.offset ∨
      ∃ lexeme', unfinished.becomes raw = some (lexeme', token) ∧ lexeme'.start = lexeme.start ∧
        lexeme'.raw <+: lexeme.raw := by
  cases h
  all_goals cases hn
  case name => cases hb; exact .inl rfl
  case scalar hs => cases hs <;> cases hb <;> exact .inl rfl
  case string | number | word => cases hb; exact .inr ⟨_, rfl, rfl, prefix_raw_push ..⟩
  case stringEnd isName _ _ => cases isName <;> cases hb
  all_goals cases hb

/-- A token that is read starts with the byte, or it is what the unfinished one becomes. -/
theorem becomes_of_token {l : Lexed} (h : Reads options lexer b unfinished v) (hl : v.token? = some l) :
    l.start = lexer.here.offset ∨
      ∃ lexeme raw, unfinished.becomes raw = some (lexeme, l.token) ∧ lexeme.start = l.start ∧
        lexeme.raw <+: raw := by
  cases h
  case opening | closing => cases hl; exact .inl rfl
  case stringEnd isName _ _ =>
    cases isName <;> cases hl <;> exact .inr ⟨_, _, rfl, rfl, prefix_raw_push ..⟩
  case numberEnd =>
    cases hl
    exact .inr ⟨_, _, rfl, rfl, List.prefix_refl _⟩
  case wordEnd =>
    cases hl
    exact .inr ⟨_, _, rfl, rfl, prefix_raw_push ..⟩
  all_goals cases hl

end Lexer

/-- A token that has started is what the unfinished one becomes. It has the place and the kind of
the unfinished one, and its text starts with what was read so far. -/
theorem Follows.becomes_of_start_lt {options : Options} {m m' : Midway} {xs : Bytes}
    {tokens more : List Lexed} (h : Follows options m xs tokens m') (hlast : m'.Last more) {l : Lexed}
    (hl : l ∈ tokens ++ more) (hstart : l.start < m.lexer.here.offset) :
    ∃ lexeme raw, m.unfinished.becomes raw = some (lexeme, l.token) ∧ lexeme.start = l.start ∧
      lexeme.raw <+: raw := by
  induction h with
  | nil =>
    obtain rfl | ⟨part, lexeme, hu, -, rfl⟩ := hlast
    · cases hl
    · obtain rfl := List.mem_singleton.1 hl
      exact ⟨lexeme, lexeme.raw, by rw [hu]; rfl, rfl, List.prefix_refl _⟩
  | @taken m m₁ m₂ b bytes tokens hn hb h ih =>
    have hr := Midway.reads_read options m b
    rw [List.append_assoc, List.mem_append, Option.mem_toList] at hl
    obtain hl | hl := hl
    · obtain hnew | hbegun := Lexer.becomes_of_token hr hl
      · exact absurd hnew (Nat.ne_of_lt hstart)
      · exact hbegun
    · have hhere := Midway.offset_next hn hb
      obtain ⟨lexeme, raw, hbecomes, hsame, hpre⟩ := ih hlast hl (by omega)
      obtain hnew | ⟨lexeme', hbecomes', hsame', hpre'⟩ := Lexer.becomes_of_reads hr hn hbecomes
      · omega
      · exact ⟨lexeme', raw, hbecomes', hsame'.trans hsame, hpre'.trans hpre⟩
  | before hv h ih =>
    obtain ⟨rfl, part, lexeme, hu, -, rfl⟩ := Midway.of_tokenBefore hv
    obtain rfl | hl := List.mem_cons.1 hl
    · exact ⟨lexeme, lexeme.raw, by rw [hu]; rfl, rfl, List.prefix_refl _⟩
    · obtain ⟨_, _, hgap, -⟩ := ih hlast hl hstart
      cases hgap

end JsonExtract
