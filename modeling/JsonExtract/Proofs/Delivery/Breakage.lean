import JsonExtract.Proofs.Delivery.Transcript
import JsonExtract.Proofs.Scan.Feed
import JsonExtract.Proofs.Scan.Partway
import JsonExtract.Proofs.Scan.Pulling

/-!
# Cursors that break off

A cursor breaks off if it shows some bytes one after the other and then fails. The tokens that are
complete in front of the failure are read, and then the failure is reported at its place. A number in
front of the failure might go on behind it, so it is no token yet. There is one exception. Behind a run
of digits the byte that comes next is looked at before a number ends, but not behind those of an
exponent: the number is given out, although it may be cut short.

* `Breaking` — cursors that do what a document in memory does, up to a failure;
* `Midway.early`, `Midway.broken` — what is read at the failure;
* `Lexer.scan_of_breaking` — what is read of a cursor that breaks off;
* `Script.BreaksOff`, `Reader.breaking_reader` — readers that break off.
-/

namespace JsonExtract

/-- Whether cursors that have the bytes `d` and then a failure in front of them, which `Holds s d`
says, show and step over the bytes as a document in memory does, and report the failure behind
them. The cursor is left abstract, as nothing is used of a reader but these three facts. -/
structure Breaking {σ : Type} [Cursor σ] (reason : String) (Holds : σ → Bytes → Prop) : Prop where
  /-- the first byte is shown, and can be stepped over then -/
  peek : ∀ {s b rest}, Holds s (b :: rest) →
    ∃ t, Cursor.peek s = (.ok (some b), t) ∧ Holds (Cursor.advance t) rest ∧ Holds t (b :: rest)
  /-- runs are taken up to the failure -/
  takeWhile : ∀ {s d} p, Holds s d → d ≠ [] →
    ∃ t, Cursor.takeWhile p s = ⟨d.takeWhile p, none, t⟩ ∧ Holds t (d.dropWhile p)
  /-- behind the bytes, no byte is shown -/
  peek_nil : ∀ {s}, Holds s [] → ∃ t, Cursor.peek s = (.error reason, t)
  /-- and no run is taken -/
  takeWhile_nil : ∀ {s} p, Holds s [] → ∃ t, Cursor.takeWhile p s = ⟨[], some reason, t⟩

namespace Midway

/-- The number that is given out in front of a failure: one that has come to a second digit of its
exponent. The first digit of an exponent is looked at on its own, and so is what comes behind it;
only digits behind the first make up a run. -/
def early (m : Midway) : List Lexed :=
  match m.unfinished with
  | .number .exponent lexeme =>
    if NumberPart.of? lexeme.raw.dropLast = some .exponent then [m.lexer.numberToken lexeme] else []
  | _ => []

/-- What is read at a failure. It is the failure of the reader, at the place that the lexer has
come to. -/
def broken (reason : String) (m : Midway) : Scanned :=
  ⟨m.early, some (.unreadable m.lexer.here.offset reason)⟩

theorem early_of_exponent {m : Midway} {lexeme : Lexeme} (hu : m.unfinished = .number .exponent lexeme)
    (h : NumberPart.of? lexeme.raw.dropLast = some .exponent) :
    m.early = [m.lexer.numberToken lexeme] := by
  rw [early, hu]
  exact if_pos h

/-- No other number is given out. -/
theorem early_cases (m : Midway) :
    m.early = [] ∨ ∃ lexeme, m.unfinished = .number .exponent lexeme ∧
      NumberPart.of? lexeme.raw.dropLast = some .exponent := by
  rw [early]
  split
  · next lexeme hu =>
    split
    · next h => exact .inr ⟨lexeme, hu, h⟩
    · exact .inl rfl
  · exact .inl rfl

theorem early_of_fresh {m : Midway} (h : m.Fresh) : m.early = [] :=
  m.early_cases.resolve_right fun ⟨lexeme, hu, hpart⟩ => h lexeme hu hpart

theorem early_of_complete?_eq_none {lexer : Lexer} {unfinished : Unfinished}
    (h : lexer.complete? unfinished = none) : (mk lexer unfinished).early = [] := by
  refine (early_cases _).resolve_right ?_
  rintro ⟨lexeme, rfl, -⟩
  cases h

end Midway

namespace Lexer

variable {σ : Type} [Cursor σ] {reason : String} {Holds : σ → Bytes → Prop} {options : Options}
  {lexer lexer' : Lexer} {unfinished unfinished' : Unfinished} {source behind : σ} {xs : Bytes}
  {tokens : List Lexed} {m : Midway}

/-! ## Runs in front of the failure

A reader that meets a failure in the middle of a run gives out the bytes of the run that came,
and keeps the failure for the next time. So the failure is only met by a look at the next byte,
or by a run that has no byte at all in front of it. -/

/-- A run is refused only if the failure stands in front of it. -/
theorem of_takeRun_error (hb : Breaking reason Holds) (h : Holds source xs) {e : Failure}
    (hr : lexer.takeRun unfinished source = (.error e, behind)) :
    xs = [] ∧ e = .unreadable lexer.here.offset reason := by
  rw [takeRun] at hr
  split at hr
  · cases hr
  · next p _ =>
    cases xs with
    | nil =>
      obtain ⟨t, htake⟩ := hb.takeWhile_nil p h
      simp only [htake] at hr
      cases hr
      exact ⟨rfl, rfl⟩
    | cons b xs =>
      obtain ⟨t, htake, -⟩ := hb.takeWhile p h (List.cons_ne_nil b xs)
      simp only [htake] at hr
      cases hr

/-- A number that goes on by some digits of its exponent is given out in front of a failure. -/
theorem early_absorb (hm : (Midway.mk lexer unfinished).Counted) {run : Bytes} (hne : run ≠ [])
    (hrun : ∀ b ∈ run, Ascii.isDigit b = true) {token : Lexed} {lexer'' : Lexer}
    (hc : lexer'.complete? (unfinished.absorb run) = some (token, lexer'')) :
    (Midway.mk lexer' (unfinished.absorb run)).early = [token] := by
  match unfinished, hc with
  | .number .exponent lexeme, hc =>
    cases hc
    have hdigits : ∀ b ∈ run.dropLast, Ascii.isDigit b = true :=
      fun b hb => hrun b (List.dropLast_subset run hb)
    have hpart : NumberPart.of? (lexeme.append run).raw.dropLast = some .exponent := by
      rw [Lexeme.raw_append, List.dropLast_append_of_ne_nil hne,
        NumberPart.of?_append (hm.number _ _ rfl).1, NumberPart.run_digits rfl hdigits]
    exact Midway.early_of_exponent rfl hpart

/-- What a run leaves, on a way to `m` over `tokens`. -/
structure Leaves (options : Options) (tokens : List Lexed) (m : Midway) (rest : Bytes)
    (left : Midway) : Prop where
  /-- the rest leads the same way -/
  follows : Follows options left rest tokens m
  /-- what is noted of a number is so with the run -/
  counted : left.Counted
  /-- no byte of the run is left -/
  ended : ∀ p, left.unfinished.run? = some p → ∀ b ∈ rest.head?, p b = false
  /-- where nothing is left, a number that is complete with the run is given out -/
  early : rest = [] → ∀ token lexer', left.lexer.complete? left.unfinished = some (token, lexer') →
    left.early = [token]

/-- A run is taken in front of the failure. -/
theorem leaves_takeRun (hb : Breaking reason Holds) (h : Holds source xs)
    (hf : Follows options ⟨lexer, unfinished⟩ xs tokens m) (hm : (Midway.mk lexer unfinished).Counted)
    (hr : lexer.takeRun unfinished source = (.ok (lexer', unfinished'), behind)) :
    ∃ rest, Holds behind rest ∧ rest.length ≤ xs.length ∧
      Leaves options tokens m rest ⟨lexer', unfinished'⟩ := by
  rw [takeRun] at hr
  split at hr
  · next hrun =>
    cases hr
    refine ⟨xs, h, Nat.le_refl _, ⟨hf, hm, fun p hp => ?_, fun _ token lexer' hc => ?_⟩⟩
    · cases hrun.symm.trans hp
    · cases hrun.symm.trans (run?_of_complete? hc)
  · next p hp =>
    by_cases hne : xs = []
    · subst hne
      obtain ⟨t, htake⟩ := hb.takeWhile_nil p h
      simp only [htake] at hr
      cases hr
    · obtain ⟨t, htake, ht⟩ := hb.takeWhile p h hne
      simp only [htake] at hr
      cases hr
      have hxs : ∀ b ∈ xs.takeWhile p, p b = true := List.all_eq_true.1 List.all_takeWhile
      have hrun : Follows options ⟨lexer, unfinished⟩ (xs.takeWhile p) [] _ := .run hp hxs
      obtain ⟨_, rfl, hrest⟩ := hrun.behind (by rwa [List.takeWhile_append_dropWhile])
      refine ⟨xs.dropWhile p, ht, (List.dropWhile_sublist p).length_le, ⟨hrest, hrun.counted hm, ?_, ?_⟩⟩
      · intro q hq b hb
        rw [run?_absorb, hp] at hq
        cases hq
        exact eq_false_of_mem_head?_dropWhile hb
      · intro hnil token lexer'' hc
        have hall : xs.takeWhile p = xs := by
          rw [← List.append_nil (xs.takeWhile p), ← hnil, List.takeWhile_append_dropWhile]
        obtain rfl : Ascii.isDigit = p := by
          have hdigit := run?_of_complete? hc
          rw [run?_absorb, hp] at hdigit
          exact (Option.some.inj hdigit).symm
        exact early_absorb hm (by rwa [hall]) hxs hc

/-! ## Tokens in front of the failure

Each pull is compared with the way that the bytes lead, up to the last token on it. In front of
the failure no byte is there to show that a number has ended, so the number is dropped with the
failure, unless the lexer does not ask for such a byte. -/

/-- The next byte is shown, or the failure. -/
theorem of_peek (hb : Breaking reason Holds) (h : Holds source xs)
    {answer : Except String (Option UInt8)} (hp : Cursor.peek source = (answer, behind)) :
    xs = [] ∧ answer = .error reason ∨
      ∃ b rest, xs = b :: rest ∧ answer = .ok (some b) ∧ Holds (Cursor.advance behind) rest ∧
        Holds behind (b :: rest) := by
  cases xs with
  | nil =>
    obtain ⟨t, hpeek⟩ := hb.peek_nil h
    cases hp.symm.trans hpeek
    exact .inl ⟨rfl, rfl⟩
  | cons b rest =>
    obtain ⟨t, hpeek, hadvance, ht⟩ := hb.peek h
    cases hp.symm.trans hpeek
    exact .inr ⟨b, rest, rfl, rfl, hadvance, ht⟩

/-- The byte that is shown behind a run is the next one, and the failure does not stand in front of it. -/
theorem leaves_peek (hb : Breaking reason Holds) (h : Holds source xs)
    (hf : Follows options ⟨lexer, unfinished⟩ xs tokens m) (hm : (Midway.mk lexer unfinished).Counted)
    (hr : lexer.takeRun unfinished source = (.ok (lexer', unfinished'), behind)) {b : UInt8} {shown : σ}
    (hp : Cursor.peek behind = (.ok (some b), shown)) :
    ∃ rest, Leaves options tokens m (b :: rest) ⟨lexer', unfinished'⟩ ∧ rest.length < xs.length ∧
      Holds (Cursor.advance shown) rest ∧ Holds shown (b :: rest) := by
  obtain ⟨rest, hrest, hlen, hleft⟩ := leaves_takeRun hb h hf hm hr
  obtain ⟨-, hanswer⟩ | ⟨_, rest, rfl, hanswer, hadvance, hshown⟩ := of_peek hb hrest hp
  · cases hanswer
  · cases hanswer
    exact ⟨rest, hleft, hlen, hadvance, hshown⟩

/-- Behind the run of an exponent the lexer is not in an exponent that has just begun. -/
theorem fresh_of_read {b : UInt8} (hm : (Midway.mk lexer unfinished).Counted)
    (hc : lexer.complete? unfinished = none)
    (hread : lexer.read options unfinished b = .more unfinished' lexer') :
    (Midway.mk lexer' unfinished').Fresh := by
  rintro lexeme hu
  have hr := reads_read options lexer b unfinished
  rw [hread] at hr
  cases hr
  case scalar hs =>
    have hstarted := lexer.startedBy_readGap options b
    obtain rfl : unfinished' = _ := hu
    rw [show lexer.readGap options b = _ from hread] at hstarted
    exact absurd hstarted (NumberPart.first?_ne_exponent b)
  case number part part' lexeme' hp =>
    cases hu
    rw [Lexeme.raw_push, List.dropLast_concat, (hm.number _ _ rfl).1]
    intro he
    cases he
    cases hc
  all_goals cases hu

/-- Going on behind a pull from a cursor that breaks off reads the tokens on the way to the
failure, if this is so in front of fewer than `n` bytes. The induction is on the number of bytes
in front of the failure. -/
theorem resume_pullFrom_of_breaking {n : Nat} (hb : Breaking reason Holds)
    (ih : ∀ (lexer : Lexer) (source : σ) (xs : Bytes) (tokens : List Lexed) (m : Midway),
      Holds source xs → xs.length < n → Follows options ⟨lexer, .gap⟩ xs tokens m →
        lexer.scan options source = (m.broken reason).prepend tokens)
    (lexer : Lexer) (unfinished : Unfinished) (source : σ) (h : Holds source xs)
    (hf : Follows options ⟨lexer, unfinished⟩ xs tokens m) (hm : (Midway.mk lexer unfinished).Counted)
    (hfresh : (Midway.mk lexer unfinished).Fresh) (hle : xs.length ≤ n)
    (hlt : unfinished ≠ .gap → xs.length < n) :
    resume options (pullFrom options lexer unfinished source) =
      (m.broken reason).prepend tokens := by
  -- as from a document in memory, but at the end of the bytes a run is refused, or the failure is shown
  fun_induction pullFrom options lexer unfinished source generalizing xs tokens with
  | case1 lexer unfinished source failure behind hr =>
    obtain ⟨rfl, rfl⟩ := of_takeRun_error hb h hr
    cases hf
    rw [Midway.broken, Midway.early_of_fresh hfresh]
    rfl
  | case2 lexer unfinished source lexer₁ unfinished₁ behind hr token lexer₂ hc =>
    obtain ⟨rest, hrest, hlen, hleft⟩ := leaves_takeRun hb h hf hm hr
    have hfewer : rest.length < n := by
      have hne : unfinished₁ ≠ .gap := by
        rintro rfl
        cases hc
      exact Nat.lt_of_le_of_lt hlen (hlt (ne_gap_of_takeRun hr hne))
    cases rest with
    | nil =>
      have hfollows := hleft.follows
      cases hfollows
      rw [resume, ih _ _ _ _ _ hrest hfewer .nil, Midway.broken, Midway.broken,
        hleft.early rfl token lexer₂ hc, (of_complete? hc).1]
      rfl
    | cons b rest =>
      have hread := read_of_complete? options lexer₁ hc (hleft.ended _ (run?_of_complete? hc) b rfl)
      obtain ⟨later, rfl, hlater⟩ := hleft.follows.of_tokenBefore hread
      rw [resume, ih _ _ _ _ _ hrest hfewer hlater]
      rfl
  | case3 lexer unfinished source lexer₁ unfinished₁ behind hr hc reason' shown hp =>
    obtain ⟨rest, hrest, -, hleft⟩ := leaves_takeRun hb h hf hm hr
    obtain ⟨rfl, hanswer⟩ | ⟨_, _, _, hanswer, -⟩ := of_peek hb hrest hp
    · cases hanswer
      have hfollows := hleft.follows
      cases hfollows
      rw [Midway.broken, Midway.early_of_complete?_eq_none hc]
      rfl
    · cases hanswer
  | case4 lexer unfinished source lexer₁ unfinished₁ behind hr _ shown hp
  | case5 lexer unfinished source lexer₁ unfinished₁ behind hr _ shown hp
  | case6 lexer unfinished source lexer₁ unfinished₁ behind hr _ shown hp =>
    obtain ⟨rest, hrest, -⟩ := leaves_takeRun hb h hf hm hr
    obtain ⟨-, hanswer⟩ | ⟨_, _, -, hanswer, -⟩ := of_peek hb hrest hp
    · cases hanswer
    · cases hanswer
  | case7 lexer unfinished source lexer₁ unfinished₁ behind hr hc b shown hp unfinished₂ lexer₂ hread ih' =>
    obtain ⟨rest, hleft, hlen, hadvance, -⟩ := leaves_peek hb h hf hm hr hp
    have hfewer : rest.length < n := Nat.lt_of_lt_of_le hlen hle
    have hcounted : (Midway.mk lexer₂ unfinished₂).Counted :=
      hleft.counted.next (by rw [Midway.read, hread]; rfl)
    exact ih' hadvance (hleft.follows.of_more hread) hcounted (fresh_of_read hleft.counted hc hread)
      (Nat.le_of_lt hfewer) fun _ => hfewer
  | case8 lexer unfinished source lexer₁ unfinished₁ behind hr hc b shown hp token lexer₂ hread =>
    obtain ⟨rest, hleft, hlen, hadvance, -⟩ := leaves_peek hb h hf hm hr hp
    obtain ⟨later, rfl, hlater⟩ := hleft.follows.of_token hread
    rw [resume, ih _ _ _ _ _ hadvance (Nat.lt_of_lt_of_le hlen hle) hlater]
    rfl
  | case9 lexer unfinished source lexer₁ unfinished₁ behind hr hc b shown hp token lexer₂ hread =>
    obtain ⟨rest, hleft, hlen, -, hshown⟩ := leaves_peek hb h hf hm hr hp
    obtain ⟨later, rfl, hlater⟩ := hleft.follows.of_tokenBefore hread
    have hfewer := hlt (ne_gap_of_takeRun hr (ne_gap_of_tokenBefore hread))
    rw [resume, ih _ _ _ _ _ hshown (Nat.lt_of_le_of_lt hlen hfewer) hlater]
    rfl
  | case10 lexer unfinished source lexer₁ unfinished₁ behind hr hc b shown hp failure hread =>
    obtain ⟨rest, hleft, -⟩ := leaves_peek hb h hf hm hr hp
    exact absurd hread hleft.follows.not_error.1
  | case11 lexer unfinished source lexer₁ unfinished₁ behind hr hc b shown hp failure hread =>
    obtain ⟨rest, hleft, -⟩ := leaves_peek hb h hf hm hr hp
    exact absurd hread hleft.follows.not_error.2

/-- Of a cursor that breaks off behind some bytes, the tokens on the way over these bytes are read. -/
theorem scan_of_breaking (hb : Breaking reason Holds) (lexer : Lexer) (h : Holds source xs)
    (hf : Follows options ⟨lexer, .gap⟩ xs tokens m) :
    lexer.scan options source = (m.broken reason).prepend tokens := by
  induction hn : xs.length using Nat.strongRecOn generalizing lexer source xs tokens m with
  | _ n ih =>
    rw [scan_eq_resume, pull]
    exact resume_pullFrom_of_breaking hb
      (fun lexer source xs tokens m h hlt hf => ih _ hlt lexer h hf rfl) lexer .gap source h hf
      (Midway.counted_gap lexer) (Midway.fresh_gap lexer) (Nat.le_of_eq hn) fun hne => absurd rfl hne

end Lexer

/-! ## Readers

What a script of answers gives out before its first failure that is no interruption is all that
matters. How the bytes are cut into pieces, and how often a read is interrupted, leaves no trace
in the transcript, and so none in what a cursor over it does. -/

/-- Whether the answers of a reader are the bytes `d`, in any pieces and with any interruptions,
and then `fault`. What would come behind does not matter. Interruptions are failures, too, but a
reader that meets one simply reads again. -/
inductive Script.BreaksOff (fault : Fault) : Script → Bytes → Prop
  | fail (rest : Script) (h : fault.kind ≠ .interrupted) : BreaksOff fault (.fail fault :: rest) []
  | data {piece : Bytes} {rest : Script} {d : Bytes} (h : piece ≠ []) :
    BreaksOff fault rest d → BreaksOff fault (.data piece :: rest) (piece ++ d)
  | interrupted {other : Fault} {rest : Script} {d : Bytes} (h : other.kind = .interrupted) :
    BreaksOff fault rest d → BreaksOff fault (.fail other :: rest) d

/-- Of such a reader, the transcript starts with the bytes and the failure. -/
theorem Script.BreaksOff.cells_eq {fault : Fault} {script : Script} {d : Bytes}
    (h : BreaksOff fault script d) :
    ∃ more, script.cells = d.map .byte ++ .failure fault.message :: more := by
  induction h with
  | fail rest h => exact ⟨rest.cells, by rw [cells, if_neg h]; rfl⟩
  | @data piece rest d h _ ih =>
    obtain ⟨more, hmore⟩ := ih
    obtain ⟨b, piece, rfl⟩ := List.exists_cons_of_ne_nil h
    exact ⟨more, by rw [cells, hmore, List.map_append, List.append_assoc]⟩
  | interrupted h _ ih =>
    obtain ⟨more, hmore⟩ := ih
    exact ⟨more, by rw [cells, if_pos h, hmore]⟩

/-- A run in front of a failure ends there at the latest. -/
theorem Transcript.run_of_failure (p : UInt8 → Bool) (d : Bytes) (reason : String) (more : List Cell) :
    run p (d.map .byte ++ .failure reason :: more) =
      ⟨d.takeWhile p, none, ⟨(d.dropWhile p).map .byte ++ .failure reason :: more⟩⟩ := by
  induction d with
  | nil => rfl
  | cons b d ih =>
    rw [List.map_cons, List.cons_append, run, List.takeWhile_cons, List.dropWhile_cons, ih]
    split <;> rfl

namespace Reader

/-- Whether the bytes `d` and then a failure are what a reader gives out first. -/
def BreaksOff (reason : String) (s : Reader) (d : Bytes) : Prop :=
  ∃ more, s.cells = d.map .byte ++ .failure reason :: more

theorem breaking_reader (reason : String) : Breaking reason (BreaksOff reason) where
  peek := by
    rintro s b rest ⟨more, h⟩
    have hpeek := s.peek_transcript
    rw [transcript, Transcript.peek, h] at hpeek
    obtain ⟨hshown, hleft⟩ := Prod.mk.inj hpeek
    have hcells : s.peek.2.cells = (b :: rest).map .byte ++ .failure reason :: more :=
      (congrArg Transcript.cells hleft).symm
    have hne : s.peek.2.buffer ≠ [] := by
      intro hnil
      have hhead := buffer_of_peek hshown.symm
      rw [hnil] at hhead
      cases hhead
    refine ⟨s.peek.2, Prod.ext hshown.symm rfl, ⟨more, ?_⟩, ⟨more, hcells⟩⟩
    have hadvance := advance_transcript hne
    rw [transcript, Transcript.advance, hcells] at hadvance
    exact (congrArg Transcript.cells hadvance).symm
  takeWhile := by
    rintro s d p ⟨more, h⟩ hne
    obtain ⟨b, d, rfl⟩ := List.exists_cons_of_ne_nil hne
    have htake := s.takeOn_transcript p false
    rw [if_neg Bool.false_ne_true, transcript, h] at htake
    have hrun := (Transcript.run_of_failure p (b :: d) reason more).symm.trans htake
    obtain ⟨hbytes, hfailure, hleft⟩ := Taken.mk.inj hrun
    refine ⟨(takeOn p false s).source, ?_, more, (congrArg Transcript.cells hleft).symm⟩
    rw [hbytes, hfailure]
    rfl
  peek_nil := by
    rintro s ⟨more, h⟩
    have hpeek := s.peek_transcript
    rw [transcript, Transcript.peek, h] at hpeek
    exact ⟨s.peek.2, Prod.ext (Prod.mk.inj hpeek).1.symm rfl⟩
  takeWhile_nil := by
    rintro s p ⟨more, h⟩
    have htake := s.takeOn_transcript p false
    rw [if_neg Bool.false_ne_true, transcript, Transcript.takeWhile, h] at htake
    obtain ⟨hbytes, hfailure, -⟩ := Taken.mk.inj htake
    refine ⟨(takeOn p false s).source, ?_⟩
    rw [hbytes, hfailure]
    rfl

end Reader

end JsonExtract
