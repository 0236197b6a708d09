import JsonExtract.Proofs.Delivery.Independence
import JsonExtract.Proofs.Scan.Cut
import JsonExtract.Proofs.Scan.Pulling

/-!
# The meter of a document

A metered document counts the bytes that were stepped over. The lexer counts them, too, and both counts
stay the same. So behind a token the meter shows where the token ends: nothing behind it was stepped
over.

* `Metered.Holds`, `Metered.faithful_metered` — a metered document that is not refused is as faithful as
  one in memory;
* `Lexer.scan_of_holds` — the same tokens are read from every faithful cursor;
* `Lexer.Abreast`, `Lexer.abreast_pull` — behind a token, the meter shows where it ends.
-/

namespace JsonExtract

namespace Metered

/-- A metered document that shows all of its bytes has them in front of it. -/
def Holds (s : Metered) (d : Bytes) : Prop :=
  s.rest = d ∧ s.refusal = none

theorem takeFrom_none (p : UInt8 → Bool) (position : Nat) (xs : Bytes) :
    takeFrom p none position xs =
      ⟨xs.takeWhile p, none, ⟨xs.dropWhile p, position + (xs.takeWhile p).length, none⟩⟩ := by
  induction xs generalizing position with
  | nil => rfl
  | cons b rest ih =>
    rw [takeFrom, List.takeWhile_cons, List.dropWhile_cons]
    cases hb : p b with
    | false => rfl
    | true =>
      have hrest := ih (position + 1)
      simp only [refused?, hrest, if_true, List.length_cons, Nat.add_assoc, Nat.add_comm 1]

theorem faithful_metered : Faithful Holds where
  peek := by
    rintro s d ⟨rfl, hrefusal⟩
    refine ⟨s, ?_, ⟨rfl, hrefusal⟩, fun b rest h => ⟨?_, hrefusal⟩⟩
    · change (s.peek, s) = _
      rw [peek, hrefusal]
      rfl
    · change s.rest.tail = rest
      rw [h, List.tail_cons]
  takeWhile := by
    rintro s d p ⟨rfl, hrefusal⟩
    refine ⟨⟨s.rest.dropWhile p, s.position + (s.rest.takeWhile p).length, none⟩, ?_, rfl, rfl⟩
    change takeFrom p s.refusal s.position s.rest = _
    rw [hrefusal, takeFrom_none]

end Metered

namespace Lexer

/-- The tokens of a document are read from every faithful cursor. -/
theorem scan_of_holds {σ : Type} [Cursor σ] {Holds : σ → Bytes → Prop} (hf : Faithful Holds)
    (options : Options) (lexer : Lexer) {source : σ} {d : Bytes} (h : Holds source d) :
    lexer.scan options source = lexer.scan options (Buffer.mk d) := by
  induction hn : d.length using Nat.strongRecOn generalizing lexer source d with
  | _ n ih =>
    obtain ⟨behind, hpull, hbehind⟩ := @pullFrom_of_holds _ _ _ hf options lexer .gap source ⟨d⟩ h
    rw [scan_eq_resume options lexer source, scan_eq_resume options lexer (Buffer.mk d), resume, resume,
      show lexer.pull options source = _ from hpull]
    rcases ha : (lexer.pull options (Buffer.mk d)).answer with failure | _ | found
    · rw [show (pullFrom options lexer .gap (Buffer.mk d)).answer = _ from ha]
    · rw [show (pullFrom options lexer .gap (Buffer.mk d)).answer = _ from ha]
    · rw [show (pullFrom options lexer .gap (Buffer.mk d)).answer = _ from ha]
      dsimp only
      rw [ih _ (hn ▸ left_pull_lt ha) _ hbehind rfl]
      rfl

/-! ## Counting the same bytes

The lexer counts a byte when it takes it, and the meter when it is stepped over. A pull steps
over each byte that it has taken and over no other, in particular not over the one that shows a
number to have ended. -/

/-- A lexer and the meter of a document that is not refused have counted the same bytes. A meter
that is refused may have gone further than the lexer, as bytes of a run are stepped over first. -/
def Abreast (lexer : Lexer) (s : Metered) : Prop :=
  lexer.here.offset = s.position ∧ s.refusal = none

variable {options : Options} {lexer lexer' : Lexer} {unfinished unfinished' : Unfinished}
  {s behind : Metered}

theorem abreast_takeRun (h : lexer.Abreast s)
    (hr : lexer.takeRun unfinished s = (.ok (lexer', unfinished'), behind)) :
    lexer'.Abreast behind := by
  obtain ⟨hplace, hrefusal⟩ := h
  rw [takeRun] at hr
  cases hrun : unfinished.run? with
  | none =>
    rw [hrun] at hr
    cases hr
    exact ⟨hplace, hrefusal⟩
  | some p =>
    have htake : Cursor.takeWhile p s =
        ⟨s.rest.takeWhile p, none,
          ⟨s.rest.dropWhile p, s.position + (s.rest.takeWhile p).length, none⟩⟩ := by
      rw [← Metered.takeFrom_none, ← hrefusal]
      rfl
    simp only [hrun, htake] at hr
    cases hr
    exact ⟨congrArg (· + _) hplace, rfl⟩

/-- Behind a byte both have counted it, unless it is left for the next token. -/
theorem abreast_read {b : UInt8} {m : Midway} (h : lexer.Abreast s)
    (hn : (lexer.read options unfinished b).next? = some m)
    (hb : (lexer.read options unfinished b).isBefore = false) :
    m.lexer.Abreast (Cursor.advance s) := by
  refine ⟨?_, h.2⟩
  have hhere : m.lexer.here.offset = lexer.here.offset + 1 :=
    @Midway.offset_next options ⟨lexer, unfinished⟩ m b hn hb
  exact hhere.trans (congrArg (· + 1) h.1)

/-- A number that ends in front of a byte ends where the lexer stands. -/
theorem stop_of_number {found : Lexed}
    (h : lexer' = lexer.afterValue ∧ ∃ lexeme, found = lexer.numberToken lexeme) :
    lexer'.here = lexer.here ∧ found.stop = lexer.here.offset := by
  obtain ⟨rfl, lexeme, rfl⟩ := h
  exact ⟨rfl, rfl⟩

theorem Abreast.congr (h : lexer.Abreast s) (hhere : lexer'.here = lexer.here) : lexer'.Abreast s :=
  ⟨hhere ▸ h.1, h.2⟩

/-- Behind a token, lexer and meter have counted the bytes up to its end. The stop of the token is
what both have counted. -/
theorem abreast_pullFrom {found : Lexed} (h : lexer.Abreast s)
    (hp : pullFrom options lexer unfinished s = ⟨.ok (some found), lexer', behind⟩) :
    lexer'.Abreast behind ∧ found.stop = behind.position := by
  fun_induction pullFrom options lexer unfinished s with
  | case1 | case3 | case4 | case5 | case10 | case11 => cases hp
  -- a number ends in front of the byte that was shown, or of the end
  | case2 lexer unfinished s lexer₁ unfinished₁ between hr found lexer₂ hcomplete =>
    cases hp
    have hrun := abreast_takeRun h hr
    obtain ⟨hhere, hstop⟩ := stop_of_number (of_complete? hcomplete)
    exact ⟨hrun.congr hhere, hstop.trans hrun.1⟩
  | case6 lexer unfinished s lexer₁ unfinished₁ between hr hc shown hpeek found lexer₂ hfinish =>
    cases hp
    obtain ⟨-, rfl⟩ := Prod.mk.inj hpeek
    have hrun := abreast_takeRun h hr
    obtain ⟨hhere, hstop⟩ := stop_of_number (of_finish_token hfinish)
    exact ⟨hrun.congr hhere, hstop.trans hrun.1⟩
  | case9 lexer unfinished s lexer₁ unfinished₁ between hr hc b shown hpeek found lexer₂ hread =>
    cases hp
    obtain ⟨-, rfl⟩ := Prod.mk.inj hpeek
    have hrun := abreast_takeRun h hr
    have hreads := reads_read options lexer₁ b unfinished₁
    rw [hread] at hreads
    cases hreads
    exact ⟨hrun.congr rfl, hrun.1⟩
  -- the byte that was shown is stepped over
  | case7 lexer unfinished s lexer₁ unfinished₁ between hr hc b shown hpeek unfinished₂ lexer₂ hread
      ih =>
    obtain ⟨-, rfl⟩ := Prod.mk.inj hpeek
    exact ih (abreast_read (b := b) (m := ⟨lexer₂, unfinished₂⟩) (abreast_takeRun h hr)
      (by rw [hread]; rfl) (by rw [hread]; rfl)) hp
  | case8 lexer unfinished s lexer₁ unfinished₁ between hr hc b shown hpeek found lexer₂ hread =>
    cases hp
    obtain ⟨-, rfl⟩ := Prod.mk.inj hpeek
    have hrun := abreast_takeRun h hr
    have hbehind : lexer'.Abreast (Cursor.advance between) :=
      abreast_read (b := b) (m := ⟨lexer', .gap⟩) hrun (by rw [hread]; rfl) (by rw [hread]; rfl)
    refine ⟨hbehind, ?_⟩
    rw [stop_of_reads (reads_read options lexer₁ b unfinished₁) (by rw [hread]; rfl)
      (by rw [hread]; rfl)]
    exact congrArg (· + 1) hrun.1

theorem abreast_pull {found : Lexed} (h : lexer.Abreast s)
    (ha : (lexer.pull options s).answer = .ok (some found)) :
    (lexer.pull options s).lexer.Abreast (lexer.pull options s).source ∧
      found.stop = (lexer.pull options s).source.position := by
  have hpulled : pullFrom options lexer .gap s =
      ⟨.ok (some found), (lexer.pull options s).lexer, (lexer.pull options s).source⟩ := by
    rw [← ha]
    rfl
  exact abreast_pullFrom h hpulled

end Lexer

end JsonExtract
