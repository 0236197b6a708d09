import JsonExtract.Proofs.Scan.Completion
import JsonExtract.Proofs.Walk.Release

/-!
# Failures at the first hopeless byte

When a session fails at a byte, what stands in front of the byte starts a document that can be read to
its end, and nothing that goes on with the byte does. When the input ends too early, more input would
have helped. Space beyond ASCII is the exception, and is left out here: its bytes may be hopeless before
the last of them is there.

* `Session.Accepts` — documents that are read to their end;
* `Failure.FoundAt` — failures that are found at a byte;
* `Session.hopeless_of_failure` — such a byte is the first that is hopeless.
-/

namespace JsonExtract

/-! ## Failures

A failure carries the place where it was found. Except for wide space characters, this is the
place of the byte at which reading stopped, so it is also the first byte that no longer belongs
to a document. -/

/-- Whether the document was found at fault at its byte `n`, and not at its end. Failures to read
the document are not among these, as they say nothing about it. -/
inductive Failure.FoundAt (n : Nat) : Failure → Prop
  | malformed {e : SyntaxError} (hf : e.fault ≠ .endOfInput) (hn : e.location.offset = n) :
    FoundAt n (.malformed e)
  | tooDeep {depth : Nat} : FoundAt n (.tooDeep depth n)

namespace Midway

variable {options : Options} {m : Midway} {b : UInt8} {e : Failure}

theorem not_inSpace (hf : m.Fits options) (hu : options.unicodeSpace = false) : ¬ m.InSpace := by
  rintro ⟨start, lead, seen, more, hspace⟩
  have hasked := hf.asked
  rw [hspace] at hasked
  rw [Unfinished.Asked, hu] at hasked
  cases hasked

/-- Outside of space characters, a failure that is seen at a byte is found there. -/
theorem foundAt_of_blames (h : m.Blames options b e) (hs : ¬ m.InSpace) :
    e.FoundAt m.lexer.here.offset := by
  cases h with
  | @here f hf =>
    refine .malformed ?_ rfl
    rintro hend
    rw [show f = .endOfInput from hend] at hf
    cases hf
  | tooDeep => exact .tooDeep
  | space hu => exact absurd ⟨_, _, _, _, hu⟩ hs

end Midway

theorem Failure.FoundAt.unique {n n' : Nat} {e : Failure} (h : e.FoundAt n) (h' : e.FoundAt n') :
    n = n' := by
  cases h with
  | malformed _ hn =>
    cases h' with
    | malformed _ hn' => exact hn.symm.trans hn'
  | tooDeep =>
    cases h' with
    | tooDeep => rfl

/-! ## Sessions

That a session accepts a document is a fact about its lexer: paths, filters and slots have no
part in it. So the question which bytes can be completed is one about the automaton, which was
answered for each of its states. -/

namespace Session

/-- Whether a document is read to its end. It has to be within the limit on nesting, too, as this
is one of the reasons for a failure. -/
def Accepts (paths : List Path) (options : Options) (d : Bytes) : Prop :=
  ∃ s, ofDocument paths options d = .ok s ∧ s.rest.2.failure? = none

variable {paths : List Path} {options : Options} {d : Bytes}

/-- Whether a document is read to its end is not up to the paths. -/
theorem accepts_iff (ho : options.check = .ok ()) :
    Accepts paths options d ↔ (Midway.initial.feed options d).failure? = none := by
  constructor
  · rintro ⟨s, hs, hnone⟩
    exact (rest_ofDocument hs).2.symm.trans hnone
  · intro h
    obtain ⟨s, hs⟩ := exists_ofDocument ho paths d
    exact ⟨s, hs, (rest_ofDocument hs).2.trans h⟩

/-- A session fails at the first byte that makes the document hopeless: the bytes in front of it
can be completed, and no document that goes on with the byte is read to its end. Where the
document ends too early it can be completed. The paths have no part in it, so the documents that
go on may be read for any others. -/
theorem hopeless_of_failure {s : Session Buffer} {e : Failure} (hu : options.unicodeSpace = false)
    (hs : ofDocument paths options d = .ok s) (he : s.rest.2.failure? = some e) (paths' : List Path) :
    (∀ n, e.FoundAt n →
      n < d.length ∧ (∃ more, Accepts paths' options (d.take n ++ more)) ∧
        ∀ more, ¬ Accepts paths' options (d.take (n + 1) ++ more)) ∧
    (∀ place, e = .malformed ⟨.endOfInput, place⟩ →
      ¬ Accepts paths' options d ∧ ∃ more, Accepts paths' options (d ++ more)) := by
  have ho := check_of_ofDocument hs
  have hfits := Midway.fits_initial options
  have hfeed : (Midway.initial.feed options d).failure? = some e := (rest_ofDocument hs).2.symm.trans he
  simp only [accepts_iff ho]
  obtain ⟨tokens, m, h⟩ | ⟨front, b, behind, tokens, m, more, e', rfl, h, hstops⟩ :=
    Midway.follows_or_stops options .initial d
  · -- the document was followed to its end, and ends too early
    have hspace := Midway.not_inSpace (h.fits hfits) hu
    have hmore := h.exists_completion hfits hspace
    obtain ⟨more, failure?, hends⟩ := Midway.ends options m
    have hfailure : failure? = some e := by
      rw [← List.append_nil d, h.feed, hends.feed] at hfeed
      exact hfeed
    obtain rfl | ⟨start, lead, seen, n, hin, -⟩ := hends.blames e hfailure
    · refine ⟨?_, fun _ _ => ⟨by rw [hfeed]; exact Option.some_ne_none _, hmore⟩⟩
      intro n hfound
      cases hfound with
      | malformed hf _ => exact absurd rfl hf
    · exact absurd ⟨start, lead, seen, n, hin⟩ hspace
  · -- reading ended at the byte `b`
    have hspace := Midway.not_inSpace (h.fits hfits) hu
    have hmore := h.exists_completion hfits hspace
    have hbyte : ∀ rest, (Midway.initial.feed options (front ++ b :: rest)).failure? = some e' := by
      intro rest
      rw [h.feed, hstops.feed]
      rfl
    obtain rfl : e' = e := Option.some.inj ((hbyte behind).symm.trans hfeed)
    have hfound := Midway.foundAt_of_blames hstops.blames hspace
    have hoffset : m.lexer.here.offset = front.length := by
      rw [h.here, Location.offset_along]
      exact Nat.zero_add _
    constructor
    · intro n hn
      obtain rfl : n = front.length := hoffset ▸ hn.unique hfound
      refine ⟨by simp, by simpa using hmore, fun more => ?_⟩
      have hfront : (front ++ b :: behind).take (front.length + 1) = front ++ [b] :=
        List.take_length_add_append 1
      rw [hfront, List.append_assoc, List.singleton_append, hbyte]
      exact Option.some_ne_none _
    · rintro place rfl
      cases hfound with
      | malformed hf _ => exact absurd rfl hf

/-- No value follows a comma in front of a bracket, but one could have. -/
theorem hopeless_of_comma :
    ∃ s, ofDocument [] {} (Bytes.ofString "[1,]") = .ok s ∧
      s.rest.2.failure? = some (.malformed ⟨.character 0x5d, ⟨3, 1, 4⟩⟩) ∧
      (∃ more, Accepts [] {} (Bytes.ofString "[1," ++ more)) ∧
      ∀ more, ¬ Accepts [] {} (Bytes.ofString "[1,]" ++ more) := by
  obtain ⟨s, hs⟩ := exists_ofDocument (rfl : ({} : Options).check = .ok ()) [] (Bytes.ofString "[1,]")
  have hfeed : (Midway.initial.feed {} (Bytes.ofString "[1,]")).failure? =
      some (.malformed ⟨.character 0x5d, ⟨3, 1, 4⟩⟩) := by
    rw [Midway.feed, Midway.initial, ← Lexer.scan_buffer {} Lexer.initial ⟨Bytes.ofString "[1,]"⟩]
    decide +kernel
  have he := (rest_ofDocument hs).2.trans hfeed
  have hbyte := (hopeless_of_failure rfl hs he []).1 3 (.malformed (by decide) rfl)
  exact ⟨s, hs, he, hbyte.2⟩

end Session

end JsonExtract
