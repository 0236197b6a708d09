import JsonExtract.Proofs.Delivery.Locations
import JsonExtract.Proofs.Scan.Settings
import JsonExtract.Proofs.Walk.Course

/-!
# Sessions under other settings

A session that comes to its end without a failure gives out the same matches under all looser settings.
A session with less room for containers does the same as one with more, as long as the room is enough. At
the first bracket that is one too many it fails, and what it has given out by then are matches of the
other session.

* `Slots.sublist_held` — slots that are ready early hold some of the matches of the end;
* `Session.depth_le_of_course` — there is always room for the open containers;
* `Session.rest_of_relaxed` — looser settings;
* `Session.rest_of_maxDepth` — less room.
-/

namespace JsonExtract

namespace Slots

variable {slots slots' : Slots}

/-- Slots that are ready stay as they are, and more of them come. -/
theorem sublist_held (h : slots.Keeps slots') : (slots.held 0).Sublist (slots'.held 0) := by
  have hlist : ∀ xs ys : List Slot, (∀ (i : Nat) (s : Slot), xs[i]? = some s →
      ∃ s', ys[i]? = some s' ∧ (s.match?.isSome → s' = s)) →
        (xs.filterMap Slot.match?).Sublist (ys.filterMap Slot.match?) := by
    intro xs
    induction xs with
    | nil => exact fun ys _ => List.nil_sublist _
    | cons x xs ih =>
      intro ys hys
      obtain ⟨y, hy, hready⟩ := hys 0 x rfl
      cases ys with
      | nil => cases hy
      | cons z ys =>
        cases hy
        have hrest := ih ys fun i s hs => hys (i + 1) s hs
        cases hm : x.match? with
        | none =>
          rw [List.filterMap_cons_none hm]
          exact hrest.trans ((List.sublist_cons_self y ys).filterMap _)
        | some found =>
          obtain rfl := hready (hm ▸ rfl)
          rw [List.filterMap_cons_some hm, List.filterMap_cons_some hm]
          exact hrest.cons_cons found
  refine hlist slots.toList slots'.toList fun i s hs => ?_
  rw [Array.getElem?_toList] at hs
  obtain ⟨s', hs', -, hready⟩ := h i s hs
  exact ⟨s', Array.getElem?_toList.trans hs', hready⟩

end Slots

namespace Session

variable {σ : Type} [Cursor σ] {paths : List Path} {options : Options} {source : σ} {s₀ s : Session σ}

theorem options_proceed (s : Session σ) : s.proceed.options = s.options := by
  simp only [proceed]
  rcases (s.lexer.pull s.options s.source).answer with _ | _ | _ <;> rfl

theorem lexer_proceed (s : Session σ) : s.proceed.lexer = (s.lexer.pull s.options s.source).lexer := by
  simp only [proceed]
  rcases (s.lexer.pull s.options s.source).answer with _ | _ | _ <;> rfl

/-- In all states of a session there is room for the containers that are open. -/
theorem depth_le_of_course (hs : start paths options source = .ok s₀) {tokens : List Lexed}
    {numbers : List Nat} (h : s₀.Course tokens numbers s) :
    s.lexer.nesting.depth ≤ options.maxDepth ∧ s.walk.frames.length ≤ options.maxDepth := by
  have hdepth : s.options = options ∧ s.lexer.nesting.depth ≤ options.maxDepth := by
    induction h with
    | start =>
      rw [start, check_of_start hs] at hs
      cases hs
      exact ⟨rfl, Nat.zero_le _⟩
    | @token s _ _ found hcourse ho ha ih =>
      have hleaves := Lexer.pull_leaves s.source ((hcourse.going hs).fits ho)
      rw [options_proceed, lexer_proceed]
      exact ⟨ih.1, ih.1 ▸ (hleaves.of_token ha).1.room⟩
    | @ending s _ _ hcourse ho ha ih =>
      have hleaves := Lexer.pull_leaves s.source ((hcourse.going hs).fits ho)
      have hsame : (s.lexer.pull s.options s.source).lexer.nesting = s.lexer.nesting := by
        generalize s.lexer.pull s.options s.source = pulled at hleaves ha
        cases hleaves with
        | token => exact absurd rfl (ha _)
        | ending hc | failure hc => exact Nesting.ext hc
      rw [options_proceed, lexer_proceed, hsame]
      exact ih
    | give _ _ ih | pass _ _ ih => exact ih
  refine ⟨hdepth.2, ?_⟩
  have hlength := congrArg List.length (h.going hs).containers
  rw [Walk.containers, List.length_map, ← Nesting.depth_eq] at hlength
  exact hlength ▸ hdepth.2

/-- A session that comes to its end without a failure gives out the same matches under looser settings,
however the bytes of its document arrive and however many are read at a time, and fails no more. -/
theorem rest_of_relaxed {o o' : Options} (h : o.Relaxes o') (ho' : o'.check = .ok ()) {d : Bytes}
    (a b : Delivery d) {s : Session a.Source} (hs : start paths o a.source = .ok s)
    (hend : s.rest.2.failure? = none) :
    ∃ t, start paths o' b.source = .ok t ∧ t.rest.1 = s.rest.1 ∧ t.rest.2.failure? = none := by
  obtain ⟨t, ht⟩ := exists_start ho' paths b.source
  obtain ⟨hrest, hfailure⟩ := rest_of_start hs
  obtain ⟨hrest', hfailure'⟩ := rest_of_start ht
  have hscan : Lexer.initial.scan o' b.source = Lexer.initial.scan o a.source := by
    rw [b.scan_source, ← a.scan_source]
    exact Lexer.scan_of_relaxes h _ (hfailure.symm.trans hend)
  refine ⟨t, ht, ?_, ?_⟩
  · rw [hrest', hrest, hscan]
  · rw [hfailure', hscan, ← hfailure, hend]

/-- A document with one container is read in one piece with room for one, and then in two pieces with more
room and with more liberties. -/
theorem rest_of_relaxed_two_pieces :
    ∃ (a b : Delivery (Bytes.ofString r#"{"a":1}"# ++ [Ascii.lineFeed])) (s : Session a.Source)
      (t : Session b.Source),
      Options.Relaxes { maxDepth := 1 } { readSize := 3, multipleValues := true, unicodeSpace := true } ∧
      start [.ofLinks "$.a+" [⟨.selector .root, false⟩, ⟨.selector (.key (Bytes.ofString "a")), true⟩]]
        { maxDepth := 1 } a.source = .ok s ∧
      s.rest.2.failure? = none ∧
      start [.ofLinks "$.a+" [⟨.selector .root, false⟩, ⟨.selector (.key (Bytes.ofString "a")), true⟩]]
        { readSize := 3, multipleValues := true, unicodeSpace := true } b.source = .ok t ∧
      t.rest.1 = [⟨"$.a+", Bytes.ofString "1", .number, [.key (Bytes.ofString "a")]⟩] ∧
      t.rest.2.failure? = none := by
  let a : Delivery (Bytes.ofString r#"{"a":1}"# ++ [Ascii.lineFeed]) := .memory
  let b : Delivery (Bytes.ofString r#"{"a":1}"# ++ [Ascii.lineFeed]) :=
    .reader [.data (Bytes.ofString r#"{""#), .data (Bytes.ofString r#"a":1}"# ++ [Ascii.lineFeed])] 3
      (.data (List.cons_ne_nil _ _) (.data (List.cons_ne_nil _ _) .nil))
  have hrelaxes : Options.Relaxes { maxDepth := 1 }
      { readSize := 3, multipleValues := true, unicodeSpace := true } :=
    ⟨by decide, nofun, nofun⟩
  obtain ⟨s, hs⟩ := exists_start (rfl : ({ maxDepth := 1 } : Options).check = .ok ())
    [.ofLinks "$.a+" [⟨.selector .root, false⟩, ⟨.selector (.key (Bytes.ofString "a")), true⟩]] a.source
  have hend : s.rest.2.failure? = none := by
    rw [(rest_of_start hs).2]
    decide +kernel
  have hfound : s.rest.1 = [⟨"$.a+", Bytes.ofString "1", .number, [.key (Bytes.ofString "a")]⟩] := by
    rw [(rest_of_start hs).1]
    decide +kernel
  obtain ⟨t, ht, hrest, hfailure⟩ := rest_of_relaxed hrelaxes rfl a b hs hend
  exact ⟨a, b, s, t, hrelaxes, hs, hend, ht, hrest.trans hfound, hfailure⟩

/-- A session is limited to `m` open containers, where another one on the same source has room for as many
or more. If the other never opens a container at nesting depth `m + 1`, both give out the same and are
ended by the same failure, if by any. Otherwise the limited one is ended at the first bracket that opens
such a container, and what it gives out are matches of the other. It never has more than `m` containers
open. -/
theorem rest_of_maxDepth {m : Nat} (hm : 1 ≤ m) (hle : m ≤ options.maxDepth)
    (hs : start paths options source = .ok s) :
    ∃ t, start paths { options with maxDepth := m } source = .ok t ∧
      (Lexed.firstOpening? (m + 1) 0 (Lexer.initial.scan options source).tokens = none →
        t.rest.1 = s.rest.1 ∧ t.rest.2.failure? = s.rest.2.failure?) ∧
      (∀ l, Lexed.firstOpening? (m + 1) 0 (Lexer.initial.scan options source).tokens = some l →
        t.rest.2.failure? = some (.tooDeep (m + 1) l.start) ∧ t.rest.1.Sublist s.rest.1) ∧
      ∀ tokens numbers u, t.Course tokens numbers u →
        u.lexer.nesting.depth ≤ m ∧ u.walk.frames.length ≤ m := by
  have hcheck : ({ options with maxDepth := m } : Options).check = .ok () := by
    have hrange := Options.check_eq_ok_iff.1 (check_of_start hs)
    exact Options.check_eq_ok_iff.2 ⟨hrange.1, Nat.ne_of_gt hm⟩
  obtain ⟨t, ht⟩ := exists_start hcheck paths source
  obtain ⟨hrest, hfailure⟩ := rest_of_start hs
  obtain ⟨hrest', hfailure'⟩ := rest_of_start ht
  obtain ⟨hsame, hfirst⟩ := Lexer.scan_of_maxDepth hle source (Midway.fits_initial _)
  refine ⟨t, ht, fun hnone => ?_, fun l hsome => ?_, fun tokens numbers u h => depth_le_of_course ht h⟩
  · have hscan := hsame hnone
    exact ⟨by rw [hrest', hrest, hscan], by rw [hfailure', hfailure, hscan]⟩
  · obtain ⟨front, behind, hsplit, hscan⟩ := hfirst l hsome
    refine ⟨by rw [hfailure', hscan], ?_⟩
    rw [hrest', hrest, hscan, hsplit, Walk.run_append]
    have hbalanced := (Walk.run_advances paths front Walk.balanced_initial).balanced
    exact Slots.sublist_held (Walk.run_advances paths (l :: behind) hbalanced).keeps

/-- The second element is an array, for which there is no room in the limited session. -/
theorem rest_of_maxDepth_one :
    ∃ s t : Session Buffer,
      start [.ofLinks "$.*+" [⟨.selector .root, false⟩, ⟨.selector .wildcard, true⟩]] {}
        ⟨Bytes.ofString "[1,[2]]"⟩ = .ok s ∧
      start [.ofLinks "$.*+" [⟨.selector .root, false⟩, ⟨.selector .wildcard, true⟩]] { maxDepth := 1 }
        ⟨Bytes.ofString "[1,[2]]"⟩ = .ok t ∧
      s.rest.1 =
        [⟨"$.*+", Bytes.ofString "1", .number, [.index 0]⟩,
          ⟨"$.*+", Bytes.ofString "[2]", .array, [.index 1]⟩] ∧
      t.rest.1.Sublist s.rest.1 ∧ t.rest.2.failure? = some (.tooDeep 2 3) := by
  obtain ⟨s, hs⟩ := exists_start (rfl : ({} : Options).check = .ok ())
    [.ofLinks "$.*+" [⟨.selector .root, false⟩, ⟨.selector .wildcard, true⟩]]
    (⟨Bytes.ofString "[1,[2]]"⟩ : Buffer)
  have hfirst : Lexed.firstOpening? 2 0 (Lexer.initial.scan {}
      (Buffer.mk (Bytes.ofString "[1,[2]]"))).tokens = some ⟨.opening .array, 3, 4⟩ := by
    decide +kernel
  obtain ⟨t, ht, -, hlimited, -⟩ := rest_of_maxDepth (m := 1) (Nat.le_refl 1) (by decide) hs
  obtain ⟨hfailure, hsublist⟩ := hlimited _ hfirst
  refine ⟨s, t, hs, ht, ?_, hsublist, hfailure⟩
  rw [(rest_of_start hs).1]
  decide +kernel

end Session

end JsonExtract
