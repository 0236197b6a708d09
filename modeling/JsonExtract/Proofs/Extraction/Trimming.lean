import JsonExtract.Proofs.Delivery.Independence
import JsonExtract.Proofs.Walk.Pruning
import JsonExtract.Proofs.Walk.Release

/-!
# Levels below the deepest mark

The levels of a path end with its deepest mark. A session that follows some paths down all their levels
gives the same answers, reads its document with the same steps and fails in the same way.

* `Path.untrimmed`, `Path.untrimmedAt` — paths with all their levels;
* `Level.unmarked_drop_trim` — there is no mark below the levels that are kept;
* `Session.following` — a session that follows other levels;
* `Session.answer_untrimmedAt` — all levels against those down to the deepest mark.
-/

namespace JsonExtract

/-! ## Paths with all levels

What a path keeps of its levels are the first ones, and those that it drops have no marks. So
the path is what is left of its own untrimmed form, and walks of the two can be put side by
side. -/

namespace Path

/-- The path with all the levels of its links. What it asks for is the same, since the levels that
are added have no marks. -/
def untrimmed (p : Path) : Path :=
  { p with levels := Level.ofLinks p.links }

/-- Some paths with all their levels among others. The choice is made for each path on its own. -/
def untrimmedAt (whole : Nat → Bool) (paths : List Path) : List Path :=
  paths.mapIdx fun owner p => if whole owner then p.untrimmed else p

end Path

namespace Level

theorem unmarked_drop_trimAll (levels : List Level) :
    Unmarked (levels.drop (trimAll levels).length) := by
  induction levels with
  | nil => exact fun _ h => absurd h List.not_mem_nil
  | cons level below ih =>
    rw [trimAll]
    split
    · next hnone =>
      rw [hnone] at ih
      split
      · next hmarks => exact List.forall_mem_cons.2 ⟨List.isEmpty_iff.1 hmarks, ih⟩
      · exact ih
    · exact ih

/-- The levels that are dropped have no marks. -/
theorem unmarked_drop_trim (levels : List Level) : Unmarked (levels.drop (trim levels).length) := by
  cases levels with
  | nil => exact fun _ h => absurd h List.not_mem_nil
  | cons top below => exact unmarked_drop_trimAll below

/-- The levels that are kept are the first ones. -/
theorem take_length_trim (levels : List Level) : levels.take (trim levels).length = trim levels := by
  cases levels with
  | nil => rfl
  | cons top below => exact congrArg (top :: ·) (List.prefix_iff_eq_take.1 (isPrefix_trimAll below)).symm

end Level

/-- Of a path that was read, and of all its levels, the same is kept: the path. -/
theorem Path.upTo_length {p : Path} (h : p.levels = Level.trim (Level.ofLinks p.links)) :
    p.upTo p.levels.length = p ∧ p.untrimmed.upTo p.levels.length = p := by
  have hkept : (Level.ofLinks p.links).take p.levels.length = p.levels := by
    rw [h, Level.take_length_trim]
  constructor
  · rw [upTo, List.take_length]
  · rw [upTo, untrimmed]
    dsimp only
    rw [hkept]

theorem Paths.prunes_untrimmedAt {texts : List String} {paths : List Path}
    (hp : Path.parseAll texts = .ok paths) (whole : Nat → Bool) :
    Paths.Prunes (fun owner => paths[owner]?.elim 0 (·.levels.length)) (Path.untrimmedAt whole paths)
      paths := by
  have hlevels : ∀ p ∈ paths, p.levels = Level.trim (Level.ofLinks p.links) := by
    intro p hm
    obtain ⟨text, hparse⟩ := Path.forall_of_parseAll hp p hm
    rw [Path.parse] at hparse
    split at hparse <;> cases hparse
    rfl
  constructor
  · apply List.ext_getElem?
    intro owner
    rw [Path.untrimmedAt, List.getElem?_mapIdx, List.getElem?_mapIdx]
    cases ho : paths[owner]? with
    | none => rfl
    | some p =>
      obtain ⟨hsame, hwhole⟩ := Path.upTo_length (hlevels p (List.mem_of_getElem? ho))
      rw [Option.map_some, Option.map_some, Option.elim_some]
      split
      · rw [hwhole]
      · rw [hsame]
  · intro owner q hq
    rw [Path.untrimmedAt, List.getElem?_mapIdx] at hq
    obtain ⟨p, ho, rfl⟩ := Option.map_eq_some_iff.1 hq
    rw [ho, Option.elim_some]
    split
    · rw [hlevels p (List.mem_of_getElem? ho)]
      exact Level.unmarked_drop_trim _
    · rw [List.drop_length]
      exact fun _ h => absurd h List.not_mem_nil

/-! ## Sessions

A session has the walk as a part, and asks it for slots only. If the walks of two sessions are
side by side, so are the sessions, step by step and answer by answer. -/

namespace Session

variable {σ : Type} [Cursor σ] {kept : Nat → Nat} {paths' : List Path}

/-- The same session, if it follows other levels. Lexer, source and all other fields stay as they
are. -/
def following (paths : List Path) (walk : Walk) (s : Session σ) : Session σ :=
  { s with paths, walk }

theorem paths_proceed (s : Session σ) : s.proceed.paths = s.paths := by
  simp only [proceed]
  rcases (s.lexer.pull s.options s.source).answer with _ | _ | _ <;> rfl

/-- A token is taken in alike. -/
theorem proceed_following {s : Session σ} (hpaths : Paths.Prunes kept s.paths paths') {w : Walk}
    (h : s.walk.Prunes kept w) :
    ∃ w', (s.following paths' w).proceed = s.proceed.following paths' w' ∧
      s.proceed.walk.Prunes kept w' := by
  have hpulled : (s.following paths' w).lexer.pull (s.following paths' w).options
      (s.following paths' w).source = s.lexer.pull s.options s.source := rfl
  simp only [proceed, hpulled]
  rcases (s.lexer.pull s.options s.source).answer with failure | _ | token
  · exact ⟨w, rfl, h⟩
  · exact ⟨w, rfl, h⟩
  · exact ⟨w.token paths' token, rfl, Walk.prunes_token hpaths h token⟩

/-- The next match is the same. The number of tokens taken in is the same for both, as it depends
on the slots. -/
theorem next_following {s : Session σ} (hpaths : Paths.Prunes kept s.paths paths') {w : Walk}
    (h : s.walk.Prunes kept w) :
    ∃ w', (s.following paths' w).next = (s.next.1, s.next.2.following paths' w') ∧
      s.next.2.paths = s.paths ∧ s.next.2.walk.Prunes kept w' := by
  have hrelease (s : Session σ) {w : Walk} (h : s.walk.Prunes kept w) :
      (s.following paths' w).walk.slots.release (s.following paths' w).isOver
        (s.following paths' w).front = s.walk.slots.release s.isOver s.front := by
    rw [← h.slots]
    rfl
  fun_induction next s generalizing w with
  | case1 s found front hr =>
    refine ⟨w, ?_, rfl, h⟩
    rw [next, hrelease s h, hr]
    rfl
  | case2 s front hr passed =>
    rename_i hover
    refine ⟨w, ?_, rfl, h⟩
    have hended : (s.following paths' w).isOver = true := hover
    rw [next, hrelease s h, hr]
    simp only [hended]
    rfl
  | case3 s front hr passed hover ih =>
    obtain ⟨between, hproceed, hbetween⟩ := proceed_following (s := passed) hpaths h
    obtain ⟨w', hnext, hsame, hw'⟩ := ih (paths_proceed passed ▸ hpaths) hbetween
    refine ⟨w', ?_, hsame.trans (paths_proceed passed), hw'⟩
    have hongoing : ¬ (s.following paths' w).isOver = true := hover
    rw [next, hrelease s h, hr]
    simp only [hongoing]
    rw [← hnext, ← hproceed]
    rfl

/-- All later states are the same, but for what is followed. -/
theorem after_following (k : Nat) {s : Session σ} (hpaths : Paths.Prunes kept s.paths paths') {w : Walk}
    (h : s.walk.Prunes kept w) :
    ∃ w', (s.following paths' w).after k = (s.after k).following paths' w' ∧
      Paths.Prunes kept (s.after k).paths paths' ∧ (s.after k).walk.Prunes kept w' := by
  induction k generalizing s w with
  | zero => exact ⟨w, rfl, hpaths, h⟩
  | succ k ih =>
    obtain ⟨w', hnext, hsame, hw'⟩ := next_following hpaths h
    rw [after, after, hnext]
    exact ih (hsame ▸ hpaths) hw'

/-- All answers are the same, and so is what is left of the document. -/
theorem answer_following (k : Nat) {s : Session σ} (hpaths : Paths.Prunes kept s.paths paths') {w : Walk}
    (h : s.walk.Prunes kept w) :
    ((s.following paths' w).answer k, ((s.following paths' w).after k).lexer,
        ((s.following paths' w).after k).source) = (s.answer k, (s.after k).lexer, (s.after k).source) := by
  obtain ⟨w', hafter, hlater, hw'⟩ := after_following k hpaths h
  obtain ⟨w'', hnext, -, -⟩ := next_following hlater hw'
  rw [answer, answer, hafter, hnext]
  rfl

/-- Sessions that follow some of their paths down all levels answer as sessions that follow them down to
the deepest mark, whatever they read. They are at the same place of their documents behind every answer,
and the same failure ends them. -/
theorem answer_untrimmedAt {texts : List String} {paths : List Path}
    (hp : Path.parseAll texts = .ok paths) (whole : Nat → Bool) (options : Options) (source : σ) (k : Nat) :
    (start (Path.untrimmedAt whole paths) options source).map
        (fun s => (s.answer k, (s.after k).lexer, (s.after k).source)) =
      (start paths options source).map
        (fun s => (s.answer k, (s.after k).lexer, (s.after k).source)) := by
  rw [start, start]
  cases options.check with
  | error failure => rfl
  | ok _ =>
    have hpaths := Paths.prunes_untrimmedAt hp whole
    let s : Session σ :=
      ⟨Path.untrimmedAt whole paths, options, .initial, source, {}, 0, 0, none⟩
    have hwalk : s.walk.Prunes (fun owner => paths[owner]?.elim 0 (·.levels.length)) {} :=
      ⟨trivial, rfl, rfl, rfl⟩
    exact congrArg Except.ok (answer_following k (s := s) hpaths hwalk).symm

/-- A level below the mark has a filter that fails. A session that follows the path down to it gives out
the value at the mark all the same. -/
theorem answer_untrimmedAt_failing_filter :
    ∃ path, Path.parseAll ["$.a+.b?(@.c == \"x\")"] = .ok [path] ∧
      Path.untrimmedAt (fun _ => true) [path] ≠ [path] ∧
      (start (Path.untrimmedAt (fun _ => true) [path]) {}
        (⟨Bytes.ofString r#"{"a":{"b":{"c":"y"}}}"#⟩ : Buffer)).map (answer 0) =
        .ok (some ⟨"$.a+.b?(@.c == \"x\")", Bytes.ofString r#"{"b":{"c":"y"}}"#, .object,
          [.key (Bytes.ofString "a")]⟩, none) := by
  let path : Path := .ofLinks "$.a+.b?(@.c == \"x\")"
    [⟨.selector .root, false⟩, ⟨.selector (.key (Bytes.ofString "a")), true⟩,
      ⟨.selector (.key (Bytes.ofString "b")), false⟩,
      ⟨.filter (.member (.named (Bytes.ofString "c")) (Bytes.ofString "x")), false⟩]
  let source : Buffer := ⟨Bytes.ofString r#"{"a":{"b":{"c":"y"}}}"#⟩
  have hparse : Path.parseAll ["$.a+.b?(@.c == \"x\")"] = .ok [path] := by decide +kernel
  have hsame := answer_untrimmedAt hparse (fun _ => true) {} source 0
  obtain ⟨s, hs⟩ := exists_start (rfl : ({} : Options).check = .ok ()) [path] source
  obtain ⟨t, ht⟩ := exists_start (rfl : ({} : Options).check = .ok ())
    (Path.untrimmedAt (fun _ => true) [path]) source
  have htrimmed : (start [path] {} source).map (answer 0) = .ok
      (some ⟨"$.a+.b?(@.c == \"x\")", Bytes.ofString r#"{"b":{"c":"y"}}"#, .object,
        [.key (Bytes.ofString "a")]⟩, none) := by
    decide +kernel
  refine ⟨path, hparse, by decide +kernel, ?_⟩
  rw [hs] at hsame htrimmed
  rw [ht] at hsame ⊢
  exact (congrArg Except.ok (congrArg Prod.fst (Except.ok.inj hsame))).trans htrimmed

end Session

end JsonExtract
