import JsonExtract.Proofs.Extraction.StandingDocuments

/-!
# How many matches there are at a place

Matches are given out in the order in which their values start, so a candidate that is not decided yet
holds up all that stand behind it. What can be given out at a place are the matches among the first
candidates, up to one that is not decided there.

* `Finding.available` — the number of matches that can be given out at a place;
* `Finding.lt_available_iff` — a match is among them once its candidate and those in front are decided;
* `Passage.pairwise_series_candidates` — candidates start one behind the other;
* `Walk.length_takeWhile_ready` — the slots of a walk that are ready, up to one that is not.
-/

namespace JsonExtract

/-! ## Candidates in front of others

`available` counts from the front of the candidates and stops at the first that is undecided at
the place. That is what a caller can get at the place, and the lemmas tell when a given match is
among it. -/

/-- What stands at a place among the members that pass a test stands in the whole list behind as many
that do. -/
theorem exists_split_of_getElem?_filter {α : Type} {p : α → Bool} {xs : List α} {k : Nat} {x : α}
    (h : (xs.filter p)[k]? = some x) :
    ∃ before behind, xs = before ++ x :: behind ∧ before.countP p = k ∧ p x = true := by
  induction xs generalizing k with
  | nil => cases h
  | cons y xs ih =>
    cases hy : p y with
    | false =>
      rw [List.filter_cons_of_neg (by simp [hy])] at h
      obtain ⟨before, behind, rfl, hcount, hx⟩ := ih h
      exact ⟨y :: before, behind, rfl, by rw [List.countP_cons_of_neg (by simp [hy]), hcount], hx⟩
    | true =>
      rw [List.filter_cons_of_pos hy] at h
      cases k with
      | zero =>
        cases h
        exact ⟨[], xs, rfl, rfl, hy⟩
      | succ k =>
        obtain ⟨before, behind, rfl, hcount, hx⟩ := ih h
        exact ⟨y :: before, behind, rfl, by rw [List.countP_cons_of_pos hy, hcount], hx⟩

namespace Finding

/-- The number of matches that can be given out at a place: no candidate in front of them is
undecided there. Candidates that are not found count nothing, and hold up nobody once that is
decided. -/
def available (candidates : List Finding) (n : Nat) : Nat :=
  (candidates.takeWhile (·.stake.decidedAt ≤ n)).countP (·.stake.holds)

variable {before behind candidates : List Finding} {f : Finding} {n : Nat}

theorem available_cons_of_le (hn : f.stake.decidedAt ≤ n) :
    available (f :: candidates) n = available candidates n + if f.stake.holds then 1 else 0 := by
  rw [available, List.takeWhile_cons, if_pos (decide_eq_true hn), List.countP_cons]
  rfl

/-- A candidate that is not decided holds up all that stand behind it. -/
theorem available_cons_of_lt (hn : n < f.stake.decidedAt) : available (f :: candidates) n = 0 := by
  rw [available, List.takeWhile_cons, if_neg (by simpa using hn)]
  rfl

/-- A match can be given out once its candidate and all in front of it are decided. A failed
candidate must be decided, too, before what stands behind it can be given out. -/
theorem lt_available_iff (hf : f.stake.holds = true) :
    before.countP (·.stake.holds) < available (before ++ f :: behind) n ↔
      ∀ x ∈ before ++ [f], x.stake.decidedAt ≤ n := by
  induction before with
  | nil =>
    rw [List.nil_append, List.nil_append, List.forall_mem_singleton]
    rcases Nat.lt_or_ge n f.stake.decidedAt with hn | hn
    · rw [available_cons_of_lt hn]
      exact iff_of_false (Nat.lt_irrefl 0) (Nat.not_le_of_lt hn)
    · rw [available_cons_of_le hn, if_pos hf]
      exact iff_of_true (Nat.zero_lt_succ _) hn
  | cons x before ih =>
    rw [List.cons_append, List.cons_append, List.forall_mem_cons, ← ih]
    rcases Nat.lt_or_ge n x.stake.decidedAt with hn | hn
    · rw [available_cons_of_lt hn]
      exact iff_of_false (Nat.not_lt_zero _) fun h => Nat.not_le_of_lt hn h.1
    · rw [available_cons_of_le hn, List.countP_cons, Nat.add_lt_add_iff_right, and_iff_right hn]

/-- A match that can be given out at a place, and at none before, is given out at the last place
where its candidate or one in front of it is decided. So the least such place is the largest of
those at which these candidates are decided. -/
theorem max?_decidedAt (hf : f.stake.holds = true)
    (hn : before.countP (·.stake.holds) < available (before ++ f :: behind) n)
    (hleast : ∀ m < n, available (before ++ f :: behind) m ≤ before.countP (·.stake.holds)) :
    ((before ++ [f]).map (·.stake.decidedAt)).max? = some n := by
  rw [lt_available_iff hf] at hn
  refine List.max?_eq_some_iff.2 ⟨?_, List.forall_mem_map.2 hn⟩
  -- were all decided before, the match could be given out before
  by_contra hnot
  have hlt : ∀ x ∈ before ++ [f], x.stake.decidedAt < n := fun x hx =>
    Nat.lt_of_le_of_ne (hn x hx) fun he => hnot (he ▸ List.mem_map_of_mem hx)
  have hpos : 0 < n := Nat.zero_lt_of_lt (hlt f (List.mem_append_right _ List.mem_cons_self))
  have hearlier := hleast (n - 1) (Nat.sub_one_lt_of_lt hpos)
  refine absurd ((lt_available_iff hf).2 fun x hx => ?_) (Nat.not_lt_of_le hearlier)
  exact Nat.le_sub_one_of_lt (hlt x hx)

end Finding

/-! ## The order of candidates

Each candidate is for the value of a site, and sites are listed in the order in which they
start; several candidates may be for the same value. So of two candidates the earlier one never
starts behind the other. -/

/-- Of sorted tokens, one that starts first ends first. -/
theorem Lexed.Sorted.stop_lt {tokens : List Lexed} (h : Sorted tokens) {a b : Lexed} (ha : a ∈ tokens)
    (hb : b ∈ tokens) (hlt : a.start < b.start) : a.stop < b.stop := by
  have hbehind : tokens.Pairwise fun a b => a.start < b.start → a.stop < b.stop :=
    h.imp fun hab _ => hab.2
  have hfront : tokens.Pairwise fun a b => b.start < a.start → b.stop < a.stop :=
    h.imp fun hab hba => absurd hba (Nat.lt_asymm hab.1)
  exact List.Pairwise.forall_of_forall_of_flip (fun l _ hl => absurd hl (Nat.lt_irrefl _)) hbehind
    hfront ha hb hlt

namespace Passage

variable {p : Passage} {paths : List Path}

theorem exists_site_of_mem_candidates {f : Finding} (hf : f ∈ p.candidates paths) :
    ∃ site ∈ p.sites, f.passage = site.2 := by
  obtain ⟨site, hs, hf⟩ := List.mem_flatMap.1 hf
  obtain ⟨x, -, hf⟩ := List.mem_flatMap.1 hf
  obtain ⟨links, -, rfl⟩ := List.mem_map.1 (List.mem_filter.1 hf).1
  exact ⟨site, hs, rfl⟩

theorem sublist_of_mem_candidates {f : Finding} (hf : f ∈ p.candidates paths) :
    f.passage.tokens.Sublist p.tokens := by
  obtain ⟨site, hs, hpassage⟩ := exists_site_of_mem_candidates hf
  exact hpassage ▸ (sublist_of_mem_sites hs).1

/-- Candidates start one behind the other. -/
theorem pairwise_candidates (h : p.Sorted) (paths : List Path) :
    (p.candidates paths).Pairwise fun f g => f.passage.first.stop ≤ g.passage.first.stop := by
  have hfirst : ∀ site ∈ p.sites, site.2.first ∈ p.tokens := fun site hs =>
    (sublist_of_mem_sites hs).1.subset site.2.first_mem_tokens
  have hat : ∀ site : Trek × Passage, ∀ f ∈ paths.zipIdx.flatMap fun x => x.1.candidatesAt x.2 p site,
      f.passage = site.2 := by
    intro site f hf
    obtain ⟨x, -, hf⟩ := List.mem_flatMap.1 hf
    obtain ⟨links, -, rfl⟩ := List.mem_map.1 (List.mem_filter.1 hf).1
    rfl
  refine List.pairwise_flatMap.2 ⟨fun site _ => List.pairwise_of_forall_mem_list fun f hf g hg => ?_, ?_⟩
  · rw [hat site f hf, hat site g hg]
  · refine (pairwise_sites h).imp_of_mem fun {site site'} hs hs' hlt f hf g hg => ?_
    rw [hat site f hf, hat site' g hg]
    exact Nat.le_of_lt (h.stop_lt (hfirst site hs) (hfirst site' hs') hlt)

/-- The candidates of values one behind the other start so, too. -/
theorem pairwise_series_candidates {values : List Passage}
    (h : Lexed.Sorted (values.flatMap tokens)) (paths : List Path) :
    (values.flatMap (candidates paths)).Pairwise fun f g =>
      f.passage.first.stop ≤ g.passage.first.stop := by
  obtain ⟨hvalues, hpairs⟩ := List.pairwise_flatMap.1 h
  refine List.pairwise_flatMap.2 ⟨fun p hp => pairwise_candidates (hvalues p hp) paths, ?_⟩
  refine hpairs.imp fun {p q} hpq f hf g hg => Nat.le_of_lt ?_
  exact (hpq _ ((sublist_of_mem_candidates hf).subset f.passage.first_mem_tokens) _
    ((sublist_of_mem_candidates hg).subset g.passage.first_mem_tokens)).2

end Passage

/-! ## Slots that are ready

The slots of a walk are compared with the candidates that have started, one by one: a slot that
is dead belongs to a candidate that is known to fail, a slot that is ready to one that is known
to be found. What is in front of the first slot that waits is what is in front of the first
undecided candidate. -/

/-- What is known at a place to be found, up to the first candidate that has started and of which
nothing is known. -/
theorem Finding.length_takeWhile_foreseen {candidates : List Finding} {n : Nat}
    (h : candidates.Pairwise fun f g => f.passage.first.stop ≤ g.passage.first.stop)
    (hsorted : ∀ f ∈ candidates, f.passage.Sorted) :
    (((candidates.filter fun f => f.passage.hasStarted n && f.stake.foreseen n true).map
      (·.stake.foreseen n false)).takeWhile id).length = available candidates n := by
  induction candidates with
  | nil => rfl
  | cons f candidates ih =>
    rw [List.pairwise_cons] at h
    rw [List.forall_mem_cons] at hsorted
    have hrest := ih h.2 hsorted.2
    rcases Nat.lt_or_ge n f.stake.decidedAt with hn | hn
    -- nothing is known of the candidate, and if it has not started, neither have those behind it
    · rw [available_cons_of_lt hn]
      cases hstarted : f.passage.hasStarted n with
      | true =>
        have hknown : ∀ b, f.stake.foreseen n b = b := fun b => if_neg (Nat.not_le_of_lt hn)
        rw [List.filter_cons_of_pos (by rw [hstarted, hknown]; rfl), List.map_cons, hknown]
        rfl
      | false =>
        have hlater : ∀ g ∈ candidates, g.passage.hasStarted n = false := fun g hg =>
          decide_eq_false fun hle => of_decide_eq_false hstarted (Nat.le_trans (h.1 g hg) hle)
        rw [List.filter_cons_of_neg (by rw [hstarted]; simp),
          List.filter_eq_nil_iff.2 fun g hg => by rw [hlater g hg]; simp]
        rfl
    · have hknown : ∀ b, f.stake.foreseen n b = f.stake.holds := fun b => if_pos hn
      rw [available_cons_of_le hn]
      cases hh : f.stake.holds with
      | true =>
        have hstarted : f.passage.hasStarted n = true :=
          Passage.hasStarted_of_last_le hsorted.1 ((Stake.decidedAt_le_iff_of_holds hh).1 hn).1
        rw [List.filter_cons_of_pos (by rw [hstarted, hknown, hh]; rfl), List.map_cons, hknown, hh,
          List.takeWhile_cons_of_pos rfl, List.length_cons, hrest]
        rfl
      | false =>
        rw [List.filter_cons_of_neg (by rw [hknown, hh]; simp), hrest]
        rfl

/-- Behind what is there of a document at a place, so many slots are ready in front of any that
waits as matches can be given out there. Dead slots are left out on the left, as failed candidates
are on the right. -/
theorem Walk.length_takeWhile_ready {paths : List Path}
    (hp : ∀ path ∈ paths, ∃ text, Path.parse text = .ok path) {values : List Passage}
    (h : Lexed.Sorted (values.flatMap Passage.tokens)) (n : Nat) :
    ((((({} : Walk).run paths (Lexed.upTo n (values.flatMap Passage.tokens))).slots.toList.filter
        fun s => !s.dead).map fun s => s.match?.isSome).takeWhile id).length =
      Finding.available (values.flatMap (Passage.candidates paths)) n := by
  rw [Walk.ready_upTo hp h]
  refine Finding.length_takeWhile_foreseen (Passage.pairwise_series_candidates h paths) fun f hf => ?_
  obtain ⟨p, hp, hf⟩ := List.mem_flatMap.1 hf
  exact h.sublist ((Passage.sublist_of_mem_candidates hf).trans
    (List.sublist_flatten_of_mem (List.mem_map_of_mem hp)))

end JsonExtract
