import JsonExtract.Proofs.Extraction.Passage
import Mathlib.Data.List.TakeWhile

/-!
# What has started up to a place

Tokens stand one behind the other. So up to any place of a document some of the children of a container
are complete, one at most has only started, and nothing is there of the others. The value up to that
place is the container with these children, cut off in the same way.

* `Lexed.Sorted`, `Passage.Sorted` — tokens in order;
* `Lexed.exists_split` — what is complete up to a place, and what is not;
* `Lexed.upTo` — the tokens that end in front of a place;
* `Passage.upTo`, `Passage.children_upTo` — the value that has started up to a place;
* `Passage.upTo_eq_value` — a value that is complete;
* `Passage.Cut` — the children of a container up to a place.
-/

namespace JsonExtract

/-! ## The order of tokens

The tokens of a document start and end in the same order. Up to a place there are therefore the
first tokens and no others, and of a row of values first those that are complete, then at most
one in which the place lies. -/

/-- Tokens that start and end one behind the other. Two tokens may touch, as brackets do. -/
def Lexed.Sorted (tokens : List Lexed) : Prop :=
  tokens.Pairwise fun a b => a.start < b.start ∧ a.stop < b.stop

namespace Passage

/-- The tokens of a passage stand one behind the other. -/
def Sorted (p : Passage) : Prop :=
  Lexed.Sorted p.tokens

/-- The first token, and all others. -/
theorem exists_tokens_eq_cons (p : Passage) : ∃ more, p.tokens = p.first :: more := by
  cases p <;> rw [tokens] <;> exact ⟨_, rfl⟩

/-- The last token, and all others. -/
theorem exists_tokens_eq_concat (p : Passage) : ∃ before, p.tokens = before ++ [p.last] := by
  cases p <;> rw [tokens]
  case scalar => exact ⟨[], rfl⟩
  all_goals exact ⟨_, (List.cons_append ..).symm⟩

theorem first_mem_tokens (p : Passage) : p.first ∈ p.tokens := by
  obtain ⟨more, h⟩ := p.exists_tokens_eq_cons
  exact h ▸ List.mem_cons_self

theorem last_mem_tokens (p : Passage) : p.last ∈ p.tokens := by
  obtain ⟨before, h⟩ := p.exists_tokens_eq_concat
  exact h ▸ List.mem_append_right _ (List.mem_singleton_self _)

theorem first_stop_le {p : Passage} (h : p.Sorted) {lexed : Lexed} (hl : lexed ∈ p.tokens) :
    p.first.stop ≤ lexed.stop := by
  obtain ⟨more, htokens⟩ := p.exists_tokens_eq_cons
  rw [Sorted, Lexed.Sorted, htokens, List.pairwise_cons] at h
  rw [htokens, List.mem_cons] at hl
  rcases hl with rfl | hl
  · exact Nat.le_refl _
  · exact Nat.le_of_lt (h.1 lexed hl).2

theorem le_last_stop {p : Passage} (h : p.Sorted) {lexed : Lexed} (hl : lexed ∈ p.tokens) :
    lexed.stop ≤ p.last.stop := by
  obtain ⟨before, htokens⟩ := p.exists_tokens_eq_concat
  rw [Sorted, Lexed.Sorted, htokens, List.pairwise_append] at h
  rw [htokens, List.mem_append, List.mem_singleton] at hl
  rcases hl with hl | rfl
  · exact Nat.le_of_lt (h.2.2 lexed hl p.last (List.mem_singleton_self _)).2
  · exact Nat.le_refl _

theorem first_stop_le_last_stop {p : Passage} (h : p.Sorted) : p.first.stop ≤ p.last.stop :=
  first_stop_le h p.last_mem_tokens

/-- What a passage contains stands in it. -/
theorem tokens_content_sublist {p : Passage} {x : Content} (hx : x ∈ p.contents) :
    x.tokens.Sublist p.tokens := by
  have hin : x.tokens.Sublist (p.contents.flatMap Content.tokens) := by
    rw [List.flatMap_def]
    exact List.sublist_flatten_of_mem (List.mem_map_of_mem hx)
  obtain ⟨s, span, rfl⟩ | ⟨container, hc⟩ := p.scalar_or_container
  · cases hx
  · rw [tokens_eq hc]
    exact (hin.trans (List.sublist_append_left ..)).cons _

theorem Sorted.contents {p : Passage} (h : p.Sorted) :
    Lexed.Sorted (p.contents.flatMap Content.tokens) := by
  obtain ⟨s, span, rfl⟩ | ⟨container, hc⟩ := p.scalar_or_container
  · exact .nil
  · rw [Sorted, tokens_eq hc] at h
    exact h.sublist ((List.sublist_append_left ..).cons _)

/-- What a passage contains stands one behind the other. -/
theorem Sorted.pairwise_contents {p : Passage} (h : p.Sorted) :
    p.contents.Pairwise fun x y => ∀ a ∈ x.tokens, ∀ b ∈ y.tokens,
      a.start < b.start ∧ a.stop < b.stop :=
  (List.pairwise_flatMap.1 h.contents).2

theorem Sorted.content {p : Passage} (h : p.Sorted) {x : Content} (hx : x ∈ p.contents) :
    x.passage.Sorted :=
  h.sublist ((List.sublist_append_right ..).trans (tokens_content_sublist hx))

theorem last_stop_content_le {p : Passage} (h : p.Sorted) {x : Content} (hx : x ∈ p.contents) :
    x.passage.last.stop ≤ p.last.stop :=
  le_last_stop h ((tokens_content_sublist hx).subset
    (List.mem_append_right _ x.passage.last_mem_tokens))

end Passage

/-- Up to any place, some things stand completely in front of it, then one may stand across it,
and the others stand behind. It holds of anything that has tokens: values of a document, and
children of a container. -/
theorem Lexed.exists_split {α : Type} (tokens : α → List Lexed) (xs : List α)
    (h : Lexed.Sorted (xs.flatMap tokens)) (n : Nat) :
    ∃ done rest, xs = done ++ rest ∧ (∀ x ∈ done, ∀ l ∈ tokens x, l.stop ≤ n) ∧
      (rest = [] ∨ ∃ x later, rest = x :: later ∧ (∃ l ∈ tokens x, n < l.stop) ∧
        ∀ y ∈ later, ∀ l ∈ tokens y, n < l.stop) := by
  induction xs with
  | nil => exact ⟨[], [], rfl, fun x hx => absurd hx List.not_mem_nil, .inl rfl⟩
  | cons x xs ih =>
    rw [List.flatMap_cons, Lexed.Sorted, List.pairwise_append] at h
    by_cases hx : ∃ l ∈ tokens x, n < l.stop
    · obtain ⟨l, hl, hn⟩ := hx
      refine ⟨[], x :: xs, rfl, fun x hx => absurd hx List.not_mem_nil, .inr ⟨x, xs, rfl, ⟨l, hl, hn⟩, ?_⟩⟩
      intro y hy l' hl'
      exact Nat.lt_trans hn (h.2.2 l hl l' (List.mem_flatMap_of_mem hy hl')).2
    · obtain ⟨done, rest, rfl, hdone, hrest⟩ := ih h.2.1
      refine ⟨x :: done, rest, rfl, List.forall_mem_cons.2 ⟨fun l hl => ?_, hdone⟩, hrest⟩
      exact Nat.le_of_not_lt fun hn => hx ⟨l, hl, hn⟩

/-! ## What has started -/

/-- The tokens that end in front of a place. -/
def Lexed.upTo (n : Nat) (tokens : List Lexed) : List Lexed :=
  tokens.filter (·.stop ≤ n)

theorem Lexed.upTo_eq_self {n : Nat} {tokens : List Lexed} (h : ∀ l ∈ tokens, l.stop ≤ n) :
    upTo n tokens = tokens :=
  List.filter_eq_self.2 fun l hl => decide_eq_true (h l hl)

theorem Lexed.upTo_eq_nil {n : Nat} {tokens : List Lexed} (h : ∀ l ∈ tokens, n < l.stop) :
    upTo n tokens = [] :=
  List.filter_eq_nil_iff.2 fun l hl => by simpa using h l hl

theorem Lexed.upTo_append (n : Nat) (xs ys : List Lexed) :
    upTo n (xs ++ ys) = upTo n xs ++ upTo n ys :=
  List.filter_append ..

namespace Passage

/-- Whether the first token of a value ends in front of a place. That is when a walk first hears
of the value. -/
def hasStarted (n : Nat) (p : Passage) : Bool :=
  p.first.stop ≤ n

/-- A value that is complete has started. -/
theorem hasStarted_of_last_le {n : Nat} {p : Passage} (h : p.Sorted) (hn : p.last.stop ≤ n) :
    p.hasStarted n = true :=
  decide_eq_true (Nat.le_trans (first_stop_le_last_stop h) hn)

theorem upTo_tokens_of_started {n : Nat} {p : Passage} (h : p.hasStarted n = true) :
    Lexed.upTo n p.tokens = p.first :: Lexed.upTo n p.tokens.tail := by
  obtain ⟨more, hmore⟩ := p.exists_tokens_eq_cons
  rw [hasStarted] at h
  rw [hmore, List.tail_cons, Lexed.upTo, List.filter_cons, if_pos h, Lexed.upTo]

/-- Of a child whose value has started, all is there that stands in front of the value. -/
theorem upTo_tokens_content_of_started {n : Nat} {x : Content} (hsorted : Lexed.Sorted x.tokens)
    (h : x.passage.hasStarted n = true) :
    Lexed.upTo n x.tokens = x.lead ++ Lexed.upTo n x.passage.tokens := by
  have hlead : Lexed.upTo n x.lead = x.lead := by
    refine Lexed.upTo_eq_self fun l hl => Nat.le_trans (Nat.le_of_lt ?_) (of_decide_eq_true h)
    exact ((List.pairwise_append.1 hsorted).2.2 l hl _ x.passage.first_mem_tokens).2
  rw [Content.tokens, Lexed.upTo_append, hlead]

theorem upTo_tokens_of_not_started {n : Nat} {p : Passage} (hp : p.Sorted)
    (h : p.hasStarted n = false) : Lexed.upTo n p.tokens = [] :=
  Lexed.upTo_eq_nil fun _ hl =>
    Nat.lt_of_lt_of_le (Nat.lt_of_not_le (of_decide_eq_false h)) (first_stop_le hp hl)

/-- Where a value is not complete, nothing is there of the values behind it. -/
theorem upTo_series_of_lt_last {n : Nat} {p : Passage} {ps : List Passage}
    (h : Lexed.Sorted (p.tokens ++ ps.flatMap tokens)) (hn : n < p.last.stop) :
    Lexed.upTo n (ps.flatMap tokens) = [] ∧ ∀ q ∈ ps, q.Sorted ∧ q.hasStarted n = false := by
  obtain ⟨-, hbehind, hbefore⟩ := List.pairwise_append.1 h
  have hlt : ∀ l ∈ ps.flatMap tokens, n < l.stop := fun l hl =>
    Nat.lt_trans hn (hbefore _ p.last_mem_tokens l hl).2
  refine ⟨Lexed.upTo_eq_nil hlt, fun q hq => ⟨(List.pairwise_flatMap.1 hbehind).1 q hq, ?_⟩⟩
  have hfirst := hlt _ (List.mem_flatMap_of_mem hq q.first_mem_tokens)
  exact decide_eq_false (Nat.not_le_of_lt hfirst)

/-- The value with what has started in it up to a place. A scalar that has started is complete,
and a container that has started may be empty so far. -/
def upTo (n : Nat) : Passage → Tree
  | scalar s _ => .scalar s
  | array _ elements _ =>
    .array ((elements.takeWhile (hasStarted n)).attach.map fun ⟨e, _⟩ => e.upTo n)
  | object _ members _ =>
    .object ((members.takeWhile fun m => m.2.hasStarted n).attach.map
      fun ⟨m, _⟩ => (m.1.name, m.2.upTo n))
termination_by p => sizeOf p
decreasing_by
  · exact sizeOf_element_lt (List.takeWhile_subset _ ‹_›)
  · exact sizeOf_member_lt (List.takeWhile_subset _ ‹_›)

theorem upTo_array (n : Nat) (opening closing : Span) (elements : List Passage) :
    (array opening elements closing).upTo n =
      .array ((elements.takeWhile (hasStarted n)).map (upTo n)) := by
  rw [upTo, List.map_subtype fun _ _ => rfl, List.unattach_attach]

theorem upTo_object (n : Nat) (opening closing : Span) (members : List (Label × Passage)) :
    (object opening members closing).upTo n =
      .object ((members.takeWhile fun m => m.2.hasStarted n).map
        fun m => (m.1.name, m.2.upTo n)) := by
  rw [upTo, List.map_subtype fun _ _ => rfl, List.unattach_attach]

theorem takeWhile_zipIdx {α : Type} (q : α → Bool) (xs : List α) (k : Nat) :
    (xs.zipIdx k).takeWhile (fun e => q e.1) = (xs.takeWhile q).zipIdx k := by
  induction xs generalizing k with
  | nil => rfl
  | cons x xs ih =>
    rw [List.zipIdx_cons, List.takeWhile_cons, List.takeWhile_cons, ih]
    split <;> rfl

end Passage

/-- A value in a container with what has started in it up to a place. -/
def Content.upTo (n : Nat) (x : Content) : Child × Tree :=
  (x.child, x.passage.upTo n)

namespace Passage

/-- Only the first children have started. The last of them may have only started. -/
theorem children_upTo (n : Nat) (p : Passage) :
    (p.upTo n).children =
      (p.contents.takeWhile fun x => x.passage.hasStarted n).map (Content.upTo n) := by
  cases p with
  | scalar => rw [upTo]; rfl
  | array opening elements closing =>
    rw [upTo_array, Tree.children, contents, List.takeWhile_map, List.zipIdx_map, List.map_map,
      List.map_map, ← takeWhile_zipIdx]
    rfl
  | object opening members closing =>
    rw [upTo_object, Tree.children, contents, List.takeWhile_map, List.map_map, List.map_map]
    rfl

theorem kind_upTo (n : Nat) (p : Passage) : (p.upTo n).kind = p.value.kind := by
  cases p <;> rw [upTo, value] <;> rfl

/-- The first token of a value does not tell how much of it has started. -/
theorem value_upTo (n start stop : Nat) (p : Passage) :
    (p.upTo n).value start stop = p.value.value start stop := by
  cases p <;> rw [upTo, value] <;> rfl

theorem text?_upTo (n : Nat) (p : Passage) : (p.upTo n).text? = p.value.text? := by
  cases p <;> rw [upTo, value] <;> rfl

end Passage

/-- A container is what its children are. -/
theorem Tree.eq_of_children {t t' : Tree} {container : Container}
    (ht : t.kind.container? = some container) (hk : t'.kind = t.kind) (h : t'.children = t.children) :
    t' = t := by
  cases t with
  | scalar s => cases s <;> cases ht
  | array elements =>
    cases t' with
    | scalar s => cases s <;> cases hk
    | object => cases hk
    | array elements' =>
      have hsnd := congrArg (List.map Prod.snd) h
      simp only [children, List.map_map, Function.comp_def] at hsnd
      exact congrArg array
        ((List.zipIdx_map_fst 0 elements').symm.trans (hsnd.trans (List.zipIdx_map_fst 0 elements)))
  | object members =>
    cases t' with
    | scalar s => cases s <;> cases hk
    | array => cases hk
    | object members' =>
      refine congrArg object (List.map_injective_iff.2 ?_ h)
      rintro ⟨name, u⟩ ⟨name', u'⟩ hm
      cases hm
      rfl

namespace Passage

/-- A value that is complete has started in all its parts. All of its tokens end in front of the
place. -/
theorem upTo_eq_value {n : Nat} {p : Passage} (h : p.Sorted) (hn : p.last.stop ≤ n) :
    p.upTo n = p.value := by
  induction p using induction with | step p ih =>
  obtain ⟨s, span, rfl⟩ | ⟨container, hc⟩ := p.scalar_or_container
  · rw [upTo, value]
  · have hall : p.contents.takeWhile (fun x => x.passage.hasStarted n) = p.contents := by
      rw [List.takeWhile_eq_self_iff]
      intro x hx
      exact hasStarted_of_last_le (h.content hx) (Nat.le_trans (last_stop_content_le h hx) hn)
    refine Tree.eq_of_children hc (kind_upTo n p) ?_
    rw [children_upTo, children_value, hall]
    refine List.map_congr_left fun x hx => ?_
    rw [Content.upTo, Content.value,
      ih x hx (h.content hx) (Nat.le_trans (last_stop_content_le h hx) hn)]

/-- The name of a child is one token, or there is none. -/
theorem upTo_lead {p : Passage} {x : Content} (hx : x ∈ p.contents) (n : Nat) :
    Lexed.upTo n x.lead = [] ∨ Lexed.upTo n x.lead = x.lead := by
  obtain ⟨hlead, -⟩ | ⟨l, hlead, -⟩ := lead_of_mem_contents hx
  · exact .inl (by rw [hlead]; rfl)
  · rw [hlead, Lexed.upTo, List.filter_singleton]
    cases decide (l.lexed.stop ≤ n) with
    | true => exact .inr rfl
    | false => exact .inl rfl

/-! ### The children of a container up to a place -/

/-- What is there of a container up to a place: some children are complete, and of the others none
but the first has any token in front of the place. Which child is the first of the others is told
by the place alone. -/
structure Cut (n : Nat) (p : Passage) (done rest : List Content) : Prop where
  contents : p.contents = done ++ rest
  complete : ∀ x ∈ done, ∀ l ∈ x.tokens, l.stop ≤ n
  rest : rest = [] ∨ ∃ x later, rest = x :: later ∧ ∀ y ∈ later, ∀ l ∈ y.tokens, n < l.stop

theorem exists_cut {p : Passage} (h : p.Sorted) (n : Nat) : ∃ done rest, p.Cut n done rest := by
  obtain ⟨done, rest, hsplit, hdone, hrest⟩ :=
    Lexed.exists_split Content.tokens p.contents h.contents n
  exact ⟨done, rest, hsplit, hdone,
    hrest.imp_right fun ⟨x, later, hrest, _, hlater⟩ => ⟨x, later, hrest, hlater⟩⟩

/-- The members among children that have started up to a place. -/
def startedMembers (n : Nat) (xs : List Content) : Members :=
  ((xs.takeWhile fun x => x.passage.hasStarted n).map (Content.upTo n)).flatMap Child.asMember

section

variable {n : Nat} {later : List Content} (h : ∀ y ∈ later, ∀ l ∈ y.tokens, n < l.stop)

include h

/-- Nothing is there of children of which no token ends in front of the place. -/
theorem upTo_tokens_later : Lexed.upTo n (later.flatMap Content.tokens) = [] :=
  Lexed.upTo_eq_nil fun l hl => by
    obtain ⟨y, hy, hl⟩ := List.mem_flatMap.1 hl
    exact h y hy l hl

theorem lt_first_later {y : Content} (hy : y ∈ later) : n < y.passage.first.stop :=
  h y hy _ (List.mem_append_right _ y.passage.first_mem_tokens)

/-- In front of such children, only one child may have started. -/
theorem startedMembers_cons (x : Content) :
    startedMembers n (x :: later) =
      if x.passage.hasStarted n then Child.asMember (x.upTo n) else [] := by
  have hnone : later.takeWhile (fun y => y.passage.hasStarted n) = [] := by
    cases later with
    | nil => rfl
    | cons y later =>
      have hy := lt_first_later h List.mem_cons_self
      rw [List.takeWhile_cons, if_neg (by simpa [hasStarted] using hy)]
  rw [startedMembers, List.takeWhile_cons, hnone]
  split
  · rw [List.map_singleton, List.flatMap_singleton]
  · rfl

end

namespace Cut

variable {n : Nat} {p : Passage} {done rest : List Content} (h : p.Cut n done rest)

include h

theorem mem_of_mem_done {x : Content} (hx : x ∈ done) : x ∈ p.contents :=
  h.contents ▸ List.mem_append_left _ hx

theorem mem_of_mem_rest {x : Content} (hx : x ∈ rest) : x ∈ p.contents :=
  h.contents ▸ List.mem_append_right _ hx

theorem last_le {x : Content} (hx : x ∈ done) : x.passage.last.stop ≤ n :=
  h.complete x hx _ (List.mem_append_right _ x.passage.last_mem_tokens)

theorem upTo_eq (hp : p.Sorted) {x : Content} (hx : x ∈ done) : x.upTo n = x.value := by
  rw [Content.upTo, Content.value, upTo_eq_value (hp.content (h.mem_of_mem_done hx)) (h.last_le hx)]

theorem members_upTo (hp : p.Sorted) :
    (p.upTo n).members =
      (done.map Content.value).flatMap Child.asMember ++ startedMembers n rest := by
  have hstarted : ∀ x ∈ done, x.passage.hasStarted n = true := fun x hx =>
    hasStarted_of_last_le (hp.content (h.mem_of_mem_done hx)) (h.last_le hx)
  rw [Tree.members_eq, children_upTo, h.contents, List.takeWhile_append_of_pos hstarted,
    List.map_append, List.map_congr_left fun x hx => h.upTo_eq hp hx, List.flatMap_append,
    startedMembers]

/-- The tokens behind the opening bracket, if the closing one is not there. -/
theorem tail_upTo {container : Container} (hc : p.value.kind.container? = some container)
    (hn : n < p.last.stop) :
    Lexed.upTo n p.tokens.tail =
      done.flatMap Content.tokens ++ Lexed.upTo n (rest.flatMap Content.tokens) := by
  have hlast : Lexed.upTo n [p.last] = [] :=
    Lexed.upTo_eq_nil fun l hl => List.mem_singleton.1 hl ▸ hn
  have hdone : Lexed.upTo n (done.flatMap Content.tokens) = done.flatMap Content.tokens :=
    Lexed.upTo_eq_self fun l hl => by
      obtain ⟨x, hx, hl⟩ := List.mem_flatMap.1 hl
      exact h.complete x hx l hl
  rw [tokens_eq hc, List.tail_cons, h.contents, List.flatMap_append, Lexed.upTo_append,
    Lexed.upTo_append, hlast, List.append_nil, hdone]

theorem fit {container : Container} (hc : p.value.kind.container? = some container) :
    Child.Fit container 0 (done.map Content.value) ∧
      Child.Fit container (0 + (done.map Content.value).length) (rest.map Content.value) := by
  have hfit := Tree.fit_children hc
  rwa [children_value, h.contents, List.map_append, Child.fit_append] at hfit

end Cut

end Passage

end JsonExtract
