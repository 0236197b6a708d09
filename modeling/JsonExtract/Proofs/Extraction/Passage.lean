import JsonExtract.Proofs.Extraction.Children
import Mathlib.Data.List.Basic

/-!
# Values with the places of their tokens

A passage is a value together with the places at which its tokens stand in a document. What has no
tokens of its own, such as space and commas, has no place here.

* `Span`, `Label`, `Passage` — values with places;
* `Passage.value`, `Passage.tokens`, `Passage.contents` — the value, its tokens, and what it contains;
* `Passage.map_token_tokens` — the tokens are those of the value;
* `Passage.exists_of_tokens`, `Passage.exists_of_series` — tokens of values make passages.
-/

namespace JsonExtract

/-- Where a token stands. It is the part of a `Lexed` that the tree of a document does not
determine. -/
structure Span where
  /-- number of bytes in front of it -/
  start : Nat
  /-- number of bytes up to its end -/
  stop : Nat
  deriving DecidableEq, Repr

/-- A token at its place. -/
def Span.lexed (token : Token) (s : Span) : Lexed :=
  ⟨token, s.start, s.stop⟩

/-- The name of a member with its place. -/
structure Label where
  /-- the name between the quotes -/
  name : Bytes
  /-- where it stands -/
  span : Span
  deriving DecidableEq, Repr

/-- The name as a token. -/
def Label.lexed (l : Label) : Lexed :=
  l.span.lexed (.name (Bytes.quoted l.name))

/-- A value with the places of its tokens. Brackets have places, too, since a container is
complete at its last one. -/
inductive Passage
  /-- a value that is no container -/
  | scalar (scalar : Scalar) (span : Span)
  /-- an array between its brackets -/
  | array (opening : Span) (elements : List Passage) (closing : Span)
  /-- an object between its brackets -/
  | object (opening : Span) (members : List (Label × Passage)) (closing : Span)
  deriving Repr

/-- A value in a container. The name is kept as a list of tokens, which is empty for an element. -/
structure Content where
  /-- the name in front of it, if it is a member -/
  lead : List Lexed
  /-- which child it is -/
  child : Child
  /-- the value -/
  passage : Passage

namespace Passage

/-! ## Recursion

Arrays and objects hold passages in lists, so functions on passages are defined by recursion on
their size. Lemmas about containers use `contents`, which presents the values in both kinds of
container in the same way. -/

theorem sizeOf_member_lt {opening closing : Span} {members : List (Label × Passage)}
    {m : Label × Passage} (h : m ∈ members) :
    sizeOf m.2 < sizeOf (object opening members closing) := by
  have hm := List.sizeOf_lt_of_mem h
  obtain ⟨label, p⟩ := m
  simp only [Prod.mk.sizeOf_spec, object.sizeOf_spec] at hm ⊢
  omega

theorem sizeOf_element_lt {opening closing : Span} {elements : List Passage} {e : Passage}
    (h : e ∈ elements) : sizeOf e < sizeOf (array opening elements closing) := by
  have he := List.sizeOf_lt_of_mem h
  simp only [array.sizeOf_spec]
  omega

/-- The value. -/
def value : Passage → Tree
  | scalar s _ => .scalar s
  | array _ elements _ => .array (elements.map value)
  | object _ members _ => .object (members.map fun m => (m.1.name, m.2.value))
termination_by p => sizeOf p
decreasing_by
  · exact sizeOf_element_lt ‹_›
  · exact sizeOf_member_lt ‹_›

/-- The tokens at their places. -/
def tokens : Passage → List Lexed
  | scalar s span => [span.lexed (.scalar s.kind s.raw)]
  | array opening elements closing =>
    opening.lexed (.opening .array) ::
      (elements.flatMap tokens ++ [closing.lexed (.closing .array)])
  | object opening members closing =>
    opening.lexed (.opening .object) ::
      (members.flatMap (fun m => m.1.lexed :: m.2.tokens) ++ [closing.lexed (.closing .object)])
termination_by p => sizeOf p
decreasing_by
  · exact sizeOf_element_lt ‹_›
  · exact sizeOf_member_lt ‹_›

/-- The values in a container, in their order. -/
def contents : Passage → List Content
  | scalar .. => []
  | array _ elements _ => elements.zipIdx.map fun e => ⟨[], .element e.2, e.1⟩
  | object _ members _ => members.map fun m => ⟨[m.1.lexed], .member m.1.name, m.2⟩

/-- The members of an object; other values have none. -/
def members : Passage → List (Bytes × Passage)
  | object _ members _ => members.map fun m => (m.1.name, m.2)
  | scalar .. | array .. => []

/-- The first token. -/
def first : Passage → Lexed
  | scalar s span => span.lexed (.scalar s.kind s.raw)
  | array opening .. => opening.lexed (.opening .array)
  | object opening .. => opening.lexed (.opening .object)

/-- The last token. -/
def last : Passage → Lexed
  | scalar s span => span.lexed (.scalar s.kind s.raw)
  | array _ _ closing => closing.lexed (.closing .array)
  | object _ _ closing => closing.lexed (.closing .object)

/-- What a container holds is smaller than the container. -/
theorem sizeOf_content_lt {p : Passage} {x : Content} (hx : x ∈ p.contents) :
    sizeOf x.passage < sizeOf p := by
  cases p with
  | scalar => cases hx
  | array =>
    obtain ⟨e, he, rfl⟩ := List.mem_map.1 hx
    exact sizeOf_element_lt (List.fst_mem_of_mem_zipIdx he)
  | object =>
    obtain ⟨m, hm, rfl⟩ := List.mem_map.1 hx
    exact sizeOf_member_lt hm

/-- What holds of a passage if it holds of all values in it holds of every passage. Both kinds of
container are covered by the same step. -/
theorem induction {P : Passage → Prop} (step : ∀ p : Passage, (∀ x ∈ p.contents, P x.passage) → P p)
    (p : Passage) : P p :=
  step p fun x _ => induction step x.passage
termination_by sizeOf p
decreasing_by exact sizeOf_content_lt ‹_›

/-- A passage is a scalar, or a container between its brackets. -/
theorem scalar_or_container (p : Passage) :
    (∃ s span, p = scalar s span) ∨ ∃ container, p.value.kind.container? = some container := by
  cases p with
  | scalar s span => exact .inl ⟨s, span, rfl⟩
  | array | object => exact .inr ⟨_, by rw [value]; rfl⟩

end Passage

/-! ## Values and tokens

A passage holds its tokens with their places, and forgetting the places gives the tokens of its
value. In the other direction, whatever places the tokens of a value have, there is a passage
with exactly these. -/

/-- The tokens of a value in a container, its name first. -/
def Content.tokens (x : Content) : List Lexed :=
  x.lead ++ x.passage.tokens

/-- The value in a container, without places. -/
def Content.value (x : Content) : Child × Tree :=
  (x.child, x.passage.value)

namespace Passage

/-- A member has its name in front, and an element has nothing. -/
theorem lead_of_mem_contents {p : Passage} {x : Content} (hx : x ∈ p.contents) :
    x.lead = [] ∧ (∃ position, x.child = .element position) ∨
      ∃ l : Label, x.lead = [l.lexed] ∧ x.child = .member l.name := by
  cases p with
  | scalar => cases hx
  | array =>
    obtain ⟨e, -, rfl⟩ := List.mem_map.1 hx
    exact .inl ⟨rfl, e.2, rfl⟩
  | object =>
    obtain ⟨m, -, rfl⟩ := List.mem_map.1 hx
    exact .inr ⟨m.1, rfl, rfl⟩

theorem children_value (p : Passage) : p.value.children = p.contents.map Content.value := by
  cases p with
  | scalar => rw [value]; rfl
  | array =>
    rw [value, Tree.children, contents, List.zipIdx_map, List.map_map, List.map_map]
    rfl
  | object =>
    rw [value, Tree.children, contents, List.map_map, List.map_map]
    rfl

section

variable {p : Passage} {container : Container} (h : p.value.kind.container? = some container)

include h

theorem token_first : p.first.token = .opening container := by
  cases p with
  | scalar s => rw [value] at h; cases s <;> cases h
  | array | object => rw [value] at h; cases h; rfl

theorem token_last : p.last.token = .closing container := by
  cases p with
  | scalar s => rw [value] at h; cases s <;> cases h
  | array | object => rw [value] at h; cases h; rfl

/-- A container between its brackets. -/
theorem tokens_eq : p.tokens = p.first :: (p.contents.flatMap Content.tokens ++ [p.last]) := by
  cases p with
  | scalar s => rw [value] at h; cases s <;> cases h
  | array opening elements closing =>
    have hfst : elements.flatMap tokens = elements.zipIdx.flatMap fun e => e.1.tokens := by
      rw [← List.flatMap_map Prod.fst, List.zipIdx_map_fst]
    rw [tokens, contents, List.flatMap_map, hfst]
    rfl
  | object opening members closing =>
    rw [tokens, contents, List.flatMap_map]
    rfl

end

theorem map_token_content {p : Passage} {x : Content} (hx : x ∈ p.contents)
    (h : x.passage.tokens.map (·.token) = x.passage.value.tokens) :
    x.tokens.map (·.token) = Child.tokens x.value := by
  rw [Content.tokens, List.map_append, h, Child.tokens, Content.value]
  obtain ⟨hlead, position, hchild⟩ | ⟨l, hlead, hchild⟩ := lead_of_mem_contents hx
  · rw [hlead, hchild]
    rfl
  · rw [hlead, hchild]
    rfl

/-- The tokens of a passage are those of its value. -/
theorem map_token_tokens (p : Passage) : p.tokens.map (·.token) = p.value.tokens := by
  induction p using induction with | step p ih =>
  obtain ⟨s, span, rfl⟩ | ⟨container, hc⟩ := p.scalar_or_container
  · rw [tokens, value, Tree.tokens]
    rfl
  · rw [tokens_eq hc, Tree.tokens_eq hc, children_value, List.flatMap_map, List.map_cons,
      List.map_append, List.map_flatMap, token_first hc, List.map_singleton, token_last hc]
    rw [List.flatMap_congr fun x hx => map_token_content hx (ih x hx)]

theorem map_token_contents (p : Passage) (xs : List Content) (hxs : xs ⊆ p.contents) :
    (xs.flatMap Content.tokens).map (·.token) = (xs.map Content.value).flatMap Child.tokens := by
  rw [List.map_flatMap, List.flatMap_map]
  exact List.flatMap_congr fun x hx => map_token_content (hxs hx) (map_token_tokens x.passage)

end Passage

/-! ### From tokens to passages -/

namespace Passage

/-- Tokens of values make passages, if they do so value by value. -/
theorem exists_of_flatMap {values : List Tree}
    (h : ∀ t ∈ values, ∀ ts : List Lexed, ts.map (·.token) = t.tokens →
      ∃ p : Passage, p.value = t ∧ p.tokens = ts) {ts : List Lexed}
    (hts : ts.map (·.token) = values.flatMap Tree.tokens) :
    ∃ ps : List Passage, ps.map value = values ∧ ps.flatMap tokens = ts := by
  induction values generalizing ts with
  | nil => exact ⟨[], rfl, (List.map_eq_nil_iff.1 hts).symm⟩
  | cons t values ih =>
    rw [List.forall_mem_cons] at h
    rw [List.flatMap_cons] at hts
    obtain ⟨these, others, rfl, hthese, hothers⟩ := List.map_eq_append_iff.1 hts
    obtain ⟨p, rfl, rfl⟩ := h.1 these hthese
    obtain ⟨ps, rfl, rfl⟩ := ih h.2 hothers
    exact ⟨p :: ps, rfl, rfl⟩

/-- The same for members. -/
theorem exists_of_members {members : Members}
    (h : ∀ m ∈ members, ∀ ts : List Lexed, ts.map (·.token) = m.2.tokens →
      ∃ p : Passage, p.value = m.2 ∧ p.tokens = ts) {ts : List Lexed}
    (hts : ts.map (·.token) = members.flatMap fun m => .name (Bytes.quoted m.1) :: m.2.tokens) :
    ∃ ms : List (Label × Passage), (ms.map fun m => (m.1.name, m.2.value)) = members ∧
      (ms.flatMap fun m => m.1.lexed :: m.2.tokens) = ts := by
  induction members generalizing ts with
  | nil => exact ⟨[], rfl, (List.map_eq_nil_iff.1 hts).symm⟩
  | cons m members ih =>
    rw [List.forall_mem_cons] at h
    rw [List.flatMap_cons, List.cons_append] at hts
    obtain ⟨name, more, rfl, hname, hmore⟩ := List.map_eq_cons_iff.1 hts
    obtain ⟨these, others, rfl, hthese, hothers⟩ := List.map_eq_append_iff.1 hmore
    obtain ⟨p, hp, rfl⟩ := h.1 these hthese
    obtain ⟨ms, rfl, rfl⟩ := ih h.2 hothers
    refine ⟨(⟨m.1, name.start, name.stop⟩, p) :: ms, ?_, ?_⟩
    · rw [List.map_cons, hp]
    · rw [List.flatMap_cons, List.cons_append, Label.lexed, Span.lexed, ← hname]

/-- The tokens of a value make a passage. So a statement about all passages is one about all ways
in which the tokens of a value can stand in a document. -/
theorem exists_of_tokens (t : Tree) :
    ∀ ts : List Lexed, ts.map (·.token) = t.tokens → ∃ p : Passage, p.value = t ∧ p.tokens = ts := by
  -- brackets are taken off at both ends, and what is between them is what the container holds
  have hbetween : ∀ {c : Container} {inner : List Token} {ts : List Lexed},
      ts.map (·.token) = .opening c :: (inner ++ [.closing c]) →
        ∃ opening closing : Span, ∃ between : List Lexed, between.map (·.token) = inner ∧
          ts = opening.lexed (.opening c) :: (between ++ [closing.lexed (.closing c)]) := by
    intro c inner ts hts
    obtain ⟨opening, more, rfl, hopening, hmore⟩ := List.map_eq_cons_iff.1 hts
    obtain ⟨between, behind, rfl, hbetween, hbehind⟩ := List.map_eq_append_iff.1 hmore
    obtain ⟨closing, none, rfl, hclosing, hnone⟩ := List.map_eq_cons_iff.1 hbehind
    refine ⟨⟨opening.start, opening.stop⟩, ⟨closing.start, closing.stop⟩, between, hbetween, ?_⟩
    rw [Span.lexed, Span.lexed, ← hopening, ← hclosing, List.map_eq_nil_iff.1 hnone]
  induction t using Tree.induction with
  | scalar s =>
    intro ts hts
    rw [Tree.tokens] at hts
    obtain ⟨lexed, none, rfl, hlexed, hnone⟩ := List.map_eq_cons_iff.1 hts
    refine ⟨.scalar s ⟨lexed.start, lexed.stop⟩, by rw [value], ?_⟩
    rw [tokens, Span.lexed, ← hlexed, List.map_eq_nil_iff.1 hnone]
  | array elements ih =>
    intro ts hts
    rw [Tree.tokens] at hts
    obtain ⟨opening, closing, between, hinner, rfl⟩ := hbetween hts
    obtain ⟨ps, rfl, rfl⟩ := exists_of_flatMap ih hinner
    exact ⟨.array opening ps closing, by rw [value], by rw [tokens]⟩
  | object members ih =>
    intro ts hts
    rw [Tree.tokens] at hts
    obtain ⟨opening, closing, between, hinner, rfl⟩ := hbetween hts
    obtain ⟨ms, rfl, rfl⟩ := exists_of_members ih hinner
    exact ⟨.object opening ms closing, by rw [value], by rw [tokens]⟩

/-- The tokens of a series of values make passages. -/
theorem exists_of_series {values : List Tree} {ts : List Lexed}
    (hts : ts.map (·.token) = values.flatMap Tree.tokens) :
    ∃ ps : List Passage, ps.map value = values ∧ ps.flatMap tokens = ts :=
  exists_of_flatMap (fun t _ => exists_of_tokens t) hts

end Passage

end JsonExtract
