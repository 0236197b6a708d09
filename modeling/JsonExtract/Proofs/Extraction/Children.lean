import JsonExtract.Proofs.Extraction.Reference
import JsonExtract.Session.Walk

/-!
# Containers as rows of children

A walk treats objects and arrays much alike: between the brackets stand children, and each child takes
one step. What differs is that a member has its name in front, and that elements are counted.

* `Child.asMember`, `Child.tokens`, `Child.text` — one child;
* `Child.row` — the text of some children, with commas;
* `Child.Fit` — children that stand in a container behind some others;
* `Tree.members_eq`, `Tree.tokens_eq`, `Tree.text_eq`, `Tree.fit_children` — a container by its
  children;
* `Tree.value` — a value as its first token presents it.
-/

namespace JsonExtract

/-- The names of members, each with its value. -/
abbrev Members := List (Bytes × Tree)

/-! ## One child

A child is a selector's view of a member or an element, together with the value. Its tokens and
its text begin with the name if it is a member, so a row of children has one description for
both containers. -/

namespace Child

/-- The member that a child is, if it is one. -/
def asMember (c : Child × Tree) : Members :=
  match c.1 with
  | .member name => [(name, c.2)]
  | .element _ => []

/-- A child token by token. -/
def tokens (c : Child × Tree) : List Token :=
  match c.1 with
  | .member name => .name (Bytes.quoted name) :: c.2.tokens
  | .element _ => c.2.tokens

/-- The text of a child, with its name if it is a member. -/
def text (c : Child × Tree) : Bytes :=
  match c.1 with
  | .member name => Bytes.quoted name ++ Ascii.colon :: c.2.text
  | .element _ => c.2.text

/-- The text of children in a container, behind `count` others. -/
def row (count : Nat) (cs : List (Child × Tree)) : Bytes :=
  if count = 0 then [Ascii.comma].intercalate (cs.map text)
  else cs.flatMap fun c => Ascii.comma :: text c

theorem row_nil (count : Nat) : row count [] = [] := by
  rw [row]
  split <;> rfl

/-- A comma stands in front of each child but the first. -/
theorem row_cons (count : Nat) (c : Child × Tree) (cs : List (Child × Tree)) :
    row count (c :: cs) =
      (if count = 0 then [] else [Ascii.comma]) ++ (text c ++ row (count + 1) cs) := by
  have hmore : ∀ x : Bytes, [Ascii.comma].intercalate (x :: cs.map text) =
      x ++ cs.flatMap fun c => Ascii.comma :: text c := by
    induction cs with
    | nil => intro x; simp [List.intercalate]
    | cons d ds ih =>
      intro x
      have hd := ih (text d)
      simp only [List.intercalate, List.map_cons, List.flatMap_cons] at hd ⊢
      rw [List.intersperse_cons_cons, List.flatten_cons, List.flatten_cons, hd]
      simp
  rw [row, row, if_neg (Nat.succ_ne_zero count)]
  split
  · rw [List.map_cons, hmore]; rfl
  · rw [List.flatMap_cons]; rfl

theorem row_cons_eq_append (count : Nat) (c : Child × Tree) (cs : List (Child × Tree)) :
    row count (c :: cs) = row count [c] ++ row (count + 1) cs := by
  rw [row_cons, row_cons count c [], row_nil, List.append_nil, List.append_assoc]

/-- Children of a container that stand behind `count` others. Elements are counted from `count`
on, and members may have any names. -/
def Fit (container : Container) : Nat → List (Child × Tree) → Prop
  | _, [] => True
  | count, c :: cs =>
    (match container with
      | .object => ∃ name, c.1 = .member name
      | .array => c.1 = .element count) ∧ Fit container (count + 1) cs

theorem fit_append {container : Container} {count : Nat} {cs ds : List (Child × Tree)} :
    Fit container count (cs ++ ds) ↔ Fit container count cs ∧ Fit container (count + cs.length) ds := by
  induction cs generalizing count with
  | nil => simp [Fit]
  | cons c cs ih =>
    have hcount : count + (c :: cs).length = count + 1 + cs.length := by
      rw [List.length_cons]
      omega
    rw [hcount]
    exact (and_congr_right fun _ => ih).trans and_assoc.symm

end Child

/-! ## Containers

Tokens, text and members of a container are those of its children between the brackets.
Statements about containers are proved once over this description. -/

namespace Tree

/-- The members of an object are its children. -/
theorem members_eq (t : Tree) : t.members = t.children.flatMap Child.asMember := by
  cases t with
  | scalar s => rfl
  | array elements => simp [members, children, Child.asMember, List.flatMap_map]
  | object members => simp [Tree.members, children, Child.asMember, List.flatMap_map]

variable {t : Tree} {container : Container} (h : t.kind.container? = some container)

include h

theorem tokens_eq : t.tokens =
    .opening container :: (t.children.flatMap Child.tokens ++ [.closing container]) := by
  cases t with
  | scalar s => cases s <;> cases h
  | array elements =>
    cases h
    have hfst : elements.flatMap tokens = elements.zipIdx.flatMap fun e => e.1.tokens := by
      rw [← List.flatMap_map Prod.fst, List.zipIdx_map_fst]
    rw [tokens, children, List.flatMap_map, hfst]
    rfl
  | object members =>
    cases h
    rw [tokens, children, List.flatMap_map]
    rfl

theorem text_eq : t.text =
    container.opening :: (Child.row 0 t.children ++ [container.closing]) := by
  cases t with
  | scalar s => cases s <;> cases h
  | array elements =>
    cases h
    have hfst : elements.map text = elements.zipIdx.map fun e => e.1.text :=
      (congrArg (List.map text) (List.zipIdx_map_fst 0 elements)).symm.trans List.map_map
    rw [text, Child.row, if_pos rfl, children, List.map_map, hfst]
    rfl
  | object members =>
    cases h
    rw [text, Child.row, if_pos rfl, children, List.map_map]
    rfl

theorem fit_children : Child.Fit container 0 t.children := by
  cases t with
  | scalar s => cases s <;> cases h
  | array elements =>
    cases h
    have hfit : ∀ (es : List Tree) (k : Nat),
        Child.Fit .array k ((es.zipIdx k).map fun e => (.element e.2, e.1)) := by
      intro es
      induction es with
      | nil => exact fun _ => trivial
      | cons e es ih => exact fun k => ⟨rfl, ih (k + 1)⟩
    exact hfit elements 0
  | object members =>
    cases h
    have hfit : ∀ (ms : Members) (k : Nat),
        Child.Fit .object k (ms.map fun m => (.member m.1, m.2)) := by
      intro ms
      induction ms with
      | nil => exact fun _ => trivial
      | cons m ms ih => exact fun k => ⟨⟨m.1, rfl⟩, ih (k + 1)⟩
    exact hfit members 0

end Tree

/-! ## First tokens

A walk meets a value by its first token, which tells the kind and, for scalars, everything else.
`Tree.value` is what the walk makes of it. -/

namespace Tree

/-- The first token of a value. -/
def first : Tree → Bytes
  | scalar s => s.raw
  | array _ => [Ascii.openBracket]
  | object _ => [Ascii.openBrace]

/-- A value as its first token presents it. -/
def value (start stop : Nat) (t : Tree) : Value :=
  ⟨t.kind, t.first, start, stop⟩

/-- The text that filters compare is there with the first token. -/
theorem text?_value (start stop : Nat) (t : Tree) : (t.value start stop).text? = t.text? := by
  cases t with
  | scalar s =>
    cases s with
    | string inner => exact congrArg some (Bytes.stripQuotes_quoted inner)
    | number raw => rfl
    | boolean b => cases b <;> rfl
    | null => rfl
  | array elements => rfl
  | object members => rfl

theorem tokens_ne_nil (t : Tree) : t.tokens ≠ [] := by
  cases t <;> simp [tokens]

/-- The first token of a value starts it. The places of the token are those that the value is
given. -/
theorem token_first {lexed : Lexed} {t : Tree} {more : List Token}
    (h : t.tokens = lexed.token :: more) (paths : List Path) (w : Walk) :
    w.token paths lexed = w.arrive paths (t.value lexed.start lexed.stop) := by
  cases t with
  | scalar s =>
    rw [tokens, List.cons.injEq] at h
    rw [Walk.token, ← h.1]
    rfl
  | array elements =>
    rw [tokens, List.cons.injEq] at h
    rw [Walk.token, ← h.1]
    rfl
  | object members =>
    rw [tokens, List.cons.injEq] at h
    rw [Walk.token, ← h.1]
    rfl

end Tree

end JsonExtract
