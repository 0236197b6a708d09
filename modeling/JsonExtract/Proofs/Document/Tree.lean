import JsonExtract.Path.Selector
import JsonExtract.Token.Basic

/-!
# Documents as trees

What a document says, apart from the space between its tokens: a value is a scalar, the elements of
an array or the members of an object. Texts stay as they are written; no escape is decoded. Members
keep their order, and a name may occur more than once.

* `Scalar`, `Tree` — values;
* `Tree.children` — the values in a container, each with its place;
* `Tree.depth` — how deep containers are nested;
* `Tree.tokens`, `Tree.text` — a value token by token, and its text without space.
-/

namespace JsonExtract

/-- The text in quotes. -/
def Bytes.quoted (inner : Bytes) : Bytes :=
  Ascii.quote :: (inner ++ [Ascii.quote])

/-! ## Scalars

A number is kept as it is written, since it is given out so, and a string with its escapes. -/

/-- A value that is no container. Numbers of the same size may be different scalars, as they may
be written differently. -/
inductive Scalar
  /-- a string, by the bytes between its quotes -/
  | string (inner : Bytes)
  /-- a number, as it is written -/
  | number (raw : Bytes)
  /-- `true` or `false` -/
  | boolean (value : Bool)
  /-- `null` -/
  | null
  deriving DecidableEq, Repr

namespace Scalar

/-- The kind of a scalar. -/
def kind : Scalar → Kind
  | string _ => .string
  | number _ => .number
  | boolean _ => .boolean
  | null => .null

/-- A scalar as it is written in a document. Nothing is chosen here, since strings and numbers
bring their texts with them. -/
def raw : Scalar → Bytes
  | string inner => Bytes.quoted inner
  | number raw => raw
  | boolean true => Bytes.ofString "true"
  | boolean false => Bytes.ofString "false"
  | null => Bytes.ofString "null"

/-- The text of a scalar, which for a string is what stands between its quotes. -/
def text : Scalar → Bytes
  | string inner => inner
  | scalar => scalar.raw

end Scalar

/-! ## Values

The order of members is kept, and repeated names are allowed, as in the document. -/

/-- A JSON value. Two trees are equal only if their documents differ in space at most. -/
inductive Tree
  /-- a value that is no container -/
  | scalar (scalar : Scalar)
  /-- the elements of an array -/
  | array (elements : List Tree)
  /-- the members of an object, each with its name between the quotes -/
  | object (members : List (Bytes × Tree))
  deriving Repr

namespace Tree

/-- The kind of a value. -/
def kind : Tree → Kind
  | scalar s => s.kind
  | array _ => .array
  | object _ => .object

/-- The values in a container, in their order. Each comes with its place in the container, as
selectors look at this and at nothing else. -/
def children : Tree → List (Child × Tree)
  | scalar _ => []
  | array elements => elements.zipIdx.map fun e => (.element e.2, e.1)
  | object members => members.map fun m => (.member m.1, m.2)

/-! ### Recursion -/

/-- A member is smaller than its object. -/
theorem sizeOf_member_lt {members : List (Bytes × Tree)} {m : Bytes × Tree} (h : m ∈ members) :
    sizeOf m.2 < sizeOf (object members) := by
  have hm := List.sizeOf_lt_of_mem h
  obtain ⟨name, value⟩ := m
  simp only [Prod.mk.sizeOf_spec, object.sizeOf_spec] at hm ⊢
  omega

/-- An element is smaller than its array. -/
theorem sizeOf_element_lt {elements : List Tree} {e : Tree} (h : e ∈ elements) :
    sizeOf e < sizeOf (array elements) := by
  have he := List.sizeOf_lt_of_mem h
  simp only [array.sizeOf_spec]
  omega

/-- What holds of a value if it holds of all values in it holds of every value. -/
theorem induction {P : Tree → Prop} (scalar : ∀ s, P (scalar s))
    (array : ∀ elements, (∀ e ∈ elements, P e) → P (array elements))
    (object : ∀ members : List (Bytes × Tree), (∀ m ∈ members, P m.2) → P (object members)) :
    ∀ t, P t
  | .scalar s => scalar s
  | .array elements => array elements fun e _ => induction scalar array object e
  | .object members => object members fun m _ => induction scalar array object m.2
termination_by t => sizeOf t
decreasing_by
  · exact sizeOf_element_lt ‹_›
  · exact sizeOf_member_lt ‹_›

/-! ### Depth -/

/-- The greatest number of containers that are open at one place in the text of a value. -/
def depth : Tree → Nat
  | scalar _ => 0
  | array elements => 1 + (elements.map depth).foldr max 0
  | object members => 1 + (members.map fun m => m.2.depth).foldr max 0
termination_by t => sizeOf t
decreasing_by
  · exact sizeOf_element_lt ‹_›
  · exact sizeOf_member_lt ‹_›

theorem le_foldr_max_iff (n : Nat) (ns : List Nat) : ns.foldr max 0 ≤ n ↔ ∀ k ∈ ns, k ≤ n := by
  induction ns with
  | nil => simp
  | cons k ns ih => rw [List.foldr_cons, Nat.max_le, ih, List.forall_mem_cons]

/-- There is room for an array inside of `n` containers if there is room for one container more and,
inside of that, for the elements. -/
theorem add_depth_array_le_iff {n limit : Nat} {elements : List Tree} :
    n + (array elements).depth ≤ limit ↔
      n < limit ∧ ∀ e ∈ elements, n + 1 + e.depth ≤ limit := by
  have hmax := le_foldr_max_iff (limit - (n + 1)) (elements.map depth)
  rw [List.forall_mem_map] at hmax
  rw [depth]
  constructor
  · intro h
    refine ⟨by omega, ?_⟩
    intro e he
    have := hmax.1 (by omega) e he
    omega
  · rintro ⟨hlt, h⟩
    have := hmax.2 fun e he => by have := h e he; omega
    omega

/-- There is room for an object inside of `n` containers if there is room for one container more
and, inside of that, for the members. -/
theorem add_depth_object_le_iff {n limit : Nat} {members : List (Bytes × Tree)} :
    n + (object members).depth ≤ limit ↔
      n < limit ∧ ∀ m ∈ members, n + 1 + m.2.depth ≤ limit := by
  have hmax := le_foldr_max_iff (limit - (n + 1)) (members.map fun m => m.2.depth)
  rw [List.forall_mem_map] at hmax
  rw [depth]
  constructor
  · intro h
    refine ⟨by omega, ?_⟩
    intro m hm
    have := hmax.1 (by omega) m hm
    omega
  · rintro ⟨hlt, h⟩
    have := hmax.2 fun m hm => by have := h m hm; omega
    omega

/-! ### Tokens and text -/

/-- A value token by token. -/
def tokens : Tree → List Token
  | scalar s => [.scalar s.kind s.raw]
  | array elements => .opening .array :: (elements.flatMap tokens ++ [.closing .array])
  | object members =>
    .opening .object ::
      (members.flatMap (fun m => .name (Bytes.quoted m.1) :: m.2.tokens) ++ [.closing .object])
termination_by t => sizeOf t
decreasing_by
  · exact sizeOf_element_lt ‹_›
  · exact sizeOf_member_lt ‹_›

/-- The text of a value without any space between its tokens. -/
def text : Tree → Bytes
  | scalar s => s.raw
  | array elements =>
    Ascii.openBracket ::
      ([Ascii.comma].intercalate (elements.map text) ++ [Ascii.closeBracket])
  | object members =>
    Ascii.openBrace ::
      ([Ascii.comma].intercalate
        (members.map fun m => Bytes.quoted m.1 ++ Ascii.colon :: m.2.text) ++ [Ascii.closeBrace])
termination_by t => sizeOf t
decreasing_by
  · exact sizeOf_element_lt ‹_›
  · exact sizeOf_member_lt ‹_›

end Tree

end JsonExtract
