import JsonExtract.Proofs.Document.Tree
import Mathlib.Data.List.Induction

/-!
# Documents in progress

A document that was read up to some place between two tokens has complete values in front of the place,
and open containers around it. In each of these stand complete members or elements, and in an object
perhaps the name of the member that comes next. A token leads from one such place to the next.

* `Spot`, `Draft` — what was read up to a place where a value may come, and up to any place;
* `Draft.tokens`, `Draft.texts`, `Draft.textFrom` — its tokens, and its text without space, container by
  container;
* `Draft.counts` — how many members or elements have started in the open containers;
* `Spot.put`, `Draft.Takes` — a value at a spot is complete; a token comes;
* `Draft.tokens_injective` — the tokens say what was read.
-/

namespace JsonExtract

/-! ## Values with commas

The text of a container has commas between its values and none behind the last. For a container
in progress it is better to have a comma behind each value, and the two forms are compared here. -/

/-- The text of several values with commas between them goes on with a comma, and then with the next. -/
theorem intercalate_concat (x : Bytes) (xs : List Bytes) :
    [Ascii.comma].intercalate (xs ++ [x]) = (xs.flatMap fun y => y ++ [Ascii.comma]) ++ x := by
  induction xs with
  | nil => rw [List.nil_append, List.intercalate_singleton, List.flatMap_nil, List.nil_append]
  | cons y ys ih =>
    rw [List.cons_append, List.intercalate_cons_of_ne_nil (by simp), ih, List.flatMap_cons, List.append_assoc,
      List.append_assoc, List.append_assoc]

theorem intercalate_comma_if (xs : List Bytes) :
    [Ascii.comma].intercalate xs ++ (if xs.length = 0 then [] else [Ascii.comma]) =
      xs.flatMap fun y => y ++ [Ascii.comma] := by
  rcases List.eq_nil_or_concat xs with rfl | ⟨ys, x, rfl⟩
  · rfl
  · rw [List.concat_eq_append, intercalate_concat, if_neg (by simp), List.flatMap_append,
      List.flatMap_singleton, List.append_assoc]

/-! ## Scalars

Two scalars with the same kind and the same text are the same, so nothing is lost by keeping
tokens. -/

theorem Bytes.quoted_injective : Function.Injective quoted := by
  intro a b h
  have hstripped := congrArg stripQuotes h
  rwa [quoted, quoted, stripQuotes_quoted, stripQuotes_quoted] at hstripped

/-- A scalar is known by its kind and its text. -/
theorem Scalar.eq_of_raw_eq {s s' : Scalar} (hk : s.kind = s'.kind) (hr : s.raw = s'.raw) : s = s' := by
  cases s with
  | string inner =>
    cases s' with
    | string inner' =>
      exact congrArg string (Bytes.quoted_injective hr)
    | number | boolean | null => cases hk
  | number text =>
    cases s' with
    | number text' => exact congrArg number hr
    | string | boolean | null => cases hk
  | boolean value =>
    cases s' with
    | boolean value' => cases value <;> cases value' <;> first | rfl | exact absurd hr (by decide)
    | string | number | null => cases hk
  | null =>
    cases s' with
    | null => rfl
    | string | number | boolean => cases hk

/-! ## Spots and drafts

A spot is a place where a value may come, and holds the values in front of it, container by
container. A draft is a spot, or a place in an object where a name may come. Together they are
all places between two tokens of a document. -/

/-- The text of a member. -/
def Tree.memberText (m : Bytes × Tree) : Bytes :=
  Bytes.quoted m.1 ++ Ascii.colon :: m.2.text

/-- The tokens of a member. -/
def Tree.memberTokens (m : Bytes × Tree) : List Token :=
  .name (Bytes.quoted m.1) :: m.2.tokens

/-- What was read up to a place where a value may come. Its containers are nested in it, the
innermost at the outside of the term. -/
inductive Spot
  /-- in no container, behind complete values -/
  | top (values : List Tree)
  /-- in an array, behind complete elements; `outer` is where the array stands -/
  | element (elements : List Tree) (outer : Spot)
  /-- in an object, behind complete members and a name; `outer` is where the object stands -/
  | member (members : List (Bytes × Tree)) (name : Bytes) (outer : Spot)

/-- What was read up to a place between two tokens. -/
inductive Draft
  /-- a value may come, or the end of an array -/
  | value (spot : Spot)
  /-- in an object, behind complete members, where a name may come, or its end -/
  | object (members : List (Bytes × Tree)) (outer : Spot)

namespace Spot

/-- The tokens in front of a spot. -/
def tokens : Spot → List Token
  | top values => values.flatMap Tree.tokens
  | element elements outer => outer.tokens ++ .opening .array :: elements.flatMap Tree.tokens
  | member members name outer =>
    outer.tokens ++ .opening .object :: (members.flatMap Tree.memberTokens ++ [.name (Bytes.quoted name)])

/-- The text in the containers around a value that starts at a spot, the innermost first. They end
with the comma or the colon in front of the value. -/
def leads : Spot → List Bytes
  | top _ => []
  | element elements outer =>
    (Ascii.openBracket :: elements.flatMap fun e => e.text ++ [Ascii.comma]) :: outer.leads
  | member members name outer =>
    (Ascii.openBrace :: ((members.flatMap fun m => Tree.memberText m ++ [Ascii.comma]) ++
      (Bytes.quoted name ++ [Ascii.colon]))) :: outer.leads

/-- The containers around a value that starts at a spot, each with the number of members or elements
that have started in it, the innermost first. -/
def counts : Spot → List (Container × Nat)
  | top _ => []
  | element elements outer => (.array, elements.length + 1) :: outer.counts
  | member members _ outer => (.object, members.length + 1) :: outer.counts

/-- The value at a spot is complete. -/
def put (t : Tree) : Spot → Draft
  | top values => .value (top (values ++ [t]))
  | element elements outer => .value (element (elements ++ [t]) outer)
  | member members name outer => .object (members ++ [(name, t)]) outer

end Spot

namespace Draft

/-- The tokens that were read. -/
def tokens : Draft → List Token
  | value spot => spot.tokens
  | object members outer => outer.tokens ++ .opening .object :: members.flatMap Tree.memberTokens

/-- The text in the open containers, without space, the innermost first: a bracket, complete members or
elements with commas between them, and behind the last a comma if the text goes on. -/
def texts : Draft → List Bytes
  | value (.element elements outer) =>
    (Ascii.openBracket :: [Ascii.comma].intercalate (elements.map Tree.text)) :: outer.leads
  | value spot => spot.leads
  | object members outer =>
    (Ascii.openBrace :: [Ascii.comma].intercalate (members.map Tree.memberText)) :: outer.leads

/-- The text from the bracket of an open container on, where the innermost container has number zero. -/
def textFrom (i : Nat) (d : Draft) : Bytes :=
  (d.texts.take (i + 1)).reverse.flatten

/-- The open containers, each with the number of members or elements that have started in it, the
innermost first. -/
def counts : Draft → List (Container × Nat)
  | value (.element elements outer) => (.array, elements.length) :: outer.counts
  | value (.member members _ outer) => (.object, members.length) :: outer.counts
  | value (.top _) => []
  | object members outer => (.object, members.length) :: outer.counts

/-- A token leads from one place to the next. There is no rule for a bracket that does not close
the innermost container. -/
inductive Takes : Draft → Token → Draft → Prop
  | scalar (spot : Spot) (s : Scalar) : Takes (value spot) (.scalar s.kind s.raw) (spot.put (.scalar s))
  | openArray (spot : Spot) : Takes (value spot) (.opening .array) (value (.element [] spot))
  | openObject (spot : Spot) : Takes (value spot) (.opening .object) (object [] spot)
  | name (members : List (Bytes × Tree)) (outer : Spot) (name : Bytes) :
    Takes (object members outer) (.name (Bytes.quoted name)) (value (.member members name outer))
  | closeArray (elements : List Tree) (outer : Spot) :
    Takes (value (.element elements outer)) (.closing .array) (outer.put (.array elements))
  | closeObject (members : List (Bytes × Tree)) (outer : Spot) :
    Takes (object members outer) (.closing .object) (outer.put (.object members))

end Draft

/-! ## A value is complete

When a value is complete it becomes an element or a member of the container around it, or one of
the values of the document. What is known of the container, its tokens, its text and its count,
grows by the value. -/

namespace Spot

variable (t : Tree) (spot : Spot)

theorem tokens_put : (spot.put t).tokens = spot.tokens ++ t.tokens := by
  cases spot <;> simp [put, Draft.tokens, tokens, Tree.memberTokens]

theorem counts_put : (spot.put t).counts = spot.counts := by
  cases spot <;> simp [put, Draft.counts, counts]

/-- A value in an array that is not the first has a comma in front. -/
theorem leads_element (elements : List Tree) (outer : Spot) :
    (element elements outer).leads = (Draft.value (element elements outer)).texts.modifyHead
      (· ++ if elements.length = 0 then [] else [Ascii.comma]) := by
  have hcomma := intercalate_comma_if (elements.map Tree.text)
  rw [List.length_map, List.flatMap_map] at hcomma
  rw [leads, Draft.texts, List.modifyHead_cons, List.cons_append, hcomma]

/-- So has the name of a member, and a colon is behind it. -/
theorem leads_member (members : List (Bytes × Tree)) (name : Bytes) (outer : Spot) :
    (member members name outer).leads = (Draft.object members outer).texts.modifyHead
      (· ++ ((if members.length = 0 then [] else [Ascii.comma]) ++
        (Bytes.quoted name ++ [Ascii.colon]))) := by
  have hcomma := intercalate_comma_if (members.map Tree.memberText)
  rw [List.length_map, List.flatMap_map] at hcomma
  rw [leads, Draft.texts, List.modifyHead_cons, List.cons_append, ← hcomma, List.append_assoc]

/-- The text of the value is added to the innermost container. -/
theorem texts_put : (spot.put t).texts = spot.leads.modifyHead (· ++ t.text) := by
  cases spot with
  | top values => rfl
  | element elements outer =>
    rw [put, Draft.texts, leads, List.map_append, List.map_singleton, intercalate_concat, List.flatMap_map]
    rfl
  | member members name outer =>
    rw [put, Draft.texts, leads, List.map_append, List.map_singleton, intercalate_concat, List.flatMap_map]
    simp [Tree.memberText]

end Spot

namespace Draft

variable {d d' d'' : Draft} {t : Token}

/-- A token is added to the tokens. -/
theorem Takes.tokens_eq (h : d.Takes t d') : d'.tokens = d.tokens ++ [t] := by
  cases h with
  | scalar spot s => rw [Spot.tokens_put, Tree.tokens, tokens]
  | openArray spot | openObject spot => rfl
  | name members outer name => simp [tokens, Spot.tokens]
  | closeArray elements outer =>
    rw [Spot.tokens_put, Tree.tokens, tokens, Spot.tokens, List.append_assoc, List.cons_append]
  | closeObject members outer =>
    rw [Spot.tokens_put, Tree.tokens, tokens, List.append_assoc, List.cons_append]
    rfl

/-- A token leads to one place only. -/
theorem Takes.functional (h : d.Takes t d') (h' : d.Takes t d'') : d' = d'' := by
  cases h with
  | scalar spot s =>
    generalize hkind : s.kind = kind at h'
    generalize hraw : s.raw = raw at h'
    cases h' with
    | scalar _ s' => rw [Scalar.eq_of_raw_eq hkind hraw]
  | openArray spot | openObject spot => cases h'; rfl
  | name members outer name =>
    generalize hraw : Bytes.quoted name = raw at h'
    cases h' with
    | name _ _ name' => rw [Bytes.quoted_injective hraw]
  | closeArray elements outer | closeObject members outer => cases h'; rfl

/-- A value that is complete was completed by a token. -/
theorem exists_takes_put (t : Tree) (spot : Spot) : ∃ d token, Takes d token (spot.put t) := by
  cases t with
  | scalar s => exact ⟨_, _, .scalar spot s⟩
  | array elements => exact ⟨_, _, .closeArray elements spot⟩
  | object members => exact ⟨_, _, .closeObject members spot⟩

/-- To every place but the first a token leads. -/
theorem exists_takes (d : Draft) : d = value (.top []) ∨ ∃ d' t, Takes d' t d := by
  match d with
  | value (.top values) =>
    rcases List.eq_nil_or_concat values with rfl | ⟨ts, t, rfl⟩
    · exact .inl rfl
    · rw [List.concat_eq_append]
      exact .inr (exists_takes_put t (.top ts))
  | value (.element elements outer) =>
    rcases List.eq_nil_or_concat elements with rfl | ⟨ts, t, rfl⟩
    · exact .inr ⟨_, _, .openArray outer⟩
    · rw [List.concat_eq_append]
      exact .inr (exists_takes_put t (.element ts outer))
  | value (.member members name outer) => exact .inr ⟨_, _, .name members outer name⟩
  | object members outer =>
    rcases List.eq_nil_or_concat members with rfl | ⟨ms, m, rfl⟩
    · exact .inr ⟨_, _, .openObject outer⟩
    · rw [List.concat_eq_append]
      exact .inr (exists_takes_put m.2 (.member ms m.1 outer))

/-- The tokens that were read say what was read. So a lexer that knows the tokens could tell what
was read, and need not keep it. -/
theorem tokens_injective : Function.Injective tokens := by
  have hread : ∀ (ts : List Token) (d d' : Draft), d.tokens = ts → d'.tokens = ts → d = d' := by
    intro ts
    induction ts using List.reverseRecOn with
    | nil =>
      intro d d' hd hd'
      obtain rfl | ⟨_, _, h⟩ := exists_takes d
      · obtain rfl | ⟨_, _, h'⟩ := exists_takes d'
        · rfl
        · exact absurd (h'.tokens_eq.symm.trans hd') (by simp)
      · exact absurd (h.tokens_eq.symm.trans hd) (by simp)
    | append_singleton ts t ih =>
      intro d d' hd hd'
      obtain rfl | ⟨e, u, h⟩ := exists_takes d
      · exact absurd hd.symm (by simp [tokens, Spot.tokens])
      obtain rfl | ⟨e', u', h'⟩ := exists_takes d'
      · exact absurd hd'.symm (by simp [tokens, Spot.tokens])
      obtain ⟨he, hu⟩ := List.append_inj' (h.tokens_eq.symm.trans hd) rfl
      obtain ⟨he', hu'⟩ := List.append_inj' (h'.tokens_eq.symm.trans hd') rfl
      cases hu
      cases hu'
      cases ih e e' he he'
      exact h.functional h'
  exact fun d d' h => hread _ d d' rfl h.symm

/-- In each open container stands its bracket. -/
theorem ne_nil_of_mem_texts {x : Bytes} (h : x ∈ d.texts) : x ≠ [] := by
  have hspot : ∀ spot : Spot, ∀ y ∈ spot.leads, y ≠ [] := by
    intro spot
    induction spot with
    | top => exact fun _ h => absurd h List.not_mem_nil
    | element _ outer ih | member _ _ outer ih => exact List.forall_mem_cons.2 ⟨List.cons_ne_nil _ _, ih⟩
  match d with
  | value (.top _) => cases h
  | value (.element _ outer) | value (.member _ _ outer) | object _ outer =>
    rcases List.mem_cons.1 h with rfl | h
    · exact List.cons_ne_nil _ _
    · exact hspot outer x h

end Draft

end JsonExtract
