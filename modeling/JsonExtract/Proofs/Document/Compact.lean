import JsonExtract.Proofs.Document.Grammar

/-!
# Documents in documents

The text of a value without any space between its tokens is a spelling of the value. So is the text of
each value in it, which is nested less deep.

* `Grammar.spells_text` — a value without space is spelled, too;
* `Grammar.spells_child` — so are the values in a container, and their names are string bodies;
* `Grammar.isDocument_text` — the text of a value is a document;
* `Tree.depth_child_lt` — values in a container are nested less deep.
-/

namespace JsonExtract

namespace Grammar

variable {wide : Bool}

/-! ## Without space

All gaps of a spelling may be left empty, and commas and colons are enough to tell values apart. -/

theorem ne_nil_of_spellsElements {elements : List Tree} {body : Bytes}
    (h : SpellsElements wide elements body) : elements ≠ [] := by
  cases h <;> exact List.cons_ne_nil _ _

theorem ne_nil_of_spellsMembers {members : List (Bytes × Tree)} {body : Bytes}
    (h : SpellsMembers wide members body) : members ≠ [] := by
  cases h <;> exact List.cons_ne_nil _ _

theorem intercalate_comma {α : Type} (f : α → Bytes) (x : α) {xs : List α} (h : xs ≠ []) :
    [Ascii.comma].intercalate ((x :: xs).map f) =
      f x ++ Ascii.comma :: [Ascii.comma].intercalate (xs.map f) := by
  cases xs with
  | nil => exact absurd rfl h
  | cons y ys =>
    rw [List.map_cons, List.map_cons, List.intercalate_cons_cons, List.append_assoc,
      List.singleton_append]

mutual

/-- The text of a value without space spells it. By recursion on the spelling: each rule is used
again with empty gaps. -/
theorem spells_text {t : Tree} {text : Bytes} : Spells wide t text → Spells wide t t.text
  | .scalar h => by
    rw [Tree.text]
    exact .scalar h
  | .emptyArray _ => by
    rw [Tree.text]
    exact .emptyArray .nil
  | .array h => by
    rw [Tree.text]
    exact .array (spellsElements_text h)
  | .emptyObject _ => by
    rw [Tree.text]
    exact .emptyObject .nil
  | .object h => by
    rw [Tree.text]
    exact .object (spellsMembers_text h)

theorem spellsElements_text {elements : List Tree} {body : Bytes} :
    SpellsElements wide elements body →
      SpellsElements wide elements ([Ascii.comma].intercalate (elements.map Tree.text))
  | .last _ h _ => by
    have hlast := SpellsElements.last .nil (spells_text h) .nil
    rw [List.map_singleton, List.intercalate_singleton]
    rwa [List.nil_append, List.append_nil] at hlast
  | .more _ h _ hmore => by
    have hrest := SpellsElements.more .nil (spells_text h) .nil (spellsElements_text hmore)
    rw [intercalate_comma _ _ (ne_nil_of_spellsElements hmore)]
    exact hrest

theorem spellsMembers_text {members : List (Bytes × Tree)} {body : Bytes} :
    SpellsMembers wide members body →
      SpellsMembers wide members ([Ascii.comma].intercalate
        (members.map fun m => Bytes.quoted m.1 ++ Ascii.colon :: m.2.text))
  | .lastMember _ hname _ _ h _ => by
    have hlast := SpellsMembers.lastMember .nil hname .nil .nil (spells_text h) .nil
    rw [List.map_singleton, List.intercalate_singleton]
    rwa [List.nil_append, List.nil_append, List.nil_append, List.append_nil] at hlast
  | .moreMembers _ hname _ _ h _ hmore => by
    have hrest := SpellsMembers.moreMembers .nil hname .nil .nil (spells_text h) .nil
      (spellsMembers_text hmore)
    rw [intercalate_comma _ _ (ne_nil_of_spellsMembers hmore), List.append_assoc]
    exact hrest

end

/-- The text of a value is a document of the value. -/
theorem isDocument_text {t : Tree} {text : Bytes} (h : Spells wide t text) :
    IsDocument wide t t.text := by
  have hdocument := IsDocument.mk .nil (spells_text h) .nil
  rwa [List.nil_append, List.append_nil] at hdocument

/-! ## Values in containers

A spelling of a container has spellings of its values in it, each with a gap around it. -/

/-- The elements of an array are spelled. -/
theorem spells_of_spellsElements {elements : List Tree} {body : Bytes} :
    SpellsElements wide elements body → ∀ e ∈ elements, ∃ text, Spells wide e text
  | .last _ h _ => by
    rintro e he
    obtain rfl := List.mem_singleton.1 he
    exact ⟨_, h⟩
  | .more _ h _ hmore => by
    rintro e he
    obtain rfl | he := List.mem_cons.1 he
    · exact ⟨_, h⟩
    · exact spells_of_spellsElements hmore e he

/-- The members of an object are spelled, and so are their names. -/
theorem spells_of_spellsMembers {members : List (Bytes × Tree)} {body : Bytes} :
    SpellsMembers wide members body →
      ∀ m ∈ members, IsStringBody m.1 ∧ ∃ text, Spells wide m.2 text
  | .lastMember _ hname _ _ h _ => by
    rintro m hm
    obtain rfl := List.mem_singleton.1 hm
    exact ⟨hname, _, h⟩
  | .moreMembers _ hname _ _ h _ hmore => by
    rintro m hm
    obtain rfl | hm := List.mem_cons.1 hm
    · exact ⟨hname, _, h⟩
    · exact spells_of_spellsMembers hmore m hm

/-- The values in a container are spelled, and so are the names of members. The text of the child
is a part of the text of the container. -/
theorem spells_child {t : Tree} {text : Bytes} (h : Spells wide t text) {c : Child × Tree}
    (hc : c ∈ t.children) :
    (∃ text', Spells wide c.2 text') ∧ ∀ name, c.1 = .member name → IsStringBody name := by
  cases h with
  | scalar | emptyArray | emptyObject => cases hc
  | array h =>
    obtain ⟨e, he, rfl⟩ := List.mem_map.1 hc
    exact ⟨spells_of_spellsElements h e.1 (List.fst_mem_of_mem_zipIdx he), fun _ hname => by cases hname⟩
  | object h =>
    obtain ⟨m, hm, rfl⟩ := List.mem_map.1 hc
    obtain ⟨hname, hvalue⟩ := spells_of_spellsMembers h m hm
    exact ⟨hvalue, fun name heq => by cases heq; exact hname⟩

end Grammar

/-- A value in a container is nested less deep. -/
theorem Tree.depth_child_lt {t : Tree} {c : Child × Tree} (hc : c ∈ t.children) :
    c.2.depth < t.depth := by
  cases t with
  | scalar s => cases hc
  | array elements =>
    obtain ⟨e, he, rfl⟩ := List.mem_map.1 hc
    have hroom := add_depth_array_le_iff.1 (Nat.le_of_eq (Nat.zero_add (array elements).depth))
    have := hroom.2 e.1 (List.fst_mem_of_mem_zipIdx he)
    dsimp only
    omega
  | object members =>
    obtain ⟨m, hm, rfl⟩ := List.mem_map.1 hc
    have hroom := add_depth_object_le_iff.1 (Nat.le_of_eq (Nat.zero_add (object members).depth))
    have := hroom.2 m hm
    dsimp only
    omega

end JsonExtract
