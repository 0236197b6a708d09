import JsonExtract.Proofs.Paths.Concatenation
import JsonExtract.Proofs.Paths.Places

/-!
# Filters as they are written

A filter that stands in a path is shown with its member in front of its literal, one space on both sides of
the equality sign, and its texts as they stand in the path. What is shown is a filter again, and the same
one: literals keep their backslashes, so that no quote of their own ends them, and the space behind a name
ends it.

* `Utf8.lossyString_ofChars` — encoded texts are shown as they are;
* `Filter.Spelled` — filters whose texts can stand in a path;
* `Path.Parser.spelled_of_filter`, `Path.Parser.spelled_of_path` — those that are read from one;
* `Path.parse_filter_text` — what is shown is read as what was shown.
-/

namespace JsonExtract

open Bytes

/-- The pieces of an encoded text are its characters. -/
theorem Utf8.pieces_ofChars (cs : List Char) : pieces (ofChars cs) = cs.map .character := by
  induction cs with
  | nil => rw [ofChars_nil, pieces, List.map_nil]
  | cons c cs ih =>
    have hlead := Path.Bytewise.leading?_ofChars_cons c cs
    have hlength := String.length_utf8EncodeChar c
    rw [ofChars_cons] at hlead ⊢
    cases hbytes : String.utf8EncodeChar c with
    | nil => exact absurd hbytes String.utf8EncodeChar_ne_nil
    | cons b tail =>
      rw [hbytes] at hlead hlength
      rw [List.cons_append] at hlead ⊢
      -- all bytes of the character are stepped over
      have hdrop : (tail ++ ofChars cs).drop (c.utf8Size - 1) = ofChars cs :=
        List.drop_left' (by rw [← hlength, List.length_cons, Nat.add_sub_cancel])
      simp only [pieces, hlead, hdrop, ih, List.map_cons]

/-- An encoded text is shown as it is. Showing bytes replaces what is no character, and here
nothing is replaced. -/
theorem Utf8.lossyString_ofChars (cs : List Char) : lossyString (ofChars cs) = String.ofList cs := by
  rw [lossyString, lossy, pieces_ofChars, List.map_map]
  exact congrArg String.ofList (List.map_id cs)

/-! ## Filters that can stand in a path

Not every filter is the filter of some path: a name could have a delimiter in it, and a literal
a quote. `Filter.Spelled` describes those that are, and for these the way in which they are
shown follows the grammar. -/

open Path.Grammar

/-- A filter whose texts are encoded, and can stand where it has them: names without delimiters, and literals
without a quote that would end them. -/
inductive Filter.Spelled : Filter → Prop
  | literals {left right : List Char} : IsLiteral (ofChars left) → IsLiteral (ofChars right) →
    Spelled (.literals (ofChars left) (ofChars right))
  | any {literal : List Char} : IsLiteral (ofChars literal) → Spelled (.member .any (ofChars literal))
  | named {name literal : List Char} : IsName (ofChars name) → IsLiteral (ofChars literal) →
    Spelled (.member (.named (ofChars name)) (ofChars literal))

/-- The bytes of a quoted text. -/
theorem ofChars_quoted (inner : List Char) : ofChars ('"' :: (inner ++ ['"'])) = quoted (ofChars inner) := by
  rw [ofChars_cons_ascii (by decide), ofChars_append]
  rfl

/-- What is shown of a filter that can stand in a path is how the filter is spelled. The spaces
that are shown around the sign are space of the grammar. -/
theorem Filter.Spelled.spells {f : Filter} (h : f.Spelled) :
    SpellsFilter f (ofString ("?(" ++ f.text ++ ")")) := by
  have hnone : IsSpace [] := by simp [IsSpace]
  have hspace : IsSpace (ofChars [' ']) := by
    rw [ofChars_cons_ascii (by decide), ofChars_nil]
    exact List.forall_mem_singleton.2 (by decide)
  cases h with
  | literals hleft hright =>
    have hspells := SpellsFilter.mk hnone (.literal hleft) hspace hspace (.literal hright) hnone .literals
    simpa only [ofString, Filter.text, Utf8.lossyString_ofChars, String.toList_append, String.reduceToList,
      String.toList_ofList, List.cons_append, List.nil_append, List.append_assoc, ← ofChars_quoted,
      ← ofChars_append] using hspells
  | any hliteral =>
    have hspells := SpellsFilter.mk hnone .any hspace hspace (.literal hliteral) hnone .memberFirst
    simpa only [ofString, Filter.text, Field.text, Utf8.lossyString_ofChars, String.toList_append,
      String.reduceAppend, String.reduceToList, String.toList_ofList, List.cons_append, List.nil_append,
      List.append_assoc, ← ofChars_quoted, ← ofChars_append] using hspells
  | named hname hliteral =>
    have hspells := SpellsFilter.mk hnone (.named hname) hspace hspace (.literal hliteral) hnone .memberFirst
    simpa only [ofString, Filter.text, Field.text, Utf8.lossyString_ofChars, String.toList_append,
      String.reduceToList, String.toList_ofList, List.cons_append, List.nil_append, List.append_assoc,
      ← ofChars_quoted, ← ofChars_append] using hspells

/-! ## Filters that are read

A path only holds filters that were read, and those can stand in a path. The rest of the
argument goes through the parts of the path, to find the filter in question among them. -/

namespace Path.Parser

variable {cs behind : List Char}

/-- What is read as a name is encoded. -/
theorem exists_of_name {bytes : Bytes} (h : name cs = .ok (bytes, behind)) :
    ∃ word, bytes = ofChars word := by
  rw [name] at h
  split at h
  · cases h
  · cases h
    exact ⟨_, rfl⟩

/-- What is read as a literal is encoded. -/
theorem exists_of_literal {bytes : Bytes} (h : literal cs = .ok (bytes, behind)) :
    ∃ word, bytes = ofChars word := by
  rw [literal] at h
  split at h
  · cases h
    exact ⟨_, rfl⟩
  · cases h

/-- One side of a comparison whose texts are encoded and can stand in a path. -/
inductive OperandSpelled : Operand → Prop
  | literal {word : List Char} : IsLiteral (ofChars word) → OperandSpelled (.literal (ofChars word))
  | any : OperandSpelled (.field .any)
  | named {word : List Char} : IsName (ofChars word) → OperandSpelled (.field (.named (ofChars word)))

theorem spelled_of_operand {o : Operand} (h : operand cs = .ok (o, behind)) : OperandSpelled o := by
  rw [operand.eq_def] at h
  split at h
  · cases h
  · obtain ⟨⟨bytes, rest⟩, hl, hp⟩ := bind_eq_ok.1 h
    cases pure_eq_ok.1 hp
    obtain ⟨word, rfl⟩ := exists_of_literal hl
    exact .literal (spells_of_literal hl).2
  · cases h
    exact .any
  · obtain ⟨⟨bytes, rest⟩, hn, hp⟩ := bind_eq_ok.1 h
    cases pure_eq_ok.1 hp
    obtain ⟨word, rfl⟩ := exists_of_name hn
    exact .named (spells_of_name hn).2
  · cases h
  · cases h

/-- A comparison of two sides that can stand in a path can stand there as well. -/
theorem spelled_of_compares {left right : Operand} {f : Filter} (h : Compares left right f)
    (hleft : OperandSpelled left) (hright : OperandSpelled right) : f.Spelled := by
  cases h with
  | literals =>
    cases hleft with | literal hleft => cases hright with | literal hright => exact .literals hleft hright
  | memberFirst =>
    cases hright with
    | literal hliteral =>
      cases hleft with
      | any => exact .any hliteral
      | named hname => exact .named hname hliteral
  | memberLast =>
    cases hleft with
    | literal hliteral =>
      cases hright with
      | any => exact .any hliteral
      | named hname => exact .named hname hliteral

/-- What is read as a filter can stand in a path. -/
theorem spelled_of_filter {f : Filter} (h : filter cs = .ok (f, behind)) : f.Spelled := by
  rw [filter.eq_def] at h
  split at h
  · cases h
  · obtain ⟨⟨left, rest₁⟩, h₁, h⟩ := bind_eq_ok.1 h
    obtain ⟨rest₂, h₂, h⟩ := bind_eq_ok.1 h
    obtain ⟨⟨right, rest₃⟩, h₃, h⟩ := bind_eq_ok.1 h
    obtain ⟨rest₄, h₄, h⟩ := bind_eq_ok.1 h
    split at h
    · next hcompare =>
      cases pure_eq_ok.1 h
      exact spelled_of_compares (compares_of_compare? hcompare) (spelled_of_operand h₁)
        (spelled_of_operand h₃)
    · cases h
  · cases h

/-- Whether all filters among the parts of a path can stand there. -/
def AllSpelled (parts : List Part) : Prop :=
  ∀ f, .filter f ∈ parts → f.Spelled

theorem allSpelled_selector (s : Selector) : AllSpelled [.selector s] := by
  simp [AllSpelled]

theorem allSpelled_filter {f : Filter} (h : f.Spelled) : AllSpelled [.filter f] := by
  simpa [AllSpelled] using h

theorem AllSpelled.append {parts others : List Part} (h : AllSpelled parts) (h' : AllSpelled others) :
    AllSpelled (parts ++ others) := by
  intro f hf
  rcases List.mem_append.1 hf with hf | hf
  · exact h f hf
  · exact h' f hf

theorem allSpelled_of_index {parts : List Part} (h : index cs = .ok (parts, behind)) : AllSpelled parts := by
  rw [index] at h
  split at h
  · cases h
  · cases h
    exact allSpelled_selector _
  · obtain ⟨⟨f, rest⟩, h₁, h⟩ := bind_eq_ok.1 h
    cases pure_eq_ok.1 h
    exact (allSpelled_selector .wildcard).append (allSpelled_filter (spelled_of_filter h₁))
  · obtain ⟨⟨bytes, rest⟩, -, h⟩ := bind_eq_ok.1 h
    cases pure_eq_ok.1 h
    exact allSpelled_selector _
  · cases h
  · cases h
  · split at h
    · obtain ⟨⟨s, rest⟩, -, h⟩ := bind_eq_ok.1 h
      cases pure_eq_ok.1 h
      exact allSpelled_selector s
    · cases h

theorem allSpelled_of_segment {parts : List Part} (h : segment cs = .ok (parts, behind)) :
    AllSpelled parts := by
  rw [segment.eq_def] at h
  split at h
  · cases h
  · cases h
    exact allSpelled_selector _
  · obtain ⟨⟨bytes, rest⟩, -, h⟩ := bind_eq_ok.1 h
    cases pure_eq_ok.1 h
    exact allSpelled_selector _
  · obtain ⟨⟨parts, rest₁⟩, h₁, h⟩ := bind_eq_ok.1 h
    obtain ⟨rest₂, -, h⟩ := bind_eq_ok.1 h
    cases pure_eq_ok.1 h
    exact allSpelled_of_index h₁
  · obtain ⟨⟨f, rest⟩, h₁, h⟩ := bind_eq_ok.1 h
    cases pure_eq_ok.1 h
    exact allSpelled_filter (spelled_of_filter h₁)
  · cases h

theorem allSpelled_of_segments {links : List Link} (h : segments cs = .ok links) :
    AllSpelled (links.map (·.part)) := by
  fun_induction segments cs generalizing links with
  | case1 =>
    cases h
    simp [AllSpelled]
  | case2 | case3 => cases h
  | case4 c rest parts behind hsegment marked behind' _ ih =>
    obtain ⟨more, hmore, h⟩ := bind_eq_ok.1 h
    cases pure_eq_ok.1 h
    rw [List.map_append, Link.parts_ofParts]
    exact (allSpelled_of_segment hsegment).append (ih hmore)

/-- All filters of a path that is read can stand in one. -/
theorem allSpelled_of_path {links : List Link} (h : path cs = .ok links) :
    AllSpelled (links.map (·.part)) := by
  rw [path.eq_def] at h
  split at h
  · obtain ⟨⟨marked, rest₁⟩, -, h⟩ := bind_eq_ok.1 h
    obtain ⟨more, h₂, h⟩ := bind_eq_ok.1 h
    cases pure_eq_ok.1 h
    exact (allSpelled_selector .root).append (allSpelled_of_segments h₂)
  · cases h

end Path.Parser

namespace Path

/-- What is shown of a filter is read as that filter. Whatever path the filter stands in, a path of the root
and of the filter as it is shown has just these two links, neither of them marked. -/
theorem parse_filter_text {text : String} {p : Path} (h : parse text = .ok p) {link : Link}
    (hlink : link ∈ p.links) {f : Filter} (hf : link.part = .filter f) :
    ∃ q, parse ("$?(" ++ f.text ++ ")") = .ok q ∧
      q.links = [⟨.selector .root, false⟩, ⟨.filter f, false⟩] := by
  have hspelled : f.Spelled := by
    rw [parse] at h
    split at h
    · next links hpath =>
      cases h
      exact Parser.allSpelled_of_path hpath f (List.mem_map.2 ⟨link, hlink, hf⟩)
    · cases h
  refine ⟨ofLinks _ _, parse_of_spells ?_, rfl⟩
  have hspells := Spells.mk .none (.cons (.filter hspelled.spells) .none .nil)
  simpa [ofString, Link.ofParts, ← ofChars_append] using hspells

/-- In this path the literal stands in front, without space, and holds a quote behind a backslash, an equality
sign and a bracket; the name is beyond ASCII. -/
theorem parse_filter_text_escaped :
    parse "$.x+[?(\"a\\\"==)\"==@.ключ)]" =
        .ok (ofLinks "$.x+[?(\"a\\\"==)\"==@.ключ)]" [⟨.selector .root, false⟩,
          ⟨.selector (.key (ofString "x")), true⟩, ⟨.selector .wildcard, false⟩,
          ⟨.filter (.member (.named (ofString "ключ")) (ofString "a\\\"==)")), false⟩]) ∧
      Filter.text (.member (.named (ofString "ключ")) (ofString "a\\\"==)")) = "@.ключ == \"a\\\"==)\"" ∧
      ∃ q, parse "$?(@.ключ == \"a\\\"==)\")" = .ok q ∧
        q.links = [⟨.selector .root, false⟩,
          ⟨.filter (.member (.named (ofString "ключ")) (ofString "a\\\"==)")), false⟩] := by
  have hparse : parse "$.x+[?(\"a\\\"==)\"==@.ключ)]" =
      .ok (ofLinks "$.x+[?(\"a\\\"==)\"==@.ключ)]" [⟨.selector .root, false⟩,
        ⟨.selector (.key (ofString "x")), true⟩, ⟨.selector .wildcard, false⟩,
        ⟨.filter (.member (.named (ofString "ключ")) (ofString "a\\\"==)")), false⟩]) := by
    decide +kernel
  have htext : Filter.text (.member (.named (ofString "ключ")) (ofString "a\\\"==)")) =
      "@.ключ == \"a\\\"==)\"" := by
    decide +kernel
  refine ⟨hparse, htext, ?_⟩
  have hsame := parse_filter_text hparse (List.mem_of_getElem? (i := 3) rfl) rfl
  rwa [htext] at hsame

end Path

end JsonExtract
