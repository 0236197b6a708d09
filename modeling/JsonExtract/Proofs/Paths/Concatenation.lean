import JsonExtract.Proofs.Paths.SingleMarks

/-!
# Paths put together

The segments of one path may be written behind those of another one. Where neither of them has a mark, a
mark at the very end asks for the values that get through both.

* `Path.chain` — the path of given parts, of which the last is marked;
* `Grammar.SpellsSegments.append`, `Grammar.SpellsSegments.mark_last` — segments behind segments, and a
  mark behind the last one;
* `Path.exists_segments`, `Path.parse_chain` — from texts without marks, texts with one mark at the end.
-/

namespace JsonExtract

/-! ## Links without marks

A segment with several parts, as a filter between brackets behind a selector, puts its mark on
the last of them. So a mark at the end of all segments is one on the last part of the last
segment. -/

namespace Link

variable {parts more : List Part}

theorem ofParts_append (marked : Bool) (parts : List Part) (h : more ≠ []) :
    ofParts marked (parts ++ more) = ofParts false parts ++ ofParts marked more := by
  induction parts with
  | nil => rfl
  | cons part parts ih =>
    obtain ⟨next, rest, hnext⟩ : ∃ next rest, parts ++ more = next :: rest :=
      List.exists_cons_of_ne_nil (List.append_ne_nil_of_right_ne_nil parts h)
    have hsplit : ofParts false (part :: parts) = ⟨part, false⟩ :: ofParts false parts := by
      cases parts <;> rfl
    rw [hsplit, List.cons_append, List.cons_append, ← ih, hnext, ofParts]
    exact fun hnil => List.cons_ne_nil next rest hnil

theorem parts_ofParts (marked : Bool) (parts : List Part) :
    (ofParts marked parts).map (·.part) = parts := by
  induction parts with
  | nil => rfl
  | cons part parts ih =>
    cases parts with
    | nil => rfl
    | cons next rest => exact congrArg (part :: ·) ih

theorem countP_ofParts_true (h : parts ≠ []) : (ofParts true parts).countP (·.marked) = 1 := by
  induction parts with
  | nil => exact absurd rfl h
  | cons part parts ih =>
    cases parts with
    | nil => rfl
    | cons next rest => exact ih (List.cons_ne_nil next rest)

end Link

namespace Path.Grammar

variable {links more : List Link} {text text' : Bytes}

/-- Segments behind segments. -/
theorem SpellsSegments.append (h : SpellsSegments links text) (hmore : SpellsSegments more text') :
    SpellsSegments (links ++ more) (text ++ text') := by
  induction h with
  | nil => exact hmore
  | cons hsegment hmark _ ih =>
    simp only [List.append_assoc]
    exact .cons hsegment hmark ih

theorem eq_nil_of_spellsSegments (h : SpellsSegments [] text) : text = [] := by
  generalize hlinks : ([] : List Link) = links at h
  cases h with
  | nil => rfl
  | @cons parts marked _ _ _ _ hsegment =>
    have hparts := congrArg (·.map Link.part) (List.append_eq_nil_iff.1 hlinks.symm).1
    rw [Link.parts_ofParts] at hparts
    exact absurd hparts (Marks.ne_nil_of_spellsSegment hsegment)

/-- A mark behind segments that have none is on the last link. The mark stands behind the last
segment, and so it belongs to its last part. -/
theorem SpellsSegments.mark_last (h : SpellsSegments links text) (hm : links.countP (·.marked) = 0)
    (hne : links ≠ []) :
    SpellsSegments (Link.ofParts true (links.map (·.part))) (text ++ [Ascii.plus]) := by
  induction h with
  | nil => exact absurd rfl hne
  | @cons parts marked links text mark rest hsegment hmark hrest ih =>
    have hparts := Marks.ne_nil_of_spellsSegment hsegment
    rw [List.countP_append, Nat.add_eq_zero_iff] at hm
    rw [List.map_append, Link.parts_ofParts]
    cases hmark with
    | mark =>
      rw [Link.countP_ofParts_true hparts] at hm
      exact absurd hm.1 Nat.one_ne_zero
    | none =>
      cases links with
      | nil =>
        have hlast := SpellsSegments.cons hsegment .mark .nil
        rw [eq_nil_of_spellsSegments hrest, List.append_nil, List.map_nil, List.append_nil,
          List.append_nil]
        rwa [List.append_nil, List.append_nil] at hlast
      | cons link links =>
        have hmore : (link :: links).map (·.part) ≠ [] := List.cons_ne_nil _ _
        rw [Link.ofParts_append true parts hmore, List.append_assoc, List.append_assoc]
        exact .cons hsegment .none (ih hm.2 (List.cons_ne_nil _ _))

end Path.Grammar

/-! ## Texts

The dollar sign is taken off one path and put in front of the other's segments by writing one
text behind the other. That the result is a path again, and which one, is known from the
grammar. -/

namespace Path

open Path.Grammar

/-- The path of given parts, below the value that stands in no container, with a mark on the last
one. It has exactly one mark. -/
def chain (text : String) (parts : List Part) : Path :=
  ofLinks text (Link.ofParts true (.selector .root :: parts))

/-- A path without marks consists of segments without marks. -/
theorem exists_segments {a : String} {p : Path} (h : parse ("$" ++ a) = .ok p) (hm : p.markCount = 0) :
    ∃ links, SpellsSegments links (Bytes.ofString a) ∧ links.countP (·.marked) = 0 := by
  obtain ⟨links, hspells, rfl⟩ := exists_spells_of_parse h
  have htext : Bytes.ofString ("$" ++ a) = Bytes.ofChars ['$'] ++ Bytes.ofString a := by
    rw [Bytes.ofString, String.toList_append, Bytes.ofChars_append]
    rfl
  rw [htext] at hspells
  generalize hbytes : Bytes.ofChars ['$'] ++ Bytes.ofString a = bytes at hspells
  cases hspells with
  | @mk marked links mark rest hmark hsegments =>
    have hrest := List.append_cancel_left hbytes
    rw [markCount, ofLinks, List.countP_cons, Nat.add_eq_zero_iff] at hm
    cases hmark with
    | none => exact ⟨links, hrest ▸ hsegments, hm.1⟩
    | mark => exact absurd hm.2 Nat.one_ne_zero

/-- Segments without marks, and a mark behind the last one. -/
theorem parse_chain {links : List Link} {bytes : Bytes} {text : String}
    (h : SpellsSegments links bytes) (hm : links.countP (·.marked) = 0)
    (htext : Bytes.ofString text = Bytes.ofChars ['$'] ++ (bytes ++ [Ascii.plus])) :
    parse text = .ok (chain text (links.map (·.part))) := by
  refine parse_of_spells ?_
  rw [htext]
  cases links with
  | nil =>
    rw [eq_nil_of_spellsSegments h]
    exact @Spells.mk _ _ [Ascii.plus] _ .mark .nil
  | cons link links => exact @Spells.mk _ _ [] _ .none (h.mark_last hm (List.cons_ne_nil _ _))

end Path

end JsonExtract
