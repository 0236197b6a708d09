import JsonExtract.Proofs.Document.Tree
import Mathlib.Data.List.Forall2

/-!
# Documents with their members in another order

The members of any objects of a document, however deep, may change their order. What a value is stays the
same then, apart from the values in it, and so does how deep it is nested.

* `Tree.Reordered` — a value with its members in another order;
* `Tree.shell` — a value without the values in it;
* `Reordered.shell_eq`, `Reordered.depth_le` — what does not depend on the order.
-/

namespace JsonExtract.Tree

/-- Whether two values differ only in the order in which members stand in objects. -/
inductive Reordered : Tree → Tree → Prop
  | refl (t : Tree) : Reordered t t
  | trans {t t' t'' : Tree} : Reordered t t' → Reordered t' t'' → Reordered t t''
  /-- the members of an object change their order -/
  | members {ms ms' : List (Bytes × Tree)} (h : ms.Perm ms') : Reordered (object ms) (object ms')
  /-- something changes in one member of an object -/
  | member {before after : List (Bytes × Tree)} {name : Bytes} {v v' : Tree} : Reordered v v' →
    Reordered (object (before ++ (name, v) :: after)) (object (before ++ (name, v') :: after))
  /-- something changes in one element of an array -/
  | element {before after : List Tree} {v v' : Tree} : Reordered v v' →
    Reordered (array (before ++ v :: after)) (array (before ++ v' :: after))

/-- A value without the values in it. What a filter on the parent can see of it is left. -/
def shell : Tree → Tree
  | scalar s => scalar s
  | array _ => array []
  | object _ => object []

namespace Reordered

variable {t t' : Tree}

theorem shell_eq (h : t.Reordered t') : t'.shell = t.shell := by
  induction h with
  | refl => rfl
  | trans _ _ ih ih' => exact ih'.trans ih
  | members | member | element => rfl

/-- In any order the members have enough room. -/
theorem depth_le (h : t.Reordered t') {n limit : Nat} (hd : n + t.depth ≤ limit) :
    n + t'.depth ≤ limit := by
  induction h generalizing n with
  | refl => exact hd
  | trans _ _ ih ih' => exact ih' (ih hd)
  | members h =>
    obtain ⟨hroom, hmembers⟩ := add_depth_object_le_iff.1 hd
    exact add_depth_object_le_iff.2 ⟨hroom, fun m hm => hmembers m (h.mem_iff.2 hm)⟩
  | member _ ih =>
    obtain ⟨hroom, hmembers⟩ := add_depth_object_le_iff.1 hd
    rw [List.forall_mem_append, List.forall_mem_cons] at hmembers
    obtain ⟨hbefore, hvalue, hafter⟩ := hmembers
    refine add_depth_object_le_iff.2 ⟨hroom, ?_⟩
    rw [List.forall_mem_append, List.forall_mem_cons]
    exact ⟨hbefore, ih hvalue, hafter⟩
  | element _ ih =>
    obtain ⟨hroom, helements⟩ := add_depth_array_le_iff.1 hd
    rw [List.forall_mem_append, List.forall_mem_cons] at helements
    obtain ⟨hbefore, hvalue, hafter⟩ := helements
    refine add_depth_array_le_iff.2 ⟨hroom, ?_⟩
    rw [List.forall_mem_append, List.forall_mem_cons]
    exact ⟨hbefore, ih hvalue, hafter⟩

theorem forall_depth_le {values values' : List Tree} (h : List.Forall₂ Reordered values values')
    {limit : Nat} (hd : ∀ t ∈ values, t.depth ≤ limit) : ∀ t ∈ values', t.depth ≤ limit := by
  induction h with
  | nil => exact hd
  | cons h _ ih =>
    rw [List.forall_mem_cons] at hd ⊢
    have hvalue := @depth_le _ _ h 0 limit
    rw [Nat.zero_add, Nat.zero_add] at hvalue
    exact ⟨hvalue hd.1, ih hd.2⟩

end Reordered

end JsonExtract.Tree
