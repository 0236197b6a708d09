import JsonExtract.Proofs.Walk.Outline
import JsonExtract.Proofs.Walk.Ruling

/-!
# The ledger of slots

Slots are decided from far away: by filters that list them while they are undecided, and by containers
that list them while their text is kept. The ledger says that nothing is listed twice or forgotten. A
slot is pending as often as filters list it, and one container lists it until its value is there. So a
slot that is ready is listed nowhere, and nothing happens to it any more.

* `Ledger` — the ledger, for slots and those who list them;
* `Slots.Keeps` — dead slots stay dead, and slots that are ready stay as they are;
* `Ledger.judge`, `Ledger.push`, `Ledger.complete` — the three things that happen to slots.
-/

namespace JsonExtract

/-! ## The ledger

The ledger does not know who lists slots, only that two lists of numbers are kept: the slots in
`queue` wait, once for each time they stand there, and those in `recorded` will get a value.
Three operations change slots, and for each the lists that have to change with it are named. -/

/-- Whoever lists slots does so truly: `queue` are the slots that filters list, and `recorded`
those that containers list. Each field compares a slot with how often its number occurs in the two
lists, so the order of the lists, and how they are split over frames and filters, is of no
importance. -/
structure Ledger (queue recorded : List Nat) (slots : Slots) : Prop where
  /-- only slots are listed -/
  lt_of_queue : ∀ {i : Nat}, i ∈ queue → i < slots.size
  /-- only slots are listed -/
  lt_of_recorded : ∀ {i : Nat}, i ∈ recorded → i < slots.size
  /-- a slot is pending as often as it is listed -/
  pending : ∀ {i : Nat} {s : Slot}, slots[i]? = some s → s.dead = false → s.pending = queue.count i
  /-- a value comes once, from the one container that lists the slot -/
  once : ∀ {i : Nat} {s : Slot}, slots[i]? = some s → recorded.count i + s.value?.toList.length = 1

/-- What is settled in one state of the slots stays so in the other. A state of the slots may have
more slots than an earlier one, and the slots in between may have changed in every other way. -/
def Slots.Keeps (slots slots' : Slots) : Prop :=
  ∀ (i : Nat) (s : Slot), slots[i]? = some s →
    ∃ s', slots'[i]? = some s' ∧ (s.dead = true → s'.dead = true) ∧ (s.match?.isSome → s' = s)

namespace Slots.Keeps

variable {slots slots' slots'' : Slots}

theorem refl (slots : Slots) : slots.Keeps slots :=
  fun _ _ hs => ⟨_, hs, id, fun _ => rfl⟩

theorem trans (h : slots.Keeps slots') (h' : slots'.Keeps slots'') : slots.Keeps slots'' := by
  intro i s hs
  obtain ⟨s', hs', hdead, hready⟩ := h i s hs
  obtain ⟨s'', hs'', hdead', hready'⟩ := h' i s' hs'
  refine ⟨s'', hs'', hdead' ∘ hdead, ?_⟩
  intro hm
  obtain rfl := hready hm
  exact hready' hm

end Slots.Keeps

/-- A slot that is ready waits for nothing and has its value. Being ready is therefore decided by
the three fields that the ledger speaks about. -/
theorem Slot.isSome_match?_iff {s : Slot} :
    s.match?.isSome ↔ s.dead = false ∧ s.pending = 0 ∧ s.value?.isSome := by
  rw [match?]
  split <;> simp_all

namespace Ledger

variable {queue queue' recorded recorded' : List Nat} {slots : Slots}

/-- Only numbers matter, not their order. -/
theorem congr (h : Ledger queue recorded slots) (hq : ∀ i, queue'.count i = queue.count i)
    (hr : ∀ i, recorded'.count i = recorded.count i) : Ledger queue' recorded' slots where
  lt_of_queue hi := h.lt_of_queue (List.count_pos_iff.1 (hq _ ▸ List.count_pos_iff.2 hi))
  lt_of_recorded hi := h.lt_of_recorded (List.count_pos_iff.1 (hr _ ▸ List.count_pos_iff.2 hi))
  pending hs hd := by rw [hq, h.pending hs hd]
  once hs := by rw [hr]; exact h.once hs

/-- A new slot is listed nowhere yet. -/
theorem count_size (h : Ledger queue recorded slots) : queue.count slots.size = 0 :=
  List.count_eq_zero.2 fun hi => Nat.lt_irrefl _ (h.lt_of_queue hi)

theorem count_size' (h : Ledger queue recorded slots) : recorded.count slots.size = 0 :=
  List.count_eq_zero.2 fun hi => Nat.lt_irrefl _ (h.lt_of_recorded hi)

section Rulings

variable {rulings : List Ruling}
  (hq : ∀ i, queue.count i =
    (Ruling.granted rulings).count i + (Ruling.refused rulings).count i + queue'.count i)

include hq

/-- Filters that were decided list no slots any more. A granted slot is pending once less for each
filter that listed it, a refused slot is dead; either way the numbers that are taken off the lists
are those that the rulings name. -/
theorem judge (h : Ledger queue recorded slots) :
    Ledger queue' recorded (slots.judge rulings) where
  lt_of_queue {i} hi := by
    have hpos := List.count_pos_iff.2 hi
    rw [Slots.size_judge]
    exact h.lt_of_queue (List.count_pos_iff.1 (by have := hq i; omega))
  lt_of_recorded hi := by rw [Slots.size_judge]; exact h.lt_of_recorded hi
  pending {i s'} hs hd := by
    rw [Slots.getElem?_judge, Option.map_eq_some_iff] at hs
    obtain ⟨s, hs, rfl⟩ := hs
    simp only [Slot.judge, Bool.or_eq_false_iff, bne_eq_false_iff_eq] at hd
    have hp := h.pending hs hd.1
    simp only [Slot.judge]
    have := hq i
    omega
  once {i s'} hs := by
    rw [Slots.getElem?_judge, Option.map_eq_some_iff] at hs
    obtain ⟨s, hs, rfl⟩ := hs
    rw [Slot.judge_value?]
    exact h.once hs

theorem keeps_judge (h : Ledger queue recorded slots) : slots.Keeps (slots.judge rulings) := by
  intro i s hs
  refine ⟨_, by rw [Slots.getElem?_judge, hs, Option.map_some], fun hd => by simp [Slot.judge, hd],
    ?_⟩
  -- a slot that is ready waits for no filter, so no ruling names it
  intro hm
  obtain ⟨hd, hp, _⟩ := Slot.isSome_match?_iff.1 hm
  have hz := h.pending hs hd
  have := hq i
  rw [show (Ruling.granted rulings).count i = 0 by omega,
    show (Ruling.refused rulings).count i = 0 by omega, Slot.judge_zero]

end Rulings

/-- A new slot without a value is pending as often as filters begin to list it. -/
theorem push {slot : Slot} (h : Ledger queue recorded slots) (hv : slot.value? = none)
    (hq : ∀ i, queue'.count i = queue.count i + if i = slots.size then slot.pending else 0) :
    Ledger queue' (slots.size :: recorded) (slots.push slot) where
  lt_of_queue {i} hi := by
    have hpos := List.count_pos_iff.2 hi
    rw [Array.size_push]
    have hc := hq i
    by_cases he : i = slots.size
    · omega
    · rw [if_neg he] at hc
      exact Nat.lt_succ_of_lt (h.lt_of_queue (List.count_pos_iff.1 (by omega)))
  lt_of_recorded {i} hi := by
    rw [Array.size_push]
    rcases List.mem_cons.1 hi with rfl | hi
    · exact Nat.lt_succ_self _
    · exact Nat.lt_succ_of_lt (h.lt_of_recorded hi)
  pending {i s} hs hd := by
    rw [Array.getElem?_push] at hs
    rw [hq]
    split at hs
    · next he =>
      cases hs
      rw [if_pos he, he, h.count_size, Nat.zero_add]
    · next he => rw [if_neg he, h.pending hs hd, Nat.add_zero]
  once {i s} hs := by
    rw [Array.getElem?_push] at hs
    split at hs
    · next he =>
      cases hs
      rw [he, List.count_cons_self, h.count_size', hv]
      rfl
    · next he => rw [List.count_cons_of_ne (Ne.symm he)]; exact h.once hs

theorem keeps_push (slots : Slots) (slot : Slot) : slots.Keeps (slots.push slot) := by
  intro i s hs
  have hlt := (Array.getElem?_eq_some_iff.1 hs).1
  refine ⟨s, ?_, id, fun _ => rfl⟩
  rw [Array.getElem?_push, if_neg (by omega), hs]

variable {value : Bytes} {numbers : List Nat}

/-- A container that gives its text away lists no slots any more. The slots that are completed
were listed once each, so none of them had a value before. -/
theorem complete (h : Ledger queue (numbers ++ recorded) slots) :
    Ledger queue recorded (slots.complete value numbers) where
  lt_of_queue hi := by rw [Slots.size_complete]; exact h.lt_of_queue hi
  lt_of_recorded hi := by
    rw [Slots.size_complete]
    exact h.lt_of_recorded (List.mem_append_right _ hi)
  pending {i s'} hs hd := by
    rw [Slots.getElem?_complete, Option.map_eq_some_iff] at hs
    obtain ⟨s, hs, rfl⟩ := hs
    by_cases hi : i ∈ numbers
    · rw [if_pos hi] at hd ⊢
      exact (h.pending hs hd : s.pending = _)
    · rw [if_neg hi] at hd ⊢
      exact h.pending hs hd
  once {i s'} hs := by
    rw [Slots.getElem?_complete, Option.map_eq_some_iff] at hs
    obtain ⟨s, hs, rfl⟩ := hs
    have hone := h.once hs
    rw [List.count_append] at hone
    split
    · next hi =>
      have hpos := List.count_pos_iff.2 hi
      simp only [Slot.complete, Option.toList_some, List.length_singleton]
      omega
    · next hi =>
      rw [List.count_eq_zero.2 hi, Nat.zero_add] at hone
      exact hone

theorem keeps_complete (h : Ledger queue (numbers ++ recorded) slots) :
    slots.Keeps (slots.complete value numbers) := by
  intro i s hs
  refine ⟨_, by rw [Slots.getElem?_complete, hs, Option.map_some], ?_, ?_⟩
  · intro hd
    split
    · exact hd
    · exact hd
  -- a slot that is ready has its value, so no container gives it another
  · intro hm
    obtain ⟨_, _, hv⟩ := Slot.isSome_match?_iff.1 hm
    obtain ⟨value, hv⟩ := Option.isSome_iff_exists.1 hv
    have hone := h.once hs
    rw [List.count_append, hv, Option.toList_some, List.length_singleton] at hone
    rw [if_neg fun hi => by have := List.count_pos_iff.2 hi; omega]

end Ledger

end JsonExtract
