import JsonExtract.Proofs.Walk.Upkeep

/-!
# Slots that wait, and slots that die

No slot waits twice for one filter, or for one that is decided. A slot dies by a filter that it waits
for, when a member makes the filter fail or when the object ends without a member that decides it, and
by nothing else.

* `Check.Tidy`, `Walk.Tidy`, `Walk.tidy_token` — the slots that wait for filters;
* `Walk.pending_eq_countP`, `Walk.value?_eq_none_iff` — who lists a slot, container by container;
* `Slots.Dead` — slots that are dead;
* `Walk.Refuses`, `Walk.refuses_of_dead` — the token by which a slot dies;
* `Walk.exists_refusal` — the token of a whole run.
-/

namespace JsonExtract

/-! ## Slots that wait

The ledger counts numbers over all lists together. For the number of filters that a slot waits
for, it must also be known that a single list holds a number once, and that filters which are
decided hold none. Both are kept by each part of a step: a slot is new when it begins to wait,
so it is on no list yet. -/

/-- The slots that wait for a filter are in order. As `queue` reads the list of an undecided
filter only, the second field says that the list of a decided one is empty. -/
structure Check.Tidy (c : Check) : Prop where
  /-- none of them waits twice -/
  nodup : c.waiting.Nodup
  /-- none of them waits for a filter that is decided -/
  queue_eq : c.queue = c.waiting

namespace Check

theorem tidy_start (isObject : Bool) (filter : Filter) : (start isObject filter).Tidy := by
  rw [start]
  split <;> exact ⟨List.nodup_nil, ite_self _⟩

theorem tidy_see {c : Check} (name : Bytes) (text? : Option Bytes) (h : c.Tidy) :
    (c.see name text?).Tidy := by
  rw [see]
  split
  · exact ⟨List.nodup_nil, ite_self _⟩
  · exact h

/-- A slot that nobody lists yet may wait. The new number is put on the list only if the filter is
undecided. -/
theorem tidy_await {c : Check} {number : Nat} (hn : number ∉ c.queue) (h : c.Tidy) :
    (c.await number).Tidy := by
  rw [await]
  split
  · next hu =>
    rw [h.queue_eq] at hn
    exact ⟨List.nodup_cons.2 ⟨hn, h.nodup⟩, if_pos hu⟩
  · exact h

theorem not_mem_queues_of_subset {checks checks' : List Check} {number : Nat}
    (hs : checks ⊆ checks') (hn : number ∉ queues checks') : number ∉ queues checks := by
  intro hi
  obtain ⟨c, hc, hi⟩ := List.mem_flatMap.1 hi
  exact hn (List.mem_flatMap_of_mem (hs hc) hi)

theorem tidy_map_await {checks : List Check} {number : Nat} (hn : number ∉ queues checks)
    (h : ∀ c ∈ checks, c.Tidy) : ∀ c ∈ checks.map (·.await number), c.Tidy :=
  List.forall_mem_map.2 fun c hc =>
    tidy_await (fun hi => hn (List.mem_flatMap_of_mem hc hi)) (h c hc)

end Check

/-- No slot waits twice for one of the filters on a container. -/
def Frame.Tidy (f : Frame) : Prop :=
  ∀ c ∈ f.checks, c.Tidy

theorem Frame.tidy_await {f : Frame} (owner : Nat) {number : Nat} (hn : number ∉ f.queue)
    (h : f.Tidy) : (f.await owner number).Tidy := by
  intro c hc
  obtain ⟨t', ht', hc⟩ := List.mem_flatMap.1 hc
  obtain ⟨t, ht, rfl⟩ := List.mem_map.1 ht'
  have hsub : t.checks ⊆ f.checks := fun c hc => List.mem_flatMap_of_mem ht hc
  split at hc
  · exact Check.tidy_map_await (Check.not_mem_queues_of_subset hsub hn) (fun c hc => h c (hsub hc)) c hc
  · exact h c (hsub hc)

theorem Frame.tidy_see {f : Frame} (text? : Option Bytes) (h : f.Tidy) : (f.see text?).Tidy := by
  cases hf : f.container with
  | array =>
    rw [see, hf]
    exact h
  | object =>
    rw [Tidy, checks_see_object f hf, List.forall_mem_map]
    exact fun c hc => Check.tidy_see _ _ (h c hc)

namespace Walk

/-- No slot waits twice for one filter. Otherwise it would be counted twice when the filter is
decided, and be ready too early. -/
def Tidy (w : Walk) : Prop :=
  ∀ f ∈ w.frames, f.Tidy

variable {w : Walk}

theorem Staging.tidy_mark {v : Value} {a : Arrival} {s : Staging} {extra : List Nat} (count : Nat)
    (hb : s.Balanced extra) (h : s.walk.Tidy ∧ ∀ c ∈ s.checks, c.Tidy) :
    (s.mark v a count).walk.Tidy ∧ ∀ c ∈ (s.mark v a count).checks, c.Tidy := by
  -- the number of the new slot is listed nowhere
  have hfresh := List.count_eq_zero.1 hb.count_size
  rw [List.mem_append, List.mem_append, not_or, not_or] at hfresh
  obtain ⟨hchecks, -, hframes⟩ := hfresh
  rw [mark]
  split
  · exact h
  · refine ⟨List.forall_mem_map.2 fun f hf => ?_, List.forall_mem_append.2 ⟨?_, ?_⟩⟩
    · exact Frame.tidy_await _ (fun hi => hframes (List.mem_flatMap_of_mem hf hi)) (h.1 f hf)
    · exact Check.tidy_map_await
        (Check.not_mem_queues_of_subset (List.take_subset count s.checks) hchecks)
        fun c hc => h.2 c (List.mem_of_mem_take hc)
    · exact fun c hc => h.2 c (List.mem_of_mem_drop hc)

theorem Staging.tidy_foldl_mark {v : Value} {a : Arrival} {s : Staging} {extra : List Nat}
    (counts : List Nat) (hb : s.Balanced extra) (h : s.walk.Tidy ∧ ∀ c ∈ s.checks, c.Tidy) :
    (counts.foldl (mark v a) s).walk.Tidy ∧ ∀ c ∈ (counts.foldl (mark v a) s).checks, c.Tidy := by
  induction counts generalizing s with
  | nil => exact h
  | cons n ns ih => exact ih (mark_balanced n hb).1 (tidy_mark n hb h)

theorem Placement.tidy_arrive {v : Value} {p : Placement} (a : Arrival) (hb : p.Balanced)
    (h : p.walk.Tidy ∧ ∀ t ∈ p.trails, ∀ c ∈ t.checks, c.Tidy) :
    (p.arrive v a).walk.Tidy ∧ ∀ t ∈ (p.arrive v a).trails, ∀ c ∈ t.checks, c.Tidy := by
  have hs := staging_balanced (v := v) a hb
  obtain ⟨hw, hchecks⟩ := Staging.tidy_foldl_mark (v := v) (a := a) a.level.marks hs
    ⟨h.1, List.forall_mem_map.2 fun g _ => Check.tidy_start _ g.filter⟩
  exact ⟨hw, List.forall_mem_cons.2 ⟨hchecks, h.2⟩⟩

theorem Placement.tidy_foldl_arrive {v : Value} {p : Placement} (arrivals : List Arrival)
    (hb : p.Balanced) (h : p.walk.Tidy ∧ ∀ t ∈ p.trails, ∀ c ∈ t.checks, c.Tidy) :
    (arrivals.foldl (Placement.arrive v) p).walk.Tidy ∧
      ∀ t ∈ (arrivals.foldl (Placement.arrive v) p).trails, ∀ c ∈ t.checks, c.Tidy := by
  induction arrivals generalizing p with
  | nil => exact h
  | cons a as ih => exact ih (arrive_balanced a hb).1 (tidy_arrive a hb h)

theorem tidy_enter (paths : List Path) (v : Value) (h : w.Tidy) : (w.enter paths v).2.Tidy := by
  cases hw : w.frames with
  | nil =>
    simp only [enter, hw]
    exact h
  | cons parent outer =>
    rw [Tidy, hw, List.forall_mem_cons] at h
    rw [Tidy, frames_enter paths v hw, List.forall_mem_cons]
    exact ⟨Frame.tidy_see v.text? h.1, h.2⟩

theorem tidy_begin (v : Value) (arrivals : List Arrival) (hb : w.Balanced) (h : w.Tidy) :
    (w.begin v arrivals).Tidy := by
  obtain ⟨hw, htrails⟩ : (w.placed v arrivals).walk.Tidy ∧
      ∀ t ∈ (w.placed v arrivals).trails, ∀ c ∈ t.checks, c.Tidy :=
    Placement.tidy_foldl_arrive arrivals hb ⟨h, fun t ht => absurd ht List.not_mem_nil⟩
  rw [begin, Tidy]
  split
  · rw [openFrame, frames_write, List.forall_mem_cons]
    refine ⟨fun c hc => ?_, hw⟩
    obtain ⟨t, ht, hc⟩ := List.mem_flatMap.1 hc
    exact htrails t (List.mem_reverse.1 ht) c hc
  · rw [completeScalar, frames_write]
    exact hw

theorem tidy_name (raw : Bytes) (h : w.Tidy) : (w.name raw).Tidy := by
  rw [name]
  split
  · exact h
  · next f outer hw =>
    rw [Tidy, hw, List.forall_mem_cons] at h
    rw [Tidy]
    split
    · simp only [frames_write, frames_writeComma, hw]
      exact List.forall_mem_cons.2 h
    · exact List.forall_mem_cons.2 h

theorem tidy_close (h : w.Tidy) : w.close.Tidy := by
  rw [Tidy, frames_close]
  exact fun f hf => h f (List.mem_of_mem_tail hf)

/-- Each token leaves it so that no slot waits twice for one filter. The ledger is needed to know
that the number of a new slot is on no list so far. -/
theorem tidy_token (paths : List Path) (lexed : Lexed) (hb : w.Balanced) (h : w.Tidy) :
    (w.token paths lexed).Tidy := by
  have harrive : ∀ v, (w.arrive paths v).Tidy := fun v =>
    tidy_begin v _ (enter_advances paths v hb).balanced (tidy_enter paths v h)
  rw [token]
  split
  · exact tidy_name _ h
  · exact harrive _
  · exact harrive _
  · exact tidy_close h

theorem tidy_run (paths : List Path) (tokens : List Lexed) (hb : w.Balanced) (h : w.Tidy) :
    (w.run paths tokens).Tidy := by
  rw [run]
  induction tokens generalizing w with
  | nil => exact h
  | cons lexed tokens ih => exact ih (token_advances paths lexed hb).balanced (tidy_token paths lexed hb h)

end Walk

/-! ### Counting filters -/

/-- A slot is listed as often as there are undecided filters that it waits for. -/
theorem Check.count_queues {checks : List Check} (h : ∀ c ∈ checks, c.Tidy) (i : Nat) :
    (queues checks).count i = checks.countP fun c => c.isUndecided && c.waiting.contains i := by
  induction checks with
  | nil => rfl
  | cons c cs ih =>
    rw [List.forall_mem_cons] at h
    have hone : c.queue.count i = if c.isUndecided && c.waiting.contains i then 1 else 0 := by
      rw [queue]
      by_cases hu : c.isUndecided = true
      · rw [if_pos hu, hu, Bool.true_and, h.1.nodup.count, List.contains_eq_mem]
        simp
      · simp [hu]
    have hrest := ih h.2
    rw [queues] at hrest ⊢
    rw [List.flatMap_cons, List.count_append, hone, hrest, List.countP_cons, Nat.add_comm]

/-- What is listed once at most is listed by one of those who list things, or by none. -/
theorem countP_contains {α : Type} (listed : α → List Nat) (xs : List α) (i : Nat)
    (h : (xs.flatMap listed).count i ≤ 1) :
    (xs.countP fun x => (listed x).contains i) = (xs.flatMap listed).count i := by
  induction xs with
  | nil => rfl
  | cons x xs ih =>
    rw [List.flatMap_cons, List.count_append] at h ⊢
    rw [List.countP_cons, ih (by omega), List.contains_eq_mem]
    by_cases hx : i ∈ listed x
    · have hpos := List.count_pos_iff.2 hx
      rw [if_pos (decide_eq_true hx)]
      omega
    · rw [if_neg (by simpa using hx), List.count_eq_zero.2 hx, Nat.add_comm]

namespace Walk

variable {w : Walk} {i : Nat} {slot : Slot}

/-- A slot that is not dead is pending as often as undecided filters on open containers list it.
This is the count that the ledger makes, expressed with the filters themselves. -/
theorem pending_eq_countP (hb : w.Balanced) (ht : w.Tidy) (hs : w.slots[i]? = some slot)
    (hd : slot.dead = false) :
    slot.pending =
      (w.frames.flatMap (·.checks)).countP fun c => c.isUndecided && c.waiting.contains i := by
  have hqueue : w.queue = Check.queues (w.frames.flatMap (·.checks)) := by
    rw [Check.queues, List.flatMap_assoc]
    rfl
  rw [hb.pending hs hd, hqueue, Check.count_queues]
  intro c hc
  obtain ⟨f, hf, hc⟩ := List.mem_flatMap.1 hc
  exact ht f hf c hc

/-- A slot has no value yet exactly while one open container keeps text for it. -/
theorem value?_eq_none_iff (hb : w.Balanced) (hs : w.slots[i]? = some slot) :
    slot.value? = none ↔ (w.frames.countP fun f => f.recorded.contains i) = 1 := by
  have honce := hb.once hs
  rw [countP_contains Frame.recorded w.frames i (by rw [recorded] at honce; omega), ← recorded]
  cases hv : slot.value? with
  | none =>
    rw [hv] at honce
    exact iff_of_true rfl honce
  | some value =>
    rw [hv, Option.toList_some, List.length_singleton] at honce
    exact iff_of_false (by simp) (by omega)

end Walk

/-! ## Slots that die

A slot can only be killed by a ruling that refuses it, so one looks for the tokens that pass
rulings. These are the first token of a member's value and the closing bracket of an object.
Whatever else a token does, it is checked to leave the dead slots as they are. -/

/-- Whether the slot with a number is dead. A number without a slot is not dead, so this is about
slots that were reserved. -/
def Slots.Dead (slots : Slots) (i : Nat) : Prop :=
  ∃ s, slots[i]? = some s ∧ s.dead = true

namespace Slots

variable {slots : Slots} {i : Nat}

/-- A ruling kills the slots that it refuses. -/
theorem dead_judge_iff {rulings : List Ruling} :
    (slots.judge rulings).Dead i ↔
      slots.Dead i ∨ i < slots.size ∧ i ∈ Ruling.refused rulings := by
  simp only [Dead, getElem?_judge, Option.map_eq_some_iff]
  constructor
  · rintro ⟨_, ⟨s, hs, rfl⟩, hd⟩
    rw [Slot.judge, Bool.or_eq_true, bne_iff_ne] at hd
    rcases hd with hd | hd
    · exact .inl ⟨s, hs, hd⟩
    · exact .inr ⟨(Array.getElem?_eq_some_iff.1 hs).1, List.count_pos_iff.1 (Nat.pos_of_ne_zero hd)⟩
  · rintro (⟨s, hs, hd⟩ | ⟨hlt, hi⟩)
    · exact ⟨_, ⟨s, hs, rfl⟩, by rw [Slot.judge, hd, Bool.true_or]⟩
    · refine ⟨_, ⟨_, Array.getElem?_eq_getElem hlt, rfl⟩, ?_⟩
      rw [Slot.judge, bne_iff_ne.2 (Nat.ne_of_gt (List.count_pos_iff.2 hi)), Bool.or_true]

/-- The text of a value kills no slot. -/
theorem dead_complete_iff {value : Bytes} {numbers : List Nat} :
    (slots.complete value numbers).Dead i ↔ slots.Dead i := by
  have hdead : ∀ s : Slot, (if i ∈ numbers then s.complete value else s).dead = s.dead := by
    intro s
    split <;> rfl
  simp only [Dead, getElem?_complete, Option.map_eq_some_iff]
  constructor
  · rintro ⟨_, ⟨s, hs, rfl⟩, hd⟩
    exact ⟨s, hs, hdead s ▸ hd⟩
  · rintro ⟨s, hs, hd⟩
    exact ⟨_, ⟨s, hs, rfl⟩, (hdead s).trans hd⟩

/-- A slot that is new and not dead kills no other. -/
theorem dead_push_iff {slot : Slot} (hs : slot.dead = false) :
    Dead (slots.push slot) i ↔ slots.Dead i := by
  simp only [Dead, Array.getElem?_push]
  split
  · next hi =>
    subst hi
    rw [Array.getElem?_eq_none (Nat.le_refl _)]
    simp [hs]
  · exact Iff.rfl

end Slots

/-- The value that a token starts, if it starts one. -/
def Lexed.value? (lexed : Lexed) : Option Value :=
  match lexed.token with
  | .scalar kind raw => some ⟨kind, raw, lexed.start, lexed.stop⟩
  | .opening c => some ⟨c.kind, [c.opening], lexed.start, lexed.stop⟩
  | .name _ | .closing _ => none

namespace Walk

/-- A token makes a filter fail that a slot waits for: it ends the container of the filter, which
no member has decided, or it starts the value of a member that decides it. In both cases the slot
is still on the list of the filter when the token comes. -/
def Refuses (w : Walk) (lexed : Lexed) (i : Nat) : Prop :=
  ∃ f outer c, w.frames = f :: outer ∧ c ∈ f.checks ∧ c.isUndecided = true ∧ i ∈ c.waiting ∧
    ((∃ container, lexed.token = .closing container) ∨
      f.container = .object ∧ ∃ v ∈ lexed.value?, c.decide? f.name v.text? = some false)

variable {w : Walk} {i : Nat}

theorem Staging.dead_mark_iff {v : Value} {a : Arrival} {s : Staging} (count : Nat) :
    (s.mark v a count).walk.slots.Dead i ↔ s.walk.slots.Dead i := by
  rw [mark]
  split
  · exact Iff.rfl
  · exact Slots.dead_push_iff rfl

theorem Staging.dead_foldl_mark_iff {v : Value} {a : Arrival} {s : Staging} (counts : List Nat) :
    (counts.foldl (mark v a) s).walk.slots.Dead i ↔ s.walk.slots.Dead i := by
  induction counts generalizing s with
  | nil => exact Iff.rfl
  | cons n ns ih => exact ih.trans (dead_mark_iff n)

/-- Slots that are reserved are not dead. A mark behind a filter that has failed already gets no
slot at all, rather than a dead one. -/
theorem dead_placed_iff (v : Value) (arrivals : List Arrival) (w : Walk) :
    (w.placed v arrivals).walk.slots.Dead i ↔ w.slots.Dead i := by
  rw [placed]
  generalize hp : ({ walk := w } : Placement) = p
  have hw : w = p.walk := congrArg Placement.walk hp
  rw [hw]
  clear hp hw
  induction arrivals generalizing p with
  | nil => exact Iff.rfl
  | cons a as ih => exact (ih _).trans (Staging.dead_foldl_mark_iff a.level.marks)

theorem dead_begin_iff (v : Value) (arrivals : List Arrival) (w : Walk) :
    (w.begin v arrivals).slots.Dead i ↔ w.slots.Dead i := by
  rw [← dead_placed_iff v arrivals w, begin]
  split
  · rw [openFrame, slots_write]
  · rw [completeScalar, slots_write]
    exact Slots.dead_complete_iff

/-- A slot dies when a member is seen only if the member refuses it. -/
theorem refuses_of_enter {lexed : Lexed} {v : Value} (paths : List Path) (hv : lexed.value? = some v)
    (h : (w.enter paths v).2.slots.Dead i) : w.slots.Dead i ∨ w.Refuses lexed i := by
  cases hw : w.frames with
  | nil =>
    simp only [enter, hw] at h
    exact .inl h
  | cons f outer =>
    rw [slots_enter paths v hw, Frame.decided_eq_judge, Slots.dead_judge_iff] at h
    obtain hd | ⟨-, hi⟩ := h
    · exact .inl hd
    right
    rw [Frame.rulings] at hi
    split at hi
    · next hobject =>
      obtain ⟨r, hr, hi⟩ := List.mem_flatMap.1 hi
      obtain ⟨c, hc, hr⟩ := List.mem_flatMap.1 hr
      rw [Option.mem_toList, Check.ruling?, Option.map_eq_some_iff] at hr
      obtain ⟨passed, hd, rfl⟩ := hr
      cases passed with
      | true => cases hi
      | false =>
        exact ⟨f, outer, c, hw, hc, Check.isUndecided_of_decide? _ _ c hd, hi,
          .inr ⟨hobject, v, hv, hd⟩⟩
    · cases hi

/-- A slot dies when a container is closed only if it still waits there. -/
theorem refuses_of_close {lexed : Lexed} {container : Container}
    (hl : lexed.token = .closing container) (h : w.close.slots.Dead i) :
    w.slots.Dead i ∨ w.Refuses lexed i := by
  rw [close] at h
  split at h
  · exact .inl h
  · next f outer hw =>
    have hclosed : (f.closed w.slots).Dead i := by
      split at h
      · rwa [slots_write] at h
      · simp only [slots_write] at h
        exact Slots.dead_complete_iff.1 h
    rw [Frame.closed_eq_judge, Slots.dead_judge_iff, Ruling.refused_refusal] at hclosed
    obtain hd | ⟨-, hi⟩ := hclosed
    · exact .inl hd
    right
    obtain ⟨c, hc, hi⟩ := List.mem_flatMap.1 hi
    rw [Check.queue] at hi
    split at hi
    · next hu => exact ⟨f, outer, c, hw, hc, hu, hi, .inl ⟨container, hl⟩⟩
    · cases hi

/-- A slot dies by a token only if the token makes a filter fail that the slot waits for.
Reserving slots and completing texts kill none, so only the rulings are left. -/
theorem refuses_of_dead (paths : List Path) {lexed : Lexed}
    (h : (w.token paths lexed).slots.Dead i) : w.slots.Dead i ∨ w.Refuses lexed i := by
  rw [token] at h
  have harrive : ∀ v, lexed.value? = some v → (w.arrive paths v).slots.Dead i →
      w.slots.Dead i ∨ w.Refuses lexed i := by
    intro v hv h
    rw [arrive_eq_begin, dead_begin_iff] at h
    exact refuses_of_enter paths hv h
  split at h
  · next raw _ =>
    cases hw : w.frames with
    | nil =>
      simp only [name, hw] at h
      exact .inl h
    | cons f outer => exact .inl (slots_name hw raw ▸ h)
  · next hl => exact harrive _ (by rw [Lexed.value?, hl]) h
  · next hl => exact harrive _ (by rw [Lexed.value?, hl]) h
  · next hl => exact refuses_of_close hl h

/-- A slot that is dead behind some tokens was killed by one of them. By induction on the tokens:
the first one behind which the slot is dead did it. -/
theorem exists_refusal (paths : List Path) {tokens : List Lexed}
    (h : (w.run paths tokens).slots.Dead i) :
    w.slots.Dead i ∨ ∃ before lexed after, tokens = before ++ lexed :: after ∧
      (w.run paths before).Refuses lexed i := by
  induction tokens generalizing w with
  | nil => exact .inl h
  | cons lexed tokens ih =>
    obtain hd | ⟨before, killer, after, rfl, hr⟩ := ih (w := w.token paths lexed) h
    · exact (refuses_of_dead paths hd).imp id fun hr => ⟨[], lexed, tokens, rfl, hr⟩
    · exact .inr ⟨lexed :: before, killer, after, rfl, hr⟩

end Walk

end JsonExtract
