import JsonExtract.Proofs.Walk.Ledger

/-!
# The ledger of a walk

Each token keeps the ledger of a walk balanced, and what was settled before the token stays settled.
Inside of a token, while slots are reserved for a value, the trails into the value and the slots
reserved so far belong to the ledger, too.

* `Frame.queue`, `Frame.recorded` — the slots that a frame lists;
* `Walk.Balanced`, `Staging.Balanced`, `Placement.Balanced` — the ledger, between tokens and inside;
* `Walk.Advances` — a balanced walk that keeps what was settled;
* `Walk.token_advances` — each token advances the walk.
-/

namespace JsonExtract

/-! ## Who lists slots

Two sorts of lists hold slot numbers: a filter lists those that wait for it, and a frame lists
those that will get the text of its container. The lemmas count how often a number stands in
them before and after a member is seen or a new slot begins to wait, which is all that the
ledger asks for. -/

namespace Check

variable (name : Bytes) (text? : Option Bytes) (c : Check) (i : Nat)

theorem isUndecided_of_decide? {outcome : Bool} (h : c.decide? name text? = some outcome) :
    c.isUndecided = true := by
  rw [decide?] at h
  split at h
  · assumption
  · cases h

/-- A member that decides a filter passes its ruling on all that wait for it. A decided filter
lists nobody afterwards, an undecided one lists whom it listed before: the numbers are neither
lost nor doubled. -/
theorem count_queue_see :
    c.queue.count i =
      (Ruling.granted (c.ruling? name text?).toList).count i +
        (Ruling.refused (c.ruling? name text?).toList).count i +
          (c.see name text?).queue.count i := by
  cases hd : c.decide? name text? with
  | none => simp [ruling?, see, hd, Ruling.granted, Ruling.refused]
  | some outcome =>
    have hu := isUndecided_of_decide? name text? c hd
    cases outcome <;> simp [ruling?, see, hd, Ruling.granted, Ruling.refused, queue, hu]

theorem count_queue_await (number : Nat) :
    (c.await number).queue.count i =
      c.queue.count i + if i = number then (if c.isUndecided then 1 else 0) else 0 := by
  rw [await]
  split
  · next hu =>
    have hu' : ({ c with waiting := number :: c.waiting } : Check).isUndecided = true := hu
    rw [queue, if_pos hu', queue, if_pos hu]
    by_cases hi : i = number
    · simp [hi]
    · simp [hi, Ne.symm hi]
  · rw [ite_self, Nat.add_zero]

end Check

/-- The slots that wait for any of the filters. -/
def Check.queues (checks : List Check) : List Nat :=
  checks.flatMap queue

theorem Check.count_queues_await (number i : Nat) (checks : List Check) :
    (queues (checks.map (·.await number))).count i =
      (queues checks).count i + if i = number then checks.countP (·.isUndecided) else 0 := by
  induction checks with
  | nil => simp [queues]
  | cons c cs ih =>
    simp only [queues, List.map_cons, List.flatMap_cons, List.count_append, List.countP_cons] at ih ⊢
    rw [ih, count_queue_await]
    split <;> omega

/-- Nobody waits for filters on a value that just starts. -/
theorem Check.queues_outline (checks : List Check) : queues (checks.map outline) = [] := by
  simp [queues, queue, outline]

namespace Frame

variable (f : Frame) (i : Nat)

/-- The slots that wait for the filters on a container. -/
def queue : List Nat :=
  Check.queues f.checks

/-- The slots that the text of a container is for. -/
def recorded : List Nat :=
  f.recording?.elim [] (·.slots)

theorem checks_see_object {text? : Option Bytes} (h : f.container = .object) :
    (f.see text?).checks = f.checks.map (·.see f.name text?) := by
  simp [see, h, mapChecks, checks, List.flatMap_map, List.map_flatMap]

theorem count_queue_see (text? : Option Bytes) :
    f.queue.count i =
      (Ruling.granted (f.rulings text?)).count i + (Ruling.refused (f.rulings text?)).count i +
        (f.see text?).queue.count i := by
  cases hc : f.container with
  | array => simp [rulings, see, hc, Ruling.granted, Ruling.refused]
  | object =>
    rw [queue, queue, checks_see_object f hc, rulings, hc]
    induction f.checks with
    | nil => rfl
    | cons c cs ih =>
      have hone := c.count_queue_see f.name text? i
      simp only [Check.queues, Ruling.granted, Ruling.refused, List.map_cons, List.flatMap_cons,
        List.flatMap_append, List.count_append] at ih hone ⊢
      omega

theorem count_queue_await (owner number : Nat) :
    (f.await owner number).queue.count i =
      f.queue.count i +
        if i = number then (f.checksOf owner).countP (·.isUndecided) else 0 := by
  simp only [queue, checks, await, checksOf, List.flatMap_map]
  induction f.trails with
  | nil => simp [Check.queues]
  | cons t ts ih =>
    have hone := Check.count_queues_await number i t.checks
    simp only [Check.queues, List.flatMap_cons, List.flatMap_append, List.count_append,
      List.filter_cons] at ih hone ⊢
    rw [ih]
    by_cases ho : t.owner = owner
    · simp only [ho, decide_true, if_true, List.flatMap_cons, List.countP_append, hone]
      split <;> omega
    · simp only [ho, decide_false, if_false, Bool.false_eq_true]
      split <;> omega

theorem count_queues_await (owner number : Nat) (frames : List Frame) :
    ((frames.map (·.await owner number)).flatMap queue).count i =
      (frames.flatMap queue).count i +
        if i = number then (frames.flatMap (·.checksOf owner)).countP (·.isUndecided) else 0 := by
  induction frames with
  | nil => simp
  | cons f fs ih =>
    simp only [List.map_cons, List.flatMap_cons, List.count_append, List.countP_append,
      count_queue_await, ih]
    split <;> omega

end Frame

/-! ## Between tokens

Between two tokens every listed slot is listed by a frame of the walk, so the ledger of the walk
is that of its frames. `Walk.Advances` pairs the ledger behind a step with the promise that the
step left settled slots alone; it composes, so each part of a token is advanced on its own. -/

namespace Walk

variable (w : Walk)

/-- The slots that wait for filters on open containers. -/
def queue : List Nat :=
  w.frames.flatMap Frame.queue

/-- The slots that the text of open containers is for. -/
def recorded : List Nat :=
  w.frames.flatMap Frame.recorded

/-- The ledger of a walk is true. It is the ledger for the slots that the frames list, in whatever
order they list them. -/
def Balanced : Prop :=
  Ledger w.queue w.recorded w.slots

/-- A walk with a true ledger that keeps what was settled. Both halves are needed for the next
step: the ledger shows that slots which are listed are not settled, and so that nothing done to
them unsettles any. -/
structure Advances (w w' : Walk) : Prop where
  balanced : w'.Balanced
  keeps : w.slots.Keeps w'.slots

theorem balanced_initial : ({} : Walk).Balanced where
  lt_of_queue hi := by cases hi
  lt_of_recorded hi := by cases hi
  pending hs := by simp at hs
  once hs := by simp at hs

variable {w}

theorem Advances.refl (h : w.Balanced) : w.Advances w :=
  ⟨h, .refl _⟩

theorem Advances.trans {w' w'' : Walk} (h : w.Advances w') (h' : w'.Advances w'') :
    w.Advances w'' :=
  ⟨h'.balanced, h.keeps.trans h'.keeps⟩

/-! ### The tape -/

section

variable (w : Walk) (bytes : Bytes) (f : Frame)

@[simp]
theorem frames_write : (w.write bytes).frames = w.frames := by
  rw [write]
  split <;> rfl

@[simp]
theorem slots_write : (w.write bytes).slots = w.slots := by
  rw [write]
  split <;> rfl

@[simp]
theorem frames_writeComma : (w.writeComma f).frames = w.frames := by
  rw [writeComma]
  split
  · rfl
  · exact frames_write ..

@[simp]
theorem slots_writeComma : (w.writeComma f).slots = w.slots := by
  rw [writeComma]
  split
  · rfl
  · exact slots_write ..

/-- The ledger is about frames and slots alone. -/
theorem Advances.of_eq {w w' : Walk} (h : w.Balanced) (hf : w'.frames = w.frames)
    (hs : w'.slots = w.slots) : w.Advances w' := by
  refine ⟨?_, hs ▸ .refl _⟩
  rw [Balanced, queue, recorded, hf, hs]
  exact h

end

/-! ### Entering -/

section

variable {w : Walk} {parent : Frame} {outer : List Frame} (paths : List Path) (v : Value)
  (hw : w.frames = parent :: outer)

include hw

theorem enter_fst : (w.enter paths v).1 =
    (parent.see v.text?).trails.filterMap (·.arrival? parent.child) := by
  simp only [enter, hw]

theorem frames_enter : (w.enter paths v).2.frames =
    { parent.see v.text? with count := parent.count + 1 } :: outer := by
  simp only [enter, hw]

theorem slots_enter : (w.enter paths v).2.slots = parent.decided v.text? w.slots := by
  simp only [enter, hw]
  split <;> simp

end

/-- A member may decide filters of its object, and they list no slots any more. Those who waited
are judged, and each of them is pending as often less as it was listed. -/
theorem enter_advances {w : Walk} (paths : List Path) (v : Value) (h : w.Balanced) :
    w.Advances (w.enter paths v).2 := by
  cases hw : w.frames with
  | nil =>
    simp only [enter, hw]
    exact .refl h
  | cons parent outer =>
    have hq : ∀ i, w.queue.count i =
        (Ruling.granted (parent.rulings v.text?)).count i +
          (Ruling.refused (parent.rulings v.text?)).count i +
            (w.enter paths v).2.queue.count i := by
      intro i
      rw [queue, queue, hw, frames_enter paths v hw, List.flatMap_cons, List.flatMap_cons,
        List.count_append, List.count_append, Frame.count_queue_see parent i v.text?]
      exact Nat.add_assoc ..
    have hr : (w.enter paths v).2.recorded = w.recorded := by
      rw [recorded, recorded, frames_enter paths v hw, hw, List.flatMap_cons, List.flatMap_cons,
        Frame.recorded, Frame.recorded, Frame.see]
      split <;> rfl
    refine ⟨?_, ?_⟩
    · rw [Balanced, hr, slots_enter paths v hw, Frame.decided_eq_judge]
      exact Ledger.judge hq h
    · rw [slots_enter paths v hw, Frame.decided_eq_judge]
      exact Ledger.keeps_judge hq h

end Walk

/-! ## Inside of a token

While the slots for a value are being reserved, some of them are listed by frames, some by the
filters on the value itself, which have no frame yet, and some have their numbers on a list of
their own until the container's frame is made or the scalar is written. The ledger is stated for
a staging and for a placement with these additional lists. -/

namespace Walk

namespace Staging

variable {v : Value} {a : Arrival} {s : Staging} {extra : List Nat}

/-- The ledger while slots are reserved for an arrival; `extra` are slots listed elsewhere. -/
def Balanced (extra : List Nat) (s : Staging) : Prop :=
  Ledger (Check.queues s.checks ++ (extra ++ s.walk.queue)) (s.reserved ++ s.walk.recorded)
    s.walk.slots

theorem recorded_await (owner number : Nat) (frames : List Frame) :
    (frames.map (·.await owner number)).flatMap Frame.recorded = frames.flatMap Frame.recorded := by
  rw [List.flatMap_map]
  rfl

/-- A new slot is listed by the undecided filters that it waits for. The slot is pending once for
each filter that lists it, on the containers around the value and on the value itself, and dead
slots are listed nowhere. -/
theorem mark_balanced (count : Nat) (h : s.Balanced extra) :
    (s.mark v a count).Balanced extra ∧ s.walk.slots.Keeps (s.mark v a count).walk.slots := by
  rw [mark]
  split
  · exact ⟨h, .refl _⟩
  · refine ⟨?_, Ledger.keeps_push s.walk.slots _⟩
    rw [Balanced, recorded, recorded_await]
    apply Ledger.push h rfl
    intro i
    -- the filters of the arrival up to the mark and those on open containers start to list the slot
    have hown := Check.count_queues_await s.walk.slots.size i (s.checks.take count)
    have hframes := Frame.count_queues_await i a.owner s.walk.slots.size s.walk.frames
    have hsplit : Check.queues s.checks =
        Check.queues (s.checks.take count) ++ Check.queues (s.checks.drop count) := by
      rw [Check.queues, Check.queues, Check.queues, ← List.flatMap_append, List.take_append_drop]
    have happend : ∀ xs ys, Check.queues (xs ++ ys) = Check.queues xs ++ Check.queues ys :=
      fun _ _ => List.flatMap_append
    simp only [queue, hsplit, happend, List.count_append, hown, hframes, List.countP_append]
    split <;> omega

theorem foldl_mark_balanced (counts : List Nat) (h : s.Balanced extra) :
    (counts.foldl (mark v a) s).Balanced extra ∧
      s.walk.slots.Keeps (counts.foldl (mark v a) s).walk.slots := by
  induction counts generalizing s with
  | nil => exact ⟨h, .refl _⟩
  | cons n ns ih =>
    obtain ⟨hs, hk⟩ := mark_balanced n h
    obtain ⟨hs', hk'⟩ := ih hs
    exact ⟨hs', hk.trans hk'⟩

end Staging

namespace Placement

variable {v : Value} {p : Placement}

/-- The slots that wait for filters on the value. -/
def queue (p : Placement) : List Nat :=
  p.trails.flatMap fun t => Check.queues t.checks

/-- The ledger while slots are reserved for a value. -/
def Balanced (p : Placement) : Prop :=
  Ledger (p.queue ++ p.walk.queue) (p.reserved ++ p.walk.recorded) p.walk.slots

/-- Nobody waits yet for the filters on a value that starts. -/
theorem staging_balanced (a : Arrival) (h : p.Balanced) :
    Staging.Balanced p.queue
      ⟨p.walk, a.level.guards.map fun g => Check.start (v.kind = .object) g.filter, p.reserved⟩ := by
  let checks := a.level.guards.map fun g => Check.start (v.kind = .object) g.filter
  have hnone : Check.queues checks = [] := by
    have hc : checks.map Check.outline = checks := by
      simp [checks, Function.comp_def]
    rw [← hc, Check.queues_outline]
  rw [Staging.Balanced, hnone]
  exact h

theorem arrive_balanced (a : Arrival) (h : p.Balanced) :
    (p.arrive v a).Balanced ∧ p.walk.slots.Keeps (p.arrive v a).walk.slots := by
  obtain ⟨hs', hk⟩ := Staging.foldl_mark_balanced (v := v) (a := a) a.level.marks
    (staging_balanced (v := v) a h)
  refine ⟨?_, hk⟩
  rw [Balanced, queue, arrive, List.flatMap_cons, List.append_assoc]
  exact hs'

theorem foldl_arrive_balanced (arrivals : List Arrival) (h : p.Balanced) :
    (arrivals.foldl (Placement.arrive v) p).Balanced ∧
      p.walk.slots.Keeps (arrivals.foldl (Placement.arrive v) p).walk.slots := by
  induction arrivals generalizing p with
  | nil => exact ⟨h, .refl _⟩
  | cons a as ih =>
    obtain ⟨hp, hk⟩ := arrive_balanced a h
    obtain ⟨hp', hk'⟩ := ih hp
    exact ⟨hp', hk.trans hk'⟩

end Placement

theorem placed_balanced {w : Walk} (v : Value) (arrivals : List Arrival) (h : w.Balanced) :
    (w.placed v arrivals).Balanced ∧ w.slots.Keeps (w.placed v arrivals).walk.slots :=
  Placement.foldl_arrive_balanced arrivals h

/-- Nobody waits for filters on a value that is no object. -/
theorem queue_placed_eq_nil {v : Value} (hv : v.kind ≠ .object) (arrivals : List Arrival)
    (w : Walk) : (w.placed v arrivals).queue = [] := by
  apply List.flatMap_eq_nil_iff.2
  intro t ht
  apply List.flatMap_eq_nil_iff.2
  intro c hc
  have htrail : t.outline ∈ (arrivals.map (Arrival.trail v)).reverse :=
    trails_placed v arrivals w ▸ List.mem_map_of_mem ht
  obtain ⟨a, _, ha⟩ := List.mem_map.1 (List.mem_reverse.1 htrail)
  have hchecks : c.outline ∈ (a.trail v).checks := ha ▸ List.mem_map_of_mem hc
  obtain ⟨g, _, hg⟩ := List.mem_map.1 hchecks
  have hu : c.isUndecided = false := by
    rw [← Check.isUndecided_outline, ← hg, decide_eq_false hv, Check.isUndecided_start_false]
  rw [Check.queue, hu]
  rfl

/-! ## Tokens

A token is put together from parts that were shown to keep the ledger: entering, placing, and
then opening a frame or completing a scalar. From one token the ledger passes to all tokens by
induction on the list. -/

theorem openFrame_advances {p : Placement} (container : Container) (h : p.Balanced) :
    (openFrame container p).Balanced ∧ p.walk.slots.Keeps (openFrame container p).slots := by
  simp only [openFrame, Balanced, queue, recorded, frames_write, slots_write, List.flatMap_cons]
  refine ⟨?_, .refl _⟩
  -- opening a container turns trails and slots around, and the ledger does not care
  apply Ledger.congr h
  · intro i
    have hp : (Check.queues (p.trails.flatMap (·.checks))).count i = p.queue.count i := by
      rw [Check.queues, List.flatMap_assoc]
      rfl
    rw [List.count_append, List.count_append, Frame.queue, Frame.checks, ← hp, Check.queues,
      Check.queues, List.flatMap_assoc, List.flatMap_assoc, (p.trails.reverse_perm.flatMap_right
        fun t => t.checks.flatMap Check.queue).count_eq]
    rfl
  · intro i
    rw [List.count_append, List.count_append, Frame.recorded]
    cases p.reserved <;> simp [recorded, List.count_cons]

theorem completeScalar_advances {p : Placement} (raw : Bytes) (hq : p.queue = [])
    (h : p.Balanced) :
    (completeScalar raw p).Balanced ∧ p.walk.slots.Keeps (completeScalar raw p).slots := by
  have hr : Ledger p.walk.queue (p.reserved.reverse ++ p.walk.recorded) p.walk.slots := by
    apply Ledger.congr h
    · intro i
      rw [hq, List.nil_append]
    · intro i
      rw [List.count_append, List.count_append, List.count_reverse]
  rw [Balanced, completeScalar, queue, recorded, slots_write, frames_write]
  exact ⟨hr.complete, hr.keeps_complete⟩

/-- The walk behind the first token of a value, once the arrivals at the value are known. -/
def begin (v : Value) (arrivals : List Arrival) (w : Walk) : Walk :=
  match v.kind.container? with
  | some container => openFrame container (w.placed v arrivals)
  | none => completeScalar v.raw (w.placed v arrivals)

theorem arrive_eq_begin (paths : List Path) (v : Value) (w : Walk) :
    w.arrive paths v = (w.enter paths v).2.begin v (w.enter paths v).1 := rfl

theorem begin_advances {w : Walk} (v : Value) (arrivals : List Arrival) (h : w.Balanced) :
    w.Advances (w.begin v arrivals) := by
  obtain ⟨hp, hk⟩ := placed_balanced v arrivals h
  rw [begin]
  split
  · next container _ =>
    obtain ⟨ho, hk'⟩ := openFrame_advances container hp
    exact ⟨ho, hk.trans hk'⟩
  · next hc =>
    have hv : v.kind ≠ .object := by
      intro hv
      rw [hv] at hc
      cases hc
    obtain ⟨ho, hk'⟩ := completeScalar_advances v.raw (queue_placed_eq_nil hv ..) hp
    exact ⟨ho, hk.trans hk'⟩

theorem arrive_advances {w : Walk} (paths : List Path) (v : Value) (h : w.Balanced) :
    w.Advances (w.arrive paths v) := by
  have he := enter_advances paths v h
  exact he.trans (begin_advances v _ he.balanced)

theorem name_advances {w : Walk} (raw : Bytes) (h : w.Balanced) : w.Advances (w.name raw) := by
  rw [name]
  split
  · exact .refl h
  · next f outer hw =>
    split
    · exact .of_eq h (by simp) (by simp)
    · refine ⟨?_, by simp only [slots_write, slots_writeComma]; exact .refl _⟩
      simp only [Balanced, queue, recorded, hw, slots_write, slots_writeComma,
        List.flatMap_cons] at h ⊢
      exact h

/-- The end of a container decides the filters on it that are left, and gives its text away.
Filters that no member decided have failed now, so all who wait for them die; the rest of the
slots that record the container get its text. -/
theorem close_advances {w : Walk} (h : w.Balanced) : w.Advances w.close := by
  rw [close]
  split
  · exact .refl h
  · next f outer hw =>
    have hq : ∀ i, w.queue.count i =
        (Ruling.granted (f.checks.map fun c => ⟨false, c.queue⟩)).count i +
          (Ruling.refused (f.checks.map fun c => ⟨false, c.queue⟩)).count i +
            (outer.flatMap Frame.queue).count i := by
      intro i
      rw [queue, hw, List.flatMap_cons, List.count_append, Ruling.granted_refusal,
        Ruling.refused_refusal, List.count_nil, Nat.zero_add]
      rfl
    have hr : w.recorded = f.recorded ++ outer.flatMap Frame.recorded := by
      rw [recorded, hw, List.flatMap_cons]
    rw [Balanced, hr] at h
    have hj := h.judge hq
    have hk := h.keeps_judge hq
    -- without a recording nobody asked for the text, and no slot is completed
    split
    · next hn =>
      rw [Frame.recorded, hn] at hj
      refine ⟨?_, ?_⟩
      · simp only [Balanced, queue, recorded, frames_write, slots_write, Frame.closed_eq_judge]
        exact hj
      · simp only [slots_write, Frame.closed_eq_judge]
        exact hk
    · next recording hs =>
      rw [Frame.recorded, hs] at hj
      refine ⟨?_, ?_⟩
      · simp only [Balanced, queue, recorded, frames_write, slots_write, Frame.closed_eq_judge]
        exact hj.complete
      · simp only [slots_write, Frame.closed_eq_judge]
        exact hk.trans hj.keeps_complete

/-- No token unbalances the ledger or unsettles what was settled. A name decides nothing and a
separator touches neither frames nor slots; a value and the end of a container are the cases with
content. -/
theorem token_advances {w : Walk} (paths : List Path) (lexed : Lexed) (h : w.Balanced) :
    w.Advances (w.token paths lexed) := by
  rw [token]
  split
  · exact name_advances _ h
  · exact arrive_advances paths _ h
  · exact arrive_advances paths _ h
  · exact close_advances h

/-- The walk behind a run of tokens. The tokens need not be those of a document. -/
def run (paths : List Path) (tokens : List Lexed) (w : Walk) : Walk :=
  tokens.foldl (fun w lexed => w.token paths lexed) w

theorem run_append (paths : List Path) (tokens tokens' : List Lexed) (w : Walk) :
    w.run paths (tokens ++ tokens') = (w.run paths tokens).run paths tokens' :=
  List.foldl_append

/-- Neither does a run of tokens. -/
theorem run_advances {w : Walk} (paths : List Path) (tokens : List Lexed) (h : w.Balanced) :
    w.Advances (w.run paths tokens) := by
  rw [run]
  induction tokens generalizing w with
  | nil => exact .refl h
  | cons lexed tokens ih =>
    have ht := token_advances paths lexed h
    exact ht.trans (ih ht.balanced)

end Walk

end JsonExtract
