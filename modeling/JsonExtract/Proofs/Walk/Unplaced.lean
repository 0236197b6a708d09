import JsonExtract.Proofs.Walk.Release
import JsonExtract.Proofs.Walk.Ruling

/-!
# What is extracted does not depend on where tokens stand

A slot keeps the place of the token that starts its value, and nothing else in a walk knows places. So
tokens that stand somewhere else lead to the same walk but for these places, and to the same matches.

* `Slot.unplaced`, `Walk.unplaced` — slots and walks without places;
* `Walk.token_unplaced`, `Walk.run_unplaced` — tokens lead to the same walk, wherever they stand;
* `Walk.owned_run_congr` — the matches behind tokens that differ in their places only.
-/

namespace JsonExtract

/-! ## Slots

A slot holds the numbers of bytes in front of its value and behind it, for the sake of the
journal. They are set to zero here. None of the operations on slots reads them, so it does not
matter whether they are taken away before or after an operation. -/

/-- A slot that does not know where its value stands. -/
def Slot.unplaced (s : Slot) : Slot :=
  { s with start := 0, stop := 0 }

namespace Slots

/-- All slots without places. -/
def unplaced (slots : Slots) : Slots :=
  slots.map Slot.unplaced

variable (slots : Slots)

theorem getElem?_unplaced (i : Nat) : slots.unplaced[i]? = slots[i]?.map Slot.unplaced :=
  Array.getElem?_map

theorem size_unplaced : slots.unplaced.size = slots.size :=
  Array.size_map

theorem unplaced_judge (rulings : List Ruling) :
    unplaced (judge rulings slots) = judge rulings slots.unplaced := by
  apply Array.ext_getElem?
  intro i
  rw [getElem?_unplaced, getElem?_judge, getElem?_judge, getElem?_unplaced, Option.map_map,
    Option.map_map]
  rfl

theorem unplaced_complete (value : Bytes) (numbers : List Nat) :
    unplaced (slots.complete value numbers) = slots.unplaced.complete value numbers := by
  apply Array.ext_getElem?
  intro i
  rw [getElem?_unplaced, getElem?_complete, getElem?_complete, getElem?_unplaced, Option.map_map,
    Option.map_map]
  congr 1
  funext s
  rw [Function.comp_apply, Function.comp_apply]
  split <;> rfl

theorem unplaced_push (s : Slot) : unplaced (slots.push s) = slots.unplaced.push s.unplaced :=
  Array.map_push

/-- Matches do not know places. A match has a path, a kind, a value and a route, and no place in
its document. -/
theorem owned_unplaced : slots.unplaced.owned = slots.owned := by
  rw [owned, owned, unplaced, Array.toList_map, List.filterMap_map]
  rfl

end Slots

/-! ## Walks

In a walk only slots know places in the document, and they get them from the value for which they
are reserved. Each part of a step is shown to do the same with a value that has lost its place, and
to leave a walk that differs in the places of slots only. -/

/-- A value that does not know where it stands. -/
def Value.unplaced (v : Value) : Value :=
  { v with start := 0, stop := 0 }

/-- A token that does not know where it stands. -/
def Lexed.unplaced (l : Lexed) : Lexed :=
  { l with start := 0, stop := 0 }

namespace Walk

/-- A walk without places. -/
def unplaced (w : Walk) : Walk :=
  { w with slots := w.slots.unplaced }

variable (paths : List Path) (v : Value) (w : Walk)

theorem unplaced_write (bytes : Bytes) : (w.write bytes).unplaced = w.unplaced.write bytes := by
  rw [write, write, show w.unplaced.recordings = w.recordings from rfl]
  split <;> rfl

theorem unplaced_writeComma (f : Frame) : (w.writeComma f).unplaced = w.unplaced.writeComma f := by
  rw [writeComma, writeComma]
  split
  · rfl
  · exact unplaced_write w _

theorem enter_unplaced :
    w.unplaced.enter paths v.unplaced = ((w.enter paths v).1, (w.enter paths v).2.unplaced) := by
  have htext : v.unplaced.text? = v.text? := rfl
  rw [enter, enter, show w.unplaced.frames = w.frames from rfl, htext]
  cases w.frames with
  | nil => rfl
  | cons parent outer =>
    have hdecided : ∀ slots : Slots, (parent.decided v.text? slots).unplaced =
        parent.decided v.text? slots.unplaced := by
      intro slots
      rw [Frame.decided_eq_judge, Frame.decided_eq_judge, Slots.unplaced_judge]
    obtain ⟨container, count, name, trails, recording?⟩ := parent
    cases container with
    | object => simp only [unplaced, hdecided]
    | array =>
      simp only [← unplaced_writeComma]
      simp only [unplaced, hdecided]

end Walk

/-- The same for a walk that reserves slots. -/
def Walk.Staging.unplaced (s : Walk.Staging) : Walk.Staging :=
  { s with walk := s.walk.unplaced }

/-- The same for a walk with the slots of a value. -/
def Walk.Placement.unplaced (p : Walk.Placement) : Walk.Placement :=
  { p with walk := p.walk.unplaced }

namespace Walk

variable (paths : List Path) (v : Value) (w : Walk)

theorem Staging.mark_unplaced (a : Arrival) (s : Staging) (count : Nat) :
    s.unplaced.mark v.unplaced a count = (s.mark v a count).unplaced := by
  have hsize : s.walk.slots.unplaced.size = s.walk.slots.size := Slots.size_unplaced _
  simp only [Staging.mark, Staging.unplaced, Walk.unplaced, hsize]
  split
  · rfl
  · simp only [Slots.unplaced_push]
    rfl

theorem Placement.arrive_unplaced (p : Placement) (a : Arrival) :
    p.unplaced.arrive v.unplaced a = (p.arrive v a).unplaced := by
  have hmarks : ∀ (counts : List Nat) (s : Staging),
      counts.foldl (Staging.mark v.unplaced a) s.unplaced =
        (counts.foldl (Staging.mark v a) s).unplaced := by
    intro counts
    induction counts with
    | nil => exact fun _ => rfl
    | cons count counts ih =>
      intro s
      rw [List.foldl_cons, List.foldl_cons, Staging.mark_unplaced, ih]
  have hstaged := hmarks a.level.marks
    ⟨p.walk, a.level.guards.map fun g => Check.start (v.kind = .object) g.filter, p.reserved⟩
  rw [Placement.arrive, Placement.arrive]
  simp only [Staging.unplaced, Placement.unplaced] at hstaged ⊢
  rw [show v.unplaced.kind = v.kind from rfl, hstaged]

theorem placed_unplaced (arrivals : List Arrival) (p : Placement) :
    arrivals.foldl (Placement.arrive v.unplaced) p.unplaced =
      (arrivals.foldl (Placement.arrive v) p).unplaced := by
  induction arrivals generalizing p with
  | nil => rfl
  | cons a arrivals ih => rw [List.foldl_cons, List.foldl_cons, Placement.arrive_unplaced, ih]

theorem openFrame_unplaced (container : Container) (p : Placement) :
    openFrame container p.unplaced = (openFrame container p).unplaced := by
  rw [openFrame, openFrame, unplaced_write]
  rfl

theorem completeScalar_unplaced (raw : Bytes) (p : Placement) :
    completeScalar raw p.unplaced = (completeScalar raw p).unplaced := by
  rw [completeScalar, completeScalar, unplaced_write, unplaced, Slots.unplaced_complete]
  rfl

theorem arrive_unplaced :
    w.unplaced.arrive paths v.unplaced = (w.arrive paths v).unplaced := by
  have hplaced := placed_unplaced v (w.enter paths v).1 { walk := (w.enter paths v).2 }
  rw [arrive, arrive, enter_unplaced]
  simp only [Placement.unplaced] at hplaced
  simp only [hplaced]
  rw [show v.unplaced.kind = v.kind from rfl]
  cases v.kind.container? with
  | some container => exact openFrame_unplaced container _
  | none => exact completeScalar_unplaced v.raw _

theorem name_unplaced (raw : Bytes) : w.unplaced.name raw = (w.name raw).unplaced := by
  rw [name, name, show w.unplaced.frames = w.frames from rfl]
  cases w.frames with
  | nil => rfl
  | cons f outer =>
    simp only [← unplaced_writeComma, ← unplaced_write]
    split <;> rfl

theorem close_unplaced : w.unplaced.close = w.close.unplaced := by
  rw [close, close, show w.unplaced.frames = w.frames from rfl]
  cases w.frames with
  | nil => rfl
  | cons f outer =>
    have hclosed : f.closed w.slots.unplaced = (f.closed w.slots).unplaced := by
      rw [Frame.closed_eq_judge, Frame.closed_eq_judge, Slots.unplaced_judge]
    have hwritten : write [f.container.closing]
          { w.unplaced with frames := outer, slots := f.closed w.unplaced.slots } =
        (write [f.container.closing]
          { w with frames := outer, slots := f.closed w.slots }).unplaced := by
      rw [unplaced_write, show w.unplaced.slots = w.slots.unplaced from rfl, hclosed]
      rfl
    simp only [hwritten]
    cases f.recording? with
    | none => rfl
    | some recording =>
      simp only [unplaced, Slots.unplaced_complete]
      rfl

/-- A token leads to the same walk, wherever it stands. So taking a token in and forgetting places
can be done in either order. -/
theorem token_unplaced (l : Lexed) :
    w.unplaced.token paths l.unplaced = (w.token paths l).unplaced := by
  rw [token, token, show l.unplaced.token = l.token from rfl]
  cases l.token with
  | name raw => exact name_unplaced w raw
  | scalar kind raw => exact arrive_unplaced paths ⟨kind, raw, l.start, l.stop⟩ w
  | opening c => exact arrive_unplaced paths ⟨c.kind, [c.opening], l.start, l.stop⟩ w
  | closing c => exact close_unplaced w

/-- So do several tokens. -/
theorem run_unplaced (tokens : List Lexed) :
    w.unplaced.run paths (tokens.map Lexed.unplaced) = (w.run paths tokens).unplaced := by
  induction tokens generalizing w with
  | nil => rfl
  | cons l tokens ih =>
    rw [run, run, List.map_cons, List.foldl_cons, List.foldl_cons, token_unplaced]
    exact ih (w.token paths l)

/-- The matches behind tokens do not depend on where the tokens stand. Space between tokens moves
the tokens, and does nothing else; this is where that becomes a fact about matches. -/
theorem owned_run_congr {tokens tokens' : List Lexed}
    (h : tokens'.map (·.token) = tokens.map (·.token)) :
    (w.run paths tokens').slots.owned = (w.run paths tokens).slots.owned := by
  have hplain : ∀ ls : List Lexed, ls.map Lexed.unplaced = (ls.map (·.token)).map (⟨·, 0, 0⟩) := by
    intro ls
    rw [List.map_map]
    rfl
  have howned : ∀ ls : List Lexed, (w.run paths ls).slots.owned =
      (w.unplaced.run paths (ls.map Lexed.unplaced)).slots.owned := by
    intro ls
    rw [run_unplaced, show (w.run paths ls).unplaced.slots = (w.run paths ls).slots.unplaced from rfl,
      Slots.owned_unplaced]
  rw [howned, howned tokens, hplain, hplain tokens, h]

end Walk

end JsonExtract
