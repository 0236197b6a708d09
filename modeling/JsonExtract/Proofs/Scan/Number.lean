import JsonExtract.Proofs.Document.Grammar
import JsonExtract.Token.Number

/-!
# The automaton of numbers

The automaton accepts the numbers of the grammar and no others, and in each of its states some
bytes lead on to a complete number.

* `NumberPart.run` — several bytes at once;
* `NumberPart.Tail` — what may follow in a state, in the words of the grammar;
* `isNumber_cons_iff` — the automaton accepts exactly the numbers;
* `endsBefore_number_iff` — a number ends in front of a byte that the automaton refuses;
* `endsBefore_of_not_inNumber` — and every value in front of a byte that occurs in no number.
-/

namespace JsonExtract

namespace NumberPart

open Grammar

/-- The part that several bytes lead to. It fails as soon as one byte cannot follow. -/
def run : NumberPart → Bytes → Option NumberPart
  | p, [] => some p
  | p, b :: rest => (p.next? b).bind (run · rest)

theorem run_append (p : NumberPart) (xs ys : Bytes) :
    p.run (xs ++ ys) = (p.run xs).bind (run · ys) := by
  induction xs generalizing p with
  | nil => rfl
  | cons b xs ih =>
    rw [List.cons_append, run, run]
    cases p.next? b with
    | none => rfl
    | some q => exact ih q

/-- Digits change nothing in a part that takes them. -/
theorem run_digits {p : NumberPart} (hp : p.takesDigits = true) {ds : Bytes}
    (h : ∀ b ∈ ds, Ascii.isDigit b = true) : p.run ds = some p := by
  induction ds with
  | nil => rfl
  | cons b ds ih =>
    rw [List.forall_mem_cons] at h
    rw [run, next?_of_takesDigits hp h.1, Option.bind_some, ih h.2]

/-- What makes a complete number of an unfinished one, by the part that was read last. For a part
that may already be the end of a number, what follows may be empty. -/
def Tail : NumberPart → Bytes → Prop
  | sign, more =>
    ∃ w f e, IsWhole w ∧ IsFraction f ∧ IsExponent e ∧ more = w ++ (f ++ e)
  | zero, more => ∃ f e, IsFraction f ∧ IsExponent e ∧ more = f ++ e
  | whole, more =>
    ∃ ds f e, (∀ b ∈ ds, Ascii.isDigit b = true) ∧ IsFraction f ∧ IsExponent e ∧
      more = ds ++ (f ++ e)
  | point, more => ∃ ds e, IsDigits ds ∧ IsExponent e ∧ more = ds ++ e
  | fraction, more =>
    ∃ ds e, (∀ b ∈ ds, Ascii.isDigit b = true) ∧ IsExponent e ∧ more = ds ++ e
  | letter, more =>
    ∃ s ds, (s = [] ∨ s = [Ascii.plus] ∨ s = [Ascii.minus]) ∧ IsDigits ds ∧ more = s ++ ds
  | exponentSign, more => IsDigits more
  | exponent, more => ∀ b ∈ more, Ascii.isDigit b = true

/-- A number that is complete needs no more bytes. -/
theorem tail_nil {p : NumberPart} (h : p.isComplete = true) : p.Tail [] := by
  cases p with
  | zero => exact ⟨[], [], .none, .none, rfl⟩
  | whole => exact ⟨[], [], [], by simp, .none, .none, rfl⟩
  | fraction => exact ⟨[], [], by simp, .none, rfl⟩
  | exponent => intro b hb; cases hb
  | _ => cases h

/-- What follows the letter of an exponent makes an exponent of it. -/
theorem isExponent_of_tail_letter {b : UInt8} {more : Bytes} (hb : exponent? b = some letter)
    (h : letter.Tail more) : IsExponent (b :: more) := by
  obtain ⟨s, ds, hs, hds, rfl⟩ := h
  refine .some ?_ hs hds
  rw [exponent?] at hb
  split at hb
  · simp_all
  · cases hb

theorem exponent?_eq_some {b : UInt8} {q : NumberPart} (h : exponent? b = some q) :
    q = letter ∧ exponent? b = some letter := by
  rw [exponent?] at h
  split at h
  · next hb => cases h; exact ⟨rfl, if_pos hb⟩
  · cases h

/-- Behind an integer part comes a point with a fraction, or an exponent at once. -/
theorem tail_zero_cons {q : NumberPart} {b : UInt8} {more : Bytes} (hq : zero.next? b = some q)
    (h : q.Tail more) : zero.Tail (b :: more) := by
  simp only [next?] at hq
  split at hq
  · next hp =>
    cases hq
    obtain ⟨ds, e, hds, he, rfl⟩ := h
    exact ⟨b :: ds, e, hp ▸ .some hds, he, rfl⟩
  · obtain ⟨rfl, hb⟩ := exponent?_eq_some hq
    exact ⟨[], _, .none, isExponent_of_tail_letter hb h, rfl⟩

/-- An integer part that may go on may also end. -/
theorem tail_whole_of_zero {more : Bytes} (h : zero.Tail more) : whole.Tail more := by
  obtain ⟨f, e, hf, he, rfl⟩ := h
  exact ⟨[], f, e, by simp, hf, he, rfl⟩

/-- A byte that goes on with a number goes in front of what may follow it. There is one case for
each step of the automaton. -/
theorem tail_cons {p q : NumberPart} {b : UInt8} {more : Bytes} (hq : p.next? b = some q)
    (h : q.Tail more) : p.Tail (b :: more) := by
  cases p with
  | sign =>
    simp only [next?] at hq
    split at hq
    · next hz =>
      cases hq
      obtain ⟨f, e, hf, he, rfl⟩ := h
      exact ⟨[b], f, e, hz ▸ .zero, hf, he, rfl⟩
    · next hz =>
      split at hq
      · next hd =>
        cases hq
        obtain ⟨ds, f, e, hds, hf, he, rfl⟩ := h
        exact ⟨b :: ds, f, e, .digits hd hz hds, hf, he, rfl⟩
      · cases hq
  | zero => exact tail_zero_cons hq h
  | whole =>
    simp only [next?] at hq
    split at hq
    · next hd =>
      cases hq
      obtain ⟨ds, f, e, hds, hf, he, rfl⟩ := h
      exact ⟨b :: ds, f, e, List.forall_mem_cons.2 ⟨hd, hds⟩, hf, he, rfl⟩
    · exact tail_whole_of_zero (tail_zero_cons hq h)
  | point =>
    simp only [next?] at hq
    split at hq
    · next hd =>
      cases hq
      obtain ⟨ds, e, hds, he, rfl⟩ := h
      exact ⟨b :: ds, e, ⟨List.cons_ne_nil b ds, List.forall_mem_cons.2 ⟨hd, hds⟩⟩, he, rfl⟩
    · cases hq
  | fraction =>
    simp only [next?] at hq
    split at hq
    · next hd =>
      cases hq
      obtain ⟨ds, e, hds, he, rfl⟩ := h
      exact ⟨b :: ds, e, List.forall_mem_cons.2 ⟨hd, hds⟩, he, rfl⟩
    · obtain ⟨rfl, hb⟩ := exponent?_eq_some hq
      exact ⟨[], _, by simp, isExponent_of_tail_letter hb h, rfl⟩
  | letter =>
    simp only [next?] at hq
    split at hq
    · next hd =>
      cases hq
      exact ⟨[], b :: more, .inl rfl,
        ⟨List.cons_ne_nil b more, List.forall_mem_cons.2 ⟨hd, h⟩⟩, rfl⟩
    · split at hq
      · next hs =>
        cases hq
        refine ⟨[b], more, .inr ?_, h, rfl⟩
        simpa using hs
      · cases hq
  | exponentSign =>
    simp only [next?] at hq
    split at hq
    · next hd =>
      cases hq
      exact ⟨List.cons_ne_nil b more, List.forall_mem_cons.2 ⟨hd, h⟩⟩
    · cases hq
  | exponent =>
    simp only [next?] at hq
    split at hq
    · next hd =>
      cases hq
      exact List.forall_mem_cons.2 ⟨hd, h⟩
    · cases hq

/-- What the automaton reads up to a complete number is what the grammar asks for. -/
theorem tail_of_run {p q : NumberPart} {more : Bytes} (h : p.run more = some q)
    (hq : q.isComplete = true) : p.Tail more := by
  induction more generalizing p with
  | nil =>
    cases h
    exact tail_nil hq
  | cons b more ih =>
    obtain ⟨p', hp', h⟩ := Option.bind_eq_some_iff.1 h
    exact tail_cons hp' (ih h)

/-! ## Numbers of the grammar

The grammar puts a number together from a sign, an integer, a fraction and an exponent, and the
automaton goes through the same parts in order. From the grammar to the automaton the parts are
run one after the other; from the automaton to the grammar, `Tail` collects what has been read
behind each state. -/

/-- Several digits lead to the part that takes digits. -/
theorem run_isDigits {p q : NumberPart} (hq : q.takesDigits = true)
    (hp : ∀ b, Ascii.isDigit b = true → p.next? b = some q) {ds : Bytes} (h : IsDigits ds) :
    p.run ds = some q := by
  obtain ⟨hne, hds⟩ := h
  cases ds with
  | nil => exact absurd rfl hne
  | cons b ds =>
    rw [List.forall_mem_cons] at hds
    rw [run, hp b hds.1, Option.bind_some, run_digits hq hds.2]

theorem run_whole {w : Bytes} (h : IsWhole w) :
    ∃ b rest p, w = b :: rest ∧ first? b = some p ∧ sign.next? b = some p ∧
      (p.run rest = some zero ∨ p.run rest = some whole) := by
  cases h with
  | zero => exact ⟨_, _, zero, rfl, rfl, rfl, .inl rfl⟩
  | @digits b more hb hz h =>
    have hm : b ≠ Ascii.minus := by
      rintro rfl
      exact absurd hb (by decide)
    exact ⟨_, _, whole, rfl, by simp [first?, hm, hz, hb], by simp [next?, hz, hb],
      .inr (run_digits rfl h)⟩

theorem run_fraction {p : NumberPart} {f : Bytes} (hp : p = zero ∨ p = whole)
    (h : IsFraction f) : p.run f = some p ∨ p.run f = some fraction := by
  cases h with
  | none => exact .inl rfl
  | @some digits hds =>
    have hnext : p.next? Ascii.point = Option.some point := by
      rcases hp with rfl | rfl <;> decide
    refine .inr ?_
    rw [run, hnext, Option.bind_some]
    exact run_isDigits rfl (fun b hb => by simp [next?, hb]) hds

theorem run_exponent {p : NumberPart} {e : Bytes} (hp : p = zero ∨ p = whole ∨ p = fraction)
    (h : IsExponent e) : ∃ q, p.run e = some q ∧ q.isComplete = true := by
  cases h with
  | none =>
    refine ⟨p, rfl, ?_⟩
    rcases hp with rfl | rfl | rfl <;> rfl
  | @some b sign digits hb hs hds =>
    have hletter : p.next? b = Option.some letter := by
      rcases hp with rfl | rfl | rfl <;> rcases hb with rfl | rfl <;> decide
    refine ⟨exponent, ?_, rfl⟩
    rw [run, hletter, Option.bind_some]
    have hsigned : exponentSign.run digits = Option.some exponent :=
      run_isDigits rfl (fun b hb => by simp [next?, hb]) hds
    rcases hs with rfl | rfl | rfl
    · exact run_isDigits rfl (fun b hb => by simp [next?, hb]) hds
    · exact hsigned
    · exact hsigned

/-- The whole of a number behind its sign. -/
theorem run_unsigned {w f e : Bytes} (hw : IsWhole w) (hf : IsFraction f) (he : IsExponent e) :
    ∃ b rest p q, w ++ (f ++ e) = b :: rest ∧ first? b = some p ∧ sign.next? b = some p ∧
      p.run rest = some q ∧ q.isComplete = true := by
  obtain ⟨b, rest, p, rfl, hp, hsign, hrun⟩ := run_whole hw
  obtain ⟨p₁, hrun₁, hp₁⟩ : ∃ p₁, p.run rest = some p₁ ∧ (p₁ = zero ∨ p₁ = whole) := by
    rcases hrun with h | h
    · exact ⟨_, h, .inl rfl⟩
    · exact ⟨_, h, .inr rfl⟩
  obtain ⟨p₂, hrun₂, hp₂⟩ :
      ∃ p₂, p₁.run f = some p₂ ∧ (p₂ = zero ∨ p₂ = whole ∨ p₂ = fraction) := by
    rcases run_fraction hp₁ hf with h | h
    · exact ⟨_, h, by rcases hp₁ with rfl | rfl <;> simp⟩
    · exact ⟨_, h, .inr (.inr rfl)⟩
  obtain ⟨q, hrun₃, hq⟩ := run_exponent hp₂ he
  refine ⟨b, rest ++ (f ++ e), p, q, rfl, hp, hsign, ?_, hq⟩
  rw [run_append, hrun₁, Option.bind_some, run_append, hrun₂, Option.bind_some, hrun₃]

end NumberPart

open NumberPart

namespace Grammar

/-- The automaton accepts exactly the numbers. -/
theorem isNumber_cons_iff {b : UInt8} {rest : Bytes} :
    IsNumber (b :: rest) ↔
      ∃ p q, first? b = some p ∧ p.run rest = some q ∧ q.isComplete = true := by
  constructor
  · intro h
    generalize hraw : b :: rest = raw at h
    obtain ⟨hs, hw, hf, he⟩ := h
    obtain ⟨c, more, p, q, hcons, hp, hsign, hrun, hq⟩ := run_unsigned hw hf he
    rw [hcons] at hraw
    rcases hs with rfl | rfl
    · obtain ⟨rfl, rfl⟩ := List.cons.inj hraw
      exact ⟨p, q, hp, hrun, hq⟩
    · obtain ⟨rfl, hrest⟩ := List.cons.inj hraw
      refine ⟨sign, q, rfl, ?_, hq⟩
      have hrest : rest = c :: more := hrest
      rw [hrest, run, hsign, Option.bind_some, hrun]
  · rintro ⟨p, q, hp, hrun, hq⟩
    have htail := tail_of_run hrun hq
    rw [first?] at hp
    split at hp
    · next hb =>
      cases hp
      obtain ⟨w, f, e, hw, hf, he, rfl⟩ := htail
      subst hb
      exact .mk (.inr rfl) hw hf he
    · split at hp
      · next hb =>
        cases hp
        obtain ⟨f, e, hf, he, rfl⟩ := htail
        subst hb
        exact .mk (.inl rfl) .zero hf he
      · next hb =>
        split at hp
        · next hd =>
          cases hp
          obtain ⟨ds, f, e, hds, hf, he, rfl⟩ := htail
          exact .mk (.inl rfl) (.digits hd hb hds) hf he
        · cases hp

/-- No number is empty. -/
theorem not_isNumber_nil : ¬ IsNumber [] := by
  intro h
  generalize hraw : ([] : Bytes) = raw at h
  obtain ⟨hs, hw, hf, he⟩ := h
  obtain ⟨c, more, _, _, hcons, _⟩ := run_unsigned hw hf he
  rw [hcons] at hraw
  rcases hs with rfl | rfl
  · cases hraw
  · cases hraw

/-- From every part some bytes lead on to a complete number. -/
theorem exists_run_isComplete (p : NumberPart) :
    ∃ more q, p.run more = some q ∧ q.isComplete = true := by
  cases p with
  | sign => exact ⟨[Ascii.zero], .zero, rfl, rfl⟩
  | point => exact ⟨[Ascii.zero], .fraction, rfl, rfl⟩
  | letter | exponentSign => exact ⟨[Ascii.zero], .exponent, rfl, rfl⟩
  | zero | whole | fraction | exponent => exact ⟨[], _, rfl, rfl⟩

/-- A number ends in front of `rest` exactly if the automaton refuses the next byte. The grammar's
condition speaks of longer numbers, the automaton's of one byte. -/
theorem endsBefore_number_iff {b : UInt8} {text rest : Bytes} {p q : NumberPart}
    (hp : first? b = some p) (hrun : p.run text = some q) :
    EndsBefore (b :: text) rest ↔ ∀ c ∈ rest.head?, q.next? c = none := by
  constructor
  · intro h c hc
    cases hnext : q.next? c with
    | none => rfl
    | some q' =>
      obtain ⟨more, r, hmore, hr⟩ := exists_run_isComplete q'
      have hnumber : IsNumber (b :: (text ++ c :: more)) := by
        refine isNumber_cons_iff.2 ⟨p, r, hp, ?_, hr⟩
        rw [run_append, hrun, Option.bind_some, run, hnext, Option.bind_some, hmore]
      exact absurd hnumber (h c hc more)
  · intro h c hc more hnumber
    rw [List.cons_append] at hnumber
    obtain ⟨p', r, hp', hmore, -⟩ := isNumber_cons_iff.1 hnumber
    rw [hp] at hp'
    cases hp'
    rw [run_append, hrun, Option.bind_some, run, h c hc] at hmore
    cases hmore

/-- Values that do not start like a number end anywhere. -/
theorem endsBefore_of_first?_eq_none {b : UInt8} (hb : first? b = none) (text rest : Bytes) :
    EndsBefore (b :: text) rest := by
  intro c _ more hnumber
  rw [List.cons_append] at hnumber
  obtain ⟨p, _, hp, _⟩ := isNumber_cons_iff.1 hnumber
  rw [hb] at hp
  cases hp

/-- The bytes that occur in numbers: digits, the point, an e of either case and the signs. -/
def InNumber (b : UInt8) : Prop :=
  Ascii.isDigit b = true ∨ b ∈ [Ascii.point, 0x65, 0x45, Ascii.plus, Ascii.minus]

instance (b : UInt8) : Decidable (InNumber b) :=
  inferInstanceAs (Decidable (_ ∨ _))

theorem inNumber_of_mem {raw : Bytes} (h : IsNumber raw) : ∀ b ∈ raw, InNumber b := by
  have digits : ∀ {ds : Bytes}, (∀ b ∈ ds, Ascii.isDigit b = true) → ∀ b ∈ ds, InNumber b :=
    fun hds b hb => .inl (hds b hb)
  obtain ⟨hs, hw, hf, he⟩ := h
  rw [List.forall_mem_append, List.forall_mem_append, List.forall_mem_append]
  refine ⟨?_, ?_, ?_, ?_⟩
  · rcases hs with rfl | rfl <;> simp [InNumber]
  · cases hw with
    | zero => exact List.forall_mem_singleton.2 (by decide)
    | digits hb _ h => exact digits (List.forall_mem_cons.2 ⟨hb, h⟩)
  · cases hf with
    | none => simp
    | some h => exact List.forall_mem_cons.2 ⟨by decide, digits h.2⟩
  · cases he with
    | none => simp
    | some he hs h =>
      rw [List.forall_mem_cons, List.forall_mem_append]
      refine ⟨?_, ?_, digits h.2⟩
      · rcases he with rfl | rfl <;> decide
      · rcases hs with rfl | rfl | rfl <;> simp [InNumber]

/-- Every value ends in front of a byte that occurs in no number. -/
theorem endsBefore_of_not_inNumber {rest : Bytes} (h : ∀ b ∈ rest.head?, ¬ InNumber b)
    (text : Bytes) : EndsBefore text rest := by
  intro b hb more hnumber
  exact h b hb (inNumber_of_mem hnumber b (by simp))

end Grammar

end JsonExtract
