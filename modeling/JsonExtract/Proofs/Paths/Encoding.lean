import JsonExtract.Bytes.Basic

/-!
# Characters and their bytes

A path is read character by character, while its grammar speaks of bytes. All that carries meaning
in a path is ASCII, and no byte of a character beyond ASCII is, so it makes no difference which of
the two are looked at.

* `Bytes.utf8EncodeChar_ascii`, `Bytes.le_of_mem_utf8EncodeChar` — the bytes of a character;
* `Bytes.exists_of_ofChars_eq_append` — bytes that start with ASCII characters;
* `Bytes.Agrees` — a class of characters and the class of its bytes;
* `Bytes.takeWhile_ofChars` — runs of such a class.
-/

namespace JsonExtract.Bytes

/-! ## Single characters

In UTF-8 an ASCII character is one byte below 128, and all bytes of other characters are at
least 128. So a byte of a sign can only come from the sign itself. -/

theorem toNat_toUInt8 {c : Char} (h : c.toNat < 0x80) : c.toUInt8.toNat = c.toNat :=
  (UInt32.toNat_toUInt8 c.val).trans (Nat.mod_eq_of_lt (Nat.lt_trans h (by decide)))

/-- An ASCII character is encoded by one byte. -/
theorem utf8EncodeChar_ascii {c : Char} (h : c.toNat < 0x80) :
    String.utf8EncodeChar c = [c.toUInt8] := by
  have hle : c.val.toNat ≤ 0x7f := Nat.lt_succ_iff.1 h
  rw [String.utf8EncodeChar]
  simp only [hle, if_true]
  refine congrArg (fun b => [b]) (UInt8.toNat_inj.1 ?_)
  rw [toNat_toUInt8 h]
  exact Nat.mod_eq_of_lt (Nat.lt_trans h (by decide))

/-- The bytes of a character beyond ASCII are beyond ASCII. -/
theorem le_of_mem_utf8EncodeChar {c : Char} (h : 0x80 ≤ c.toNat) {b : UInt8}
    (hb : b ∈ String.utf8EncodeChar c) : 0x80 ≤ b := by
  have hgt : ¬ c.val.toNat ≤ 0x7f := Nat.not_le.2 h
  rw [String.utf8EncodeChar] at hb
  simp only [hgt, if_false] at hb
  rw [UInt8.le_iff_toNat_le]
  split at hb
  · simp only [List.mem_cons, List.not_mem_nil, or_false] at hb
    rcases hb with rfl | rfl <;> simp <;> omega
  · split at hb
    · simp only [List.mem_cons, List.not_mem_nil, or_false] at hb
      rcases hb with rfl | rfl | rfl <;> simp <;> omega
    · simp only [List.mem_cons, List.not_mem_nil, or_false] at hb
      rcases hb with rfl | rfl | rfl | rfl <;> simp <;> omega

theorem ofChars_cons (c : Char) (cs : List Char) :
    ofChars (c :: cs) = String.utf8EncodeChar c ++ ofChars cs := rfl

theorem ofChars_cons_ascii {c : Char} (h : c.toNat < 0x80) (cs : List Char) :
    ofChars (c :: cs) = c.toUInt8 :: ofChars cs := by
  rw [ofChars_cons, utf8EncodeChar_ascii h, List.singleton_append]

/-- Bytes that start with the byte of an ASCII character start with that character. The converse
holds by the definition of the encoding. -/
theorem exists_of_ofChars_eq_cons {c : Char} (h : c.toNat < 0x80) {cs : List Char} {rest : Bytes}
    (heq : ofChars cs = c.toUInt8 :: rest) : ∃ more, cs = c :: more ∧ ofChars more = rest := by
  have hc : c.toUInt8 < 0x80 := by
    rw [UInt8.lt_iff_toNat_lt, toNat_toUInt8 h]
    exact h
  cases cs with
  | nil => cases heq
  | cons d more =>
    rcases Nat.lt_or_ge d.toNat 0x80 with hd | hd
    · rw [ofChars_cons_ascii hd] at heq
      obtain ⟨hbyte, hrest⟩ := List.cons.inj heq
      have hdc : d.toNat = c.toNat := by
        rw [← toNat_toUInt8 hd, ← toNat_toUInt8 h, hbyte]
      exact ⟨more, by rw [Char.toNat_inj.1 hdc], hrest⟩
    · cases hbytes : String.utf8EncodeChar d with
      | nil => exact absurd hbytes String.utf8EncodeChar_ne_nil
      | cons b tail =>
        rw [ofChars_cons, hbytes, List.cons_append] at heq
        obtain ⟨rfl, -⟩ := List.cons.inj heq
        have hb := le_of_mem_utf8EncodeChar hd (hbytes ▸ List.mem_cons_self)
        exact absurd hc (UInt8.not_lt.2 hb)

/-- Bytes that start with those of ASCII characters start with these characters. -/
theorem exists_of_ofChars_eq_append {signs : List Char} (h : signs.all (·.toNat < 0x80))
    {cs : List Char} {rest : Bytes} (heq : ofChars cs = ofChars signs ++ rest) :
    ∃ more, cs = signs ++ more ∧ ofChars more = rest := by
  induction signs generalizing cs with
  | nil => exact ⟨cs, rfl, heq⟩
  | cons c signs ih =>
    rw [List.all_cons, Bool.and_eq_true, decide_eq_true_iff] at h
    rw [ofChars_cons_ascii h.1, List.cons_append] at heq
    obtain ⟨more, rfl, hmore⟩ := exists_of_ofChars_eq_cons h.1 heq
    obtain ⟨more, rfl, hrest⟩ := ih h.2 hmore
    exact ⟨more, rfl, hrest⟩

theorem ofChars_eq_nil_iff {cs : List Char} : ofChars cs = [] ↔ cs = [] := by
  cases cs with
  | nil => exact ⟨fun _ => rfl, fun _ => rfl⟩
  | cons c cs => simp [ofChars_cons, String.utf8EncodeChar_ne_nil]

/-! ## Classes

The parser knows classes of characters, and the grammar classes of bytes. They agree if
membership is the same for ASCII and if all other characters, and so all their bytes, are on the
same side. -/

/-- Whether the characters of a class are those whose bytes are in a class of bytes. -/
def Agrees (p : Char → Bool) (q : UInt8 → Bool) : Prop :=
  ∀ c, ∀ b ∈ String.utf8EncodeChar c, q b = p c

/-- A class of ASCII characters is looked up byte by byte. The condition on ASCII is finite, and
is checked by evaluation. -/
theorem agrees_of_ascii {p : Char → Bool} {q : UInt8 → Bool}
    (hlow : ∀ n < 0x80, q (Char.ofNat n).toUInt8 = p (Char.ofNat n))
    (hp : ∀ c : Char, 0x80 ≤ c.toNat → p c = false) (hq : ∀ b, 0x80 ≤ b → q b = false) :
    Agrees p q := by
  intro c b hb
  rcases Nat.lt_or_ge c.toNat 0x80 with hc | hc
  · rw [utf8EncodeChar_ascii hc, List.mem_singleton] at hb
    have := hlow c.toNat hc
    rwa [Char.ofNat_toNat, ← hb] at this
  · rw [hp c hc, hq b (le_of_mem_utf8EncodeChar hc hb)]

variable {p : Char → Bool} {q : UInt8 → Bool}

/-- Characters outside of a class are bytes outside of it. -/
theorem Agrees.not (h : Agrees p q) : Agrees (!p ·) (!q ·) := by
  intro c b hb
  exact congrArg (! ·) (h c b hb)

/-- A run of characters is a run of bytes. No run ends in the middle of a character. -/
theorem takeWhile_ofChars (h : Agrees p q) (cs : List Char) :
    (ofChars cs).takeWhile q = ofChars (cs.takeWhile p) := by
  induction cs with
  | nil => rfl
  | cons c cs ih =>
    rw [ofChars_cons]
    cases hc : p c with
    | true =>
      have hall : ∀ b ∈ String.utf8EncodeChar c, q b = true := fun b hb => (h c b hb).trans hc
      rw [List.takeWhile_append_of_pos hall, ih, List.takeWhile_cons_of_pos hc, ofChars_cons]
    | false =>
      rw [List.takeWhile_cons_of_neg (by rw [hc]; decide)]
      cases hbytes : String.utf8EncodeChar c with
      | nil => exact absurd hbytes String.utf8EncodeChar_ne_nil
      | cons b tail =>
        have hb : q b = false := (h c b (hbytes ▸ List.mem_cons_self)).trans hc
        rw [List.cons_append, List.takeWhile_cons_of_neg (by rw [hb]; decide), ofChars_nil]

end JsonExtract.Bytes
