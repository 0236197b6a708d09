import JsonExtract.Proofs.Paths.Bytewise

/-!
# Places between characters

What is left of a text between two characters stands at a place, which is a number of bytes. From there
the reader that looks at bytes finds the characters that are left, and where it stops it stands between
two characters again.

* `Bytewise.lead` — the first byte of a character;
* `Bytewise.place` — the place in front of what is left of a text;
* `Bytewise.placed`, `Bytewise.placed_bind` — an answer about characters as one about bytes;
* `Bytewise.skipWhile_place`, `Bytewise.closing?_place`, `Bytewise.digits_place` — the loops;
* `Bytewise.name_place`, `Bytewise.literal_place`, `Bytewise.integer_place` — the smallest rules.
-/

namespace JsonExtract.Path.Bytewise

open Bytes
open JsonExtract.Path.Parser (Within)

/-! ## First bytes

A reader of bytes tells characters apart by their first bytes. That is enough for ASCII signs,
since no other character starts like one of them. -/

/-- The first byte of a character. -/
def lead (c : Char) : UInt8 :=
  (String.utf8EncodeChar c).head String.utf8EncodeChar_ne_nil

theorem head?_ofChars_cons (c : Char) (cs : List Char) : (ofChars (c :: cs)).head? = some (lead c) := by
  rw [ofChars_cons, List.head?_append_of_ne_nil _ String.utf8EncodeChar_ne_nil,
    List.head?_eq_some_head String.utf8EncodeChar_ne_nil]
  rfl

theorem lead_mem (c : Char) : lead c ∈ String.utf8EncodeChar c :=
  List.head_mem _

theorem lead_ascii {c : Char} (h : c.toNat < 0x80) : lead c = c.toUInt8 := by
  have := lead_mem c
  rwa [utf8EncodeChar_ascii h, List.mem_singleton] at this

/-- The byte of an ASCII character starts no other character. -/
theorem lead_eq_iff {c sign : Char} (h : sign.toNat < 0x80) : lead c = sign.toUInt8 ↔ c = sign := by
  constructor
  · intro hlead
    obtain ⟨more, heq⟩ := List.head?_eq_some_iff.1 (hlead ▸ head?_ofChars_cons c [])
    obtain ⟨_, hcons, -⟩ := exists_of_ofChars_eq_cons h heq
    exact (List.cons.inj hcons).1
  · rintro rfl
    exact lead_ascii h

/-- No character starts with a continuation byte. -/
theorem isContinuation_lead (c : Char) : Ascii.isContinuation (lead c) = false := by
  have hfirst : (lead c).IsUTF8FirstByte := by
    rw [lead, List.head_eq_getElem]
    exact UInt8.isUTF8FirstByte_getElem_zero_utf8EncodeChar
  have hall : ∀ n < 256, (UInt8.ofNat n).IsUTF8FirstByte →
      Ascii.isContinuation (UInt8.ofNat n) = false := by
    decide +kernel
  have := hall (lead c).toNat (UInt8.toNat_lt _)
  rw [UInt8.ofNat_toNat] at this
  exact this hfirst

/-- The character at the start of a text is what its bytes start with. -/
theorem leading?_ofChars_cons (c : Char) (cs : List Char) : Utf8.leading? (ofChars (c :: cs)) = some c := by
  have hlength : (String.utf8EncodeChar c).length ≤ 4 :=
    String.length_utf8EncodeChar c ▸ Char.utf8Size_le_four c
  have htake : ByteArray.mk ((ofChars (c :: cs)).take 4).toArray = (String.utf8EncodeChar c).toByteArray ++
      ((ofChars cs).take (4 - (String.utf8EncodeChar c).length)).toByteArray := by
    rw [ofChars_cons, List.take_append, List.take_of_length_le hlength, ← List.toByteArray_append]
    apply ByteArray.ext
    rw [List.data_toByteArray]
  rw [Utf8.leading?, htake]
  exact ByteArray.utf8DecodeChar?_utf8EncodeChar_append

theorem length_ofChars_pos {cs : List Char} (h : cs ≠ []) : 0 < (ofChars cs).length :=
  List.length_pos_iff.2 (mt ofChars_eq_nil_iff.1 h)

/-! ## Places

The place in front of some characters is the length of the whole minus the length of their
encoding. Stepping over characters moves the place by the lengths of their encodings, and
looking at the place shows the first byte of what is left. -/

/-- The number of bytes in front of what is left of a text. It is a number of bytes, whatever
characters the text has. -/
def place (whole rest : List Char) : Nat :=
  (ofChars whole).length - (ofChars rest).length

section

variable {whole read rest : List Char} {c : Char}

theorem place_append (h : read ++ rest <:+ whole) :
    place whole (read ++ rest) + (ofChars read).length = place whole rest := by
  obtain ⟨front, rfl⟩ := h
  simp only [place, ofChars_append, List.length_append]
  omega

theorem place_cons (h : c :: rest <:+ whole) :
    place whole (c :: rest) + (String.utf8EncodeChar c).length = place whole rest := by
  have := place_append (show [c] ++ rest <:+ whole from h)
  rwa [ofChars_cons, ofChars_nil, List.append_nil] at this

/-- What is shorter stands further on. -/
theorem place_lt {cs : List Char} (hcs : cs <:+ whole) (hrest : rest <:+ whole)
    (hlt : rest.length < cs.length) : place whole cs < place whole rest := by
  obtain ⟨front, rfl⟩ := List.suffix_of_suffix_length_le hrest hcs (Nat.le_of_lt hlt)
  have hfront : front ≠ [] := by
    rintro rfl
    exact Nat.lt_irrefl _ hlt
  have hlength := length_ofChars_pos hfront
  have := place_append hcs
  omega

theorem place_le (whole rest : List Char) : place whole rest ≤ (ofChars whole).length :=
  Nat.sub_le ..

theorem place_cons_ascii (h : c :: rest <:+ whole) (hc : c.toNat < 0x80) :
    place whole (c :: rest) + 1 = place whole rest := by
  have := place_cons h
  rwa [utf8EncodeChar_ascii hc, List.length_singleton] at this

theorem drop_place (h : rest <:+ whole) : (ofChars whole).drop (place whole rest) = ofChars rest := by
  obtain ⟨front, rfl⟩ := h
  rw [place, ofChars_append, List.length_append, Nat.add_sub_cancel, List.drop_left]

theorem getElem?_place (h : rest <:+ whole) :
    (ofChars whole)[place whole rest]? = (ofChars rest).head? := by
  rw [← drop_place h, List.head?_drop]

theorem getElem?_place_nil : (ofChars whole)[place whole []]? = none :=
  getElem?_place List.nil_suffix

theorem getElem?_place_cons (h : c :: rest <:+ whole) :
    (ofChars whole)[place whole (c :: rest)]? = some (lead c) := by
  rw [getElem?_place h, head?_ofChars_cons]

theorem getElem_place_cons (h : c :: rest <:+ whole) :
    ∃ hlt : place whole (c :: rest) < (ofChars whole).length,
      (ofChars whole)[place whole (c :: rest)] = lead c :=
  List.getElem?_eq_some_iff.1 (getElem?_place_cons h)

theorem not_place_nil_lt : ¬ place whole [] < (ofChars whole).length :=
  Nat.lt_irrefl _

/-- A character is told by its byte, if it is ASCII. -/
theorem getElem?_place_eq_iff {sign : Char} (h : rest <:+ whole) (hs : sign.toNat < 0x80) :
    (ofChars whole)[place whole rest]? = some sign.toUInt8 ↔ rest.head? = some sign := by
  rw [getElem?_place h]
  cases rest with
  | nil => simp
  | cons c rest =>
    rw [head?_ofChars_cons, List.head?_cons, Option.some_inj, Option.some_inj, lead_eq_iff hs]

/-- The characters that are read must be there, and their encoding has `n` bytes. -/
theorem ahead_place {n : Nat} (h : read ++ rest <:+ whole) (hn : (ofChars read).length = n) :
    ahead (ofChars whole) n (place whole (read ++ rest)) = pure (place whole rest) := by
  rw [ahead, ← hn, place_append h, if_pos (Nat.le_succ_of_le (place_le whole rest))]

theorem ahead_place_cons (h : c :: rest <:+ whole) (hc : c.toNat < 0x80) :
    ahead (ofChars whole) 1 (place whole (c :: rest)) = pure (place whole rest) :=
  ahead_place (show [c] ++ rest <:+ whole from h) (by rw [ofChars_cons_ascii hc]; rfl)

/-- It lies between two characters on both sides, and the first place is not behind the second. -/
theorem slice_place (h : read ++ rest <:+ whole) :
    slice (ofChars whole) (place whole (read ++ rest)) (place whole rest) = pure (ofChars read) := by
  have hplace := place_append h
  rw [slice, if_pos ⟨by omega, place_le whole rest⟩, List.drop_take, drop_place h, ← hplace,
    Nat.add_sub_cancel_left, ofChars_append, List.take_left]

theorem isBoundary_place (h : rest <:+ whole) : isBoundary (ofChars whole) (place whole rest) = true := by
  rw [isBoundary, Bool.or_eq_true, getElem?_place h]
  right
  cases rest with
  | nil => simp [place]
  | cons c rest =>
    rw [head?_ofChars_cons]
    dsimp only
    rw [isContinuation_lead]
    rfl

theorem cut_place (h : rest <:+ whole) :
    cut (ofChars whole) (place whole rest) = pure (ofChars rest) := by
  rw [cut, if_pos (isBoundary_place h), drop_place h]

theorem unexpected_place {α : Type} (h : c :: rest <:+ whole) :
    (unexpected (ofChars whole) (place whole (c :: rest)) : Reading α) =
      fault (.unexpectedChar c) (place whole (c :: rest)) := by
  rw [unexpected, if_pos (isBoundary_place h), drop_place h, leading?_ofChars_cons]

end

/-! ## Answers

An answer of the one reader is turned into an answer of the other: characters that are left
become a place, and a fault keeps its name. Then a rule of the one corresponds to a rule of the
other if each of their steps does. -/

/-- What is left behind an answer as a place. -/
def standing {α : Type} (whole : List Char) (x : α × List Char) : α × Nat :=
  (x.1, place whole x.2)

/-- An answer about characters as one about bytes. Only the place is lost about characters that
are left behind an answer. -/
def placed {α β : Type} (whole : List Char) (f : α → β) : Parser.Answer α → Reading β
  | .ok a => pure (f a)
  | .error stuck => fault stuck.fault (place whole stuck.rest)

variable {whole cs : List Char}

/-- Two steps of one reader are two steps of the other. This is the rule by which all others are
proved. -/
theorem placed_bind {α β γ δ : Type} {behind : α → List Char} {x : Parser.Answer α} {f : α → β}
    {X : Reading β} {g : α → Parser.Answer γ} {f' : γ → δ} {G : β → Reading δ}
    (hx : X = placed whole f x) (hw : Within whole behind x)
    (hg : ∀ a, behind a <:+ whole → G (f a) = placed whole f' (g a)) :
    (X >>= G) = placed whole f' (x >>= g) := by
  rw [hx]
  cases x with
  | error stuck => rfl
  | ok a => exact (pure_bind (f a) G).trans (hg a hw)

/-! ## Runs

Skipping bytes of a class from a place leads to the place behind the run of characters. -/

theorem of_drop_eq_cons {src rest : Bytes} {b : UInt8} {pos : Nat} (h : src.drop pos = b :: rest) :
    (∃ hlt : pos < src.length, src[pos] = b) ∧ src.drop (pos + 1) = rest := by
  have hb : src[pos]? = some b := by rw [← List.head?_drop, h, List.head?_cons]
  exact ⟨List.getElem?_eq_some_iff.1 hb, by rw [← List.tail_drop, h, List.tail_cons]⟩

theorem skipWhile_eq (q : UInt8 → Bool) {src : Bytes} {pos : Nat} (h : pos ≤ src.length) :
    skipWhile q src pos = pure (pos + ((src.drop pos).takeWhile q).length) := by
  induction hrest : src.drop pos generalizing pos with
  | nil =>
    rw [skipWhile, dif_neg (Nat.not_lt.2 (List.drop_eq_nil_iff.1 hrest))]
    rfl
  | cons b rest ih =>
    obtain ⟨⟨hlt, hb⟩, hnext⟩ := of_drop_eq_cons hrest
    rw [skipWhile, dif_pos hlt, hb]
    split
    · next hq =>
      rw [ahead, if_pos (by omega), pure_bind, ih hlt hnext, List.takeWhile_cons_of_pos hq,
        List.length_cons]
      congr 1
      omega
    · next hq => rw [List.takeWhile_cons_of_neg hq, List.length_nil, Nat.add_zero]

theorem skipWhile_place {p : Char → Bool} {q : UInt8 → Bool} (hpq : Agrees p q) (h : cs <:+ whole) :
    skipWhile q (ofChars whole) (place whole cs) = pure (place whole (cs.dropWhile p)) := by
  have hsplit := List.takeWhile_append_dropWhile (p := p) (l := cs)
  have hplace := place_append (hsplit.symm ▸ h)
  rw [hsplit] at hplace
  rw [skipWhile_eq q (place_le whole cs), drop_place h, takeWhile_ofChars hpq, hplace]

theorem skipSpace_place (h : cs <:+ whole) :
    skipSpace (ofChars whole) (place whole cs) = pure (place whole (Parser.skipSpace cs)) :=
  skipWhile_place Parser.agrees_isSpace h

/-! ## Names, literals and numbers

For literals the step over a backslash needs care: the byte behind it may be the first of
several. The next bytes are then in the middle of a character, where no sign can stand, so the
search comes back to a boundary before it finds anything. -/

theorem name_place (h : cs <:+ whole) :
    name (ofChars whole) (place whole cs) = placed whole (standing whole) (Parser.name cs) := by
  have hsplit := List.takeWhile_append_dropWhile (p := (!Parser.isDelimiter ·)) (l := cs)
  have hplace := place_append (hsplit.symm ▸ h)
  have hslice := slice_place (hsplit.symm ▸ h)
  rw [hsplit] at hplace hslice
  rw [name, skipWhile_place Parser.agrees_isDelimiter.not h, pure_bind, Parser.name]
  cases hrun : cs.takeWhile (!Parser.isDelimiter ·) with
  | nil =>
    rw [hrun, List.nil_append] at hsplit
    rw [hsplit, if_pos rfl, getElem?_place h]
    cases cs with
    | nil => rfl
    | cons c cs => rw [head?_ofChars_cons]; rfl
  | cons c more =>
    rw [hrun] at hplace hslice
    have hlength := length_ofChars_pos (List.cons_ne_nil c more)
    rw [if_neg (by omega), hslice]
    rfl

/-- Bytes that stand for themselves are stepped over one by one. -/
theorem closing?_of_plain {src xs more : Bytes} {pos : Nat} (h : src.drop pos = xs ++ more)
    (hxs : ∀ b ∈ xs, Parser.IsPlain b) : closing? src pos = closing? src (pos + xs.length) := by
  induction xs generalizing pos with
  | nil => rfl
  | cons b xs ih =>
    obtain ⟨⟨hquote, hslash⟩, hxs⟩ := List.forall_mem_cons.1 hxs
    obtain ⟨⟨hlt, hb⟩, hnext⟩ := of_drop_eq_cons h
    rw [closing?, dif_pos hlt, hb, if_neg (show b ≠ '"'.toUInt8 from hquote),
      if_neg (show b ≠ '\\'.toUInt8 from hslash), ahead, if_pos (by omega), pure_bind, ih hnext hxs,
      List.length_cons]
    congr 1
    omega

/-- Behind a backslash a byte is stepped over, which may lead to a place inside of a character.
There is no sign in the rest of that character. The bytes that are stepped over one by one are
neither quotes nor backslashes. -/
theorem closing?_escaped {c : Char} (h : '\\' :: c :: cs <:+ whole) :
    closing? (ofChars whole) (place whole ('\\' :: c :: cs)) = closing? (ofChars whole) (place whole cs) := by
  obtain ⟨b, tail, hbytes, htail⟩ := Parser.exists_utf8EncodeChar c
  have hslash := place_cons_ascii h (by decide)
  have hplace := place_cons ((List.suffix_cons '\\' _).trans h)
  have hdrop : (ofChars whole).drop (place whole ('\\' :: c :: cs) + 2) = tail ++ ofChars cs := by
    rw [← List.drop_drop, drop_place h, ofChars_cons_ascii (by decide), ofChars_cons, hbytes]
    rfl
  have hle := place_le whole cs
  obtain ⟨hlt, hb⟩ := getElem_place_cons h
  rw [hbytes, List.length_cons] at hplace
  rw [closing?, dif_pos hlt, hb]
  simp (disch := decide) only [lead_eq_iff]
  rw [if_neg (by decide), if_pos trivial, ahead, if_pos (by omega), pure_bind,
    closing?_of_plain hdrop fun d hd => Parser.isPlain_of_le (htail d hd)]
  congr 1
  omega

/-- Behind a backslash at the end, the place beyond the end is reached. -/
theorem closing?_last (h : ['\\'] <:+ whole) :
    closing? (ofChars whole) (place whole ['\\']) = pure none := by
  have hslash := place_cons_ascii h (by decide)
  have hend : place whole [] = (ofChars whole).length := rfl
  obtain ⟨hlt, hb⟩ := getElem_place_cons h
  rw [closing?, dif_pos hlt, hb]
  simp (disch := decide) only [lead_eq_iff]
  rw [if_neg (by decide), if_pos trivial, ahead, if_pos (by omega), pure_bind, closing?,
    dif_neg (by omega)]

theorem closing?_place (h : cs <:+ whole) :
    closing? (ofChars whole) (place whole cs) =
      pure ((Parser.untilQuote? cs).map fun x => place whole ('"' :: x.2)) := by
  fun_induction Parser.untilQuote? cs with
  | case1 =>
    rw [closing?, dif_neg not_place_nil_lt]
    rfl
  | case2 rest =>
    obtain ⟨hlt, hb⟩ := getElem_place_cons h
    rw [closing?, dif_pos hlt, hb]
    rfl
  | case3 c rest ih =>
    rw [closing?_escaped h, ih ((List.suffix_append ['\\', c] rest).trans h), Option.map_map]
    rfl
  | case4 c rest hquote hslash ih =>
    rw [Option.map_map]
    by_cases hc : c = '\\'
    · subst hc
      cases rest with
      | cons d rest => exact (hslash d rest rfl rfl).elim
      | nil =>
        rw [closing?_last h]
        rfl
    · rw [closing?_of_plain ((drop_place h).trans (ofChars_cons c rest)) (Parser.isPlain_of_mem hquote hc),
        place_cons h, ih ((List.suffix_cons c rest).trans h)]
      rfl

theorem literal_place (h : '"' :: cs <:+ whole) :
    literal (ofChars whole) (place whole ('"' :: cs)) =
      placed whole (standing whole) (Parser.literal cs) := by
  have hcs := (List.suffix_cons '"' cs).trans h
  rw [literal, ahead_place_cons h (by decide), pure_bind, closing?_place hcs, pure_bind, Parser.literal]
  cases hu : Parser.untilQuote? cs with
  | none => rfl
  | some x =>
    obtain ⟨inner, behind⟩ := x
    have hsplit := Parser.eq_append_of_untilQuote hu
    have hslice := slice_place (hsplit ▸ hcs)
    have hahead := ahead_place_cons ((List.suffix_append inner _).trans (hsplit ▸ hcs)) (by decide)
    rw [← hsplit] at hslice
    dsimp only [Option.map_some]
    rw [hslice, pure_bind, hahead]
    rfl

/-- A digit goes behind a number as long as the number fits. -/
theorem checked?_appendDigit {c : Char} (hc : c.toNat < 0x80) (value : Nat) :
    ((checked? (value * 10)).bind fun tens => checked? (tens + ((lead c).toNat - '0'.toNat))) =
      if Parser.maxPosition < Parser.appendDigit value c then none
      else some (Parser.appendDigit value c) := by
  have hmax : Parser.maxPosition + 1 = UInt64.size := rfl
  rw [lead_ascii hc, toNat_toUInt8 hc, Parser.appendDigit, checked?]
  split
  · rw [Option.bind_some, checked?, Nat.mul_comm value 10]
    split <;> split <;> first | rfl | omega
  · rw [Option.bind_none, if_pos (by omega)]

theorem toNat_lt_of_isDigit {c : Char} (h : c.isDigit = true) : c.toNat < 0x80 := by
  by_contra hc
  have hlead := (Parser.agrees_isDigit c _ (lead_mem c)).trans h
  have hle := le_of_mem_utf8EncodeChar (Nat.not_lt.1 hc) (lead_mem c)
  rw [Ascii.isDigit, Bool.and_eq_true, decide_eq_true_eq, decide_eq_true_eq] at hlead
  exact absurd (UInt8.le_trans hle hlead.2) (by decide)

theorem digits_place (start : Nat) {value : Nat} (h : cs <:+ whole) :
    digits (ofChars whole) start value (place whole cs) =
      match Parser.numberFrom? value (cs.takeWhile Char.isDigit) with
      | some n => pure (n, place whole (cs.dropWhile Char.isDigit))
      | none => fault .indexOverflow start := by
  induction cs generalizing value with
  | nil =>
    rw [digits, dif_neg not_place_nil_lt]
    rfl
  | cons c cs ih =>
    have hlead := Parser.agrees_isDigit c _ (lead_mem c)
    obtain ⟨hlt, hb⟩ := getElem_place_cons h
    rw [digits, dif_pos hlt, hb]
    cases hc : c.isDigit with
    | false =>
      rw [hc] at hlead
      rw [if_neg (by rw [hlead]; decide), List.takeWhile_cons_of_neg (by rw [hc]; decide),
        List.dropWhile_cons_of_neg (by rw [hc]; decide)]
      rfl
    | true =>
      have hascii := toNat_lt_of_isDigit hc
      rw [if_pos (hlead.trans hc), checked?_appendDigit hascii, List.takeWhile_cons_of_pos hc,
        List.dropWhile_cons_of_pos hc, Parser.numberFrom?]
      by_cases hmax : Parser.maxPosition < Parser.appendDigit value c
      · rw [if_pos hmax, if_pos hmax]
      · rw [if_neg hmax, if_neg hmax]
        dsimp only
        rw [ahead_place_cons h hascii, pure_bind, place_cons_ascii h hascii]
        exact ih ((List.suffix_cons c cs).trans h)

theorem integer_place (h : cs <:+ whole) :
    integer? (ofChars whole) (place whole cs) = placed whole (standing whole) (Parser.integer? cs) := by
  have hsplit := List.takeWhile_append_dropWhile (p := Char.isDigit) (l := cs)
  have hplace := place_append (hsplit.symm ▸ h)
  rw [hsplit] at hplace
  rw [integer?, digits_place _ h, Parser.integer?]
  cases hrun : cs.takeWhile Char.isDigit with
  | nil =>
    rw [hrun, List.nil_append] at hsplit
    rw [hsplit, Parser.numberFrom?, pure_bind]
    dsimp only
    rw [if_neg (Nat.lt_irrefl _)]
    rfl
  | cons c more =>
    have hlength := length_ofChars_pos (List.cons_ne_nil c more)
    rw [hrun] at hplace
    dsimp only
    cases Parser.numberFrom? 0 (c :: more) with
    | none => rfl
    | some n =>
      dsimp only
      rw [pure_bind]
      dsimp only
      rw [if_pos (by omega)]
      rfl

end JsonExtract.Path.Bytewise
