import JsonExtract.Bytes.Chunks
import JsonExtract.Cursor.Script

/-!
# Bytes in pieces

Bytes are cut into pieces of one length, and a reader that delivers pieces hands out each of them in as many
reads as the buffers of its client make it. Nothing is lost on the way, no read goes on from one piece to
the next, and while bytes are left, no read into a buffer with room is in vain.

* `Chunks.Cut`, `Chunks.cut_split?` — pieces of one length;
* `Script.readAll` — reads into buffers of any sizes;
* `Script.Hands`, `Script.HandsAll` — what one read, and what several reads hand out of some pieces;
* `Script.Remains` — what is true of the pieces that are left behind any reads;
* `Script.Deals`, `Script.deals_of_pieces` — what a reader of pieces owes its client.
-/

namespace JsonExtract

/-! ## Cutting bytes

The length of a piece is the number of bytes divided by the number of pieces, rounded up. Then
so many pieces are enough, and there may be fewer, as the last ones would be empty. -/

namespace Chunks

/-- Pieces of some bytes, at most `parts` of them. Only the last one may be shorter than the
others. -/
structure Cut (bytes : Bytes) (parts : Nat) (pieces : List Bytes) : Prop where
  length_le : pieces.length ≤ parts
  ne_nil : ∀ piece ∈ pieces, piece ≠ []
  /-- all but the last one have the same length, and the last one is not longer -/
  even : ∃ size, (∀ piece ∈ pieces.dropLast, piece.length = size) ∧
    ∀ piece ∈ pieces.getLast?, piece.length ≤ size
  flatten : pieces.flatten = bytes

variable {size : Nat} {bytes : Bytes}

theorem length_ofSizeSucc_le {n : Nat} (h : bytes.length ≤ n * (size + 1)) :
    (ofSizeSucc size bytes).length ≤ n := by
  fun_induction ofSizeSucc size bytes generalizing n with
  | case1 => exact Nat.zero_le n
  | case2 b rest ih =>
    cases n with
    | zero => simp at h
    | succ n =>
      rw [Nat.add_mul, Nat.one_mul, List.length_cons] at h
      exact Nat.succ_le_succ (ih (by rw [List.length_drop]; omega))

theorem ne_nil_of_mem_ofSizeSucc : ∀ piece ∈ ofSizeSucc size bytes, piece ≠ [] := by
  fun_induction ofSizeSucc size bytes with
  | case1 => exact fun _ h => absurd h List.not_mem_nil
  | case2 b rest ih => exact List.forall_mem_cons.2 ⟨List.cons_ne_nil _ _, ih⟩

theorem length_le_of_mem_ofSizeSucc : ∀ piece ∈ ofSizeSucc size bytes, piece.length ≤ size + 1 := by
  fun_induction ofSizeSucc size bytes with
  | case1 => exact fun _ h => absurd h List.not_mem_nil
  | case2 b rest ih =>
    refine List.forall_mem_cons.2 ⟨?_, ih⟩
    rw [List.length_cons, List.length_take]
    omega

/-- A piece is cut short only by the end of the bytes. -/
theorem length_of_mem_dropLast_ofSizeSucc :
    ∀ piece ∈ (ofSizeSucc size bytes).dropLast, piece.length = size + 1 := by
  fun_induction ofSizeSucc size bytes with
  | case1 => exact fun _ h => absurd h List.not_mem_nil
  | case2 b rest ih =>
    cases hmore : rest.drop size with
    | nil =>
      rw [ofSizeSucc]
      exact fun _ h => absurd h List.not_mem_nil
    | cons c more =>
      have hlong : size < rest.length := by
        have := congrArg List.length hmore
        rw [List.length_drop, List.length_cons] at this
        omega
      rw [hmore] at ih
      rw [List.dropLast_cons_of_ne_nil (by rw [ofSizeSucc]; exact List.cons_ne_nil _ _)]
      refine List.forall_mem_cons.2 ⟨?_, ih⟩
      rw [List.length_cons, List.length_take, Nat.min_eq_left (Nat.le_of_lt hlong)]

/-- Rounding up makes enough room. -/
theorem le_mul_div_add (n : Nat) {parts : Nat} (h : 0 < parts) : n ≤ parts * ((n + (parts - 1)) / parts) := by
  have := Nat.lt_mul_div_succ (n + (parts - 1)) h
  rw [Nat.mul_add, Nat.mul_one] at this
  omega

/-- Any bytes can be cut into at most so many pieces, unless it is zero. -/
theorem cut_split? (bytes : Bytes) {parts : Nat} (h : 0 < parts) :
    ∃ pieces, split? bytes parts = some pieces ∧ Cut bytes parts pieces := by
  let size := (bytes.length + (parts - 1)) / parts
  have hroom : bytes.length ≤ parts * (size - 1 + 1) :=
    Nat.le_trans (le_mul_div_add _ h) (Nat.mul_le_mul_left _ (by omega))
  refine ⟨ofSize size bytes, if_neg (Nat.ne_of_gt h), length_ofSizeSucc_le hroom,
    ne_nil_of_mem_ofSizeSucc, ⟨size - 1 + 1, length_of_mem_dropLast_ofSizeSucc, ?_⟩, flatten_ofSize ..⟩
  exact fun piece hpiece => length_le_of_mem_ofSizeSucc piece (List.mem_of_getLast? hpiece)

end Chunks

/-! ## Reading pieces

A reader of pieces answers each read from its first piece that is not empty, with as many bytes
as the buffer has room for. What several reads do is followed through the list of pieces that
are left, which is taken apart from its front. -/

namespace Script

/-- The answers to reads into buffers of the given sizes, and what is left. -/
def readAll : List Nat → Script → List (Except Fault Bytes) × Script
  | [], script => ([], script)
  | size :: sizes, script =>
    let (answer, rest) := script.read size
    let more := readAll sizes rest
    (answer :: more.1, more.2)

/-- What a read into a buffer of some size hands out of pieces, and the pieces that are left. A
buffer without room gets nothing and changes nothing, and what is left of a piece stays the first. -/
inductive Hands (size : Nat) : List Bytes → Bytes → List Bytes → Prop
  /-- all pieces were handed out before -/
  | nothing : Hands size [] [] []
  /-- what is left of a piece finds room in the buffer -/
  | whole {piece : Bytes} {more : List Bytes} (h : piece.length ≤ size) :
    Hands size (piece :: more) piece more
  | part {piece : Bytes} {more : List Bytes} (h : size < piece.length) :
    Hands size (piece :: more) (piece.take size) (piece.drop size :: more)

/-- What reads into buffers of some sizes hand out of pieces, one by one, and the pieces that are left. -/
inductive HandsAll : List Nat → List Bytes → List Bytes → List Bytes → Prop
  | nil {left : List Bytes} : HandsAll [] left [] left
  | cons {size : Nat} {sizes : List Nat} {left left' left'' reads : List Bytes} {bytes : Bytes} :
    Hands size left bytes left' → HandsAll sizes left' reads left'' →
      HandsAll (size :: sizes) left (bytes :: reads) left''

theorem exists_read_data (size : Nat) (pieces : List Bytes) :
    ∃ bytes left, read size (pieces.map .data) = (.ok bytes, left.map .data) ∧
      Hands size pieces bytes left := by
  cases pieces with
  | nil => exact ⟨[], [], rfl, .nothing⟩
  | cons piece more =>
    rw [List.map_cons, read]
    by_cases h : piece.length ≤ size
    · rw [List.drop_eq_nil_of_le h, List.take_of_length_le h]
      exact ⟨piece, more, rfl, .whole h⟩
    · have hunread : piece.drop size ≠ [] := fun hnil => h (List.drop_eq_nil_iff.1 hnil)
      refine ⟨piece.take size, piece.drop size :: more, ?_, .part (Nat.lt_of_not_le h)⟩
      simp only [List.isEmpty_eq_false_iff.2 hunread, Bool.false_eq_true, if_false, List.map_cons]

theorem exists_readAll_data (sizes : List Nat) (pieces : List Bytes) :
    ∃ reads left, readAll sizes (pieces.map .data) = (reads.map .ok, left.map .data) ∧
      HandsAll sizes pieces reads left := by
  induction sizes generalizing pieces with
  | nil => exact ⟨[], pieces, rfl, .nil⟩
  | cons size sizes ih =>
    obtain ⟨bytes, left, hread, hhands⟩ := exists_read_data size pieces
    obtain ⟨reads, left', hreads, hall⟩ := ih left
    refine ⟨bytes :: reads, left', ?_, .cons hhands hall⟩
    rw [readAll, hread]
    dsimp only
    rw [hreads]
    rfl

/-! ### One read -/

/-- What is true of `left` behind reads that handed out some bytes of pieces. The last field says
where the first of the pieces left begins among all pieces. -/
structure Remains (pieces : List Bytes) (handed : Bytes) (left : List Bytes) : Prop where
  ne_nil : ∀ piece ∈ left, piece ≠ []
  flatten : handed ++ left.flatten = pieces.flatten
  /-- a place between two pieces that is not behind stands between two pieces that are left -/
  between : ∀ front back, pieces = front ++ back → front.flatten.length ≤ handed.length ∨
    ∃ front' back', left = front' ++ back' ∧
      front.flatten.length = handed.length + front'.flatten.length

/-- In front of all reads, the pieces are left that are not empty. -/
theorem remains_initial (pieces : List Bytes) :
    Remains pieces [] (pieces.filter fun piece => !piece.isEmpty) := by
  have hflatten : ∀ xs : List Bytes, (xs.filter fun piece => !piece.isEmpty).flatten = xs.flatten :=
    fun xs => List.flatten_filter_not_isEmpty
  refine ⟨fun piece h => by simpa using (List.mem_filter.1 h).2, hflatten pieces, ?_⟩
  rintro front back rfl
  exact .inr ⟨_, _, List.filter_append .., by rw [hflatten, List.length_nil, Nat.zero_add]⟩

namespace Hands

variable {size : Nat} {pieces left left' : List Bytes} {handed bytes : Bytes}

theorem length_le (h : Hands size left bytes left') : bytes.length ≤ size := by
  cases h with
  | nothing => exact Nat.zero_le size
  | whole h => exact h
  | part h => exact List.length_take_le ..

theorem flatten (h : Hands size left bytes left') : bytes ++ left'.flatten = left.flatten := by
  cases h with
  | nothing | whole => rfl
  | part => rw [List.flatten_cons, List.flatten_cons, ← List.append_assoc, List.take_append_drop]

theorem ne_nil (h : Hands size left bytes left') (hne : ∀ piece ∈ left, piece ≠ []) :
    ∀ piece ∈ left', piece ≠ [] := by
  cases h with
  | nothing => exact hne
  | whole => exact fun piece hpiece => hne piece (List.mem_cons_of_mem _ hpiece)
  | part hlt =>
    refine List.forall_mem_cons.2 ⟨?_, fun piece hpiece => hne piece (List.mem_cons_of_mem _ hpiece)⟩
    exact fun hnil => Nat.not_le_of_lt hlt (List.drop_eq_nil_iff.1 hnil)

/-- A buffer with room stays empty only if no piece is left. -/
theorem eq_nil (h : Hands size left [] left') (hne : ∀ piece ∈ left, piece ≠ []) (hsize : 0 < size) :
    left = [] := by
  generalize hbytes : ([] : Bytes) = bytes at h
  cases h with
  | nothing => rfl
  | whole => exact absurd hbytes.symm (hne _ List.mem_cons_self)
  | part hlt =>
    have := congrArg List.length hbytes
    rw [List.length_nil, List.length_take] at this
    omega

/-- A read ends at the first place between two pieces, if it does not end in front of it. So the
places between pieces are not crossed, whatever the sizes of the buffers are. -/
theorem between (h : Hands size left bytes left') {front back : List Bytes} (hleft : left = front ++ back) :
    front = [] ∨ ∃ front' back', left' = front' ++ back' ∧
      front.flatten.length = bytes.length + front'.flatten.length := by
  cases front with
  | nil => exact .inl rfl
  | cons piece front =>
    rw [List.cons_append] at hleft
    cases h with
    | nothing => cases hleft
    | whole =>
      obtain ⟨rfl, rfl⟩ := List.cons.inj hleft
      exact .inr ⟨front, back, rfl, List.length_append⟩
    | part hlt =>
      obtain ⟨rfl, rfl⟩ := List.cons.inj hleft
      refine .inr ⟨_ :: front, back, rfl, ?_⟩
      rw [List.flatten_cons, List.flatten_cons, ← List.length_append, ← List.append_assoc,
        List.take_append_drop]

/-- No read goes on from one piece to the next. -/
theorem le_or_le (h : Hands size left bytes left') (hleft : Remains pieces handed left)
    {front back : List Bytes} (hpieces : pieces = front ++ back) :
    front.flatten.length ≤ handed.length ∨ (handed ++ bytes).length ≤ front.flatten.length := by
  obtain hle | ⟨front', back', hsplit, heq⟩ := hleft.between front back hpieces
  · exact .inl hle
  · obtain rfl | ⟨front'', -, -, hlength⟩ := h.between hsplit
    · exact .inl (Nat.le_of_eq heq)
    · exact .inr (by rw [List.length_append]; omega)

theorem remains (h : Hands size left bytes left') (hleft : Remains pieces handed left) :
    Remains pieces (handed ++ bytes) left' where
  ne_nil := h.ne_nil hleft.ne_nil
  flatten := by rw [List.append_assoc, h.flatten, hleft.flatten]
  between front back hpieces := by
    rw [List.length_append]
    obtain hle | ⟨front', back', hsplit, heq⟩ := hleft.between front back hpieces
    · exact .inl (Nat.le_add_right_of_le hle)
    · obtain rfl | ⟨front'', back'', hsplit', hlength⟩ := h.between hsplit
      · exact .inl (heq ▸ Nat.le_add_right _ _)
      · exact .inr ⟨front'', back'', hsplit', by omega⟩

end Hands

/-! ### Several reads -/

namespace HandsAll

variable {sizes : List Nat} {pieces left left' reads : List Bytes} {handed : Bytes}

theorem remains (h : HandsAll sizes left reads left') (hleft : Remains pieces handed left) :
    Remains pieces (handed ++ reads.flatten) left' := by
  induction h generalizing handed with
  | nil => rwa [List.flatten_nil, List.append_nil]
  | cons hhands _ ih =>
    rw [List.flatten_cons, ← List.append_assoc]
    exact ih (hhands.remains hleft)

/-- The reads in front of a read, and this read. -/
theorem getElem? (h : HandsAll sizes left reads left') {k : Nat} {bytes : Bytes}
    (hk : reads[k]? = some bytes) :
    ∃ size mid mid', sizes[k]? = some size ∧ HandsAll (sizes.take k) left (reads.take k) mid ∧
      Hands size mid bytes mid' := by
  induction h generalizing k with
  | nil => cases hk
  | @cons size _ _ mid _ _ _ hhands _ ih =>
    cases k with
    | zero =>
      cases hk
      exact ⟨size, _, mid, rfl, .nil, hhands⟩
    | succ k =>
      obtain ⟨size', mid, mid', hsize, hall, hhands'⟩ := ih hk
      exact ⟨size', mid, mid', hsize, .cons hhands hall, hhands'⟩

/-- Each read into a buffer with room hands out a byte, as long as one is left. So as many reads
into buffers with room as there are bytes hand out everything. -/
theorem length_left_le (h : HandsAll sizes left reads left') (hne : ∀ piece ∈ left, piece ≠ []) :
    left'.flatten.length ≤ left.flatten.length - sizes.countP (0 < ·) := by
  induction h with
  | nil => exact Nat.le_refl _
  | @cons size sizes left mid _ _ bytes hhands _ ih =>
    have hrest := ih (hhands.ne_nil hne)
    have hflatten := congrArg List.length hhands.flatten
    rw [List.length_append] at hflatten
    rw [List.countP_cons]
    by_cases hsize : 0 < size
    · rw [if_pos (decide_eq_true hsize)]
      cases bytes with
      | nil =>
        rw [hhands.eq_nil hne hsize] at hflatten ⊢
        rw [List.flatten_nil, List.length_nil] at hflatten
        omega
      | cons b bytes =>
        rw [List.length_cons] at hflatten
        omega
    · rw [if_neg (by simpa using hsize)]
      omega

end HandsAll

/-! ### What a reader of pieces owes its client -/

/-- The answers to reads into buffers of some sizes from a reader of pieces. The sizes may be
different for each read, and some of them zero. -/
structure Deals (pieces : List Bytes) (sizes : List Nat) (reads : List Bytes) : Prop where
  /-- no read fails -/
  answers : (readAll sizes (ofPieces pieces)).1 = reads.map .ok
  /-- no buffer overflows -/
  length_le : ∀ (k : Nat) (bytes : Bytes) (size : Nat), reads[k]? = some bytes → sizes[k]? = some size →
    bytes.length ≤ size
  /-- the bytes come in their order, and none is left out -/
  flatten : reads.flatten <+: pieces.flatten
  /-- a read ends in front of each place between two pieces, or starts behind it -/
  between : ∀ (k : Nat) (bytes : Bytes), reads[k]? = some bytes → ∀ front back, pieces = front ++ back →
    front.flatten.length ≤ (reads.take k).flatten.length ∨
      ((reads.take k).flatten ++ bytes).length ≤ front.flatten.length
  /-- a buffer with room stays empty only if all bytes were handed out before -/
  vain : ∀ (k size : Nat), reads[k]? = some [] → sizes[k]? = some size → 0 < size →
    (reads.take k).flatten = pieces.flatten
  /-- as many reads into buffers with room as there are bytes hand out all of them -/
  all : pieces.flatten.length ≤ sizes.countP (0 < ·) → reads.flatten = pieces.flatten

theorem HandsAll.deals {pieces reads left : List Bytes} {sizes : List Nat}
    (hanswers : (readAll sizes (ofPieces pieces)).1 = reads.map .ok)
    (h : HandsAll sizes (pieces.filter fun piece => !piece.isEmpty) reads left) :
    Deals pieces sizes reads := by
  have hinitial := remains_initial pieces
  have hleft : Remains pieces reads.flatten left := h.remains hinitial
  refine ⟨hanswers, fun k bytes size hk hsize => ?_, ⟨_, hleft.flatten⟩,
    fun k bytes hk front back hpieces => ?_, fun k size hk hsize hpos => ?_, fun hcount => ?_⟩
  · obtain ⟨size', mid, mid', hsize', -, hhands⟩ := h.getElem? hk
    cases hsize.symm.trans hsize'
    exact hhands.length_le
  · obtain ⟨_, mid, mid', -, hfront, hhands⟩ := h.getElem? hk
    exact hhands.le_or_le (hfront.remains hinitial) hpieces
  · obtain ⟨size', mid, mid', hsize', hfront, hhands⟩ := h.getElem? hk
    cases hsize.symm.trans hsize'
    have hmid : Remains pieces (reads.take k).flatten mid := hfront.remains hinitial
    have hflatten := hmid.flatten
    rwa [hhands.eq_nil hmid.ne_nil hpos, List.flatten_nil, List.append_nil] at hflatten
  · have hlength := h.length_left_le hinitial.ne_nil
    have hall : (pieces.filter fun piece => !piece.isEmpty).flatten = pieces.flatten := hinitial.flatten
    rw [hall, Nat.sub_eq_zero_of_le hcount, Nat.le_zero, List.length_eq_zero_iff] at hlength
    have hflatten := hleft.flatten
    rwa [hlength, List.append_nil] at hflatten

/-- Any bytes are cut into at most so many pieces, and a reader of any pieces hands out their
bytes in any reads. That makes the ways of cutting and of reading interchangeable for whoever puts
the bytes together again. -/
theorem deals_of_pieces :
    (∀ (bytes : Bytes) (parts : Nat), 0 < parts →
      ∃ pieces, Chunks.split? bytes parts = some pieces ∧ Chunks.Cut bytes parts pieces) ∧
    ∀ (pieces : List Bytes) (sizes : List Nat), ∃ reads, Deals pieces sizes reads := by
  refine ⟨fun bytes parts h => Chunks.cut_split? bytes h, fun pieces sizes => ?_⟩
  obtain ⟨reads, left, hreads, hall⟩ := exists_readAll_data sizes (pieces.filter fun piece => !piece.isEmpty)
  exact ⟨reads, hall.deals (congrArg Prod.fst hreads)⟩

/-- Seven bytes in three pieces, and a reader of three pieces, one of them empty, into small buffers, one of
them without room. -/
theorem deals_of_three_pieces :
    (∃ pieces, Chunks.split? (Bytes.ofString "abcdefg") 3 = some pieces ∧
      pieces = [Bytes.ofString "abc", Bytes.ofString "def", Bytes.ofString "g"] ∧
      Chunks.Cut (Bytes.ofString "abcdefg") 3 pieces) ∧
    Deals [Bytes.ofString "ab", [], Bytes.ofString "cde"] [2, 0, 2, 2, 2]
      [Bytes.ofString "ab", [], Bytes.ofString "cd", Bytes.ofString "e", []] := by
  obtain ⟨hcut, hdeals⟩ := deals_of_pieces
  obtain ⟨pieces, hsplit, hpieces⟩ := hcut (Bytes.ofString "abcdefg") 3 (by decide)
  obtain ⟨reads, hreads⟩ := hdeals [Bytes.ofString "ab", [], Bytes.ofString "cde"] [2, 0, 2, 2, 2]
  have hthree : Chunks.split? (Bytes.ofString "abcdefg") 3 =
      some [Bytes.ofString "abc", Bytes.ofString "def", Bytes.ofString "g"] := by
    decide +kernel
  have hfive : (readAll [2, 0, 2, 2, 2] (ofPieces [Bytes.ofString "ab", [], Bytes.ofString "cde"])).1 =
      [Bytes.ofString "ab", [], Bytes.ofString "cd", Bytes.ofString "e", []].map .ok := rfl
  have heq : [Bytes.ofString "ab", [], Bytes.ofString "cd", Bytes.ofString "e", []] = reads :=
    (List.map_inj_right fun _ _ h => Except.ok.inj h).1 (hfive.symm.trans hreads.answers)
  exact ⟨⟨pieces, hsplit, Option.some.inj (hsplit.symm.trans hthree), hpieces⟩, heq ▸ hreads⟩

end Script

end JsonExtract
