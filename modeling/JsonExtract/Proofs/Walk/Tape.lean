import JsonExtract.Proofs.Scan.Drafting
import JsonExtract.Proofs.Walk.Course
import Mathlib.Logic.ExistsUnique

/-!
# The tape

All containers that are asked for share one tape. From the place that a container has noted, the tape
holds the text of the document from the bracket of the container on, without space and with the containers
inside of it as far as they were read. When none is open, the tape is empty.

* `Tape.Holds` — the text on a tape, from the noted places on;
* `Walk.Records` — the frames and the tape of a walk belong to what was read;
* `Walk.records_token` — each token keeps it so;
* `Walk.Transcribes`, `Session.transcribes_of_course` — behind every step of a session.
-/

namespace JsonExtract

/-! ## The text on a tape

The tape is one list of bytes, and a container that is asked for notes only where its text
starts. Between two tokens each open container has some text of its own, up to the bracket of
the container inside of it. The texts of an open container and of all those inside of it, put
together from the outside to the inside, are what the tape holds from the noted place on. -/

namespace Tape

/-- From the place that an open container has noted, the tape holds the text in this container and
in those inside of it. Containers and texts are those of the innermost container first. The
statement is about noted places alone: of a container that nobody asks for, nothing has to be on
the tape. -/
def Holds (tape : Bytes) (recordings : List (Option Recording)) (texts : List Bytes) : Prop :=
  ∀ (i : Nat) (r : Recording), recordings[i]? = some (some r) →
    ∃ front, front.length = r.start ∧ tape = front ++ (texts.take (i + 1)).reverse.flatten

variable {tape x : Bytes} {recordings : List (Option Recording)} {recording? : Option Recording}
  {texts : List Bytes}

theorem flatten_modifyHead {i : Nat} (hi : i < texts.length) (bytes : Bytes) :
    ((texts.modifyHead (· ++ bytes)).take (i + 1)).reverse.flatten =
      (texts.take (i + 1)).reverse.flatten ++ bytes := by
  cases texts with
  | nil => cases hi
  | cons x xs => simp

/-- What is written belongs to the innermost container. -/
theorem Holds.append (h : Holds tape recordings texts) (hlength : texts.length = recordings.length)
    (bytes : Bytes) : Holds (tape ++ bytes) recordings (texts.modifyHead (· ++ bytes)) := by
  intro i r hr
  obtain ⟨front, hfront, htape⟩ := h i r hr
  have hi : i < texts.length := hlength ▸ (List.getElem?_eq_some_iff.1 hr).1
  refine ⟨front, hfront, ?_⟩
  rw [flatten_modifyHead hi, htape, List.append_assoc]

/-- A container is opened, and notes where the tape ends, if it is asked for. -/
theorem Holds.opened (h : Holds tape recordings texts) (hr : ∀ r ∈ recording?, r.start = tape.length) :
    Holds tape (recording? :: recordings) ([] :: texts) := by
  intro i r hi
  cases i with
  | zero =>
    obtain rfl := Option.some.inj hi
    exact ⟨tape, (hr r rfl).symm, by simp⟩
  | succ i =>
    obtain ⟨front, hfront, htape⟩ := h i r hi
    exact ⟨front, hfront, by simpa using htape⟩

/-- A container is closed, and its text belongs to the container around it. The place that the
inner container had noted is forgotten, and its text has become a part of what the outer one
holds. -/
theorem Holds.closed (h : Holds tape (recording? :: recordings) (x :: texts))
    (hlength : texts.length = recordings.length) :
    Holds tape recordings (texts.modifyHead (· ++ x)) := by
  intro i r hr
  obtain ⟨front, hfront, htape⟩ := h (i + 1) r hr
  have hi : i < texts.length := hlength ▸ (List.getElem?_eq_some_iff.1 hr).1
  refine ⟨front, hfront, ?_⟩
  rw [flatten_modifyHead hi, htape, List.take_succ_cons, List.reverse_cons, List.flatten_append,
    List.flatten_singleton]

/-- Containers further out have more text. -/
theorem length_lt_length (hne : ∀ x ∈ texts, x ≠ []) {m n : Nat} (hmn : m < n) (hn : n ≤ texts.length) :
    (texts.take m).reverse.flatten.length < (texts.take n).reverse.flatten.length := by
  have hstep : ∀ k < texts.length,
      (texts.take k).reverse.flatten.length < (texts.take (k + 1)).reverse.flatten.length := by
    intro k hk
    have hpos := List.length_pos_iff.2 (hne _ (List.getElem_mem hk))
    rw [← List.take_append_getElem hk, List.reverse_append, List.flatten_append, List.length_append]
    simpa using hpos
  induction hmn with
  | refl => exact hstep m hn
  | step _ ih => exact Nat.lt_trans (ih (Nat.le_of_succ_le hn)) (hstep _ hn)

/-- A place that is noted stands in front of the end of the tape. -/
theorem Holds.start_lt (h : Holds tape recordings texts) (hlength : texts.length = recordings.length)
    (hne : ∀ x ∈ texts, x ≠ []) {i : Nat} {r : Recording} (hr : recordings[i]? = some (some r)) :
    r.start < tape.length := by
  obtain ⟨front, hfront, rfl⟩ := h i r hr
  have hi : i + 1 ≤ texts.length := hlength ▸ (List.getElem?_eq_some_iff.1 hr).1
  have hlt := length_lt_length (n := i + 1) hne (Nat.zero_lt_succ i) hi
  rw [List.length_append]
  omega

/-- Containers further out have noted places further in front. -/
theorem Holds.start_lt_start (h : Holds tape recordings texts) (hlength : texts.length = recordings.length)
    (hne : ∀ x ∈ texts, x ≠ []) {i j : Nat} {r r' : Recording} (hij : i < j)
    (hr : recordings[i]? = some (some r)) (hr' : recordings[j]? = some (some r')) : r'.start < r.start := by
  obtain ⟨front, hfront, htape⟩ := h i r hr
  obtain ⟨front', hfront', htape'⟩ := h j r' hr'
  have hj : j + 1 ≤ texts.length := hlength ▸ (List.getElem?_eq_some_iff.1 hr').1
  have hlt := length_lt_length (m := i + 1) (n := j + 1) hne (Nat.succ_lt_succ hij) hj
  have hsame := congrArg List.length (htape.symm.trans htape')
  rw [List.length_append, List.length_append] at hsame
  omega

end Tape

/-! ## The walk

A document in progress says what texts the open containers have at a place between two tokens.
`Walk.Records` compares a walk with it: as many frames, with the same counts of children, and
the texts on the tape where they were asked for. A comma is written in front of every child but
the first, so the count of the children decides what a token writes. -/

namespace Walk

/-- The frames of a walk are open containers with these numbers of members or elements, and their
text so far is on the tape as far as it is asked for. When no container is asked for, the tape is
cleared, so the texts need not be on it. -/
structure Records (w : Walk) (counts : List (Container × Nat)) (texts : List Bytes) : Prop where
  frames : w.frames.map (fun f => (f.container, f.count)) = counts
  length : texts.length = counts.length
  recordings : w.recordings = w.frames.countP (·.recording?.isSome)
  empty : w.recordings = 0 → w.tape = #[]
  holds : Tape.Holds w.tape.toList (w.frames.map (·.recording?)) texts

namespace Records

variable {w w' : Walk} {counts counts' : List (Container × Nat)} {texts : List Bytes} {x : Bytes}

theorem initial : ({} : Walk).Records [] [] :=
  ⟨rfl, rfl, rfl, fun _ => rfl, fun _ _ hr => by cases hr⟩

theorem length_eq (h : w.Records counts texts) : texts.length = (w.frames.map (·.recording?)).length := by
  rw [h.length, ← h.frames, List.length_map, List.length_map]

/-- Where no container is asked for, there is nothing to keep. This is the case in which a closing
bracket has emptied the tape. -/
theorem holds_of_countP_eq_zero {frames : List Frame} (h : frames.countP (·.recording?.isSome) = 0)
    (tape : Bytes) (texts : List Bytes) : Tape.Holds tape (frames.map (·.recording?)) texts := by
  intro i r hr
  rw [List.getElem?_map] at hr
  obtain ⟨f, hf, hrecording⟩ := Option.map_eq_some_iff.1 hr
  have hnone := List.countP_eq_zero.1 h f (List.mem_of_getElem? hf)
  exact absurd (by rw [hrecording]; rfl) hnone

/-- Members and elements start, and all else stays as it is. -/
theorem congr (h : w.Records counts texts) (hr : w'.frames.map (·.recording?) = w.frames.map (·.recording?))
    (hc : w'.frames.map (fun f => (f.container, f.count)) = counts') (ht : w'.tape = w.tape)
    (hn : w'.recordings = w.recordings) : w'.Records counts' texts where
  frames := hc
  length := by
    rw [h.length_eq, ← hr, ← hc, List.length_map, List.length_map]
  recordings := by
    have hcount := congrArg (List.countP Option.isSome) hr
    rw [List.countP_map, List.countP_map] at hcount
    exact hn.trans (h.recordings.trans hcount.symm)
  empty h₀ := ht.trans (h.empty (hn ▸ h₀))
  holds := by
    rw [ht, hr]
    exact h.holds

/-- What is written belongs to the innermost container. -/
theorem write (h : w.Records counts texts) (bytes : Bytes) :
    (w.write bytes).Records counts (texts.modifyHead (· ++ bytes)) := by
  have hlength : (texts.modifyHead (· ++ bytes)).length = counts.length := by
    rw [List.length_modifyHead, h.length]
  rw [Walk.write]
  split
  · next h₀ =>
    exact ⟨h.frames, hlength, h.recordings, h.empty, holds_of_countP_eq_zero (h.recordings ▸ h₀) _ _⟩
  · next hne =>
    refine ⟨h.frames, hlength, h.recordings, fun h₀ => absurd h₀ hne, ?_⟩
    dsimp only
    rw [Array.toList_appendList]
    exact h.holds.append h.length_eq bytes

theorem writeComma (h : w.Records counts texts) (f : Frame) : (w.writeComma f).Records counts
    (texts.modifyHead (· ++ if f.count = 0 then [] else [Ascii.comma])) := by
  rw [Walk.writeComma]
  split
  · have hsame : texts.modifyHead (· ++ []) = texts := by cases texts <;> simp
    rwa [hsame]
  · exact h.write _

/-- Reserved slots leave no trace. -/
theorem like (h : w.Records counts texts) (hlike : w.Like w') : w'.Records counts texts := by
  have hframes {β : Type} (g : Frame → β) (hg : ∀ f, g f.outline = g f) :
      w'.frames.map g = w.frames.map g := by
    have hmap := congrArg (List.map g) hlike.frames
    simpa [Function.comp_def, hg] using hmap
  refine h.congr (hframes _ fun _ => rfl) ?_ hlike.tape hlike.recordings
  rw [hframes _ fun _ => rfl, h.frames]

/-! ### Values -/

/-- A value is entered, behind a comma if one belongs in front. -/
theorem enter (paths : List Path) (v : Value) {spot : Spot}
    (h : w.Records (Draft.value spot).counts (Draft.value spot).texts) :
    (w.enter paths v).2.Records spot.counts spot.leads := by
  have hframes := h.frames
  cases hw : w.frames with
  | nil =>
    rw [hw] at hframes
    cases spot with
    | top values =>
      simp only [Walk.enter, hw]
      exact h
    | element | member => cases hframes
  | cons f outer =>
    have hr : (w.enter paths v).2.frames.map (·.recording?) = w.frames.map (·.recording?) := by
      rw [frames_enter paths v hw, hw, List.map_cons, List.map_cons]
      exact congrArg (· :: _) (Frame.recording?_entered _ f)
    have hn := recordings_enter paths v (w := w)
    have hc : (w.enter paths v).2.frames.map (fun g => (g.container, g.count)) =
        (f.container, f.count + 1) :: outer.map fun g => (g.container, g.count) := by
      rw [frames_enter paths v hw, List.map_cons]
      exact congrArg (fun c => (c, f.count + 1) :: _) (Frame.container_entered _ f)
    rw [hw, List.map_cons] at hframes
    -- an object has its comma in front of the name, and only an array writes one here
    cases spot with
    | top values => cases hframes
    | member members name above =>
      obtain ⟨hf, houter⟩ := List.cons.inj hframes
      obtain ⟨hcontainer, hcount⟩ := Prod.mk.inj hf
      rw [hcontainer, hcount, houter] at hc
      refine h.congr hr hc ?_ hn
      simp only [Walk.enter, hw, hcontainer]
    | element elements above =>
      obtain ⟨hf, houter⟩ := List.cons.inj hframes
      obtain ⟨hcontainer, hcount⟩ := Prod.mk.inj hf
      have hwritten := h.writeComma f
      rw [hcount, ← Spot.leads_element] at hwritten
      rw [hcontainer, hcount, houter] at hc
      refine hwritten.congr ?_ hc ?_ ?_
      · rw [frames_writeComma, hr]
      · simp only [Walk.enter, hw, hcontainer]
      · rw [recordings_writeComma, hn]

/-- A container is opened. -/
theorem openFrame {p : Placement} (h : p.walk.Records counts texts) (c : Container) :
    (openFrame c p).Records ((c, 0) :: counts) ([c.opening] :: texts) := by
  have hopened : Records { p.walk with
      frames := p.frame c :: p.walk.frames
      recordings := if p.reserved.isEmpty then p.walk.recordings else p.walk.recordings + 1 }
      ((c, 0) :: counts) ([] :: texts) := by
    refine ⟨congrArg (_ :: ·) h.frames, congrArg (· + 1) h.length, ?_, fun h₀ => h.empty ?_, ?_⟩
    · dsimp only
      rw [List.countP_cons, ← h.recordings, Placement.frame]
      split <;> rfl
    · dsimp only at h₀
      split at h₀
      · exact h₀
      · cases h₀
    · refine h.holds.opened fun r hr => ?_
      rw [Placement.frame] at hr
      dsimp only at hr
      split at hr
      · cases hr
      · cases hr
        rfl
  exact hopened.write [c.opening]

theorem completeScalar {p : Placement} (h : p.walk.Records counts texts) (raw : Bytes) :
    (completeScalar raw p).Records counts (texts.modifyHead (· ++ raw)) := by
  have hcompleted : Records { p.walk with slots := p.walk.slots.complete raw p.reserved.reverse } counts
      texts := h.congr rfl h.frames rfl rfl
  exact hcompleted.write raw

/-- A container is closed, and its text belongs to the container around it. -/
theorem close {c : Container} {n : Nat} (h : w.Records ((c, n) :: counts) (x :: texts)) :
    w.close.Records counts (texts.modifyHead (· ++ (x ++ [c.closing]))) := by
  obtain ⟨f, outer, hw, hf, houter⟩ := List.map_eq_cons_iff.1 h.frames
  obtain ⟨rfl, -⟩ := Prod.mk.inj hf
  have hlength : texts.length = counts.length := Nat.succ.inj h.length
  have hlength' : (texts.modifyHead (· ++ (x ++ [f.container.closing]))).length = counts.length := by
    rw [List.length_modifyHead, hlength]
  have hwritten := h.write [f.container.closing]
  have hholds := hwritten.holds
  rw [frames_write, hw, List.map_cons, List.modifyHead_cons] at hholds
  replace hholds := hholds.closed (by rw [hlength, ← houter, List.length_map, List.length_map])
  have hrecordings := h.recordings
  rw [hw, List.countP_cons] at hrecordings
  -- the tape goes on behind the bracket, unless this was the last container that was asked for
  cases hr : f.recording? with
  | none =>
    have hclose : w.close =
        { w.write [f.container.closing] with frames := outer, slots := f.closed w.slots } := by
      rw [close_of_recording?_eq_none hw hr, Walk.write, Walk.write]
      split <;> rfl
    rw [hr] at hrecordings
    rw [hclose]
    exact ⟨houter, hlength', (recordings_write ..).trans hrecordings, hwritten.empty, hholds⟩
  | some r =>
    rw [hr, Option.isSome_some, if_pos rfl] at hrecordings
    have hne : w.recordings ≠ 0 := hrecordings ▸ Nat.succ_ne_zero _
    have htape : (w.write [f.container.closing]).tape = w.tape ++ [f.container.closing] := by
      rw [Walk.write, if_neg hne]
    rw [close_of_recording?_eq_some hw hr hne, ← htape]
    refine ⟨houter, hlength', ?_, fun h₀ => if_pos ?_, ?_⟩
    · exact Nat.sub_eq_of_eq_add hrecordings
    · dsimp only at h₀
      omega
    · dsimp only
      split
      · exact holds_of_countP_eq_zero (by omega) _ _
      · exact hholds

/-- The name of a member is read, behind a comma if one belongs in front. -/
theorem name {members : List (Bytes × Tree)} {spot : Spot}
    (h : w.Records (Draft.object members spot).counts (Draft.object members spot).texts) (inner : Bytes) :
    (w.name (Bytes.quoted inner)).Records (Draft.value (.member members inner spot)).counts
      (Draft.value (.member members inner spot)).texts := by
  obtain ⟨f, outer, hw, hf, -⟩ := List.map_eq_cons_iff.1 h.frames
  obtain ⟨-, hcount⟩ := Prod.mk.inj hf
  have hwritten := ((h.writeComma f).write (Bytes.quoted inner)).write [Ascii.colon]
  have htexts : (Draft.value (.member members inner spot)).texts =
      (((Draft.object members spot).texts.modifyHead
        (· ++ if f.count = 0 then [] else [Ascii.comma])).modifyHead
          (· ++ Bytes.quoted inner)).modifyHead (· ++ [Ascii.colon]) := by
    rw [hcount, List.modifyHead_modifyHead, List.modifyHead_modifyHead]
    refine (Spot.leads_member members inner spot).trans (congrArg (List.modifyHead · _) (funext fun y => ?_))
    simp
  rw [← htexts] at hwritten
  simp only [Walk.name, hw]
  split
  · exact hwritten
  · refine hwritten.congr ?_ ?_ rfl rfl
    · simp [hw]
    · have hframes := h.frames
      rw [hw] at hframes
      exact hframes

end Records

/-- A token leads from the walk behind a document in progress to the walk behind the next. There
is one case for each way in which a token can be taken: a scalar, an opening bracket, a name, and
a closing bracket. -/
theorem records_token (paths : List Path) {w : Walk} {lexed : Lexed} {d d' : Draft}
    (h : w.Records d.counts d.texts) (ht : d.Takes lexed.token d') :
    (w.token paths lexed).Records d'.counts d'.texts := by
  rw [token]
  generalize lexed.token = t at ht
  cases ht with
  | scalar spot s =>
    have hkind : s.kind.container? = none := by cases s <;> rfl
    have hplaced := fun v => (h.enter paths v).like (placed_like v (w.enter paths v).1 _)
    dsimp only
    rw [Spot.counts_put, Spot.texts_put, arrive_eq_begin, begin, Tree.text]
    dsimp only
    rw [hkind]
    exact (hplaced _).completeScalar s.raw
  | openArray spot | openObject spot =>
    dsimp only
    rw [arrive_eq_begin, begin]
    exact ((h.enter paths _).like (placed_like ..)).openFrame _
  | name members outer name => exact h.name name
  | closeArray elements outer | closeObject members outer =>
    rw [Spot.counts_put, Spot.texts_put, Tree.text]
    exact h.close

/-! ## What is on the tape

The relation to a draft is turned into a statement about the walk and the tokens that it took
in, with no draft mentioned: how many containers are counted, when the tape is empty, where the
noted places lie, and that the tape behind each of them is the compact text of the tokens since. -/

/-- The tape of a walk is in order behind some tokens. The last field compares the tape from a
noted place on with the text of a document, and so says what a match of this container will hold. -/
structure Transcribes (w : Walk) (tokens : List Token) : Prop where
  /-- the open containers that are asked for are counted -/
  recordings : w.recordings = w.frames.countP (·.recording?.isSome)
  /-- so while one of them is open, the number is not zero -/
  positive : ∀ f ∈ w.frames, f.recording?.isSome → 0 < w.recordings
  /-- while none is open, the tape is empty -/
  empty : w.recordings = 0 → w.tape = #[]
  /-- containers further inside have noted places further behind -/
  starts : (w.frames.reverse.filterMap fun f => f.recording?.map (·.start)).Pairwise (· < ·)
  /-- all of them are on the tape -/
  within : ∀ f ∈ w.frames, ∀ r, f.recording? = some r → r.start < w.tape.size
  /-- the tokens were read from one document in progress -/
  draft : ∃! d : Draft, d.tokens = tokens
  /-- its containers are open, and from a noted place on the tape holds its text from the container on -/
  text : ∀ d : Draft, d.tokens = tokens → d.containers = w.containers ∧
    ∀ i f r, w.frames[i]? = some f → f.recording? = some r → w.tape.toList.drop r.start = d.textFrom i

theorem Records.transcribes {w : Walk} {d : Draft} (h : w.Records d.counts d.texts) :
    w.Transcribes d.tokens where
  recordings := h.recordings
  positive f hf hr := by
    rw [h.recordings]
    exact List.countP_pos_iff.2 ⟨f, hf, hr⟩
  empty := h.empty
  starts := by
    rw [List.pairwise_filterMap, List.pairwise_reverse, List.pairwise_iff_getElem]
    intro i j hi hj hij _ houter _ hinner
    obtain ⟨r', hr', rfl⟩ := Option.map_eq_some_iff.1 houter
    obtain ⟨r, hr, rfl⟩ := Option.map_eq_some_iff.1 hinner
    exact h.holds.start_lt_start h.length_eq (fun _ => Draft.ne_nil_of_mem_texts) hij (by simp [hi, hr])
      (by simp [hj, hr'])
  within f hf r hr := by
    obtain ⟨i, hi⟩ := List.mem_iff_getElem?.1 hf
    have hrecording : (w.frames.map (·.recording?))[i]? = some (some r) := by simp [hi, hr]
    have hlt := h.holds.start_lt h.length_eq (fun _ => Draft.ne_nil_of_mem_texts) hrecording
    rwa [Array.length_toList] at hlt
  draft := ⟨d, rfl, fun _ hd => Draft.tokens_injective hd⟩
  text e he := by
    obtain rfl := Draft.tokens_injective he
    refine ⟨?_, fun i f r hi hr => ?_⟩
    · rw [Draft.containers, ← h.frames, List.map_map]
      rfl
    · obtain ⟨front, hfront, htape⟩ := h.holds i r (by simp [hi, hr])
      rw [htape, ← hfront, List.drop_left, Draft.textFrom]

end Walk

/-! ## Sessions

A lexer only gives out tokens that lead from one draft to the next, so behind every step of a
session there is a draft whose tokens are those taken in. That the walk records this draft
follows token by token. -/

namespace Session

variable {σ : Type} [Cursor σ]

/-- Behind each step the tokens that were taken in lead to a place in a document. The lexer knows of it
what matters, unless the session is over, and its text is on the tape. -/
theorem Course.exists_draft {paths : List Path} {options : Options} {source : σ} {s₀ s : Session σ}
    {tokens : List Lexed} {numbers : List Nat} (hs : Session.start paths options source = .ok s₀)
    (h : s₀.Course tokens numbers s) :
    ∃ d : Draft, d.tokens = tokens.map (·.token) ∧ (s.isOver = false → d.Meets s.lexer) ∧
      s.walk.Records d.counts d.texts := by
  induction h with
  | start =>
    rw [Session.start] at hs
    split at hs
    · cases hs
    · cases hs
      exact ⟨.value (.top []), rfl, fun _ => ⟨.inl rfl, rfl⟩, .initial⟩
  | @token s tokens numbers found hcourse ho ha ih =>
    obtain ⟨d, htokens, hm, hrecords⟩ := ih
    obtain ⟨d', htakes, hm'⟩ := Lexer.pull_takes s.source ((hcourse.going hs).fits ho) (hm ho) ha
    refine ⟨d', ?_, fun _ => ?_, ?_⟩
    · rw [htakes.tokens_eq, htokens, List.map_append, List.map_singleton]
    · simpa only [proceed, ha] using hm'
    · simpa only [proceed, ha] using Walk.records_token s.paths hrecords htakes
  | @ending s tokens numbers _ ho ha ih =>
    obtain ⟨d, htokens, -, hrecords⟩ := ih
    rw [proceed]
    rcases hanswer : (s.lexer.pull s.options s.source).answer with failure | _ | found
    · exact ⟨d, htokens, (fun hno => by cases hno), hrecords⟩
    · exact ⟨d, htokens, (fun hno => by cases hno), hrecords⟩
    · exact absurd hanswer (ha found)
  | give _ _ ih | pass _ _ ih => exact ih

/-- The tape is in order behind every step of a session. So what a container gives out when it is
closed is its text, from the opening bracket to the closing one, whatever other containers were
asked for around it and inside of it. -/
theorem transcribes_of_course {paths : List Path} {options : Options} {source : σ} {s₀ s : Session σ}
    {tokens : List Lexed} {numbers : List Nat} (hs : Session.start paths options source = .ok s₀)
    (h : s₀.Course tokens numbers s) : s.walk.Transcribes (tokens.map (·.token)) := by
  obtain ⟨d, htokens, -, hrecords⟩ := h.exists_draft hs
  exact htokens ▸ hrecords.transcribes

/-- Two of three open containers are asked for when the input ends behind a name. The tape holds the text
from the outer one on, and further behind that from the inner one on, without the space. -/
theorem transcribes_behind_name :
    ∃ s₀ : Session Buffer, ofDocument
        [.ofLinks "$+" [⟨.selector .root, true⟩],
          .ofLinks "$.a[*]+" [⟨.selector .root, false⟩, ⟨.selector (.key (Bytes.ofString "a")), false⟩,
            ⟨.selector .wildcard, true⟩]] {}
        (Bytes.ofString r#"{ "a":[1 ,{"b" :"#) = .ok s₀ ∧
      s₀.next.2.isOver = true ∧ s₀.next.2.walk.recordings = 2 ∧
      s₀.next.2.walk.frames.map (fun f => f.recording?.map (·.start)) = [some 8, none, some 0] ∧
      s₀.next.2.walk.tape.toList = Bytes.ofString r#"{"a":[1,{"b":"# ∧
      ∃ tokens numbers, s₀.Course tokens numbers s₀.next.2 ∧
        s₀.next.2.walk.Transcribes (tokens.map (·.token)) := by
  obtain ⟨s₀, hs₀⟩ := @exists_ofDocument {} rfl
    [.ofLinks "$+" [⟨.selector .root, true⟩],
      .ofLinks "$.a[*]+" [⟨.selector .root, false⟩, ⟨.selector (.key (Bytes.ofString "a")), false⟩,
        ⟨.selector .wildcard, true⟩]]
    (Bytes.ofString r#"{ "a":[1 ,{"b" :"#)
  have hwalk : s₀.next.2.isOver = true ∧ s₀.next.2.walk.recordings = 2 ∧
      s₀.next.2.walk.frames.map (fun f => f.recording?.map (·.start)) = [some 8, none, some 0] ∧
      s₀.next.2.walk.tape.toList = Bytes.ofString r#"{"a":[1,{"b":"# := by
    cases hs₀
    decide +kernel
  obtain ⟨hover, hrecordings, hstarts, htape⟩ := hwalk
  obtain ⟨tokens, given, -, hcourse⟩ :=
    exists_course_next s₀ (rfl : s₀.next = (s₀.next.1, s₀.next.2))
  exact ⟨s₀, hs₀, hover, hrecordings, hstarts, htape, _, _, hcourse _ _ .start,
    transcribes_of_course hs₀ (hcourse _ _ .start)⟩

end Session

end JsonExtract
