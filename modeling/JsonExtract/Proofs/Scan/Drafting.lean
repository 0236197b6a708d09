import JsonExtract.Proofs.Document.Draft
import JsonExtract.Proofs.Scan.Pulling

/-!
# Tokens make documents

Between two tokens the lexer knows what was read as far as it matters: which containers are open, and
whether a value, a name or the end of a container may come. So each token that it reads, from any cursor,
leads from one place in a document to the next.

* `Token.Spelled`, `Verdict.spelled_read` — a token is spelled as a value or a name is;
* `Draft.Allows`, `Draft.Meets` — what the lexer knows of a document in progress;
* `Lexer.takes_of_reads` — a token that a byte completes;
* `Lexer.pull_takes` — every token.
-/

namespace JsonExtract

/-! ## How tokens are spelled

A draft is built from scalars and names and not from bytes, so each token must be seen to come
from one. The bytes of a string start and end with a quote, and the letters of a literal were
fixed when its first letter was read; for a number, any bytes will do. -/

/-- A name stands in quotes, and a scalar is written as one. -/
def Token.Spelled : Token → Prop
  | opening _ | closing _ => True
  | name raw => ∃ inner, raw = Bytes.quoted inner
  | scalar kind raw => ∃ s : Scalar, s.kind = kind ∧ s.raw = raw

/-- What was read of a token can become one that is spelled so. -/
def Unfinished.Spelled : Unfinished → Prop
  | gap | space .. | number .. => True
  | string _ _ lexeme => ∃ inner, lexeme.raw = Ascii.quote :: inner
  | word kind next more lexeme => ∃ s : Scalar, s.kind = kind ∧ s.raw = lexeme.raw ++ next :: more

/-- What the lexer makes of a byte is spelled so. -/
def Verdict.Spelled : Verdict → Prop
  | more unfinished _ => unfinished.Spelled
  | token found _ | tokenBefore found _ => found.token.Spelled
  | error _ | errorBehind _ => True

/-- A string ends with a quote. -/
theorem Quotation.eq_quote_of_next {q : Quotation} {b : UInt8} (h : q.next b = .ok none) :
    b = Ascii.quote := by
  rw [next.eq_def] at h
  cases q with
  | plain =>
    dsimp only at h
    split at h
    · assumption
    · repeat' split at h
      all_goals cases h
  | escape | digits =>
    dsimp only at h
    repeat' split at h
    all_goals cases h

namespace Lexer

variable (options : Options) (lexer : Lexer) (b : UInt8)

theorem spelled_openContainer (c : Container) : (lexer.openContainer options c).Spelled := by
  unfold openContainer
  split <;> trivial

theorem spelled_readValue : (lexer.readValue options b).Spelled := by
  rw [readValue]
  split
  · exact spelled_openContainer ..
  · split
    · exact spelled_openContainer ..
    · split
      · next hb => exact ⟨[], by rw [hb]; rfl⟩
      · split
        · trivial
        · next hw =>
          rw [word?] at hw
          repeat' split at hw
          · next hb => cases hw; exact ⟨.boolean true, rfl, by rw [lexeme, Lexeme.raw_first, hb]; decide⟩
          · next hb => cases hw; exact ⟨.boolean false, rfl, by rw [lexeme, Lexeme.raw_first, hb]; decide⟩
          · next hb => cases hw; exact ⟨.null, rfl, by rw [lexeme, Lexeme.raw_first, hb]; decide⟩
          · cases hw
        · trivial

theorem spelled_readName : (lexer.readName b).Spelled := by
  rw [readName]
  split
  · next hb => exact ⟨[], by rw [hb]; rfl⟩
  · trivial

theorem spelled_readGap : (lexer.readGap options b).Spelled := by
  have hstart : (lexer.readStart options b).Spelled := by
    rw [readStart]
    repeat' split
    all_goals first
      | exact spelled_readValue ..
      | exact spelled_readName ..
      | trivial
  rw [readGap]
  split
  · trivial
  · split
    · trivial
    · exact hstart

/-- A byte makes of a token that is being read one that is spelled so. -/
theorem spelled_read {unfinished : Unfinished} (h : unfinished.Spelled) :
    (lexer.read options unfinished b).Spelled := by
  cases unfinished with
  | gap => exact spelled_readGap ..
  | space start lead seen more =>
    rw [read]
    unfold readSpace
    repeat' split
    all_goals trivial
  | string isName q lexeme =>
    obtain ⟨inner, hraw⟩ := h
    rw [read, readString]
    split
    · exact ⟨inner ++ [b], by rw [Lexeme.raw_push, hraw, List.cons_append]⟩
    · next hq =>
      have hquoted : (lexeme.push b).raw = Bytes.quoted inner := by
        rw [Lexeme.raw_push, hraw, Quotation.eq_quote_of_next hq, List.cons_append, Bytes.quoted]
      cases isName with
      | true => exact ⟨inner, hquoted⟩
      | false => exact ⟨.string inner, rfl, hquoted.symm⟩
    · trivial
  | number part lexeme =>
    rw [read, readNumber]
    repeat' split
    · trivial
    · exact ⟨.number lexeme.raw, rfl, rfl⟩
    · trivial
  | word kind next more lexeme =>
    obtain ⟨s, hkind, hraw⟩ := h
    rw [read]
    unfold readWord
    split
    · next hb =>
      cases more with
      | nil => exact ⟨s, hkind, by rw [hraw, Lexeme.raw_push, hb]⟩
      | cons next' more => exact ⟨s, hkind, by rw [hraw, Lexeme.raw_push, hb, List.append_assoc]; rfl⟩
    · trivial

end Lexer

/-! ## What the lexer knows

The phase of the lexer is a summary of the draft: which kind of spot it has come to, and whether
a separator has been read since. It does not tell whether a container is still empty, so several
phases are allowed at a spot. Together with the open containers this is all that the lexer
keeps. -/

namespace Draft

/-- What the grammar can ask for behind what was read, or behind a comma or a colon that follows
on it. A comma or a colon changes the phase and not the draft. -/
def Allows : Draft → Phase → Prop
  | value (.top _), phase => phase = .start ∨ phase = .done
  | value (.element ..), phase => phase = .arrayOpen ∨ phase = .beforeElement ∨ phase = .afterElement
  | value (.member ..), phase => phase = .afterName ∨ phase = .beforeMember
  | object .., phase => phase = .objectOpen ∨ phase = .beforeName ∨ phase = .afterMember

/-- The open containers, the innermost first. -/
def containers (d : Draft) : List Container :=
  d.counts.map (·.1)

/-- The lexer knows of a document in progress what matters to it. Names and values that were read
are in the draft only. -/
structure Meets (d : Draft) (lexer : Lexer) : Prop where
  phase : d.Allows lexer.phase
  containers : lexer.nesting.containers = d.containers

theorem containers_put (t : Tree) (spot : Spot) : (spot.put t).containers = spot.counts.map (·.1) :=
  congrArg (List.map Prod.fst) (Spot.counts_put t spot)

theorem containers_value (spot : Spot) : (value spot).containers = spot.counts.map (·.1) := by
  cases spot <;> rfl

variable {d d' : Draft} {t : Token} {phase phase' : Phase}

/-- Containers are opened and closed by their brackets. This is how the stack of the lexer changes
by the same token. -/
theorem Takes.containers_eq (h : d.Takes t d') : d'.containers = t.nest d.containers := by
  cases h with
  | scalar spot s => rw [containers_put, Token.nest, containers_value]
  | openArray spot | openObject spot => exact congrArg (_ :: ·) (containers_value spot).symm
  | name members outer name => rfl
  | closeArray elements outer | closeObject members outer => rw [containers_put]; rfl

/-- Behind a value the phase is as the container around it has it. -/
theorem allows_put (t : Tree) (spot : Spot) :
    (spot.put t).Allows (Lexer.phaseBehind (spot.counts.map (·.1)).head?) := by
  cases spot with
  | top values => exact .inr rfl
  | element elements outer | member members name outer => exact .inr (.inr rfl)

theorem Allows.separates (h : d.Allows phase) (hp : Lexer.Separates phase phase') : d.Allows phase' := by
  match d with
  | value (.top _) => rcases h with rfl | rfl <;> cases hp
  | value (.element ..) =>
    rcases h with rfl | rfl | rfl <;> cases hp
    exact .inr (.inl rfl)
  | value (.member ..) =>
    rcases h with rfl | rfl <;> cases hp
    exact .inr rfl
  | object .. =>
    rcases h with rfl | rfl | rfl <;> cases hp
    exact .inr (.inl rfl)

/-- A value comes at a spot. -/
theorem Allows.exists_spot {options : Options} (h : d.Allows phase) (hp : Lexer.TakesValue options phase) :
    ∃ spot, d = value spot := by
  match d with
  | value spot => exact ⟨spot, rfl⟩
  | object .. => rcases h with rfl | rfl | rfl <;> exact hp.elim

/-- A name comes behind complete members. -/
theorem Allows.exists_object (h : d.Allows phase) (hp : Lexer.TakesName phase) :
    ∃ members outer, d = object members outer := by
  match d with
  | object members outer => exact ⟨members, outer, rfl⟩
  | value (.top _) | value (.member ..) => rcases h with rfl | rfl <;> rcases hp with hp | hp <;> cases hp
  | value (.element ..) => rcases h with rfl | rfl | rfl <;> rcases hp with hp | hp <;> cases hp

/-- A bracket closes the innermost container. -/
theorem Allows.takes_closing {c : Container} (h : d.Allows phase) (hp : Lexer.MayClose c phase) :
    ∃ (t : Tree) (spot : Spot), d.Takes (.closing c) (spot.put t) := by
  cases c with
  | array =>
    match d with
    | value (.element elements outer) => exact ⟨_, _, .closeArray elements outer⟩
    | value (.top _) | value (.member ..) => rcases h with rfl | rfl <;> rcases hp with hp | hp <;> cases hp
    | object .. => rcases h with rfl | rfl | rfl <;> rcases hp with hp | hp <;> cases hp
  | object =>
    match d with
    | object members outer => exact ⟨_, _, .closeObject members outer⟩
    | value (.top _) | value (.member ..) => rcases h with rfl | rfl <;> rcases hp with hp | hp <;> cases hp
    | value (.element ..) => rcases h with rfl | rfl | rfl <;> rcases hp with hp | hp <;> cases hp

end Draft

/-! ## Tokens

A step of the lexer that gives a token is compared with a step of the draft, and a step that
gives none leaves the draft as it is. As nothing here depends on where the bytes come from, it
holds for every cursor, and even for one that fails. -/

namespace Lexer

variable {options : Options} {lexer lexer' : Lexer} {unfinished : Unfinished} {d : Draft} {found : Lexed}

/-- A value that is no container comes where a value is asked for. -/
theorem takes_scalar (hm : d.Meets lexer) (hp : TakesValue options lexer.phase) {kind : Kind} {raw : Bytes}
    (hs : (Token.scalar kind raw).Spelled) :
    ∃ d', d.Takes (.scalar kind raw) d' ∧ d'.Allows lexer.afterValue.phase := by
  obtain ⟨spot, rfl⟩ := hm.phase.exists_spot hp
  obtain ⟨s, rfl, rfl⟩ := hs
  have hcontainers := hm.containers
  rw [Draft.containers_value] at hcontainers
  refine ⟨_, .scalar spot s, ?_⟩
  rw [afterValue, Nesting.innermost?, hcontainers]
  exact Draft.allows_put ..

/-- A token that a byte completes, or shows to be complete, leads on. -/
theorem takes_of_reads {b : UInt8} {v : Verdict} (h : Reads options lexer b unfinished v)
    (hf : Midway.Fits options ⟨lexer, unfinished⟩) (hm : d.Meets lexer) (hs : v.Spelled)
    (hn : v.next? = some ⟨lexer', .gap⟩) (ht : v.token? = some found) :
    ∃ d', d.Takes found.token d' ∧ d'.Allows lexer'.phase := by
  have ha := hf.asked
  cases h
  case opening c hb hp hd =>
    cases hn
    cases ht
    obtain ⟨spot, rfl⟩ := hm.phase.exists_spot hp
    cases c with
    | object => exact ⟨_, .openObject spot, .inl rfl⟩
    | array => exact ⟨_, .openArray spot, .inl rfl⟩
  case closing c hb hp =>
    cases hn
    cases ht
    obtain ⟨t, spot, htakes⟩ := hm.phase.takes_closing hp
    refine ⟨_, htakes, ?_⟩
    have hcontainers : lexer.nesting.containers.tail = spot.counts.map (·.1) := by
      rw [hm.containers, ← Draft.containers_put t, htakes.containers_eq]
      rfl
    change (spot.put t).Allows (phaseBehind lexer.nesting.containers.tail.head?)
    rw [hcontainers]
    exact Draft.allows_put ..
  case stringEnd isName q lexeme =>
    cases ht
    cases isName with
    | false =>
      cases hn
      exact (takes_scalar hm ha hs :)
    | true =>
      cases hn
      obtain ⟨members, outer, rfl⟩ := hm.phase.exists_object ha
      obtain ⟨inner, hraw⟩ := hs
      refine ⟨.value (.member members inner outer), ?_, .inl rfl⟩
      dsimp only [closeString, if_true]
      rw [hraw]
      exact .name members outer inner
  case numberEnd =>
    cases hn
    cases ht
    exact takes_scalar hm ha hs
  case wordEnd =>
    cases hn
    cases ht
    exact (takes_scalar hm ha.1 hs :)
  all_goals cases ht

/-- A byte that completes no token leaves what the lexer knows. -/
theorem meets_of_reads {b : UInt8} {v : Verdict} {m : Midway} (h : Reads options lexer b unfinished v)
    (hm : d.Meets lexer) (hn : v.next? = some m) (ht : v.token? = none) : d.Meets m.lexer := by
  have hcontainers := containers_of_reads h hn
  rw [ht] at hcontainers
  refine ⟨?_, hcontainers.trans hm.containers⟩
  cases h
  case tooDeep | fault | spaceFault | spaceFaultBehind => cases hn
  case opening | closing | stringEnd | numberEnd | wordEnd => cases ht
  all_goals cases hn
  case separator hp => exact hm.phase.separates hp
  all_goals exact hm.phase

/-- A number that is complete leads on. -/
theorem takes_number (hm : d.Meets lexer) (hp : TakesValue options lexer.phase)
    (h : lexer' = lexer.afterValue ∧ ∃ lexeme, found = lexer.numberToken lexeme) :
    ∃ d', d.Takes found.token d' ∧ d'.Allows lexer'.phase := by
  obtain ⟨rfl, lexeme, rfl⟩ := h
  exact takes_scalar hm hp ⟨.number lexeme.raw, rfl, rfl⟩

/-- A token that is complete without another byte comes where a value is asked for. -/
theorem takesValue_of_complete? (hf : Midway.Fits options ⟨lexer, unfinished⟩)
    (h : lexer.complete? unfinished = some (found, lexer')) : TakesValue options lexer.phase := by
  have ha := hf.asked
  unfold complete? at h
  split at h
  · exact ha
  · cases h

/-- A token that the end of the input completes comes where a value is asked for. -/
theorem takesValue_of_finish (hf : Midway.Fits options ⟨lexer, unfinished⟩)
    (h : lexer.finish options unfinished = .ok (some (found, lexer'))) : TakesValue options lexer.phase := by
  cases unfinished with
  | gap => exact absurd h finish_gap_ne_some
  | number part lexeme => exact hf.asked
  | space | string | word => cases h

variable {σ : Type} [Cursor σ]

/-- A run belongs to the token that is being read. -/
theorem runs_takeRun {source behind : σ} {unfinished' : Unfinished}
    (hf : Midway.Fits options ⟨lexer, unfinished⟩) (hm : d.Meets lexer) (hu : unfinished.Spelled)
    (h : lexer.takeRun unfinished source = (.ok (lexer', unfinished'), behind)) :
    Midway.Fits options ⟨lexer', unfinished'⟩ ∧ d.Meets lexer' ∧ unfinished'.Spelled := by
  refine ⟨(fits_takeRun hf h).1, ?_⟩
  rw [takeRun] at h
  split at h
  · cases h
    exact ⟨hm, hu⟩
  · next hp =>
    dsimp only at h
    split at h
    · cases h
      refine ⟨⟨hm.phase, hm.containers⟩, ?_⟩
      cases unfinished with
      | gap | space | word => cases hp
      | number => trivial
      | string isName q lexeme =>
        obtain ⟨inner, hraw⟩ := hu
        exact ⟨_, by rw [Lexeme.raw_append, hraw, List.cons_append]⟩
    · cases h

theorem pullFrom_takes (source : σ) (hf : Midway.Fits options ⟨lexer, unfinished⟩) (hm : d.Meets lexer)
    (hu : unfinished.Spelled) (h : (pullFrom options lexer unfinished source).answer = .ok (some found)) :
    ∃ d', d.Takes found.token d' ∧ d'.Allows (pullFrom options lexer unfinished source).lexer.phase := by
  fun_induction pullFrom options lexer unfinished source with
  | case1 | case3 | case4 | case5 | case10 | case11 => cases h
  | case2 lexer unfinished source lexer₁ unfinished₁ behind hr found lexer₂ hcomplete =>
    cases h
    obtain ⟨hf₁, hm₁, -⟩ := runs_takeRun hf hm hu hr
    exact takes_number hm₁ (takesValue_of_complete? hf₁ hcomplete) (of_complete? hcomplete)
  | case6 lexer unfinished source lexer₁ unfinished₁ behind hr _ _ hp found lexer₂ hfinish =>
    cases h
    obtain ⟨hf₁, hm₁, -⟩ := runs_takeRun hf hm hu hr
    exact takes_number hm₁ (takesValue_of_finish hf₁ hfinish) (of_finish_token hfinish)
  | case7 lexer unfinished source lexer₁ unfinished₁ behind hr _ b shown hp unfinished₂ lexer₂ hv ih =>
    obtain ⟨hf₁, hm₁, hu₁⟩ := runs_takeRun hf hm hu hr
    have hreads := reads_read options lexer₁ b unfinished₁
    have hspelled := spelled_read options lexer₁ b hu₁
    have hnext : (lexer₁.read options unfinished₁ b).next? = some ⟨lexer₂, unfinished₂⟩ := by
      rw [hv]
      rfl
    have hmeets := meets_of_reads hreads hm₁ hnext (by rw [hv]; rfl)
    rw [hv] at hspelled
    exact ih (fits_of_reads hf₁ hreads hnext) hmeets hspelled h
  | case8 lexer unfinished source lexer₁ unfinished₁ behind hr _ b shown hp found lexer₂ hv
  | case9 lexer unfinished source lexer₁ unfinished₁ behind hr _ b shown hp found lexer₂ hv =>
    cases h
    obtain ⟨hf₁, hm₁, hu₁⟩ := runs_takeRun hf hm hu hr
    exact takes_of_reads (reads_read options lexer₁ b unfinished₁) hf₁ hm₁ (spelled_read options lexer₁ b hu₁)
      (by rw [hv]; rfl) (by rw [hv]; rfl)

/-- Every token that is pulled leads from one place in a document to the next. So the tokens of
any session, complete or not, are those of a document in progress. -/
theorem pull_takes (source : σ) (hf : Midway.Fits options ⟨lexer, .gap⟩) (hm : d.Meets lexer)
    (h : (lexer.pull options source).answer = .ok (some found)) :
    ∃ d', d.Takes found.token d' ∧ d'.Meets (lexer.pull options source).lexer := by
  obtain ⟨d', htakes, hallows⟩ := pullFrom_takes source hf hm trivial h
  refine ⟨d', htakes, hallows, ?_⟩
  have hleaves := pull_leaves source hf
  generalize lexer.pull options source = pulled at hleaves h
  cases hleaves with
  | token hf hc hs =>
    cases h
    rw [htakes.containers_eq, ← hm.containers]
    exact hc
  | ending | failure => cases h

end Lexer

end JsonExtract
