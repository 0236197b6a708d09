import JsonExtract.Proofs.Extraction.Children
import JsonExtract.Proofs.Walk.Balance

/-!
# The outcomes of filters

A walk leaves a filter undecided until a member of its container decides it, or the end of the
container. A sequel is one way in which it may go with the container: how the filters come out that
are undecided so far, and whether the container will be closed. Under a sequel every filter has an
outcome, and it is known which slots wait in vain.

The one fact that carries all that follows is that a member only makes true what the sequel in front
of it says: a filter that has seen the member comes out under the sequel behind it as it did before
under the sequel in front. The members that are still to come are a sequel themselves, and with them
the outcome is that of the whole value. Where nobody knows what comes, the same facts are used with
several sequels, so they are stated for any.

* `Filter.found` — whether the members to come make a filter hold;
* `Sequel` — what may become of an open container;
* `Sequel.ofMembers`, `Sequel.behind` — the members to come, and a child that comes in first;
* `Check.outcome`, `Check.lost` — the outcome of a filter, and the slots that wait for it in vain.
-/

namespace JsonExtract

/-! ## Members to come

A filter on members is decided by the first member that its field selects, or by any of them. So what
the members to come say is read off one member after the other, as the walk meets them. -/

namespace Filter

/-- Whether the members to come make a filter hold. -/
def found (members : Members) : Filter → Bool
  | literals .. => false
  | member field literal => field.equals literal members

/-- The next member decides a filter, or leaves it to the members behind. -/
theorem found_cons (name : Bytes) (u : Tree) (members : Members) (f : Filter) :
    f.found ((name, u) :: members) = (f.decide? name u.text?).getD (f.found members) := by
  cases f with
  | literals => rfl
  | member field literal =>
    cases field with
    | named wanted =>
      simp only [found, decide?, Field.equals, List.find?_cons]
      by_cases hn : name = wanted
      · simp [hn]
      · simp [hn, beq_eq_false_iff_ne.2 hn]
    | any =>
      simp only [found, decide?, Field.equals, List.any_cons]
      by_cases ht : u.text? = some literal
      · simp [ht]
      · simp [ht]

/-- No member to come makes a filter hold. -/
theorem found_nil (f : Filter) : f.found [] = false := by
  cases f with
  | literals => rfl
  | member field literal => cases field <;> rfl

end Filter

/-! ## Sequels -/

/-- What may become of an open container. It may be known, where the rest of a document is, or
guessed, where it is not. The lemmas about walks hold for any. -/
structure Sequel where
  /-- how the filters come out that are undecided -/
  passes : Filter → Bool
  /-- whether the container will be closed -/
  ends : Bool

namespace Sequel

/-- All turns out well, or all turns out badly. With both in turn one can tell what is settled: it
comes out the same under either. -/
def const (b : Bool) : Sequel :=
  ⟨fun _ => b, b⟩

/-- The container is closed now. Filters that are still undecided fail. -/
def closed : Sequel :=
  ⟨fun _ => false, true⟩

/-- The container is closed behind some members. This is the sequel of a container in a document
that is valid. -/
def ofMembers (members : Members) : Sequel :=
  ⟨fun f => f.found members, true⟩

/-- A member comes in first. -/
def member (name : Bytes) (text? : Option Bytes) (sequel : Sequel) : Sequel :=
  { sequel with passes := fun f => (f.decide? name text?).getD (sequel.passes f) }

/-- A child comes in first. -/
def behind (c : Child × Tree) (sequel : Sequel) : Sequel :=
  match c.1 with
  | .member name => sequel.member name c.2.text?
  | .element _ => sequel

/-- Some children come in first, one after the other. -/
def behindAll (cs : List (Child × Tree)) (sequel : Sequel) : Sequel :=
  cs.foldr behind sequel

@[simp]
theorem ends_behind (c : Child × Tree) (sequel : Sequel) : (sequel.behind c).ends = sequel.ends := by
  rw [behind]
  split <;> rfl

@[simp]
theorem ends_behindAll (cs : List (Child × Tree)) (sequel : Sequel) :
    (sequel.behindAll cs).ends = sequel.ends := by
  induction cs with
  | nil => rfl
  | cons c cs ih => exact (ends_behind c _).trans ih

theorem ofMembers_nil : ofMembers [] = closed :=
  congrArg (Sequel.mk · true) (funext Filter.found_nil)

theorem ofMembers_cons (name : Bytes) (u : Tree) (members : Members) :
    ofMembers ((name, u) :: members) = (ofMembers members).member name u.text? :=
  congrArg (Sequel.mk · true) (funext (Filter.found_cons name u members))

theorem behind_ofMembers (c : Child × Tree) (members : Members) :
    (ofMembers members).behind c = ofMembers (Child.asMember c ++ members) := by
  obtain ⟨child, u⟩ := c
  cases child with
  | member name => exact (ofMembers_cons name u members).symm
  | element _ => rfl

/-- The members among some children come in before the others. -/
theorem behindAll_ofMembers (cs : List (Child × Tree)) (members : Members) :
    (ofMembers members).behindAll cs = ofMembers (cs.flatMap Child.asMember ++ members) := by
  induction cs with
  | nil => rfl
  | cons c cs ih =>
    rw [List.flatMap_cons, List.append_assoc, ← behind_ofMembers, ← ih]
    rfl

end Sequel

/-! ## Filters on a container

The slots in the queue of a filter wait for it while it is undecided. Under a sequel, those of them are
lost whose filter will fail. -/

namespace Check

/-- The outcome of a filter under a sequel. A filter that is decided keeps its outcome, whatever
comes. -/
def outcome (sequel : Sequel) (c : Check) : Bool :=
  match c.status with
  | .undecided => sequel.passes c.filter
  | .holds => true
  | .fails => false

/-- The slots that wait for a filter that will fail. -/
def lost (sequel : Sequel) (c : Check) : List Nat :=
  if sequel.passes c.filter then [] else c.queue

variable (sequel : Sequel) (c : Check)

/-- A filter that has failed does not hold in the end. -/
theorem outcome_of_isFailed (h : c.isFailed = true) : c.outcome sequel = false := by
  rw [outcome, of_decide_eq_true h]

/-- A filter that has not failed fails in the end only if it is undecided. -/
theorem outcome_of_not_isFailed (h : c.isFailed = false) :
    c.outcome sequel = !(c.isUndecided && !sequel.passes c.filter) := by
  rw [outcome, isUndecided]
  cases hs : c.status with
  | undecided => simp
  | holds => simp
  | fails => simp [isFailed, hs] at h

/-- A filter on a value that starts is decided at once, or left to what becomes of an object. -/
theorem outcome_start (isObject : Bool) (f : Filter) :
    (start isObject f).outcome sequel = f.constant?.getD (isObject && sequel.passes f) := by
  rw [start]
  split
  · next b hb => cases b <;> simp [hb, outcome, Status.ofBool]
  · next hnone => cases isObject <;> simp [hnone, outcome]

/-- With all its members to come, the outcome of a filter is whether the value passes it. -/
theorem outcome_start_ofMembers (t : Tree) (f : Filter) :
    (start (t.kind = .object) f).outcome (.ofMembers t.members) = f.holds t := by
  rw [outcome_start]
  cases f with
  | literals => rfl
  | member field literal =>
    cases t with
    | scalar s => cases s <;> cases field <;> rfl
    | array => cases field <;> rfl
    | object => rfl

/-- A member makes true what its sequel says. -/
theorem outcome_see (name : Bytes) (text? : Option Bytes) :
    (c.see name text?).outcome sequel = c.outcome (sequel.member name text?) := by
  cases hs : c.status with
  | undecided =>
    have hu : c.isUndecided = true := decide_eq_true hs
    rw [outcome.eq_def (sequel.member name text?), hs, see, decide?, if_pos hu, Sequel.member]
    dsimp only
    cases c.filter.decide? name text? with
    | none => simp [outcome, hs]
    | some b => cases b <;> rfl
  | holds => simp [outcome, see, decide?, isUndecided, hs]
  | fails => simp [outcome, see, decide?, isUndecided, hs]

/-- The slots that a member refuses were lost under its sequel. -/
theorem mem_lost_member (name : Bytes) (text? : Option Bytes) (i : Nat) :
    i ∈ c.lost (sequel.member name text?) ↔
      i ∈ Ruling.refused (c.ruling? name text?).toList ∨ i ∈ (c.see name text?).lost sequel := by
  by_cases hu : c.isUndecided = true
  · have hs : c.status = .undecided := of_decide_eq_true hu
    rw [lost, ruling?, see, decide?, if_pos hu, Sequel.member]
    cases hd : c.filter.decide? name text? with
    | none => simp [Ruling.refused, lost, hd]
    | some b => cases b <;> simp [Ruling.refused, lost, queue, isUndecided, Status.ofBool, hs, hd]
  · simp [lost, queue, ruling?, see, decide?, hu, Ruling.refused]

/-- The end of a container refuses the slots that still wait. -/
theorem lost_closed : c.lost .closed = c.queue :=
  if_neg Bool.false_ne_true

theorem mem_lost_await (number i : Nat) :
    i ∈ (c.await number).lost sequel ↔
      i ∈ c.lost sequel ∨ i = number ∧ c.isUndecided = true ∧ sequel.passes c.filter = false := by
  by_cases hu : c.isUndecided = true
  · have hs : c.status = .undecided := of_decide_eq_true hu
    rw [await, if_pos hu, lost, lost]
    cases sequel.passes c.filter with
    | true => simp
    | false => simp [queue, isUndecided, hs, or_comm]
  · simp [await, hu]

/-- A slot is lost by filters that it starts to wait for if one of them does not hold in the end. -/
theorem mem_lost_map_await {checks : List Check} (number i : Nat)
    (h : ∀ c ∈ checks, c.isFailed = false) :
    i ∈ (checks.map (·.await number)).flatMap (lost sequel) ↔
      i ∈ checks.flatMap (lost sequel) ∨ i = number ∧ checks.all (·.outcome sequel) = false := by
  induction checks with
  | nil => simp
  | cons c cs ih =>
    rw [List.forall_mem_cons] at h
    simp only [List.map_cons, List.flatMap_cons, List.mem_append, ih h.2, mem_lost_await,
      List.all_cons, Bool.and_eq_false_iff, outcome_of_not_isFailed sequel c h.1,
      Bool.not_eq_false', Bool.and_eq_true, Bool.not_eq_true']
    grind

/-- Only slots that wait for filters are lost by them. -/
theorem mem_queues_of_lost {checks : List Check} {i : Nat}
    (h : i ∈ checks.flatMap (lost sequel)) : i ∈ queues checks := by
  obtain ⟨c, hc, hi⟩ := List.mem_flatMap.1 h
  rw [lost] at hi
  split at hi
  · cases hi
  · exact List.mem_flatMap.2 ⟨c, hc, hi⟩

/-- The outcomes of filters do not depend on the slots that wait. -/
theorem all_outcome_outline (checks : List Check) :
    (checks.map outline).all (·.outcome sequel) = checks.all (·.outcome sequel) := by
  rw [List.all_map]
  rfl

theorem all_outcome_take {checks checks' : List Check} (count : Nat)
    (h : checks'.map outline = checks.map outline) :
    (checks'.take count).all (·.outcome sequel) = (checks.take count).all (·.outcome sequel) := by
  rw [← all_outcome_outline, List.map_take, h, ← List.map_take, all_outcome_outline]

/-- Whether a filter has failed does not depend on the slots that wait. -/
theorem any_isFailed_take {checks checks' : List Check} (count : Nat)
    (h : checks'.map outline = checks.map outline) :
    (checks'.take count).any (·.isFailed) = (checks.take count).any (·.isFailed) := by
  have hany : ∀ cs : List Check, (cs.map outline).any (·.isFailed) = cs.any (·.isFailed) := by
    intro cs
    rw [List.any_map]
    rfl
  rw [← hany, List.map_take, h, ← List.map_take, hany]

end Check

end JsonExtract
