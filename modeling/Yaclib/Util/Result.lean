import Yaclib.Concurrency.Ledger
import Yaclib.Concurrency.System

/-!
`Result<V>` of `util/result.hpp`, any number of them. The objects of `V` that its storage
holds have names, in the order of their construction. What a `V` consists of is left out.
-/

namespace Yaclib.Util.Result

open Concurrency

/-- How a call ends. After `undefined` the storage was used against its state. -/
inductive Outcome (σ : Type) where
  | done (s : σ)
  | threw (s : σ)
  | undefined

namespace Outcome

variable {σ : Type}

def andThen : Outcome σ → (σ → Outcome σ) → Outcome σ
  | done s, f => f s
  | threw s, _ => threw s
  | undefined, _ => undefined

/-- What is destroyed when an exception passes. -/
def onThrow : Outcome σ → (σ → Outcome σ) → Outcome σ
  | done s, _ => done s
  | threw s, f =>
    match f s with
    | done t => threw t
    | _ => undefined
  | undefined, _ => undefined

end Outcome

/-- The operations of `V` that may throw. -/
inductive ValueOp where
  | construct
  | copyConstruct
  | moveConstruct
  | copyAssign
  | moveAssign
  deriving DecidableEq

structure Config (ε : Type) where
  stopPtr : ε
  /-- whether the `n`-th of all operations of `V` throws -/
  throws : ValueOp → Nat → Bool

/-- `_error`, null when it is `none`, and the object in `_value`, if there is one. -/
structure Slot (ε : Type) where
  error : Option ε
  value : Option Nat
  deriving DecidableEq

/-- `none` is the temporary of a call. -/
structure State (ρ ε : Type) where
  result : Option ρ → Option (Slot ε)
  /-- how many objects of `V` were constructed; the next one's name -/
  created : Nat
  destroyed : List Nat
  /-- how many operations of `V` were called -/
  called : Nat

inductive Op (ρ ε : Type) where
  | construct (r : ρ)
  | constructStop (r : ρ)
  | constructError (r : ρ) (e : Option ε)
  | copyConstruct (r q : ρ)
  | moveConstruct (r q : ρ)
  | copyAssign (r q : ρ)
  | moveAssign (r q : ρ)
  | assignValue (r : ρ)
  | assignStop (r : ρ)
  | assignError (r : ρ) (e : Option ε)
  | destruct (r : ρ)

variable {ρ ε : Type}

namespace State

/-- `_value.value` of `q` is read. -/
def read (s : State ρ ε) (q : Option ρ) : Outcome (State ρ ε) :=
  match s.result q with
  | some ⟨_, some _⟩ => .done s
  | _ => .undefined

end State

section

variable {c : Config ε} {s t : State ρ ε} {p q : Option ρ} {v : Nat} {e : Option ε}

def State.held (s : State ρ ε) (p : Option ρ) : Option Nat := (s.result p).bind Slot.value

/-- There is an object exactly when `_error` is null. -/
def Slot.Sound (slot : Slot ε) : Prop := slot.value.isSome = slot.error.isNone

/-- Every result is an error or a value, every object is in one result or was destroyed. -/
structure Sound (s : State ρ ε) : Prop where
  slot : ∀ p slot, s.result p = some slot → slot.Sound
  ledger : Ledger s.held s.created s.destroyed

namespace Sound

theorem congr (h : Sound s) (hresult : t.result = s.result) (hcreated : t.created = s.created)
    (hdestroyed : t.destroyed = s.destroyed) : Sound t := by
  have hheld : t.held = s.held := by
    funext p
    rw [State.held, hresult, State.held]
  refine ⟨by rw [hresult]; exact h.slot, ?_⟩
  rw [hheld, hcreated, hdestroyed]
  exact h.ledger

theorem held_none (hp : s.result p = none) : s.held p = none := by
  rw [State.held, hp, Option.bind_none]

theorem held_slot {w : Option Nat} (hp : s.result p = some ⟨e, w⟩) : s.held p = w := by
  rw [State.held, hp, Option.bind_some]

/-- A constructed result is an error or a value. -/
theorem cases (h : Sound s) (hp : s.result p ≠ none) :
    (∃ e, s.result p = some ⟨some e, none⟩) ∨ ∃ v, s.result p = some ⟨none, some v⟩ := by
  obtain ⟨⟨error, value⟩, hslot⟩ := Option.ne_none_iff_exists'.mp hp
  have hsound := h.slot p _ hslot
  cases error with
  | none =>
    cases value with
    | none => cases hsound
    | some v => exact .inr ⟨v, hslot⟩
  | some e =>
    cases value with
    | none => exact .inl ⟨e, hslot⟩
    | some v => cases hsound

end Sound

theorem read_eq (hq : s.result q = some ⟨e, some v⟩) : s.read q = .done s := by
  rw [State.read, hq]

end

variable [DecidableEq ρ]

namespace State

def set (s : State ρ ε) (p : Option ρ) (w : Option (Slot ε)) : State ρ ε :=
  { s with result := Function.update s.result p w }

def setError (s : State ρ ε) (p : Option ρ) (e : Option ε) : Outcome (State ρ ε) :=
  match s.result p with
  | some slot => .done (s.set p (some { slot with error := e }))
  | none => .undefined

def call (c : Config ε) (s : State ρ ε) (op : ValueOp) : Outcome (State ρ ε) :=
  let t := { s with called := s.called + 1 }
  if c.throws op s.called then .threw t else .done t

/-- `::new (&_value.value) V`, where there is no object yet. -/
def newValue (c : Config ε) (s : State ρ ε) (p : Option ρ) (op : ValueOp) :
    Outcome (State ρ ε) :=
  match s.result p with
  | some ⟨e, none⟩ => (s.call c op).andThen fun t =>
      .done { t.set p (some ⟨e, some t.created⟩) with created := t.created + 1 }
  | _ => .undefined

/-- `_value.value.~V()` -/
def destroyValue (s : State ρ ε) (p : Option ρ) : Outcome (State ρ ε) :=
  match s.result p with
  | some ⟨e, some v⟩ => .done { s.set p (some ⟨e, none⟩) with destroyed := v :: s.destroyed }
  | _ => .undefined

/-- The members are destroyed; the storage destroys nothing by itself. -/
def endLife (s : State ρ ε) (p : Option ρ) : Outcome (State ρ ε) :=
  .done (s.set p none)

/-- `Result(std::in_place_t, Args&&...)` -/
def inPlace (c : Config ε) (s : State ρ ε) (p : Option ρ) : Outcome (State ρ ε) :=
  ((s.set p (some ⟨none, none⟩)).newValue c p .construct).onThrow fun s => s.endLife p

/-- `Result()` and `Result(StopTag)` -/
def ofStop (c : Config ε) (s : State ρ ε) (p : Option ρ) : Outcome (State ρ ε) :=
  .done (s.set p (some ⟨some c.stopPtr, none⟩))

/-- `Result(std::exception_ptr)`; a null pointer is treated as stop. -/
def ofError (c : Config ε) (s : State ρ ε) (p : Option ρ) (error : Option ε) :
    Outcome (State ρ ε) :=
  let s := s.set p (some ⟨error, none⟩)
  if error.isNone then s.setError p (some c.stopPtr) else .done s

/-- `Result(const Result&)` and `Result(Result&&)`, which call `op`. -/
def constructFrom (c : Config ε) (s : State ρ ε) (p q : Option ρ) (op : ValueOp) :
    Outcome (State ρ ε) :=
  match s.result q with
  | none => .undefined
  | some other =>
    let s := s.set p (some ⟨other.error, none⟩)
    if other.error.isNone then
      ((s.read q).andThen fun s => s.newValue c p op).onThrow fun s => s.endLife p
    else .done s

def copyConstruct (c : Config ε) (s : State ρ ε) (p q : Option ρ) : Outcome (State ρ ε) :=
  s.constructFrom c p q .copyConstruct

def moveConstruct (c : Config ε) (s : State ρ ε) (p q : Option ρ) : Outcome (State ρ ε) :=
  s.constructFrom c p q .moveConstruct

/-- Both assignments, which call `assignOp` or `constructOp`. -/
def assignFrom (c : Config ε) (s : State ρ ε) (p q : Option ρ) (assignOp constructOp : ValueOp) :
    Outcome (State ρ ε) :=
  if p = q then .done s else
  match s.result p, s.result q with
  | some this, some other =>
    if other.error.isNone then
      if this.error.isNone then
        ((s.read p).andThen fun s => s.read q).andThen fun s => s.call c assignOp
      else
        ((s.read q).andThen fun s => s.newValue c p constructOp).andThen fun s => s.setError p none
    else
      (if this.error.isNone then s.destroyValue p else .done s).andThen fun s =>
        s.setError p other.error
  | _, _ => .undefined

def copyAssign (c : Config ε) (s : State ρ ε) (p q : Option ρ) : Outcome (State ρ ε) :=
  s.assignFrom c p q .copyAssign .copyConstruct

def moveAssign (c : Config ε) (s : State ρ ε) (p q : Option ρ) : Outcome (State ρ ε) :=
  s.assignFrom c p q .moveAssign .moveConstruct

def destruct (s : State ρ ε) (p : Option ρ) : Outcome (State ρ ε) :=
  match s.result p with
  | none => .undefined
  | some this =>
    (if this.error.isNone then s.destroyValue p else .done s).andThen fun s => s.endLife p

/-- `operator=(Arg&&)`: the temporary, however it is made, is moved and destroyed. -/
def assignArg (c : Config ε) (s : State ρ ε) (p : Option ρ)
    (temporary : State ρ ε → Option ρ → Outcome (State ρ ε)) : Outcome (State ρ ε) :=
  (temporary s none).andThen fun s =>
    ((s.moveAssign c p none).onThrow fun s => s.destruct none).andThen fun s => s.destruct none

end State

def exec (c : Config ε) (s : State ρ ε) : Op ρ ε → Outcome (State ρ ε)
  | .construct r => s.inPlace c (some r)
  | .constructStop r => s.ofStop c (some r)
  | .constructError r e => s.ofError c (some r) e
  | .copyConstruct r q => s.copyConstruct c (some r) (some q)
  | .moveConstruct r q => s.moveConstruct c (some r) (some q)
  | .copyAssign r q => s.copyAssign c (some r) (some q)
  | .moveAssign r q => s.moveAssign c (some r) (some q)
  | .assignValue r => s.assignArg c (some r) fun s p => s.inPlace c p
  | .assignStop r => s.assignArg c (some r) fun s p => s.ofStop c p
  | .assignError r e => s.assignArg c (some r) fun s p => s.ofError c p e
  | .destruct r => s.destruct (some r)

/-- What the caller has to see to: results are constructed before they are used, and once. -/
def Allowed (s : State ρ ε) : Op ρ ε → Prop
  | .construct r | .constructStop r | .constructError r _ => s.result (some r) = none
  | .copyConstruct r q | .moveConstruct r q =>
      s.result (some r) = none ∧ s.result (some q) ≠ none
  | .copyAssign r q | .moveAssign r q => s.result (some r) ≠ none ∧ s.result (some q) ≠ none
  | .assignValue r | .assignStop r | .assignError r _ | .destruct r => s.result (some r) ≠ none

/-- Any sequence of calls, each of which may throw. -/
def system (c : Config ε) : System (State ρ ε) (Op ρ ε) where
  Init s := s = ⟨fun _ => none, 0, [], 0⟩
  step s e :=
    match exec c s e with
    | .done t | .threw t => some t
    | .undefined => none

/-! ### The objects -/

section

variable {c : Config ε} {s t : State ρ ε} {p q : Option ρ} {v : Nat} {e : Option ε}

theorem result_self {w : Option (Slot ε)} : (s.set p w).result p = w := by
  simp only [State.set, Function.update_self]

theorem result_other {w : Option (Slot ε)} (hq : q ≠ p) :
    (s.set p w).result q = s.result q := by
  simp only [State.set, Function.update_of_ne hq]

theorem held_set (s : State ρ ε) (p : Option ρ) (w : Option (Slot ε)) :
    (s.set p w).held = Function.update s.held p (w.bind Slot.value) := by
  funext q
  by_cases hq : q = p
  · subst hq
    rw [State.held, result_self, Function.update_self]
  · rw [State.held, result_other hq, Function.update_of_ne hq, State.held]

namespace Sound

theorem slot_set (h : Sound s) {w : Option (Slot ε)} (hw : ∀ slot, w = some slot → slot.Sound) :
    ∀ q slot, (s.set p w).result q = some slot → slot.Sound := by
  intro q slot hq
  by_cases hqp : q = p
  · subst hqp
    exact hw slot (result_self.symm.trans hq)
  · exact h.slot q slot ((result_other hqp).symm.trans hq)

/-- What holds no object becomes an error, or ends. -/
theorem set (h : Sound s) (hp : s.held p = none) {w : Option (Slot ε)}
    (hw : ∀ slot, w = some slot → slot.Sound) (hnone : w.bind Slot.value = none) :
    Sound (s.set p w) := by
  refine ⟨h.slot_set hw, ?_⟩
  rw [held_set, hnone, ← hp, Function.update_eq_self]
  exact h.ledger

/-- A new object. -/
theorem create (h : Sound s) (hp : s.held p = none) :
    Sound { s.set p (some ⟨none, some s.created⟩) with created := s.created + 1 } := by
  refine ⟨h.slot_set fun slot hslot => by cases hslot; rfl, ?_⟩
  have hheld : (s.set p (some ⟨none, some s.created⟩)).held =
      Function.update s.held p (some s.created) := held_set s p _
  have hledger := h.ledger.create hp
  rw [← hheld] at hledger
  exact hledger

/-- An object is destroyed, and its result becomes an error or ends. -/
theorem destroy (h : Sound s) (hp : s.held p = some v) {w : Option (Slot ε)}
    (hw : ∀ slot, w = some slot → slot.Sound) (hnone : w.bind Slot.value = none) :
    Sound { s.set p w with destroyed := v :: s.destroyed } := by
  refine ⟨h.slot_set hw, ?_⟩
  have hledger := h.ledger.retire hp
  rw [← hnone, ← held_set s p w] at hledger
  exact hledger

end Sound

/-! ### The calls -/

/-- The call changes the result `p` only, or throws and changes none. -/
def Ends (s : State ρ ε) (p : Option ρ) (alive : Bool) (o : Outcome (State ρ ε)) : Prop :=
  (∃ t w, o = .done t ∧ Sound t ∧ t.result = Function.update s.result p w ∧
    w.isSome = alive) ∨
  ∃ t, o = .threw t ∧ Sound t ∧ t.result = s.result

theorem Ends.of_done {u : State ρ ε} {o : Outcome (State ρ ε)} {w : Option (Slot ε)}
    {alive : Bool} (ho : o = .done t) (hu : Sound u) (hcreated : t.created = u.created)
    (hdestroyed : t.destroyed = u.destroyed) (hur : u.result = Function.update s.result p w)
    (hresult : t.result = Function.update s.result p w) (hw : w.isSome = alive) :
    Ends s p alive o :=
  .inl ⟨t, w, ho, hu.congr (hresult.trans hur.symm) hcreated hdestroyed, hresult, hw⟩

theorem Ends.of_threw {o : Outcome (State ρ ε)} {alive : Bool} (h : Sound s) (ho : o = .threw t)
    (hcreated : t.created = s.created) (hdestroyed : t.destroyed = s.destroyed)
    (hresult : t.result = s.result) : Ends s p alive o :=
  .inr ⟨t, ho, h.congr hresult hcreated hdestroyed, hresult⟩

theorem newValue_cases (op : ValueOp) (hp : s.result p = some ⟨e, none⟩) :
    s.newValue c p op = .threw { s with called := s.called + 1 } ∨
    s.newValue c p op = .done { s.set p (some ⟨e, some s.created⟩) with
      created := s.created + 1, called := s.called + 1 } := by
  rw [State.newValue, hp, State.call]
  cases c.throws op s.called
  · exact .inr rfl
  · exact .inl rfl

theorem update_none {w : Option (Slot ε)} (hp : s.result p = none) :
    Function.update (Function.update s.result p w) p none = s.result := by
  rw [Function.update_idem, ← hp, Function.update_eq_self]

/-- A constructor that ends with an object in the storage. -/
theorem ends_newValue (h : Sound s) (op : ValueOp) (hp : s.result p = none) :
    Ends s p true
      (((s.set p (some ⟨none, none⟩)).newValue c p op).onThrow fun s => s.endLife p) := by
  rcases newValue_cases (c := c) (s := s.set p (some ⟨none, none⟩)) op result_self with hnew | hnew
  · rw [hnew]
    exact .of_threw h rfl rfl rfl (update_none hp)
  · rw [hnew]
    exact .of_done rfl (h.create (Sound.held_none hp)) rfl rfl rfl (Function.update_idem _ _ _) rfl

theorem ends_inPlace (h : Sound s) (hp : s.result p = none) :
    Ends s p true (s.inPlace c p) :=
  ends_newValue h .construct hp

/-- A constructor that ends with an error. -/
theorem ends_set (h : Sound s) (hp : s.held p = none) (x : ε) :
    Ends s p true (.done (s.set p (some ⟨some x, none⟩))) := by
  refine .inl ⟨_, _, rfl, h.set hp ?_ rfl, rfl, rfl⟩
  intro slot hslot
  cases hslot
  rfl

theorem ends_ofStop (h : Sound s) (hp : s.result p = none) : Ends s p true (s.ofStop c p) :=
  ends_set h (Sound.held_none hp) c.stopPtr

theorem ends_ofError (h : Sound s) (hp : s.result p = none) :
    Ends s p true (s.ofError c p e) := by
  cases e with
  | some x => exact ends_set h (Sound.held_none hp) x
  | none =>
    have hset : s.ofError c p none = .done (s.set p (some ⟨some c.stopPtr, none⟩)) := by
      simp only [State.ofError, Option.isNone_none, if_true, State.setError, result_self]
      simp only [State.set, Function.update_idem]
    rw [hset]
    exact ends_set h (Sound.held_none hp) c.stopPtr

theorem ends_constructFrom (h : Sound s) (op : ValueOp) (hp : s.result p = none)
    (hq : s.result q ≠ none) : Ends s p true (s.constructFrom c p q op) := by
  have hqp : q ≠ p := by
    rintro rfl
    exact hq hp
  rcases h.cases hq with ⟨x, hslot⟩ | ⟨v, hslot⟩
  · simp only [State.constructFrom, hslot, Option.isNone_some, Bool.false_eq_true, if_false]
    exact ends_set h (Sound.held_none hp) x
  · have hread : (s.set p (some ⟨none, none⟩)).read q = .done (s.set p (some ⟨none, none⟩)) :=
      read_eq ((result_other hqp).trans hslot)
    simp only [State.constructFrom, hslot, Option.isNone_none, if_true, hread, Outcome.andThen]
    exact ends_newValue h op hp

/-- `_value.value.~V()` and then what the result becomes. -/
theorem destroyValue_eq (hp : s.result p = some ⟨e, some v⟩) :
    s.destroyValue p = .done { s.set p (some ⟨e, none⟩) with destroyed := v :: s.destroyed } := by
  rw [State.destroyValue, hp]

theorem ends_destruct (h : Sound s) (hp : s.result p ≠ none) :
    ∃ t, s.destruct p = .done t ∧ Sound t ∧ t.result = Function.update s.result p none := by
  rcases h.cases hp with ⟨x, hslot⟩ | ⟨v, hslot⟩
  · refine ⟨s.set p none, ?_, h.set (Sound.held_slot hslot) (by simp) rfl, rfl⟩
    simp only [State.destruct, hslot, Option.isNone_some, Bool.false_eq_true, if_false,
      Outcome.andThen, State.endLife]
  · have hsame : Function.update (Function.update s.result p (some ⟨none, none⟩)) p none =
        Function.update s.result p none := Function.update_idem _ _ _
    refine ⟨({ s.set p (some ⟨none, none⟩) with destroyed := v :: s.destroyed } : State ρ ε).set p
      none, ?_, (h.destroy (w := none) (Sound.held_slot hslot) (by simp) rfl).congr hsame rfl rfl, hsame⟩
    simp only [State.destruct, hslot, Option.isNone_none, if_true, destroyValue_eq hslot,
      Outcome.andThen, State.endLife]

/-- The four cases of an assignment between two results. -/
theorem ends_assignFrom (h : Sound s) (assignOp constructOp : ValueOp) (hp : s.result p ≠ none)
    (hq : s.result q ≠ none) : Ends s p true (s.assignFrom c p q assignOp constructOp) := by
  by_cases hpq : p = q
  · rw [State.assignFrom, if_pos hpq]
    exact .inl ⟨s, s.result p, rfl, h, (Function.update_eq_self p _).symm,
      Option.isSome_iff_ne_none.mpr hp⟩
  rcases h.cases hp with ⟨x, hslot⟩ | ⟨v, hslot⟩ <;>
    rcases h.cases hq with ⟨y, hother⟩ | ⟨u, hother⟩
  · -- error to error
    have hset : s.assignFrom c p q assignOp constructOp =
        .done (s.set p (some ⟨some y, none⟩)) := by
      simp [State.assignFrom, hpq, hslot, hother, Outcome.andThen, State.setError]
    rw [hset]
    exact ends_set h (Sound.held_slot hslot) y
  · -- value to error: a new object, and only then the error goes
    have hassign : s.assignFrom c p q assignOp constructOp =
        (s.newValue c p constructOp).andThen fun s => s.setError p none := by
      simp [State.assignFrom, hpq, hslot, hother, Outcome.andThen, State.read]
    rw [hassign]
    rcases newValue_cases (c := c) constructOp hslot with hnew | hnew
    · rw [hnew]
      exact .of_threw h rfl rfl rfl rfl
    · have herror : ({ s.set p (some ⟨some x, some s.created⟩) with
          created := s.created + 1, called := s.called + 1 } : State ρ ε).setError p none =
          .done ({ s.set p (some ⟨none, some s.created⟩) with
            created := s.created + 1, called := s.called + 1 }) := by
        simp only [State.setError, State.set, Function.update_self, Function.update_idem]
      rw [hnew, Outcome.andThen, herror]
      exact .of_done rfl (h.create (Sound.held_slot hslot)) rfl rfl rfl rfl rfl
  · -- error to value: the object goes
    have herror : ({ s.set p (some ⟨none, none⟩) with destroyed := v :: s.destroyed } :
        State ρ ε).setError p (some y) =
        .done { s.set p (some ⟨some y, none⟩) with destroyed := v :: s.destroyed } := by
      simp only [State.setError, State.set, Function.update_self, Function.update_idem]
    have hset : s.assignFrom c p q assignOp constructOp =
        .done { s.set p (some ⟨some y, none⟩) with destroyed := v :: s.destroyed } := by
      simp only [State.assignFrom, if_neg hpq, hslot, hother, Option.isNone_some,
        Option.isNone_none, Bool.false_eq_true, if_false, if_true, destroyValue_eq hslot,
        Outcome.andThen, herror]
    rw [hset]
    have hsound := h.destroy (w := some ⟨some y, none⟩) (Sound.held_slot hslot)
    refine .of_done rfl (hsound ?_ rfl) rfl rfl rfl rfl rfl
    intro slot hw
    cases hw
    rfl
  · -- value to value
    have hassign : s.assignFrom c p q assignOp constructOp = s.call c assignOp := by
      simp [State.assignFrom, hpq, hslot, hother, Outcome.andThen, State.read]
    rw [hassign, State.call]
    cases c.throws assignOp s.called with
    | false =>
      have hself := (Function.update_eq_self p s.result).symm
      exact .of_done rfl h rfl rfl hself hself (Option.isSome_iff_ne_none.mpr hp)
    | true => exact .of_threw h rfl rfl rfl rfl

/-- The temporary is destroyed whether its move throws or not. -/
theorem ends_assignArg {r : ρ}
    (temporary : State ρ ε → Option ρ → Outcome (State ρ ε)) (htemp : s.result none = none)
    (hr : s.result (some r) ≠ none) (hmake : Ends s none true (temporary s none)) :
    Ends s (some r) true (s.assignArg c (some r) temporary) := by
  rcases hmake with ⟨t, w, ht, hsound, hresult, hw⟩ | ⟨t, ht, hsound, hresult⟩
  · have hself : t.result none ≠ none := by
      rw [hresult, Function.update_self]
      exact Option.isSome_iff_ne_none.mp hw
    have hr' : t.result (some r) ≠ none := by
      rw [hresult, Function.update_of_ne (Option.some_ne_none r)]
      exact hr
    rw [State.assignArg, ht, Outcome.andThen]
    rcases ends_assignFrom (c := c) hsound .moveAssign .moveConstruct hr' hself with
      ⟨u, x, hu, hsound', hresult', hx⟩ | ⟨u, hu, hsound', hresult'⟩
    · have hself' : u.result none ≠ none := by
        rw [hresult', Function.update_of_ne (Option.some_ne_none r).symm]
        exact hself
      obtain ⟨z, hz, hsound'', hresult''⟩ := ends_destruct hsound' hself'
      refine .inl ⟨z, x, ?_, hsound'', ?_, hx⟩
      · rw [State.moveAssign, hu, Outcome.onThrow, Outcome.andThen, hz]
      · have hsame : Function.update s.result none none = s.result :=
          Function.update_eq_self_iff.mpr htemp.symm
        rw [hresult'', hresult', hresult, Function.update_comm (Option.some_ne_none r),
          Function.update_idem, hsame]
    · have hself' : u.result none ≠ none := by
        rw [hresult']
        exact hself
      obtain ⟨z, hz, hsound'', hresult''⟩ := ends_destruct hsound' hself'
      refine .inr ⟨z, ?_, hsound'', ?_⟩
      · rw [State.moveAssign, hu]
        simp only [Outcome.onThrow, hz, Outcome.andThen]
      · rw [hresult'', hresult', hresult, update_none htemp]
  · exact .inr ⟨t, by rw [State.assignArg, ht]; rfl, hsound, hresult⟩

/-- No call finds the storage in a state that it does not expect. -/
theorem exec_ends (h : Sound s) (htemp : s.result none = none) {op : Op ρ ε}
    (ha : Allowed s op) : ∃ r alive, Ends s (some r) alive (exec c s op) := by
  cases op with
  | construct r => exact ⟨r, true, ends_inPlace h ha⟩
  | constructStop r => exact ⟨r, true, ends_ofStop h ha⟩
  | constructError r e => exact ⟨r, true, ends_ofError h ha⟩
  | copyConstruct r q => exact ⟨r, true, ends_constructFrom h .copyConstruct ha.1 ha.2⟩
  | moveConstruct r q => exact ⟨r, true, ends_constructFrom h .moveConstruct ha.1 ha.2⟩
  | copyAssign r q => exact ⟨r, true, ends_assignFrom h .copyAssign .copyConstruct ha.1 ha.2⟩
  | moveAssign r q => exact ⟨r, true, ends_assignFrom h .moveAssign .moveConstruct ha.1 ha.2⟩
  | assignValue r =>
    exact ⟨r, true, ends_assignArg (fun s p => s.inPlace c p) htemp ha (ends_inPlace h htemp)⟩
  | assignStop r =>
    exact ⟨r, true, ends_assignArg (fun s p => s.ofStop c p) htemp ha (ends_ofStop h htemp)⟩
  | assignError r e =>
    exact ⟨r, true, ends_assignArg (fun s p => s.ofError c p e) htemp ha (ends_ofError h htemp)⟩
  | destruct r =>
    obtain ⟨t, ht, hsound, hresult⟩ := ends_destruct h ha
    exact ⟨r, false, .inl ⟨t, none, ht, hsound, hresult, rfl⟩⟩

/-- The states that calls lead to. -/
def Reachable (c : Config ε) : State ρ ε → Prop :=
  (system c).ReachableIf fun s e _ => Allowed s e

theorem sound_reachable (h : Reachable c s) : Sound s ∧ s.result none = none := by
  refine System.Inductive.reachable (P := fun s => Sound s ∧ s.result none = none) ⟨?_, ?_⟩ h
  · rintro s rfl
    refine ⟨⟨?_, .start⟩, rfl⟩
    intro p slot hslot
    cases hslot
  · rintro s op t ⟨hsound, htemp⟩ hstep ha
    obtain ⟨r, alive, ⟨u, w, hu, hsound', hresult, -⟩ | ⟨u, hu, hsound', hresult⟩⟩ :=
      exec_ends (c := c) hsound htemp ha
    · have hut : u = t := by
        simp only [system, hu, Option.some.injEq] at hstep
        exact hstep
      subst hut
      refine ⟨hsound', ?_⟩
      rw [hresult, Function.update_of_ne (Option.some_ne_none r).symm]
      exact htemp
    · have hut : u = t := by
        simp only [system, hu, Option.some.injEq] at hstep
        exact hstep
      subst hut
      exact ⟨hsound', by rw [hresult]; exact htemp⟩

/-- Whatever was called and whatever threw: there is an object of `V` exactly when `_error` is
null, every object is in one result or was destroyed once, and a call that throws leaves every
result as it was. -/
theorem result_sound (h : Reachable c s) :
    (∀ r slot, s.result (some r) = some slot → (slot.value ≠ none ↔ slot.error = none)) ∧
    (∀ v, v < s.created ↔ v ∈ s.destroyed ∨ ∃ r, s.held (some r) = some v) ∧
    (∀ r q v, s.held (some r) = some v → s.held (some q) = some v → r = q) ∧
    s.destroyed.Nodup ∧ (∀ v ∈ s.destroyed, ∀ r, s.held (some r) ≠ some v) ∧
    ∀ e, Allowed s e → (∃ t, exec c s e = .done t) ∨
      ∃ t, exec c s e = .threw t ∧ t.result = s.result := by
  obtain ⟨hsound, htemp⟩ := sound_reachable h
  refine ⟨?_, ?_, ?_, hsound.ledger.nodup, ?_, ?_⟩
  · intro r slot hslot
    have hslot' : slot.value.isSome = slot.error.isNone := hsound.slot _ _ hslot
    rw [← Option.isSome_iff_ne_none, ← Option.isNone_iff_eq_none, hslot']
  · intro v
    constructor
    · intro hv
      rcases hsound.ledger.kept v hv with hmem | ⟨p, hp⟩
      · exact .inl hmem
      · cases p with
        | none => cases (Sound.held_none htemp).symm.trans hp
        | some r => exact .inr ⟨r, hp⟩
    · rintro (hmem | ⟨r, hr⟩)
      · exact hsound.ledger.past v hmem
      · exact hsound.ledger.bound _ v hr
  · intro r q v hr hq
    exact Option.some.inj (hsound.ledger.sole _ _ v hr hq)
  · intro v hv r hr
    exact hsound.ledger.live _ v hr hv
  · intro e ha
    obtain ⟨r, alive, ⟨u, w, hu, -⟩ | ⟨u, hu, -, hresult⟩⟩ := exec_ends (c := c) hsound htemp ha
    · exact .inl ⟨u, hu⟩
    · exact .inr ⟨u, hu, hresult⟩

end

/-- A value is constructed; copying it over an error throws, and the error stays. -/
theorem result_sound_throw : ∃ s t : State (Fin 2) Unit,
    s.result (some 1) = some ⟨some (), none⟩ ∧
    exec ⟨(), fun op _ => op = .copyConstruct⟩ s (.copyAssign 1 0) = .threw t ∧
    t.result = s.result := by
  let c : Config Unit := ⟨(), fun op _ => op = .copyConstruct⟩
  obtain ⟨s, hs⟩ : ∃ s, (system c).run ⟨fun _ => none, 0, [], 0⟩
      [.construct 0, .constructStop (1 : Fin 2)] = some s := ⟨_, rfl⟩
  have hreach : Reachable c s := by
    cases hs
    exact .step (e := .constructStop 1) (.step (e := .construct 0) (.init rfl) rfl rfl) rfl rfl
  have hallowed : Allowed s (.copyAssign 1 0) := by
    cases hs
    exact ⟨by decide, by decide⟩
  have herror : s.result (some 1) = some ⟨some (), none⟩ := by
    cases hs
    rfl
  have hthrows : ∀ t, exec c s (.copyAssign 1 0) ≠ .done t := by
    cases hs
    intro t ht
    cases ht
  rcases (result_sound hreach).2.2.2.2.2 _ hallowed with ⟨t, ht⟩ | ⟨t, ht, hresult⟩
  · exact absurd ht (hthrows t)
  · exact ⟨s, t, herror, ht, hresult⟩

end Yaclib.Util.Result
