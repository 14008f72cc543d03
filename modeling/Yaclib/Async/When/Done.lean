import Yaclib.Async.When.Any
import Yaclib.Async.When.Combinator.Delivery

/-!
What `when::All`, `when::AllTuple` and `when::Join` with `FailPolicy::FirstFail` have in
common: the inputs that failed race for `_done`, the first `exchange` sets the promise to
its error, and the destructor sets it if it is still valid.
-/

namespace Yaclib.When.FirstFail

open Concurrency

variable {n : Nat} {κ τ ε α β σ : Type}

/-- `_done`, what `_p` was set to, what else the strategy has (`own`), and a ghost: the
inputs that did the exchange, in order. -/
structure Fields (n : Nat) (ε β σ : Type) where
  done : Bool := false
  own : σ
  sets : List (Except ε β) := []
  exchanges : List (Fin n) := []

inductive Place (ε : Type) where
  /-- `Trait::Ok(result)` -/
  | ok
  | load
  | exchange
  /-- `std::move(_p).Set(Trait::GetError(..))` -/
  | set (e : ε)

def valid (f : Fields n ε β σ) : Bool := f.sets.isEmpty

/-- `Consume`; `keep` is what it does with a value. -/
def consume (keep : Option Nat → α → σ → σ) (i : Fin n) (index : Option Nat) (r : Except ε α)
    (f : Fields n ε β σ) : Place ε → Fields n ε β σ × Option (Place ε)
  | .ok =>
    match r with
    | .ok v => ({ f with own := keep index v f.own }, none)
    | .error _ => (f, some .load)
  | .load => (f, if f.done then none else some .exchange)
  | .exchange =>
    ({ f with done := true, exchanges := f.exchanges ++ [i] },
      match r, f.done with
      | .error e, false => some (.set e)
      | _, _ => none)
  | .set e => ({ f with sets := f.sets ++ [.error e] }, none)

/-- The members that do not depend on the strategy. -/
def strategyClass (P : ConsumePolicy) (C : CorePolicy) (keep : Option Nat → α → σ → σ)
    (destroy : List (Except ε α) → Fields n ε β σ → Fields n ε β σ) :
    StrategyClass n (Except ε α) where
  kConsumePolicy := P
  kCorePolicy := C
  Fields := Fields n ε β σ
  Place := Place ε
  start := .ok
  consume := consume keep
  retires := valid
  destroy := destroy

/-! ### The race -/

/-- What the promise is set to next. -/
def Place.toSet : Place ε → Option (Except ε β)
  | .set e => some (.error e)
  | _ => none

/-- The error of an input, as the output has it. -/
def errorOf (result : Fin n → Except ε α) (i : Fin n) : Option (Except ε β) :=
  match result i with
  | .ok _ => none
  | .error e => some (.error e)

/-- Only inputs that failed race, and one that is through has not lost against nobody. -/
def Turn (result : Fin n → Except ε α) (f : Fields n ε β σ) (i : Fin n) : Call (Place ε) → Prop
  | .inside .load | .inside .exchange | .inside (.set _) => ok (result i) = false
  | .returned | .released => ok (result i) = false → f.exchanges ≠ []
  | _ => True

/-- `_done` is set by the first exchange, of an input that failed, and the promise is set to
its error. -/
structure Inv (result : Fin n → Except ε α) (f : Fields n ε β σ)
    (call : Fin n → Call (Place ε)) : Prop where
  turn : ∀ i, Turn result f i (call i)
  done_eq : f.done = !f.exchanges.isEmpty
  fail : ∀ i ∈ f.exchanges, ok (result i) = false
  once : SetOnce (Call.due Place.toSet) f.sets call (f.exchanges.head?.bind (errorOf result))

variable {result : Fin n → Except ε α} {f : Fields n ε β σ} {call : Fin n → Call (Place ε)}
variable {i : Fin n} {keep : Option Nat → α → σ → σ}

theorem Inv.init {own : σ} : Inv (β := β) result { own := own } fun _ => .pending :=
  ⟨fun _ => trivial, rfl, fun _ hi => by simp at hi, SetOnce.init fun _ => rfl⟩

/-- A callback moves, and nothing is decided. -/
theorem Inv.move (h : Inv result f call) {c : Call (Place ε)} (hturn : Turn result f i c)
    (hset : ((call i).due Place.toSet : Option (Except ε β)) = none)
    (hc : (c.due Place.toSet : Option (Except ε β)) = none) : Inv result f (Function.update call i c) :=
  ⟨forall_update hturn h.turn, h.done_eq, h.fail, h.once.stay hset hc⟩

/-- The part of the strategy that is not in the race. -/
theorem Inv.update_own (h : Inv result f call) (own : σ) : Inv result { f with own := own } call := by
  refine ⟨?_, h.done_eq, h.fail, h.once⟩
  intro i
  have hturn := h.turn i
  cases hcall : call i with
  | pending => trivial
  | inside p =>
    rw [hcall] at hturn
    cases p <;> exact hturn
  | returned | released =>
    rw [hcall] at hturn
    exact hturn

theorem Inv.test (h : Inv result f call) (hi : call i = .inside .ok) (index : Option Nat) :
    Inv result (consume keep i index (result i) f .ok).1
      (Function.update call i (.next (consume keep i index (result i) f .ok).2)) := by
  have hset : ((call i).due Place.toSet : Option (Except ε β)) = none := by rw [hi]; rfl
  simp only [consume]
  cases hr : result i with
  | ok v =>
    refine (h.update_own _).move ?_ hset rfl
    intro hfail
    rw [hr] at hfail
    contradiction
  | error e =>
    refine h.move ?_ hset rfl
    show When.ok (result i) = false
    rw [hr]
    rfl

/-- A load that finds `_done` ends the call; another input has failed before. -/
theorem Inv.load (h : Inv result f call) (hi : call i = .inside .load) (index : Option Nat) :
    Inv result (consume keep i index (result i) f .load).1
      (Function.update call i (.next (consume keep i index (result i) f .load).2)) := by
  have hset : ((call i).due Place.toSet : Option (Except ε β)) = none := by rw [hi]; rfl
  have hfail := h.turn i
  rw [hi] at hfail
  simp only [consume]
  by_cases hdone : f.done = true
  · rw [if_pos hdone]
    refine h.move ?_ hset rfl
    intro _ hnil
    rw [h.done_eq, hnil] at hdone
    contradiction
  · rw [if_neg hdone]
    exact h.move hfail hset rfl

/-- The first exchange decides: its input sets the promise, and no other one does. -/
theorem Inv.exchange (h : Inv result f call) (hi : call i = .inside .exchange)
    (index : Option Nat) : Inv result (consume keep i index (result i) f .exchange).1
      (Function.update call i (.next (consume keep i index (result i) f .exchange).2)) := by
  have hset : ((call i).due Place.toSet : Option (Except ε β)) = none := by rw [hi]; rfl
  have hfail : When.ok (result i) = false := by
    have hturn := h.turn i
    rw [hi] at hturn
    exact hturn
  obtain ⟨e, hr⟩ : ∃ e, result i = .error e := by
    cases hr : result i with
    | ok v =>
      rw [hr] at hfail
      contradiction
    | error e => exact ⟨e, rfl⟩
  have hturn : ∀ c, Turn result { f with done := true, exchanges := f.exchanges ++ [i] } i c →
      ∀ j, Turn result { f with done := true, exchanges := f.exchanges ++ [i] } j
        (Function.update call i c j) := by
    intro c hc
    apply forall_update (Q := fun j c =>
      Turn result { f with done := true, exchanges := f.exchanges ++ [i] } j c) hc
    intro j
    have hold := h.turn j
    cases hcall : call j with
    | pending => trivial
    | inside p =>
      rw [hcall] at hold
      cases p <;> exact hold
    | returned | released =>
      intro _
      simp
  have hall : ∀ j ∈ f.exchanges ++ [i], When.ok (result j) = false := by
    intro j hj
    rcases List.mem_append.mp hj with hj | hj
    · exact h.fail j hj
    · rw [List.mem_singleton.mp hj]
      exact hfail
  simp only [consume, hr]
  cases hexchanges : f.exchanges with
  | nil =>
    have hdone : f.done = false := by
      rw [h.done_eq, hexchanges]
      rfl
    have honce := h.once
    rw [hexchanges] at honce hall hturn
    rw [hdone]
    refine ⟨hturn _ hfail, rfl, hall, ?_⟩
    have herror : errorOf (β := β) result i = some (.error e) := by
      unfold errorOf
      rw [hr]
    show SetOnce (Call.due Place.toSet) f.sets _ (errorOf result i)
    rw [herror]
    exact honce.win rfl
  | cons j rest =>
    have hdone : f.done = true := by
      rw [h.done_eq, hexchanges]
      rfl
    have honce := h.once
    rw [hexchanges] at honce hall hturn
    rw [hdone]
    refine ⟨hturn _ ?_, rfl, hall, honce.stay hset rfl⟩
    intro _
    simp

theorem Inv.set (h : Inv result f call) {e : ε} (hi : call i = .inside (.set e))
    (index : Option Nat) : Inv result (consume keep i index (result i) f (.set e)).1
      (Function.update call i (.next (consume keep i index (result i) f (.set e)).2)) := by
  have htoSet : ((call i).due Place.toSet : Option (Except ε β)) = some (.error e) := by
    rw [hi]
    rfl
  have hwon := h.once.toSet_eq i _ htoSet
  refine ⟨?_, h.done_eq, h.fail, h.once.set htoSet rfl⟩
  apply forall_update (Q := fun j c =>
    Turn result { f with sets := f.sets ++ [.error e] } j c)
  · intro _ hnil
    have hempty : f.exchanges = [] := hnil
    rw [hempty] at hwon
    contradiction
  · intro j
    have hold := h.turn j
    cases hcall : call j with
    | pending => trivial
    | inside p =>
      rw [hcall] at hold
      cases p <;> exact hold
    | returned | released =>
      rw [hcall] at hold
      exact hold

variable {P : ConsumePolicy} {C : CorePolicy}
variable {destroy : List (Except ε α) → Fields n ε β σ → Fields n ε β σ}
variable {F : Futures n κ τ (Except ε α)}

def inputs (F : Futures n κ τ (Except ε α)) (i : Fin n) : Except ε α := F.result (F.core i)

/-- The race for `_done` is the same for all strategies, whatever `own` is. -/
theorem inductive_strategy (hP : P ≠ .None) :
    Inductive (F.strategy (strategyClass P C keep destroy)) (Inv (inputs F)) := by
  refine ⟨?_, ?_, ?_⟩
  · intro f call i h hi
    refine h.move (c := .inside .ok) trivial ?_ rfl
    rw [hi]
    rfl
  · intro f call i p h hi
    have hconsume : (F.strategy (strategyClass P C keep destroy)).consume i f p =
        consume keep i ((strategyClass P C keep destroy).argument i) (inputs F i) f p :=
      if_neg hP
    rw [hconsume]
    cases p with
    | ok => exact h.test hi _
    | load => exact h.load hi _
    | exchange => exact h.exchange hi _
    | set e => exact h.set hi _
  · intro f call i h hi
    apply h.move
    · have hturn := h.turn i
      rw [hi] at hturn
      exact hturn
    · rw [hi]
      rfl
    · rfl

/-- When all callbacks are through, the promise is set if an input failed, to the error of
the first exchange. -/
theorem Inv.outcome (h : Inv result f call) (hpast : ∀ i, (call i).Past) :
    ((∀ i, ok (result i) = true) → f.sets = []) ∧
    ((∃ i, ok (result i) = false) → ∃ i e, f.exchanges.head? = some i ∧ result i = .error e ∧
      f.sets = [.error e]) := by
  have hsets := h.once.sets_eq_of_past hpast
  refine ⟨?_, ?_⟩
  · intro hall
    cases hexchanges : f.exchanges with
    | nil =>
      rw [hsets, hexchanges]
      rfl
    | cons i rest =>
      have hfail := h.fail i (by rw [hexchanges]; exact List.mem_cons_self)
      rw [hall i] at hfail
      contradiction
  · rintro ⟨i, hi⟩
    have hne : f.exchanges ≠ [] := by
      have hturn := h.turn i
      have hipast := hpast i
      cases hcall : call i with
      | returned | released =>
        rw [hcall] at hturn
        exact hturn hi
      | pending | inside p =>
        rw [hcall] at hipast
        exact hipast.elim
    cases hexchanges : f.exchanges with
    | nil => contradiction
    | cons j rest =>
      have hfail := h.fail j (by rw [hexchanges]; exact List.mem_cons_self)
      cases hr : result j with
      | ok v =>
        rw [hr] at hfail
        contradiction
      | error e =>
        refine ⟨j, e, rfl, hr, ?_⟩
        rw [hsets, hexchanges]
        show (errorOf result j).toList = _
        unfold errorOf
        rw [hr]
        rfl

/-! ### The destructor -/

/-- With a valid promise, it is set to what the destructor makes of the results of the
`Retire` calls and of `own`. -/
def closing (out : List (Except ε α) → σ → Option β) (output : List (Except ε α))
    (f : Fields n ε β σ) : Fields n ε β σ :=
  if valid f then
    match out output f.own with
    | some w => { f with sets := f.sets ++ [.ok w] }
    | none => f
  else f

variable {out : List (Except ε α) → σ → Option β} {w : β} {output : List (Except ε α)}

theorem valid_eq_false (hsets : f.sets ≠ []) : valid f = false := by
  unfold valid
  cases hf : f.sets with
  | nil => contradiction
  | cons r rest => rfl

theorem closing_of_set (hsets : f.sets ≠ []) : closing out output f = f := by
  unfold closing
  rw [valid_eq_false hsets]
  rfl

theorem closing_of_valid (hsets : f.sets = []) (hout : out output f.own = some w) :
    (closing out output f).sets = [.ok w] := by
  have hvalid : valid f = true := by
    unfold valid
    rw [hsets]
    rfl
  unfold closing
  rw [if_pos hvalid, hout]
  show f.sets ++ [.ok w] = _
  rw [hsets]
  rfl

/-- The destructor does not touch a promise that is set. -/
theorem sets_prefix_closing : f.sets <+: (closing out output f).sets := by
  unfold closing
  split
  · split
    · exact List.prefix_append _ _
    · exact List.prefix_rfl
  · exact List.prefix_rfl

theorem sets_prefix_consume (index : Option Nat) (r : Except ε α) (p : Place ε) :
    f.sets <+: (consume keep i index r f p).1.sets := by
  cases p with
  | ok => cases r <;> exact List.prefix_rfl
  | load | exchange => exact List.prefix_rfl
  | set e => exact List.prefix_append _ _

/-! ### The promise -/

/-- If every input is a value the promise is set to what `collect` makes of the values,
else to the error of the input that was the first to do the exchange. -/
def Outcome (F : Futures n κ τ (Except ε α)) (collect : (Fin n → α) → β)
    (f : Fields n ε β σ) : Prop :=
  (∀ v, (∀ i, inputs F i = .ok (v i)) → f.sets = [.ok (collect v)]) ∧
  ((∃ i, ok (inputs F i) = false) → ∃ i e, f.exchanges.head? = some i ∧
    inputs F i = .error e ∧ f.sets = [.error e])

variable {Q : Fields n ε β σ → (Fin n → Call (Place ε)) → Prop} {collect : (Fin n → α) → β}

/-- The values of the inputs, if there are only values. -/
theorem values_or_fail (result : Fin n → Except ε α) :
    (∃ v : Fin n → α, ∀ i, result i = .ok (v i)) ∨ ∃ i, When.ok (result i) = false := by
  by_cases hfail : ∃ i, When.ok (result i) = false
  · exact .inr hfail
  · left
    have hall : ∀ i, ∃ v, result i = .ok v := by
      intro i
      cases hr : result i with
      | ok v => exact ⟨v, rfl⟩
      | error e =>
        exfalso
        apply hfail
        refine ⟨i, ?_⟩
        rw [hr]
        rfl
    choose v hv using hall
    exact ⟨v, hv⟩

/-- A strategy that races for `_done`, and whose destructor has the values of all inputs
if there are only values. -/
structure Collects (F : Futures n κ τ (Except ε α)) (P : ConsumePolicy) (C : CorePolicy)
    (keep : Option Nat → α → σ → σ) (out : List (Except ε α) → σ → Option β)
    (collect : (Fin n → α) → β) (Q : Fields n ε β σ → (Fin n → Call (Place ε)) → Prop) : Prop where
  inductive_strategy : Inductive (F.strategy (strategyClass P C keep (closing out))) Q
  race : ∀ f call, Q f call → Inv (inputs F) f call
  out_eq : ∀ f call v, Q f call → (∀ i, (call i).Past) → (∀ i, inputs F i = .ok (v i)) →
    out (if C = .Owned then F.results else []) f.own = some (collect v)

variable {C : CorePolicy} {f : Fields n ε β σ} {call : Fin n → Call (Place ε)}

/-- When all inputs are through, the destructor leaves the promise set to what it should be.
-/
theorem Collects.closed (h : Collects F P C keep out collect Q) (hf : Q f call)
    (hpast : ∀ i, (call i).Past) :
    Outcome F collect ((F.strategy (strategyClass P C keep (closing out))).destroy f) := by
  obtain ⟨hvalues, hfail⟩ := (h.race f call hf).outcome hpast
  refine ⟨?_, ?_⟩
  · intro v hv
    have hnil : f.sets = [] := by
      apply hvalues
      intro i
      rw [hv i]
      rfl
    have hvalid : valid f = true := by
      unfold valid
      rw [hnil]
      rfl
    apply closing_of_valid hnil
    have hout := h.out_eq f call v hf hpast hv
    show out (if C = .Owned ∧ valid f = true then F.results else []) f.own = _
    rw [hvalid]
    simpa using hout
  · intro hsome
    obtain ⟨i, e, hfirst, hi, hsets⟩ := hfail hsome
    have hne : f.sets ≠ [] := by
      rw [hsets]
      exact List.cons_ne_nil _ _
    have hsame : (F.strategy (strategyClass P C keep (closing out))).destroy f = f :=
      closing_of_set hne
    rw [hsame]
    exact ⟨i, e, hfirst, hi, hsets⟩

theorem Outcome.length_eq (h : Outcome F collect f) : f.sets.length = 1 := by
  rcases values_or_fail (inputs F) with ⟨v, hv⟩ | hfail
  · rw [h.1 v hv]
    rfl
  · obtain ⟨i, e, -, -, hsets⟩ := h.2 hfail
    rw [hsets]
    rfl

theorem Collects.setsPromise (h : Collects F P C keep out collect Q) :
    Combinator.SetsPromise F (strategyClass P C keep (closing out)) (fun f => f.sets) Q := by
  refine ⟨h.inductive_strategy, ?_, ?_, ?_, ?_⟩
  · intro i index r f p
    exact sets_prefix_consume index r p
  · intro output f
    exact sets_prefix_closing
  · intro f call hf
    exact (h.race f call hf).once.length_le
  · intro f call hf hpast
    exact (h.closed hf hpast).length_eq

end Yaclib.When.FirstFail
