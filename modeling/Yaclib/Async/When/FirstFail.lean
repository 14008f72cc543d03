import Yaclib.Async.When.Any

/-!
`WhenAny` with `FailPolicy::FirstFail`, where the first error is kept aside until all
inputs are through and a value can still win, and with `FailPolicy::None`.
-/

namespace Yaclib.When.Any

open Concurrency

variable {ι ε α : Type} (result : ι → Except ε α)

def errorOf {ε α : Type} : Except ε α → Option ε
  | .ok _ => none
  | .error e => some e

namespace FirstFail

def Place.toSet : Place ε α → Option (Except ε α)
  | .set r => some r
  | _ => none

def Place.toStore : Place ε α → Option ε
  | .construct e => some e
  | _ => none

/-- Only inputs with a value set the value bit, and only those with an error set
the error bit. An input that is through leaves a bit behind. -/
def Turn (f : Fields ι ε α) (i : ι) : Call (Place ε α) → Prop
  | .inside .orValue => ok (result i) = true
  | .inside .orError | .inside (.construct _) => ok (result i) = false
  | .returned | .released =>
    (ok (result i) = true → f.values ≠ []) ∧ (f.values ≠ [] ∨ f.errors ≠ [])
  | _ => True

def valueBit (f : Fields ι ε α) : BitVec 8 := if f.values = [] then 0 else kValue
def errorBit (f : Fields ι ε α) : BitVec 8 := if f.errors = [] then 0 else kError

/-- `_state` has the two bits of those who have done their `fetch_or`. The first value sets
the promise, and the first error is constructed in `_error`, which nobody reads or destroys
before the destructor. -/
structure Inv [Fintype ι] (f : Fields ι ε α) (call : ι → Call (Place ε α)) : Prop where
  turn : ∀ i, Turn result f i (call i)
  state_eq : f.state = valueBit f ||| errorBit f
  value : ∀ i ∈ f.values, ok (result i) = true
  fail : ∀ i ∈ f.errors, ok (result i) = false
  once : SetOnce (Call.due Place.toSet) f.sets call (f.values.head?.map result)
  stored : SetOnce (Call.due Place.toStore) f.error.toList call
    (f.errors.head?.bind fun i => errorOf (result i))
  constructed : f.constructed = f.error.toList.length
  intact : f.destroyed = 0 ∧ f.bad = false

variable {result} {f : Fields ι ε α} {call : ι → Call (Place ε α)} {i : ι}

theorem value_and (h : f.state = valueBit f ||| errorBit f) :
    f.state &&& kValue = 0 ↔ f.values = [] := by
  rw [h]
  by_cases hv : f.values = [] <;> by_cases he : f.errors = [] <;>
    simp [valueBit, errorBit, hv, he, kValue, kError]

theorem error_and (h : f.state = valueBit f ||| errorBit f) :
    f.state &&& kError = 0 ↔ f.errors = [] := by
  rw [h]
  by_cases hv : f.values = [] <;> by_cases he : f.errors = [] <;>
    simp [valueBit, errorBit, hv, he, kValue, kError]

/-- The first `fetch_or` is the one that finds `kEmpty`. -/
theorem state_empty (h : f.state = valueBit f ||| errorBit f) :
    f.state = kEmpty ↔ f.values = [] ∧ f.errors = [] := by
  rw [h]
  by_cases hv : f.values = [] <;> by_cases he : f.errors = [] <;>
    simp [valueBit, errorBit, hv, he, kValue, kError, kEmpty]

/-- More bits do not disturb the callbacks. -/
theorem Turn.mono {g : Fields ι ε α} {c : Call (Place ε α)} (h : Turn result f i c)
    (hvalues : f.values ≠ [] → g.values ≠ []) (herrors : f.errors ≠ [] → g.errors ≠ []) :
    Turn result g i c := by
  cases c with
  | pending => trivial
  | inside p => cases p <;> exact h
  | returned | released =>
    refine ⟨fun hok => hvalues (h.1 hok), ?_⟩
    rcases h.2 with hv | he
    · exact .inl (hvalues hv)
    · exact .inr (herrors he)

/-- The destructor, where the error bit says whether an error is stored and the
promise is set or one is stored. -/
theorem destroy_eq (hbit : (f.state &&& kError != 0) = f.error.isSome)
    (hsets : f.sets = [] → f.error ≠ none) :
    destroy f = { f with
      sets := if f.sets.isEmpty then f.error.toList.map .error else f.sets
      error := none
      destroyed := f.destroyed + f.error.toList.length } := by
  unfold FirstFail.destroy
  simp only [hbit]
  cases herror : f.error with
  | none =>
    have hne : f.sets.isEmpty = false := by
      rw [List.isEmpty_eq_false_iff]
      intro hnil
      exact hsets hnil herror
    obtain ⟨state, error, sets, values, errors, constructed, destroyed, bad⟩ := f
    obtain rfl : error = none := herror
    simp at hne
    simp [hne]
  | some e =>
    by_cases hempty : f.sets.isEmpty = true
    · have hnil := List.isEmpty_iff.mp hempty
      simp [hnil, setError, destroyError, herror]
    · simp [hempty, destroyError, herror]

variable [Fintype ι]

theorem Inv.init : Inv result {} fun _ => .pending :=
  ⟨fun _ => trivial, by simp [valueBit, errorBit], by simp, by simp, SetOnce.init fun _ => rfl,
    SetOnce.init fun _ => rfl, rfl, rfl, rfl⟩

/-- What is left after the destructor: the promise is set to the value of the first
`fetch_or(kValue)`, and without values to the error that reserved the bit. -/
structure Final (result : ι → Except ε α) (f : Fields ι ε α) : Prop where
  value : (∃ i, ok (result i) = true) → ∃ i, f.values.head? = some i ∧ ok (result i) = true ∧
    f.sets = [result i]
  error : (∀ i, ok (result i) = false) → ∃ i, f.errors.head? = some i ∧ f.sets = [result i]
  constructed_le : f.constructed ≤ 1
  destroyed_eq : f.destroyed = f.constructed
  gone : f.error = none
  good : f.bad = false

theorem Inv.errors_iff (h : Inv result f call)
    (herror : f.error = f.errors.head?.bind fun i => errorOf (result i)) :
    f.error.isSome = true ↔ f.errors ≠ [] := by
  cases hlist : f.errors with
  | nil => simp [herror, hlist]
  | cons j rest =>
    have hj := h.fail j (by simp [hlist])
    cases hr : result j with
    | ok v =>
      rw [hr] at hj
      contradiction
    | error e => simp [herror, hlist, hr, errorOf]

theorem Inv.destroy [Nonempty ι] (h : Inv result f call) (hpast : ∀ i, (call i).Past) :
    Final result (destroy f) := by
  have hthrough : ∀ i, (ok (result i) = true → f.values ≠ []) ∧
      (f.values ≠ [] ∨ f.errors ≠ []) := by
    intro i
    have hi := hpast i
    have hturn := h.turn i
    cases hcall : call i with
    | returned | released =>
      rw [hcall] at hturn
      exact hturn
    | pending | inside p =>
      rw [hcall] at hi
      exact hi.elim
  have hsets := h.once.sets_eq_of_past hpast
  have herror : f.error = f.errors.head?.bind fun i => errorOf (result i) := by
    have hlist := congrArg List.head? (h.stored.sets_eq_of_past hpast)
    simpa using hlist
  have herrors := h.errors_iff herror
  have hconstructed := h.constructed
  have hle : f.error.toList.length ≤ 1 := by cases f.error <;> simp
  have hbit : (f.state &&& kError != 0) = f.error.isSome := by
    rw [Bool.eq_iff_iff, herrors, bne_iff_ne, ne_eq, error_and h.state_eq]
  obtain ⟨hdestroyed, hbad⟩ := h.intact
  cases hvalues : f.values with
  | nil =>
    rw [hvalues] at hsets
    have hfail : ∀ i, ok (result i) = false := by
      intro i
      by_contra hok
      exact (hthrough i).1 (by simpa using hok) hvalues
    obtain ⟨i⟩ := ‹Nonempty ι›
    have hsome := herrors.mpr ((hthrough i).2.resolve_left (not_not.mpr hvalues))
    obtain ⟨e, he⟩ := Option.isSome_iff_exists.mp hsome
    rw [destroy_eq hbit (fun _ => by rw [he]; simp)]
    refine ⟨?_, ?_, by simp only [hconstructed]; exact hle, by simp [hdestroyed, hconstructed], rfl,
      hbad⟩
    · rintro ⟨k, hk⟩
      rw [hfail k] at hk
      contradiction
    · intro _
      -- the stored error is set
      rw [herror] at he
      obtain ⟨j, hj, hej⟩ := Option.bind_eq_some_iff.mp he
      refine ⟨j, hj, ?_⟩
      cases hr : result j with
      | ok v =>
        rw [hr] at hej
        contradiction
      | error d => simp [hsets, herror, hj, hr, errorOf]
  | cons j rest =>
    have hj := h.value j (by simp [hvalues])
    rw [hvalues] at hsets
    have hset : f.sets = [result j] := hsets
    rw [destroy_eq hbit (fun hnil => by rw [hset] at hnil; contradiction)]
    refine ⟨?_, ?_, by simp only [hconstructed]; exact hle, by simp [hdestroyed, hconstructed], rfl,
      hbad⟩
    · intro _
      exact ⟨j, by simp [hvalues], hj, by simp [hset]⟩
    · intro hall
      rw [hall j] at hj
      contradiction

variable [DecidableEq ι]

/-- A callback moves, and nothing is decided. -/
theorem Inv.move (h : Inv result f call) {c : Call (Place ε α)} (hturn : Turn result f i c)
    (hset : (call i).due Place.toSet = none) (hc : c.due Place.toSet = none)
    (hstore : (call i).due Place.toStore = none) (hc' : c.due Place.toStore = none) :
    Inv result f (Function.update call i c) :=
  ⟨forall_update hturn h.turn, h.state_eq, h.value, h.fail, h.once.stay hset hc,
    h.stored.stay hstore hc', h.constructed, h.intact⟩

theorem Inv.load (h : Inv result f call) (hi : call i = .inside .load) :
    Inv result (consume result i f .load).1
      (Function.update call i (.next (consume result i f .load).2)) := by
  have hset : (call i).due Place.toSet = none := by rw [hi]; rfl
  have hstore : (call i).due Place.toStore = none := by rw [hi]; rfl
  simp only [consume]
  cases hr : result i with
  | ok v =>
    by_cases hbit : f.state &&& kValue = 0
    · rw [if_pos hbit]
      exact h.move (by simp [Turn, Call.next, hr, ok]) hset rfl hstore rfl
    · rw [if_neg hbit]
      have hvalues : f.values ≠ [] := fun hnil => hbit ((value_and h.state_eq).mpr hnil)
      exact h.move ⟨fun _ => hvalues, .inl hvalues⟩ hset rfl hstore rfl
  | error e =>
    by_cases hempty : f.state = kEmpty
    · rw [if_pos hempty]
      exact h.move (by simp [Turn, Call.next, hr, ok]) hset rfl hstore rfl
    · rw [if_neg hempty]
      have hbits : f.values ≠ [] ∨ f.errors ≠ [] := by
        by_contra hnone
        simp only [ne_eq, not_or, not_not] at hnone
        exact hempty ((state_empty h.state_eq).mpr hnone)
      refine h.move ⟨fun hok => ?_, hbits⟩ hset rfl hstore rfl
      rw [hr] at hok
      contradiction

/-- The first value sets the promise, whatever errors came before. -/
theorem Inv.orValue (h : Inv result f call) (hi : call i = .inside .orValue) :
    Inv result (consume result i f .orValue).1
      (Function.update call i (.next (consume result i f .orValue).2)) := by
  have hok : ok (result i) = true := by
    have hturn := h.turn i
    rwa [hi] at hturn
  have hbits : f.state ||| kValue = kValue ||| errorBit f := by
    rw [h.state_eq]
    by_cases hv : f.values = [] <;> by_cases he : f.errors = [] <;>
      simp [valueBit, errorBit, hv, he, kValue, kError]
  obtain ⟨c, hc⟩ : ∃ c, c = Call.next (consume result i f .orValue).2 := ⟨_, rfl⟩
  have hstored : c.due Place.toStore = none := by
    rw [hc]
    simp only [consume]
    split <;> rfl
  have hturn : Turn result (consume result i f .orValue).1 i c := by
    rw [hc]
    simp only [consume]
    split <;> simp [Turn, Call.next]
  rw [← hc]
  simp only [consume] at hc hturn ⊢
  refine ⟨forall_update hturn fun j => (h.turn j).mono (by simp) (by simp), ?_, ?_, h.fail, ?_, ?_,
    h.constructed, h.intact⟩
  · rw [hbits]
    simp [valueBit, errorBit]
  · intro j hj
    rcases List.mem_append.mp hj with hj | hj
    · exact h.value j hj
    · rw [List.mem_singleton.mp hj]
      exact hok
  · have honce := h.once
    cases hvalues : f.values with
    | nil =>
      rw [hvalues] at honce
      rw [if_pos ((value_and h.state_eq).mpr hvalues)] at hc
      subst hc
      exact honce.win rfl
    | cons j rest =>
      rw [hvalues] at honce
      have hbit : ¬ f.state &&& kValue = 0 := by
        rw [value_and h.state_eq, hvalues]
        simp
      rw [if_neg hbit] at hc
      subst hc
      exact honce.stay (by rw [hi]; rfl) rfl
  · exact h.stored.stay (by rw [hi]; rfl) hstored

/-- The first error is constructed only if it finds neither a value nor an error. -/
theorem Inv.orError (h : Inv result f call) (hi : call i = .inside .orError) :
    Inv result (consume result i f .orError).1
      (Function.update call i (.next (consume result i f .orError).2)) := by
  have hnot : ok (result i) = false := by
    have hturn := h.turn i
    rwa [hi] at hturn
  obtain ⟨e, he⟩ : ∃ e, result i = .error e := by
    cases hr : result i with
    | ok v => rw [hr] at hnot; contradiction
    | error e => exact ⟨e, rfl⟩
  have hbits : f.state ||| kError = valueBit f ||| kError := by
    rw [h.state_eq]
    by_cases hv : f.values = [] <;> by_cases he : f.errors = [] <;>
      simp [valueBit, errorBit, hv, he, kValue, kError]
  obtain ⟨c, hc⟩ : ∃ c, c = Call.next (consume result i f .orError).2 := ⟨_, rfl⟩
  have hset : c.due Place.toSet = none := by
    rw [hc]
    simp only [consume, he]
    split <;> rfl
  have hturn : Turn result (consume result i f .orError).1 i c := by
    rw [hc]
    simp only [consume, he]
    split <;> simp [Turn, Call.next, ok, he]
  rw [← hc]
  simp only [consume, he] at hc hturn ⊢
  refine ⟨forall_update hturn fun j => (h.turn j).mono (by simp) (by simp), ?_, h.value, ?_, ?_, ?_,
    h.constructed, h.intact⟩
  · rw [hbits]
    simp [valueBit, errorBit]
  · intro j hj
    rcases List.mem_append.mp hj with hj | hj
    · exact h.fail j hj
    · rw [List.mem_singleton.mp hj]
      exact hnot
  · exact h.once.stay (by rw [hi]; rfl) hset
  · have hstored := h.stored
    cases herrors : f.errors with
    | nil =>
      rw [herrors] at hstored
      rw [if_pos ((error_and h.state_eq).mpr herrors)] at hc
      subst hc
      have hwin := hstored.win (i := i) (a := Call.next (some (Place.construct (α := α) e))) rfl
      simpa [errorOf, he] using hwin
    | cons j rest =>
      rw [herrors] at hstored
      have hbit : ¬ f.state &&& kError = 0 := by
        rw [error_and h.state_eq, herrors]
        simp
      rw [if_neg hbit] at hc
      subst hc
      exact hstored.stay (by rw [hi]; rfl) rfl

theorem Inv.set (h : Inv result f call) {r : Except ε α} (hi : call i = .inside (.set r)) :
    Inv result (consume result i f (.set r)).1
      (Function.update call i (.next (consume result i f (.set r)).2)) := by
  have hset : (call i).due Place.toSet = some r := by rw [hi]; rfl
  have hvalues : f.values ≠ [] := by
    intro hnil
    have hwinner := h.once.toSet_eq i r hset
    rw [hnil] at hwinner
    contradiction
  exact ⟨forall_update ⟨fun _ => hvalues, .inl hvalues⟩ h.turn, h.state_eq, h.value, h.fail,
    h.once.set hset rfl, h.stored.stay (by rw [hi]; rfl) rfl, h.constructed, h.intact⟩

theorem Inv.construct (h : Inv result f call) {e : ε} (hi : call i = .inside (.construct e)) :
    Inv result (consume result i f (.construct e)).1
      (Function.update call i (.next (consume result i f (.construct e)).2)) := by
  have hstore : (call i).due Place.toStore = some e := by rw [hi]; rfl
  have hwinner := h.stored.toSet_eq i e hstore
  have hnone := h.stored.sets_nil hstore
  have hconstructed := h.constructed
  have hset := h.stored.set hstore (a := Call.returned) rfl
  rw [hnone] at hset hconstructed
  obtain ⟨j, hj, hej⟩ := Option.bind_eq_some_iff.mp hwinner
  have herrors : f.errors ≠ [] := by
    intro hnil
    rw [hnil] at hj
    contradiction
  have hturn : Turn result f i .returned := by
    refine ⟨?_, .inr herrors⟩
    intro hok
    have hnot := h.turn i
    rw [hi] at hnot
    rw [show ok (result i) = false from hnot] at hok
    contradiction
  exact ⟨forall_update hturn h.turn, h.state_eq, h.value, h.fail,
    h.once.stay (by rw [hi]; rfl) rfl, hset, by simp [consume, hconstructed], h.intact⟩

theorem inductive_strategy : Inductive (strategy result) (Inv result) := by
  refine ⟨?_, ?_, ?_⟩
  · intro f call i h hi
    exact h.move trivial (by rw [hi]; rfl) rfl (by rw [hi]; rfl) rfl
  · intro f call i p h hi
    cases p with
    | load => exact h.load hi
    | orValue => exact h.orValue hi
    | orError => exact h.orError hi
    | set r => exact h.set hi
    | construct e => exact h.construct hi
  · intro f call i h hi
    have hturn := h.turn i
    rw [hi] at hturn
    exact h.move hturn (by rw [hi]; rfl) rfl (by rw [hi]; rfl) rfl

/-- Until the destructor nothing reads or destroys the error. -/
theorem firstFail_final [Nonempty ι] {s : State (strategy result)}
    (hs : (system (strategy result) ({} : Fields ι ε α)).Reachable s) :
    (s.destroyed = 0 → s.fields.sets.length ≤ 1 ∧ s.fields.constructed ≤ 1 ∧
      s.fields.destroyed = 0 ∧ s.fields.bad = false) ∧
    (s.destroyed ≠ 0 → s.destroyed = 1 ∧ (∀ i, s.call i = .released) ∧ Final result s.fields) := by
  have h := inductive_strategy.holds Inv.init hs
  constructor
  · intro halive
    have hinv := (h.alive halive).2
    refine ⟨hinv.once.length_le, ?_, hinv.intact⟩
    have hconstructed := hinv.constructed
    have hle := hinv.stored.length_le
    omega
  · intro hdead
    obtain ⟨hone, -, f, hf, hfields⟩ := h.dead hdead
    have hreleased := h.released hdead
    refine ⟨hone, hreleased, ?_⟩
    rw [hfields]
    refine hf.destroy fun i => ?_
    rw [hreleased i]
    trivial

end FirstFail

/-! ### FailPolicy::None -/

namespace None

def Place.toSet : Place ε α → Option (Except ε α)
  | .set r => some r
  | _ => none

/-- The first exchange sets `_done`, and the promise to its result; who is through finds it
done. -/
structure Inv [Fintype ι] (f : Fields ι ε α) (call : ι → Call (Place ε α)) : Prop where
  done_iff : f.done = true ↔ f.exchanges ≠ []
  once : SetOnce (Call.due Place.toSet) f.sets call (f.exchanges.head?.map result)
  past : ∀ i, (call i).Past → f.exchanges ≠ []

variable {result} {f : Fields ι ε α} {call : ι → Call (Place ε α)} {i : ι} [Fintype ι]

theorem Inv.init : Inv result {} fun _ => Call.pending :=
  ⟨by simp, SetOnce.init fun _ => rfl, fun _ hpast => hpast.elim⟩

/-- The promise is set to the `Result` of the first exchange. -/
def Outcome (result : ι → Except ε α) (f : Fields ι ε α) : Prop :=
  ∃ i, f.exchanges.head? = some i ∧ f.sets = [result i]

theorem Inv.outcome [Nonempty ι] (h : Inv result f call) (hpast : ∀ i, (call i).Past) :
    Outcome result f := by
  have hsets := h.once.sets_eq_of_past hpast
  obtain ⟨i⟩ := ‹Nonempty ι›
  obtain ⟨j, rest, hexchanges⟩ := List.exists_cons_of_ne_nil (h.past i (hpast i))
  refine ⟨j, by simp [hexchanges], ?_⟩
  rw [hsets, hexchanges]
  rfl

variable [DecidableEq ι]

theorem Inv.move (h : Inv result f call) {c : Call (Place ε α)}
    (hset : (call i).due Place.toSet = none) (hc : c.due Place.toSet = none) (hpast : c.Past → f.exchanges ≠ []) :
    Inv result f (Function.update call i c) :=
  ⟨h.done_iff, h.once.stay hset hc,
    forall_update (Q := fun _ c => Call.Past c → f.exchanges ≠ []) hpast h.past⟩

theorem inductive_strategy : Inductive (strategy result) (Inv result) := by
  refine ⟨?_, ?_, ?_⟩
  · intro f call i h hi
    exact h.move (by rw [hi]; rfl) rfl (fun hpast => hpast.elim)
  · intro f call i p h hi
    cases p with
    | load =>
      simp only [strategy, consume]
      cases hdone : f.done with
      | true => exact h.move (by rw [hi]; rfl) rfl (fun _ => h.done_iff.mp hdone)
      | false => exact h.move (by rw [hi]; rfl) rfl (fun hpast => hpast.elim)
    | exchange =>
      have honce := h.once
      simp only [strategy, consume]
      cases hexchanges : f.exchanges with
      | nil =>
        have hdone : f.done = false := by
          rw [← Bool.not_eq_true, h.done_iff, hexchanges]
          simp
        rw [hexchanges] at honce
        rw [hdone]
        exact ⟨by simp, honce.win rfl, fun _ _ => by simp⟩
      | cons j rest =>
        have hdone : f.done = true := h.done_iff.mpr (by simp [hexchanges])
        rw [hexchanges] at honce
        rw [hdone]
        exact ⟨by simp, honce.stay (by rw [hi]; rfl) rfl, fun _ _ => by simp⟩
    | set r =>
      have hset : (call i).due Place.toSet = some r := by rw [hi]; rfl
      have hexchanges : f.exchanges ≠ [] := by
        intro hnil
        have hwinner := h.once.toSet_eq i r hset
        rw [hnil] at hwinner
        contradiction
      exact ⟨h.done_iff, h.once.set hset rfl, fun _ _ => hexchanges⟩
  · intro f call i h hi
    exact h.move (by rw [hi]; rfl) rfl (fun _ => h.past i (by rw [hi]; trivial))

/-- The promise is set at most once, and when all inputs are through, to the result of the
first exchange. -/
theorem none_final [Nonempty ι] {s : State (strategy result)}
    (hs : (system (strategy result) ({} : Fields ι ε α)).Reachable s) :
    s.fields.sets.length ≤ 1 ∧
    ((∀ i, (s.call i).Past) →
      ∃ i, s.fields.exchanges.head? = some i ∧ s.fields.sets = [result i]) := by
  have h := inductive_strategy.holds Inv.init hs
  have hinv : Inv result s.fields s.call := by
    by_cases hdead : s.destroyed = 0
    · exact (h.alive hdead).2
    · obtain ⟨-, -, f, hf, hfields⟩ := h.dead hdead
      rw [show s.fields = f from hfields]
      exact hf
  exact ⟨hinv.once.length_le, hinv.outcome⟩

end None

variable [DecidableEq ι]

/-- For every interleaving. `FirstFail`: until the destructor the promise is set at
most once, the error is constructed at most once and nothing reads or destroys
it; the destructor comes once, after all callbacks, and then the promise is set
to the value of the first `fetch_or(kValue)` if any input has a value, and else to
the error that reserved its bit, and the error is destroyed once if it was
constructed. `None`: the promise is set once, to the `Result` of the first exchange. -/
theorem any_set [Fintype ι] [Nonempty ι] :
    (∀ s : State (FirstFail.strategy result),
      (system (FirstFail.strategy result) ({} : FirstFail.Fields ι ε α)).Reachable s →
      (s.destroyed = 0 → s.fields.sets.length ≤ 1 ∧ s.fields.constructed ≤ 1 ∧
        s.fields.destroyed = 0 ∧ s.fields.bad = false) ∧
      (s.destroyed ≠ 0 → s.destroyed = 1 ∧ (∀ i, s.call i = .released) ∧
        FirstFail.Final result s.fields)) ∧
    (∀ s : State (None.strategy result),
      (system (None.strategy result) ({} : None.Fields ι ε α)).Reachable s →
      s.fields.sets.length ≤ 1 ∧
      ((∀ i, (s.call i).Past) →
        ∃ i, s.fields.exchanges.head? = some i ∧ s.fields.sets = [result i])) :=
  ⟨fun _ hs => FirstFail.firstFail_final hs, fun _ hs => None.none_final hs⟩

/-- The error of input 0 is stored before the value of input 1 wins. -/
theorem any_set_stored :
    let result : Fin 2 → Except String Nat := fun i => if i = 0 then .error "no" else .ok 7
    let s := ((system (FirstFail.strategy result) {}).run { fields := {}, refs := 2 }
      [0, 0, 0, 0, 1, 1, 1, 1, 1, 0]).get (by decide)
    s.fields.errors = [0] ∧ ∃ i, s.fields.values.head? = some i ∧ ok (result i) = true ∧
      s.fields.sets = [result i] := by
  intro result s
  have hs : (system (FirstFail.strategy result) {}).Reachable s :=
    .run (fun _ _ _ _ => trivial) (.init rfl) (Option.some_get _).symm
  refine ⟨by decide, ?_⟩
  exact (((any_set result).1 s hs).2 (by decide)).2.2.value ⟨1, rfl⟩

end Yaclib.When.Any
