import Mathlib.Data.Fintype.Card
import Yaclib.Concurrency.System
import Yaclib.Concurrency.Tally

/-!
A strategy of `async/when`, seen from its combinator: every input calls `Consume`
once and then gives back its reference to the combinator, and the last one
destroys the strategy. `Consume` is a sequence of atomic steps on the fields, and
those of different inputs interleave.

`ι` are the inputs.
-/

namespace Yaclib.When

open Concurrency

/-- The fields of a strategy, the places inside its `Consume`, and its destructor. -/
structure Strategy (ι : Type) where
  Fields : Type
  Place : Type
  start : Place
  /-- the step of the input at a place, and the next place; `none` is the return -/
  consume : ι → Fields → Place → Fields × Option Place
  destroy : Fields → Fields

/-- Where the callback of an input is. -/
inductive Call (P : Type) where
  | pending
  /-- in `Consume` -/
  | inside (p : P)
  | returned
  /-- `DecRef` of the combinator is done -/
  | released
  deriving DecidableEq

/-- The place after a step of `Consume`. -/
def Call.next {P : Type} : Option P → Call P
  | none => .returned
  | some p => .inside p

/-- `Consume` is over. -/
def Call.Past {P : Type} : Call P → Prop
  | .returned | .released => True
  | _ => False

instance {P : Type} (c : Call P) : Decidable c.Past :=
  match c with
  | .returned | .released => isTrue trivial
  | .pending | .inside _ => isFalse id

/-- What a callback is about to do, where `act` says it of the places inside `Consume`. -/
def Call.due {P R : Type} (act : P → Option R) : Call P → Option R
  | .inside p => act p
  | _ => none

/-- A callback that is through is about to do nothing. -/
theorem Call.due_of_past {P R : Type} {act : P → Option R} {c : Call P} (h : c.Past) :
    c.due act = none := by
  cases c with
  | returned | released => rfl
  | pending | inside p => exact h.elim

variable {ι : Type}

/-- The fields, where each callback is, and the count of the combinator. -/
structure State (S : Strategy ι) where
  fields : S.Fields
  call : ι → Call S.Place := fun _ => .pending
  refs : Nat
  destroyed : Nat := 0

variable {S : Strategy ι}

/-- The reference of the input is not given back. -/
def Call.held {P : Type} : Call P → Nat
  | .released => 0
  | _ => 1

variable {P : S.Fields → (ι → Call S.Place) → Prop} {f : S.Fields} {s t : State S}

/-- What holds of a strategy before and after its destruction. -/
structure Holds [Fintype ι] (P : S.Fields → (ι → Call S.Place) → Prop) (s : State S) : Prop where
  refs_eq : s.refs = tally Call.held s.call
  alive : s.destroyed = 0 → 0 < s.refs ∧ P s.fields s.call
  dead : s.destroyed ≠ 0 → s.destroyed = 1 ∧ s.refs = 0 ∧
    ∃ f, P f s.call ∧ s.fields = S.destroy f

/-- A callback that is not released keeps the strategy alive. -/
theorem Holds.alive_of_held [Fintype ι] (h : Holds P s) {i : ι} (hi : (s.call i).held = 1) :
    s.destroyed = 0 := by
  by_contra hdead
  have hrefs := h.refs_eq
  have hle := le_tally Call.held s.call i
  rw [(h.dead hdead).2.1] at hrefs
  omega

theorem Holds.released [Fintype ι] (h : Holds P s) (hdead : s.destroyed ≠ 0) (i : ι) :
    s.call i = .released := by
  have hrefs := h.refs_eq
  rw [(h.dead hdead).2.1] at hrefs
  have hzero := tally_eq_zero.mp hrefs.symm i
  cases hcall : s.call i with
  | released => rfl
  | _ => simp [hcall, Call.held] at hzero

/-- Either nothing is decided, or one callback is about to set the promise, or it
is set. -/
structure SetOnce [Fintype ι] {R α : Type} (toSet : α → Option R) (sets : List R) (call : ι → α)
    (winner : Option R) : Prop where
  count : sets.length + tally (fun c => (toSet c).isSome.toNat) call = winner.isSome.toNat
  sets_eq : ∀ r ∈ sets, winner = some r
  toSet_eq : ∀ i r, toSet (call i) = some r → winner = some r

namespace SetOnce

variable {R α : Type} {toSet : α → Option R} {sets : List R} {call : ι → α} {winner : Option R}
variable {i : ι} {a : α} {r : R}

theorem init [Fintype ι] (hnone : ∀ i, toSet (call i) = none) : SetOnce toSet [] call none := by
  refine ⟨?_, by simp, ?_⟩
  · have hzero : tally (fun c => (toSet c).isSome.toNat) call = 0 := by
      apply tally_eq_zero.mpr
      intro i
      rw [hnone i]
      rfl
    rw [hzero]
    rfl
  · intro i r hi
    rw [hnone i] at hi
    contradiction

/-- While no callback is about to set the promise, it is as the decision says. -/
theorem sets_eq_toList [Fintype ι]
    (h : SetOnce toSet sets call winner) (hnone : ∀ i, toSet (call i) = none) :
    sets = winner.toList := by
  have hcount := h.count
  have hzero : tally (fun c => (toSet c).isSome.toNat) call = 0 := by
    apply tally_eq_zero.mpr
    intro i
    rw [hnone i]
    rfl
  rw [hzero, Nat.add_zero] at hcount
  match sets, h.sets_eq with
  | [], _ =>
    cases winner with
    | none => rfl
    | some r => contradiction
  | [r], heq =>
    rw [heq r List.mem_cons_self]
    rfl
  | r :: q :: rest, _ =>
    have hle := Bool.toNat_le winner.isSome
    simp only [List.length_cons] at hcount
    omega

/-- When all callbacks are through, the promise is set to the winner. -/
theorem sets_eq_of_past [Fintype ι] {P : Type} {act : P → Option R} {call : ι → Call P}
    (h : SetOnce (Call.due act) sets call winner) (hpast : ∀ i, (call i).Past) :
    sets = winner.toList :=
  h.sets_eq_toList fun i => Call.due_of_past (hpast i)

theorem sets_nil [Fintype ι] (h : SetOnce toSet sets call winner) (hi : toSet (call i) = some r) :
    sets = [] := by
  have hcount := h.count
  have hle := le_tally (fun c => (toSet c).isSome.toNat) call i
  have hwinner := Bool.toNat_le winner.isSome
  simp only [hi, Option.isSome_some, Bool.toNat_true] at hle
  exact List.eq_nil_of_length_eq_zero (by omega)

theorem length_le [Fintype ι] (h : SetOnce toSet sets call winner) : sets.length ≤ 1 := by
  have hcount := h.count
  have hle := Bool.toNat_le winner.isSome
  omega

end SetOnce

variable [DecidableEq ι]

def step (s : State S) (i : ι) : Option (State S) :=
  match s.call i with
  | .pending => some { s with call := Function.update s.call i (.inside S.start) }
  | .inside p =>
    some { s with
      fields := (S.consume i s.fields p).1
      call := Function.update s.call i (.next (S.consume i s.fields p).2) }
  | .returned =>
    some { s with
      call := Function.update s.call i .released
      refs := s.refs - 1
      fields := if s.refs = 1 then S.destroy s.fields else s.fields
      destroyed := if s.refs = 1 then s.destroyed + 1 else s.destroyed }
  | .released => none

/-- `MakeShared` counts one reference for each input. -/
def system [Fintype ι] (S : Strategy ι) (fields : S.Fields) : System (State S) ι where
  Init s := s = { fields := fields, refs := Fintype.card ι }
  step := step

/-! ### Invariants of a strategy -/

/-- A predicate on the fields and the places that every step of the inputs keeps. -/
structure Inductive (S : Strategy ι) (P : S.Fields → (ι → Call S.Place) → Prop) : Prop where
  enter : ∀ f call i, P f call → call i = .pending → P f (Function.update call i (.inside S.start))
  consume : ∀ f call i p, P f call → call i = .inside p →
    P (S.consume i f p).1 (Function.update call i (.next (S.consume i f p).2))
  release : ∀ f call i, P f call → call i = .returned → P f (Function.update call i .released)

theorem forall_update {α : Type} {call : ι → α} {i : ι} {a : α} {Q : ι → α → Prop}
    (hi : Q i a) (h : ∀ j, Q j (call j)) : ∀ j, Q j (Function.update call i a j) := by
  intro j
  by_cases hj : j = i
  · subst hj
    rwa [Function.update_self]
  · rw [Function.update_of_ne hj]
    exact h j

variable [Fintype ι]

theorem Holds.step (h : Holds P s) (hP : Inductive S P) {i : ι} (hstep : step s i = some t) :
    Holds P t := by
  have hupdate := fun c => tally_update Call.held s.call i c
  unfold When.step at hstep
  cases hcall : s.call i with
  | pending =>
    simp only [hcall, Option.some.injEq] at hstep
    subst hstep
    have halive := h.alive_of_held (i := i) (by rw [hcall]; rfl)
    have hheld := hupdate (.inside S.start)
    rw [hcall] at hheld
    simp only [Call.held] at hheld
    refine ⟨?_, fun _ => ⟨(h.alive halive).1, hP.enter _ _ i (h.alive halive).2 hcall⟩, ?_⟩
    · rw [h.refs_eq]
      show _ = tally Call.held (Function.update s.call i (.inside S.start))
      omega
    · intro hdead
      exact absurd halive hdead
  | inside p =>
    simp only [hcall, Option.some.injEq] at hstep
    subst hstep
    have halive := h.alive_of_held (i := i) (by rw [hcall]; rfl)
    have hheld := hupdate (.next (S.consume i s.fields p).2)
    have hone : (Call.next (S.consume i s.fields p).2).held = 1 := by
      cases (S.consume i s.fields p).2 <;> rfl
    rw [hcall, hone] at hheld
    simp only [Call.held] at hheld
    refine ⟨?_, fun _ => ⟨(h.alive halive).1, hP.consume _ _ i p (h.alive halive).2 hcall⟩, ?_⟩
    · rw [h.refs_eq]
      show _ = tally Call.held (Function.update s.call i (.next (S.consume i s.fields p).2))
      omega
    · intro hdead
      exact absurd halive hdead
  | returned =>
    simp only [hcall, Option.some.injEq] at hstep
    subst hstep
    have halive := h.alive_of_held (i := i) (by rw [hcall]; rfl)
    have hheld := hupdate .released
    rw [hcall] at hheld
    simp only [Call.held] at hheld
    have hrelease := hP.release _ _ i (h.alive halive).2 hcall
    have hrefs := h.refs_eq
    refine ⟨?_, ?_, ?_⟩
    · show s.refs - 1 = tally Call.held (Function.update s.call i .released)
      omega
    · intro hzero
      have hmore : s.refs ≠ 1 := by
        intro hone
        have hdestroyed : (if s.refs = 1 then s.destroyed + 1 else s.destroyed) = 0 := hzero
        rw [if_pos hone] at hdestroyed
        omega
      have hpos := (h.alive halive).1
      refine ⟨?_, ?_⟩
      · show 0 < s.refs - 1
        omega
      · show P (if s.refs = 1 then _ else _) _
        rw [if_neg hmore]
        exact hrelease
    · intro hdead
      have hone : s.refs = 1 := by
        by_contra hmore
        apply hdead
        show (if s.refs = 1 then s.destroyed + 1 else s.destroyed) = 0
        rw [if_neg hmore, halive]
      refine ⟨?_, ?_, s.fields, hrelease, ?_⟩
      · show (if s.refs = 1 then _ else _) = 1
        rw [if_pos hone, halive]
      · show s.refs - 1 = 0
        omega
      · show (if s.refs = 1 then _ else _) = _
        rw [if_pos hone]
  | released =>
    simp only [hcall] at hstep
    contradiction

/-- The run lemma of a strategy: its invariant holds until the destructor, which
runs once, after every callback. -/
theorem Inductive.holds [Nonempty ι] (hP : Inductive S P) (hinit : P f fun _ => .pending)
    (hs : (system S f).Reachable s) : Holds P s := by
  refine System.Inductive.reachable ⟨?_, ?_⟩ hs
  · rintro s rfl
    refine ⟨?_, fun _ => ⟨Fintype.card_pos, hinit⟩, fun hdead => absurd rfl hdead⟩
    simp [tally_const, Call.held]
  · intro s i t h hstep _
    exact h.step hP hstep

/-! ### A promise that is set once

`winner` is what the promise is to be set to, once that is decided, and `toSet` is
what a callback at a place is about to set it to. -/

namespace SetOnce

variable {R α : Type} {toSet : α → Option R} {sets : List R} {call : ι → α} {winner : Option R}
variable {i : ι} {a : α} {r : R}

/-- A step that has nothing to do with the promise. -/
theorem stay (h : SetOnce toSet sets call winner) (hi : toSet (call i) = none)
    (ha : toSet a = none) : SetOnce toSet sets (Function.update call i a) winner := by
  refine ⟨?_, h.sets_eq, forall_update (Q := fun _ c => ∀ r, toSet c = some r → winner = some r)
    (fun r hr => ?_) h.toSet_eq⟩
  · rw [tally_stay (by rw [hi, ha])]
    exact h.count
  · rw [ha] at hr
    contradiction

/-- The decision. -/
theorem win (h : SetOnce toSet sets call none) (ha : toSet a = some r) :
    SetOnce toSet sets (Function.update call i a) (some r) := by
  have hcount := h.count
  simp only [Option.isSome_none, Bool.toNat_false, Nat.add_eq_zero_iff] at hcount
  have hnone := tally_eq_zero.mp hcount.2 i
  have hupdate := tally_update (fun c => (toSet c).isSome.toNat) call i a
  refine ⟨?_, ?_, forall_update (Q := fun _ c => ∀ q, toSet c = some q → some r = some q)
    (fun q hq => ?_) fun j q hq => ?_⟩
  · simp only [ha, Option.isSome_some, Bool.toNat_true] at hupdate ⊢
    omega
  · intro q hq
    have hnil := List.eq_nil_of_length_eq_zero hcount.1
    rw [hnil] at hq
    contradiction
  · rw [ha] at hq
    exact hq
  · have hfalse := h.toSet_eq j q hq
    contradiction

/-- The promise is set. -/
theorem set (h : SetOnce toSet sets call winner) (hi : toSet (call i) = some r)
    (ha : toSet a = none) : SetOnce toSet (sets ++ [r]) (Function.update call i a) winner := by
  have hcount := h.count
  have hupdate := tally_update (fun c => (toSet c).isSome.toNat) call i a
  simp only [hi, ha, Option.isSome_some, Option.isSome_none, Bool.toNat_true, Bool.toNat_false]
    at hupdate
  refine ⟨?_, ?_, forall_update (Q := fun _ c => ∀ q, toSet c = some q → winner = some q)
    (fun q hq => ?_) h.toSet_eq⟩
  · rw [List.length_append, List.length_singleton]
    omega
  · intro q hq
    rcases List.mem_append.mp hq with hq | hq
    · exact h.sets_eq q hq
    · rw [List.mem_singleton.mp hq]
      exact h.toSet_eq i r hi
  · rw [ha] at hq
    contradiction

end SetOnce

end Yaclib.When
