import Mathlib.Logic.Function.Basic

/-!
Transition systems and their inductive invariants. A system is a set of
initial states and a guarded, executable step: `step s e` is `none` where the
event `e` is not enabled. Every interleaving of the atomic steps of its
threads is one sequence of events, so a property of all schedules is a
property of the reachable states.

Nothing here depends on what the states and the events are.

All threads see the effect of a step at once. Weaker memory orders are left out, and so is
fairness: that something happens at last is said of the states in which nothing can go on.
-/

namespace Yaclib.Concurrency

/-! Where a run is written out, its threads are numerals of `Fin`. Each takes one of these
constants, so that a numeral is the same term in every run. -/

instance (priority := high) neZero_one : @NeZero Nat Zero.ofOfNat0 1 := ⟨Nat.one_ne_zero⟩

instance (priority := high) neZero_two : @NeZero Nat Zero.ofOfNat0 2 := ⟨Nat.succ_ne_zero 1⟩

instance (priority := high) neZero_three : @NeZero Nat Zero.ofOfNat0 3 := ⟨Nat.succ_ne_zero 2⟩

instance (priority := high) neZero_four : @NeZero Nat Zero.ofOfNat0 4 := ⟨Nat.succ_ne_zero 3⟩

/-- Initial states and guarded atomic steps. -/
structure System (σ ε : Type*) where
  Init : σ → Prop
  step : σ → ε → Option σ

namespace System

variable {σ ε : Type*}

/-- The states some finite interleaving leads to, when every step of it meets
the side condition `C` (who may unlock, how many threads are busy). -/
inductive ReachableIf (S : System σ ε) (C : σ → ε → σ → Prop) : σ → Prop
  | init {s : σ} : S.Init s → ReachableIf S C s
  | step {s t : σ} {e : ε} : ReachableIf S C s → S.step s e = some t → C s e t →
      ReachableIf S C t

/-- The states some finite interleaving leads to. -/
abbrev Reachable (S : System σ ε) : σ → Prop :=
  S.ReachableIf fun _ _ _ => True

/-- A predicate that holds initially and that every atomic step keeps. -/
structure Inductive (S : System σ ε) (C : σ → ε → σ → Prop) (P : σ → Prop) : Prop where
  init : ∀ s, S.Init s → P s
  step : ∀ s e t, P s → S.step s e = some t → C s e t → P t

/-- The run lemma: what each step keeps holds in every reachable state. -/
theorem Inductive.reachable {S : System σ ε} {C : σ → ε → σ → Prop} {P : σ → Prop}
    (h : S.Inductive C P) {s : σ} (hs : S.ReachableIf C s) : P s := by
  induction hs with
  | init hi => exact h.init _ hi
  | step _ hstep hcond ih => exact h.step _ _ _ ih hstep hcond

/-- Replay a list of events; `none` if one of them is not enabled. -/
def run (S : System σ ε) (s : σ) (es : List ε) : Option σ :=
  es.foldlM S.step s

theorem run_append (S : System σ ε) (s : σ) (es es' : List ε) :
    S.run s (es ++ es') = (S.run s es).bind fun t => S.run t es' :=
  List.foldlM_append

theorem run_cons (S : System σ ε) (s : σ) (e : ε) (es : List ε) :
    S.run s (e :: es) = (S.step s e).bind fun t => S.run t es :=
  List.foldlM_cons

/-- What the replayed events keep holds in the end. -/
theorem run_keeps {S : System σ ε} {P : σ → Prop} {s t : σ} {es : List ε}
    (hkeep : ∀ s e t, e ∈ es → P s → S.step s e = some t → P t) (hs : P s)
    (h : S.run s es = some t) : P t := by
  induction es generalizing s with
  | nil =>
    cases h
    exact hs
  | cons e es ih =>
    rw [run_cons, Option.bind_eq_some_iff] at h
    obtain ⟨u, hstep, hrest⟩ := h
    exact ih (fun s e t he => hkeep s e t (List.mem_cons_of_mem _ he))
      (hkeep s e u List.mem_cons_self hs hstep) hrest

/-- A replay stays within the reachable states, if its steps meet `C`. -/
theorem ReachableIf.run {S : System σ ε} {C : σ → ε → σ → Prop}
    (hC : ∀ s e t, S.step s e = some t → C s e t) {s t : σ} {es : List ε}
    (hs : S.ReachableIf C s) (h : S.run s es = some t) : S.ReachableIf C t := by
  induction es generalizing s with
  | nil =>
    cases h
    exact hs
  | cons e es ih =>
    simp only [System.run, List.foldlM_cons] at h
    cases hstep : S.step s e with
    | none => simp [hstep] at h
    | some u =>
      simp only [hstep] at h
      exact ih (.step hs hstep (hC _ _ _ hstep)) h

/-- Replay a list of events, as long as every step meets `C`. -/
def runIf (S : System σ ε) (C : σ → ε → σ → Prop) [∀ s e t, Decidable (C s e t)] (s : σ)
    (es : List ε) : Option σ :=
  es.foldlM (fun s e => (S.step s e).filter fun t => C s e t) s

theorem ReachableIf.runIf {S : System σ ε} {C : σ → ε → σ → Prop}
    [∀ s e t, Decidable (C s e t)] {s t : σ} {es : List ε} (hs : S.ReachableIf C s)
    (h : S.runIf C s es = some t) : S.ReachableIf C t := by
  induction es generalizing s with
  | nil =>
    cases h
    exact hs
  | cons e es ih =>
    rw [System.runIf, List.foldlM_cons, Option.bind_eq_bind, Option.bind_eq_some_iff] at h
    obtain ⟨u, hfilter, hrest⟩ := h
    obtain ⟨hstep, hcond⟩ := Option.filter_eq_some_iff.mp hfilter
    exact ih (.step hs hstep (of_decide_eq_true hcond)) hrest

/-! What holds in every state of a replay, by conditions on its steps. -/

/-- `P` holds in every state of the replay, as far as it goes. -/
def Always (S : System σ ε) (P : σ → Prop) : σ → List ε → Prop
  | s, [] => P s
  | s, e :: es => P s ∧ ∀ t, S.step s e = some t → S.Always P t es

/-- Every step of the replay meets `C`. -/
def Each (S : System σ ε) (C : σ → ε → Prop) : σ → List ε → Prop
  | _, [] => True
  | s, e :: es => ∀ t, S.step s e = some t → C s e ∧ S.Each C t es

theorem Always.head {S : System σ ε} {P : σ → Prop} {s : σ} {es : List ε}
    (h : S.Always P s es) : P s := by
  cases es with
  | nil => exact h
  | cons e es => exact h.1

/-- If a step of a state with the invariant `I` leads to `P` exactly if it meets `C`, and then
keeps `I`, then `P` holds all along a replay exactly if all its steps meet `C`. -/
theorem always_iff_each_of_inv {S : System σ ε} {I P : σ → Prop} {C : σ → ε → Prop}
    (hI : ∀ s, I s → P s) (h : ∀ s e t, I s → S.step s e = some t → (P t ↔ C s e))
    (hkeep : ∀ s e t, I s → S.step s e = some t → C s e → I t) {s : σ} {es : List ε} (hs : I s) :
    S.Always P s es ↔ S.Each C s es := by
  induction es generalizing s with
  | nil => exact iff_of_true (hI s hs) trivial
  | cons e es ih =>
    constructor
    · rintro ⟨-, hrest⟩ t hstep
      have ht := hrest t hstep
      have hcond : C s e := (h s e t hs hstep).mp ht.head
      exact ⟨hcond, (ih (hkeep s e t hs hstep hcond)).mp ht⟩
    · intro heach
      refine ⟨hI s hs, ?_⟩
      intro t hstep
      obtain ⟨hcond, hrest⟩ := heach t hstep
      exact (ih (hkeep s e t hs hstep hcond)).mpr hrest

/-- If a step keeps `P` exactly if it meets `C`, a replay keeps it exactly if all its steps
do. -/
theorem always_iff_each {S : System σ ε} {P : σ → Prop} {C : σ → ε → Prop}
    (h : ∀ s e t, P s → S.step s e = some t → (P t ↔ C s e)) {s : σ} {es : List ε} (hs : P s) :
    S.Always P s es ↔ S.Each C s es :=
  always_iff_each_of_inv (fun _ => id) h
    (fun s e t hs hstep hcond => (h s e t hs hstep).mpr hcond) hs

/-! A record of the run beside the state. -/

section Recorded

variable {η : Type*} {S : System σ ε} {start : η} {record : σ → ε → σ → η → η}

/-- The same steps; `record` writes down what it sees of each. -/
def recorded (S : System σ ε) (start : η) (record : σ → ε → σ → η → η) : System (σ × η) ε where
  Init p := S.Init p.1 ∧ p.2 = start
  step p e := (S.step p.1 e).map fun t => (t, record p.1 e t p.2)

theorem ReachableIf.of_recorded {C : σ → ε → σ → Prop} {p : σ × η}
    (hp : (S.recorded start record).ReachableIf (fun p e q => C p.1 e q.1) p) :
    S.ReachableIf C p.1 := by
  induction hp with
  | init hi => exact .init hi.1
  | step _ hstep hcond ih =>
    obtain ⟨t, ht, rfl⟩ := Option.map_eq_some_iff.mp hstep
    exact .step ih ht hcond

/-- Recording hides no run. -/
theorem ReachableIf.recorded {C : σ → ε → σ → Prop} {s : σ} (hs : S.ReachableIf C s) (start : η)
    (record : σ → ε → σ → η → η) :
    ∃ h, (S.recorded start record).ReachableIf (fun p e q => C p.1 e q.1) (s, h) := by
  induction hs with
  | init hi => exact ⟨start, .init ⟨hi, rfl⟩⟩
  | step _ hstep hcond ih =>
    obtain ⟨h, hh⟩ := ih
    exact ⟨_, .step hh (Option.map_eq_some_iff.mpr ⟨_, hstep, rfl⟩) hcond⟩

/-- The run lemma for what a state and its record say together. -/
theorem ReachableIf.recorded_holds {C : σ → ε → σ → Prop} {P : σ → η → Prop}
    (hinit : ∀ s, S.Init s → P s start)
    (hkeep : ∀ s e t h, S.ReachableIf C s → S.step s e = some t → C s e t → P s h →
      P t (record s e t h))
    {p : σ × η} (hp : (S.recorded start record).ReachableIf (fun p e q => C p.1 e q.1) p) :
    P p.1 p.2 := by
  induction hp with
  | init hi =>
    rw [hi.2]
    exact hinit _ hi.1
  | step hp hstep hcond ih =>
    obtain ⟨t, ht, rfl⟩ := Option.map_eq_some_iff.mp hstep
    exact hkeep _ _ _ _ (ReachableIf.of_recorded hp) ht hcond ih

end Recorded

end System

end Yaclib.Concurrency
