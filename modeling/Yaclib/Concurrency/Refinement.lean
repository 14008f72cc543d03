import Mathlib.Logic.Function.Basic

/-!
Refinement of an abstract machine with outputs, given as a relation, by an executable one.
The relation also says which operations may be called: a sequence of calls that it allows
runs on the executable machine, with the same outputs. Where the executable machine goes on
with calls that the relation does not allow, a condition on its own states tells the two
apart: a run whose calls meet it is one of the abstract machine.

Nothing here depends on what the states, the operations and the outputs are.
-/

namespace Yaclib.Concurrency

variable {σ α ε ο : Type*}

/-- The calls with their outputs that lead from one abstract state to another. -/
inductive Runs (spec : α → ε → α → ο → Prop) : α → List (ε × ο) → α → Prop
  | nil (a : α) : Runs spec a [] a
  | cons {a b c : α} {e : ε} {o : ο} {es : List (ε × ο)} :
      spec a e b o → Runs spec b es c → Runs spec a ((e, o) :: es) c

/-- What every allowed call keeps holds in the end. -/
theorem Runs.keeps {spec : α → ε → α → ο → Prop} {P : α → Prop} {a b : α} {es : List (ε × ο)}
    (hruns : Runs spec a es b) (hkeep : ∀ a e b o, P a → spec a e b o → P b) (ha : P a) : P b := by
  induction hruns with
  | nil a => exact ha
  | cons hspec _ ih => exact ih (hkeep _ _ _ _ ha hspec)

/-- What every call appends to a record of its own is in the record, in the order of the
calls. -/
theorem Runs.recorded {β : Type*} {spec : α → ε → α → ο → Prop} {record : α → List β}
    {a b : α} {es : List (ε × ο)} (hruns : Runs spec a es b) (entry : ε × ο → Option β)
    (hstep : ∀ a e b o, spec a e b o → record b = record a ++ (entry (e, o)).toList) :
    record b = record a ++ es.filterMap entry := by
  induction hruns with
  | nil a => rw [List.filterMap_nil, List.append_nil]
  | @cons a b c e o es hspec _ ih =>
    have hsplit : (e, o) :: es = [(e, o)] ++ es := rfl
    have hone : [(e, o)].filterMap entry = (entry (e, o)).toList := by
      cases hentry : entry (e, o) <;> simp [hentry]
    rw [ih, hstep _ _ _ _ hspec, hsplit, List.filterMap_append, hone, List.append_assoc]

/-- Execute a list of operations and collect their outputs. -/
def outputs (exec : σ → ε → Option (σ × ο)) : σ → List ε → Option (σ × List ο)
  | s, [] => some (s, [])
  | s, e :: es => do
    let (t, o) ← exec s e
    let (u, os) ← outputs exec t es
    return (u, o :: os)

/-- Every operation that the relation allows is executed with the same output, and keeps the
two states related. -/
def Refines (exec : σ → ε → Option (σ × ο)) (spec : α → ε → α → ο → Prop) (R : σ → α → Prop) :
    Prop :=
  ∀ s a e b o, R s a → spec a e b o → ∃ t, exec s e = some (t, o) ∧ R t b

/-- The run lemma of a refinement. -/
theorem Refines.runs {exec : σ → ε → Option (σ × ο)} {spec : α → ε → α → ο → Prop}
    {R : σ → α → Prop} (h : Refines exec spec R) {s : σ} {a b : α} {es : List (ε × ο)}
    (hR : R s a) (hruns : Runs spec a es b) :
    ∃ t, outputs exec s (es.map Prod.fst) = some (t, es.map Prod.snd) ∧ R t b := by
  induction hruns generalizing s with
  | nil a => exact ⟨s, rfl, hR⟩
  | cons hspec _ ih =>
    obtain ⟨t, ht, hRt⟩ := h _ _ _ _ _ hR hspec
    obtain ⟨u, hu, hRu⟩ := ih hRt
    refine ⟨u, ?_, hRu⟩
    simp only [List.map_cons, outputs, ht, hu, Option.bind_eq_bind, Option.bind_some]
    rfl

/-- Every operation of the list meets `C` in the state where it is executed. -/
def Meets (exec : σ → ε → Option (σ × ο)) (C : σ → ε → Prop) : σ → List ε → Prop
  | _, [] => True
  | s, e :: es => C s e ∧ ∀ t o, exec s e = some (t, o) → Meets exec C t es

/-- What is executed where the operation meets `C`, the relation allows. -/
def RefinedIf (exec : σ → ε → Option (σ × ο)) (C : σ → ε → Prop) (spec : α → ε → α → ο → Prop)
    (R : σ → α → Prop) : Prop :=
  ∀ s a e t o, R s a → C s e → exec s e = some (t, o) → ∃ b, spec a e b o ∧ R t b

/-- The run lemma of the other direction. -/
theorem RefinedIf.runs {exec : σ → ε → Option (σ × ο)} {C : σ → ε → Prop}
    {spec : α → ε → α → ο → Prop} {R : σ → α → Prop} (h : RefinedIf exec C spec R) {s t : σ}
    {a : α} {es : List ε} {os : List ο} (hR : R s a) (hmeets : Meets exec C s es)
    (hrun : outputs exec s es = some (t, os)) : ∃ b, Runs spec a (es.zip os) b ∧ R t b := by
  induction es generalizing s a os with
  | nil =>
    cases hrun
    exact ⟨a, .nil a, hR⟩
  | cons e es ih =>
    obtain ⟨hC, hrest⟩ := hmeets
    rw [outputs, Option.bind_eq_bind, Option.bind_eq_some_iff] at hrun
    obtain ⟨⟨u, o⟩, hstep, hrun⟩ := hrun
    rw [Option.bind_eq_bind, Option.bind_eq_some_iff] at hrun
    obtain ⟨⟨v, os'⟩, hos, hlast⟩ := hrun
    cases hlast
    obtain ⟨b, hspec, hRu⟩ := h s a e u o hR hC hstep
    obtain ⟨c, hruns, hRc⟩ := ih hRu (hrest u o hstep) hos
    exact ⟨c, .cons hspec hruns, hRc⟩

end Yaclib.Concurrency
