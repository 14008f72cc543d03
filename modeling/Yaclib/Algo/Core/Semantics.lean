import Yaclib.Algo.Core.Run

/-!
What a pipeline computes. `eval` is the reference: it knows the program, the values that
the producers set and which jobs were dropped, but nothing of executors, callbacks, tasks or
of the order of events. Every result that a run stores is the one of the reference.
-/

namespace Yaclib.Core

open Concurrency

variable {ν ι ε α : Type} {cfg : Config ν ι ε α}

/-- What a pipeline does not compute itself. -/
structure Outside (ν ε α : Type) where
  /-- the results that the owners of the promises set and the coroutines return -/
  given : ν → Option (Except ε α)
  dropped : ν → Bool

/-- The input of the step `n`, where `f` are the results of the other cores. -/
def fed (cfg : Config ν ι ε α) (o : Outside ν ε α) (f : ν → Option (Except ε α)) (n : ν)
    (step : Step ν ι ε α) : Option (Except ε α) :=
  if o.dropped n then some (.error cfg.stopTag)
  else match step.previous with
  | none => some (.ok cfg.unit)
  | some p => f p

/-- The result of the core `n`, by at most `k` nested steps. -/
def eval (cfg : Config ν ι ε α) (o : Outside ν ε α) : Nat → ν → Option (Except ε α)
  | 0, _ => none
  | k + 1, n =>
    match cfg.prog n with
    | .core _ step =>
      (fed cfg o (eval cfg o k) n step).bind fun r =>
        match step.reference r with
        | .inl x => some x
        | .inr m => eval cfg o k m
    | node =>
      if o.dropped n then some (.error cfg.stopTag)
      else node.stored.or (o.given n)

theorem fed_mono {o : Outside ν ε α} {f g : ν → Option (Except ε α)} {n : ν}
    {step : Step ν ι ε α} (hfg : ∀ p r, f p = some r → g p = some r) {r : Except ε α}
    (h : fed cfg o f n step = some r) : fed cfg o g n step = some r := by
  rw [fed] at h ⊢
  cases hdropped : o.dropped n with
  | true => simpa [hdropped] using h
  | false =>
    rw [hdropped, if_neg (by simp)] at h
    rw [if_neg (by simp)]
    cases hprevious : step.previous with
    | none => simpa [hprevious] using h
    | some p =>
      rw [hprevious] at h
      exact hfg p r h

/-- More steps do not change a result. -/
theorem eval_succ (o : Outside ν ε α) {k : Nat} {n : ν} {r : Except ε α}
    (h : eval cfg o k n = some r) : eval cfg o (k + 1) n = some r := by
  induction k generalizing n r with
  | zero => cases h
  | succ k ih =>
    rw [eval] at h ⊢
    cases hprog : cfg.prog n with
    | core sch step =>
      simp only [hprog, Option.bind_eq_some_iff] at h ⊢
      obtain ⟨x, hx, hrest⟩ := h
      refine ⟨x, fed_mono (fun p r => ih) hx, ?_⟩
      cases hreference : step.reference x with
      | inl y => simpa [hreference] using hrest
      | inr m =>
        simp only [hreference] at hrest ⊢
        exact ih hrest
    | _ => simpa only [hprog] using h

theorem eval_mono (o : Outside ν ε α) {k k' : Nat} (hk : k ≤ k') {n : ν} {r : Except ε α}
    (h : eval cfg o k n = some r) : eval cfg o k' n = some r := by
  induction hk with
  | refl => exact h
  | step _ ih => exact eval_succ o ih

/-- The reference gives a core one result. -/
theorem eval_unique (o : Outside ν ε α) {k k' : Nat} {n : ν} {r r' : Except ε α}
    (h : eval cfg o k n = some r) (h' : eval cfg o k' n = some r') : r = r' := by
  have hl := eval_mono o (Nat.le_max_left k k') h
  have hr := eval_mono o (Nat.le_max_right k k') h'
  exact Option.some.inj (hl.symm.trans hr)

/-- What a run was given from outside, as far as it is done. -/
structure Agrees (cfg : Config ν ι ε α) (s : State ν ι ε α) (o : Outside ν ε α) : Prop where
  given : ∀ n r, (cfg.prog n).isProducer = true → Final s n r → (s.cores n).dropped = false →
    o.given n = some r
  dropped : ∀ n, (s.cores n).phase = .done → o.dropped n = (s.cores n).dropped

/-- The results are those of the reference. -/
def Evaluated (cfg : Config ν ι ε α) (s : State ν ι ε α) : Prop :=
  ∀ o, Agrees cfg s o → ∀ n r, Final s n r → ∃ k, eval cfg o k n = some r

variable {s t : State ν ι ε α}

theorem Kept.final {n : ν} {r : Except ε α} (h : Kept (s.cores n) (t.cores n)) :
    Final t n r ↔ Final s n r := by
  rw [Final, Final, h]

theorem Kept.dropped {b c : CoreState ν ι ε α} (h : Kept b c) : c.dropped = b.dropped := by
  rw [h]

/-- What a run was given is not taken back. -/
theorem Agrees.of_frame {o : Outside ν ε α} (h : Agrees cfg t o) (hi : Inv cfg s)
    (hframe : Frame s t) : Agrees cfg s o := by
  constructor
  · intro n r hproducer hr hdropped
    have hkept := hframe n ((hi.cell n).mp hr.1)
    exact h.given n r hproducer (hkept.final.mpr hr) (hkept.dropped.trans hdropped)
  · intro n hdone
    have hkept := hframe n hdone
    rw [← hkept.dropped]
    exact h.dropped n (hkept.phase.trans hdone)

/-- A core that is no step: its result was stored, set or dropped. -/
theorem eval_other {o : Outside ν ε α} {n : ν} {r : Except ε α} (hi : Inv cfg t)
    (ho : Agrees cfg t o) (hn : ∀ sch step, cfg.prog n ≠ .core sch step) (hr : Final t n r) :
    eval cfg o 1 n = some r := by
  have hdone := (hi.cell n).mp hr.1
  have hstored := ((Shape.iff_other hn).mp (hi.shape n (hi.made_of_callback hr.1))).stored
  have heval : eval cfg o 1 n = if o.dropped n then some (.error cfg.stopTag)
      else (cfg.prog n).stored.or (o.given n) := by
    rw [eval]
    cases hprog : cfg.prog n with
    | core sch step => exact absurd hprog (hn sch step)
    | _ => rfl
  rw [heval, ho.dropped n hdone]
  cases hdropped : (t.cores n).dropped with
  | true =>
    have hslot := (hstored.dropped hdropped).2
    rw [hr.2] at hslot
    cases hslot
    rfl
  | false =>
    rw [if_neg (by simp)]
    cases hx : (cfg.prog n).stored with
    | some x =>
      have hslot := hstored.ready x hx hdropped
      rw [hr.2] at hslot
      cases hslot
      rfl
    | none =>
      have hproducer : (cfg.prog n).isProducer = true := by
        cases hprog : cfg.prog n with
        | core sch step => exact absurd hprog (hn sch step)
        | ready | readyCore => simp [hprog, Node.stored] at hx
        | _ => rfl
      rw [Option.none_or]
      exact ho.given n r hproducer hr hdropped

/-- The input of a step that ended, in the reference. -/
theorem eval_input {o : Outside ν ε α} {n : ν} {step : Step ν ι ε α} {r : Except ε α}
    (hi : Inv cfg s) (hs : Evaluated cfg s) (ho : Agrees cfg s o) (hframe : Frame s t)
    (hdropped : o.dropped n = (t.cores n).dropped)
    (hprevious : ∀ p, step.previous = some p → ∃ r, Final s p r)
    (hinput : Input cfg t step (t.cores n).dropped r) :
    ∃ k, fed cfg o (eval cfg o k) n step = some r := by
  simp only [fed, hdropped]
  cases hd : (t.cores n).dropped with
  | true =>
    rw [hd, Input, if_pos rfl] at hinput
    exact ⟨0, by rw [if_pos rfl, hinput]⟩
  | false =>
    rw [hd, Input, if_neg (by simp)] at hinput
    simp only [Bool.false_eq_true, if_false]
    cases hp : step.previous with
    | none =>
      simp only [hp] at hinput
      exact ⟨0, by rw [hinput]⟩
    | some p =>
      simp only [hp] at hinput
      obtain ⟨x, hx⟩ := hprevious p hp
      have hkept := hframe p ((hi.cell p).mp hx.1)
      exact hs o ho p r (hkept.final.mp hinput)

/-- A step that ended has the result of the reference, if what it depends on has. -/
theorem eval_step {o : Outside ν ε α} {n : ν} {sch : Bool} {step : Step ν ι ε α}
    {r : Except ε α} (hi : Inv cfg s) (hs : Evaluated cfg s) (ho : Agrees cfg t o)
    (hmove : Move cfg s t) (hprog : cfg.prog n = .core sch step) (hr : Final t n r)
    (hgrounded : Grounded cfg s t n) : ∃ k, eval cfg o k n = some r := by
  have hdone := (hmove.inv.cell n).mp hr.1
  have ho' := ho.of_frame hi hmove.frame
  have hprevious : ∀ p, step.previous = some p → ∃ r, Final s p r := by
    intro p hp
    exact hgrounded.previous p (by rw [hprog, Node.previous, hp])
  have hsettled := hmove.inv.values.done n sch step hprog hdone
  cases hinner : (t.cores n).inner with
  | none =>
    obtain ⟨x, y, hx, hy, -, hslot⟩ := hsettled.plain hinner
    obtain ⟨k, hk⟩ := eval_input hi hs ho' hmove.frame (ho.dropped n hdone) hprevious hx
    refine ⟨k + 1, ?_⟩
    rw [eval, hprog]
    simp only [hk, Option.bind_some, hy]
    rcases hslot with ⟨-, hnot⟩ | hslot
    · exact absurd hr.2 (hnot r)
    · rw [hr.2] at hslot
      cases hslot
      rfl
  | some m =>
    obtain ⟨x, hx, -, hreference⟩ := hmove.inv.values.inner n sch step m hprog hinner
    obtain ⟨-, y, hy, hslot⟩ := hsettled.unwrapped m hinner
    rw [hr.2] at hslot
    cases hslot
    obtain ⟨z, hz⟩ := hgrounded.inner (by rw [hprog]; rfl) m hinner
    have hkept := hmove.frame m ((hi.cell m).mp hz.1)
    obtain ⟨k, hk⟩ := eval_input hi hs ho' hmove.frame (ho.dropped n hdone) hprevious hx
    obtain ⟨l, hl⟩ := hs o ho' m r (hkept.final.mp hy)
    refine ⟨max k l + 1, ?_⟩
    have hk := fed_mono (fun p r => eval_mono o (Nat.le_max_left k l)) hk
    rw [eval, hprog]
    simp only [hk, Option.bind_some, hreference]
    exact eval_mono o (Nat.le_max_right k l) hl

theorem Move.evaluated (h : Move cfg s t) (hi : Inv cfg s) (hs : Evaluated cfg s) :
    Evaluated cfg t := by
  intro o ho n r hr
  have hdone := (h.inv.cell n).mp hr.1
  rcases h.grounded n hdone with hbefore | hgrounded
  · exact hs o (ho.of_frame hi h.frame) n r ((h.frame n hbefore).final.mp hr)
  · by_cases hn : ∀ sch step, cfg.prog n ≠ .core sch step
    · exact ⟨1, eval_other h.inv ho hn hr⟩
    · push Not at hn
      obtain ⟨sch, step, hprog⟩ := hn
      exact eval_step hi hs ho h hprog hr hgrounded

theorem Next.evaluated (h : Next cfg s t) (hi : Inv cfg s) (hs : Evaluated cfg s) :
    Evaluated cfg t := by
  induction h with
  | move h => exact h.evaluated hi hs
  | trans h _ ih ih' => exact ih' h.inv (ih hi hs)

end Yaclib.Core
