import Yaclib.Algo.Core.Going

/-!
A step is reached: `Impl` stores the caller, takes over the executor and the reference that
the step needs, and submits the step or goes on to its callback.
-/

namespace Yaclib.Core

variable {ν ι ε α : Type} {cfg : Config ν ι ε α} {s t : State ν ι ε α}
  {n p : ν} {step : Step ν ι ε α} {e : ι}

/-- The step `n` after it was reached with the caller `p`, on the executor `e`. -/
def entered (step : Step ν ι ε α) (p : ν) (e : ι) (c : CoreState ν ι ε α) : CoreState ν ι ε α :=
  { c with
    slot := .self { caller := some p }
    executor := some e
    on := some e
    acquired := if step.acquires then [p] else []
    submits := if step.type.call then [e] else []
    phase := if step.type.call then .submitted else .running }

/-- The state after `n` was reached with the caller `p`. -/
structure Enter (s : State ν ι ε α) (n p : ν) (step : Step ν ι ε α) (e : ι)
    (t : State ν ι ε α) : Prop where
  ne : n ≠ p
  executor : (s.cores n).executor = some e ∨
    ((s.cores n).executor = none ∧ (s.cores p).executor = some e)
  self : t.cores n = entered step p e (s.cores n)
  other : ∀ j, j ≠ n → j ≠ p → t.cores j = s.cores j
  caller : t.cores p = s.cores p ∨
    (step.type.fromShared = false ∧ t.cores p = { s.cores p with executor := none })

/-- The step `n` is called with `p` for the first time. -/
structure Entering (cfg : Config ν ι ε α) (s : State ν ι ε α) (n p : ν) (step : Step ν ι ε α) :
    Prop where
  prog : ∃ sch, cfg.prog n = .core sch step
  made : (s.cores n).made = true
  previous : step.previous = some p
  phase : (s.cores n).phase = .here p
  inner : (s.cores n).inner = none
  final : ∃ r, Final s p r

namespace Entering

theorem pending (hn : Entering cfg s n p step) (hi : Inv cfg s) : Pending step (s.cores n) := by
  obtain ⟨sch, hprog⟩ := hn.prog
  have hshape := hi.stepShape hprog hn.made
  rwa [StepShape, hn.phase] at hshape

theorem untouched (hn : Entering cfg s n p step) (hi : Inv cfg s) : Untouched (s.cores n) :=
  (hn.pending hi).fresh hn.inner

theorem on (hn : Entering cfg s n p step) (hi : Inv cfg s) : (s.cores n).on = none :=
  (hn.pending hi).on hn.inner (by simp [hn.previous])

theorem node (hn : Entering cfg s n p step) : (cfg.prog n).previous = some p := by
  obtain ⟨sch, hprog⟩ := hn.prog
  rw [hprog, Node.previous, hn.previous]

/-- The step that is reached uses its caller as the core it is attached to. -/
theorem uses (hn : Entering cfg s n p step) : Uses cfg s n p :=
  .inr ⟨hn.made, hn.node⟩

theorem kind (hn : Entering cfg s n p step) (hi : Inv cfg s) :
    step.type.fromShared = (cfg.prog p).shared := by
  obtain ⟨sch, hprog⟩ := hn.prog
  exact hi.owned.kind n sch step p hprog hn.made hn.previous

/-- The caller has an executor to hand on: only its one user could have taken it. -/
theorem caller_executor (hn : Entering cfg s n p step) (hi : Inv cfg s) :
    (s.cores p).executor ≠ none := by
  obtain ⟨r, hr⟩ := hn.final
  rcases hi.executors.kept p (hi.on_of_final hr) with h | ⟨hshared, k, htaken, -, hk⟩
  · exact h
  · have huser := hi.owned.taken n p hn.uses hshared
    cases htaken.symm.trans huser
    exact absurd (hn.on hi) hk

/-- What a step is attached to is done when the step is reached. -/
theorem ready (hn : Entering cfg s n p step) (q : ν) (hq : (cfg.prog n).previous = some q) :
    ∃ r, Final s q r := by
  cases hn.node.symm.trans hq
  exact hn.final

theorem able (hn : Entering cfg s n p step) (hi : Inv cfg s) : Able cfg s n := by
  refine ⟨hn.made, ?_, hn.ready, fun _ => hn.inner⟩
  rintro m hm rfl
  obtain ⟨-, hidle, -⟩ := hi.chains.task m hm
  rw [hn.phase] at hidle
  cases hidle

end Entering

namespace Enter

theorem phase (h : Enter s n p step e t) : (t.cores n).phase =
    if step.type.call then .submitted else .running := by
  rw [h.self, entered]

theorem on (h : Enter s n p step e t) : (t.cores n).on = some e := by
  rw [h.self, entered]

theorem going (h : Enter s n p step e t) (hn : Entering cfg s n p step) : Going s n t := by
  refine ⟨?_, ?_, ?_, ?_, ?_⟩
  · rw [h.self]
    rfl
  · intro j hj
    by_cases hjp : j = p
    · subst hjp
      rcases h.caller with hcaller | ⟨-, hcaller⟩
      · rw [hcaller]
      · rw [hcaller]
    · rw [h.other j hj hjp]
  · intro q
    rw [hn.phase]
    simp
  · rw [hn.phase]
    simp
  · rw [h.phase]
    cases step.type.call with
    | true => exact .inl rfl
    | false => exact .inr rfl

/-- The head of the task that a step unwrapped is done before the step is. -/
theorem head_done (hi : Inv cfg s) (hp : (cfg.prog p).isCoroutine = false)
    (hdone : (s.cores p).phase = .done) {x : ν} (hx : (s.cores p).head = some x) :
    (s.cores x).phase = .done := by
  obtain ⟨m, hinner, hroot⟩ := hi.chains.head p x hx
  cases hprog : cfg.prog p with
  | core sch step =>
    obtain ⟨-, y, hy, -⟩ := (hi.values.done p sch step hprog hdone).unwrapped m hinner
    exact hi.root_done hroot ((hi.cell m).mp hy.1)
  | _ =>
    have hshape := hi.shape p (hi.made_of_callback ((hi.cell p).mpr hdone))
    rw [Shape, hprog] at hshape
    have hnone := OtherShape.inner hshape (by rw [← hprog, hp])
    rw [hinner] at hnone
    cases hnone

/-- A step without an executor of its own goes on where the step before it was. -/
theorem inherited (h : Enter s n p step e t) (hn : Entering cfg s n p step) (hi : Inv cfg s)
    (hp : (cfg.prog p).isCoroutine = false) (hnone : step.executor = none) :
    (some e = (s.cores p).on ∧ ¬ Swaps cfg s p) ∨ (some e = some cfg.inline ∧ Swaps cfg s p) := by
  have hempty : (s.cores n).executor = none := by
    rw [(hn.pending hi).executor hn.inner (by simp [hn.previous]), hnone]
  have hexecutor : (s.cores p).executor = some e := by
    rcases h.executor with hself | ⟨-, hcaller⟩
    · rw [hempty] at hself
      cases hself
    · exact hcaller
  obtain ⟨r, hr⟩ := hn.final
  -- a coroutine that awaits the core would be its only user
  have hfree : ¬ ∃ c, (s.cores p).taken = some c ∧ (cfg.prog c).isCoroutine = true := by
    rintro ⟨c, hc, hcoroutine⟩
    have hunique : (cfg.prog p).shared = false := by
      by_contra hshared
      rw [hi.owned.free p (by simpa using hshared)] at hc
      cases hc
    have huser := hi.owned.taken n p hn.uses hunique
    obtain ⟨sch, hprog⟩ := hn.prog
    cases hc.symm.trans huser
    rw [hprog] at hcoroutine
    cases hcoroutine
  by_cases hswaps : Swaps cfg s p
  · right
    refine ⟨?_, hswaps⟩
    obtain ⟨x, hx, hcoroutine⟩ := hswaps
    have hdone := head_done hi hp ((hi.cell p).mp hr.1) hx
    have hruns : (s.cores x).runs ≠ 0 := by
      rcases hi.executors.swapped p x hx hcoroutine with hhere | hruns
      · rw [hdone] at hhere
        cases hhere
      · exact hruns
    rcases hi.executors.inline p x hp hx hcoroutine hruns with hc | hno | hinline
    · exact absurd hc hfree
    · rw [hexecutor] at hno
      cases hno
    · exact hexecutor.symm.trans hinline
  · left
    refine ⟨?_, hswaps⟩
    rcases hi.executors.own p hp (hi.on_of_final hr) with hc | hno | hown | ⟨-, hs⟩
    · exact absurd hc hfree
    · rw [hexecutor] at hno
      cases hno
    · exact hexecutor.symm.trans hown
    · exact absurd hs hswaps

theorem moves (h : Enter s n p step e t) (hn : Entering cfg s n p step) (hi : Inv cfg s) :
    Moves cfg s n t := by
  obtain ⟨sch, hprog⟩ := hn.prog
  have hself : (t.cores n).executor = some e := by rw [h.self, entered]
  have hstep : (cfg.prog n).isCoroutine ≠ true := by
    rw [hprog]
    simp [Node.isCoroutine]
  refine ⟨by simp [hself], by simp [h.on], fun _ => .inl (hself.trans h.on.symm), ?_,
    fun _ _ hcoroutine => absurd hcoroutine hstep, fun _ _ hcoroutine => absurd hcoroutine hstep,
    ?_⟩
  · intro j hj
    by_cases hjp : j = p
    · subst hjp
      rcases h.caller with hcaller | ⟨hshared, hcaller⟩
      · exact .inl (by rw [hcaller])
      · -- the executor moved from the caller to `n`
        rw [hn.kind hi] at hshared
        exact .inr (.inl ⟨by rw [hcaller], hshared, hi.owned.taken n j hn.uses hshared, hn.node⟩)
    · exact .inl (by rw [h.other j hj hjp])
  · intro sch' step' q hk hprevious hq hnone
    cases hk.symm.trans hprog
    cases hprevious.symm.trans hn.previous
    rw [h.on]
    exact h.inherited hn hi hq hnone

/-- A step that was reached has taken what it will have to release. -/
theorem begun (hprevious : step.previous = some p) {c : CoreState ν ι ε α}
    (hexecutor : ∀ e', step.executor = some e' → e = e') :
    Begun step (entered step p e c) where
  on := by simp [entered]
  given _ e' he' := by simp [entered, hexecutor e' he']
  submits := by simp [entered]
  acquired := by simp [entered, hprevious]

theorem shape_self (h : Enter s n p step e t) (hn : Entering cfg s n p step) (hi : Inv cfg s) :
    StepShape step (t.cores n) := by
  have hu := hn.untouched hi
  have hentered : Entered step (t.cores n) := by
    rw [h.self]
    refine ⟨begun hn.previous ?_, ?_, rfl, hu.runs, hu.released, hu.destroyed, hu.inner, hu.head⟩
    · intro e' he'
      have hexecutor := (hn.pending hi).executor hn.inner (by simp [hn.previous])
      rw [he'] at hexecutor
      rcases h.executor with hsome | ⟨hnone, -⟩
      · exact Option.some.inj (hsome.symm.trans hexecutor)
      · rw [hexecutor] at hnone
        cases hnone
    · rw [entered, hn.previous]
  have hdropped : (t.cores n).dropped = false := by
    rw [h.self]
    exact hu.dropped
  rw [StepShape, h.phase]
  cases hcall : step.type.call with
  | true => exact ⟨hentered, hdropped, rfl⟩
  | false => exact ⟨hentered, hdropped, rfl⟩

end Enter

/-- Reaching a step is a move that ends no core. -/
theorem Inv.enter (hi : Inv cfg s) (hn : Entering cfg s n p step) (h : Enter s n p step e t) :
    Move cfg s t := by
  refine hi.going_move (hn.able hi) (h.going hn) (h.moves hn hi) ?_
  obtain ⟨sch, hprog⟩ := hn.prog
  rw [Shape, hprog]
  exact h.shape_self hn hi

end Yaclib.Core
