import Yaclib.Algo.Core.Semantics

/-!
What holds in every run of the pipelines: where undefined behaviour is met and where not,
which results the cores get, how often the callbacks and the reference counts are touched,
and on which executors the steps work.
-/

namespace Yaclib.Core

open Concurrency

variable {ν ι ε α : Type} {cfg : Config ν ι ε α} {m m' : Machine ν ι ε α} {n p : ν} {sch : Bool}
  {step : Step ν ι ε α} {r : Except ε α}

theorem inv_empty : Inv cfg {} := by
  refine ⟨fun _ _ => rfl, by simp, by simp, ⟨?_, by simp, by simp⟩, ?_, ⟨?_, by simp, by simp⟩,
    ⟨by simp, by simp, by simp⟩, ⟨by simp, by simp, by simp, by simp, ?_⟩, ⟨by simp, by simp⟩⟩
  · intro p cs hcs
    cases hcs
    exact List.nodup_nil
  · refine ⟨?_, ?_, by simp, by simp, by simp, fun _ _ => rfl⟩
    · rintro j p (h | ⟨h, -⟩) <;> cases h
    · rintro j p (h | ⟨h, -⟩) <;> cases h
  · exact fun m => .refl m
  · intro k sch step n _ _ _ _ hon
    exact absurd rfl hon

/-- A step that is attached to a shared future takes a reference if and only if it gives one
back; from a unique core it gives back the one that it owns. -/
theorem Step.releases_of_previous (hi : Inv cfg m.state) (hprog : cfg.prog n = .core sch step)
    (hmade : (m.state.cores n).made = true) (hprevious : step.previous = some p) :
    step.releases = (!(cfg.prog p).shared || step.acquires) ∧
      ((cfg.prog p).shared = false → step.acquires = false) := by
  have hkind := hi.owned.kind n sch step p hprog hmade hprevious
  have hrun : step.type.run = false := by
    by_contra hrun
    have hnone := step.run_iff.mp (by simpa using hrun)
    rw [hprevious] at hnone
    cases hnone
  have hunique := step.instantiable.unique_iff hrun
  rw [Step.releases, Step.acquires, hrun, hunique, ← hkind]
  cases step.type.fromShared with
  | true => simp
  | false => simp

/-- What a step did so far is what it does once: the callback is invoked and the functor is
destroyed at most once, at most the one reference is taken, and at most the core before it
and then its inner core are released. -/
structure AtMostOnce (step : Step ν ι ε α) (c : CoreState ν ι ε α) : Prop where
  runs : c.runs ≤ 1
  destroyed : c.destroyed ≤ 1
  acquired : c.acquired <+: if step.acquires then step.previous.toList else []
  released : c.released <+:
    (if step.releases then step.previous.toList else []) ++ c.inner.toList

theorem Untouched.atMostOnce {c : CoreState ν ι ε α} (h : Untouched c) : AtMostOnce step c where
  runs := by simp [h.runs]
  destroyed := by simp [h.destroyed]
  acquired := by simp [h.acquired]
  released := by simp [h.released]

theorem StepShape.atMostOnce {c : CoreState ν ι ε α} (h : StepShape step c) :
    AtMostOnce step c := by
  rw [StepShape] at h
  cases hphase : c.phase with
  | idle =>
    rw [hphase] at h
    exact h.2.1.atMostOnce
  | waiting q | here q =>
    rw [hphase] at h
    cases hinner : c.inner with
    | none => exact (h.fresh hinner).atMostOnce
    | some m =>
      have hu := h.unwrapping m hinner
      refine ⟨by simp [hu.runs], by simp [hu.destroyed], by simp [hu.acquired], ?_⟩
      rw [hu.released]
      exact List.prefix_append _ _
  | submitted | running =>
    rw [hphase] at h
    obtain ⟨he, -⟩ := h
    exact ⟨by simp [he.runs], by simp [he.destroyed], by simp [he.acquired],
      by simp [he.released]⟩
  | done =>
    rw [hphase] at h
    exact ⟨h.runs, by simp [h.destroyed], by simp [h.acquired], by simp [h.released]⟩

theorem StepShape.begun {c : CoreState ν ι ε α} (h : StepShape step c)
    (hprevious : step.previous ≠ none) (hon : c.on ≠ none) : Begun step c := by
  rw [StepShape] at h
  cases hphase : c.phase with
  | idle =>
    rw [hphase] at h
    exact absurd h.1 hprevious
  | waiting q | here q =>
    rw [hphase] at h
    cases hinner : c.inner with
    | none => exact absurd (h.on hinner hprevious) hon
    | some m => exact (h.unwrapping m hinner).toBegun
  | submitted | running =>
    rw [hphase] at h
    exact h.1.toBegun
  | done =>
    rw [hphase] at h
    exact h.toBegun

variable [DecidableEq ν]

/-! Every reachable state. -/

/-- What one step of the machine keeps. -/
theorem inv_step (hi : Inv cfg m.state) (hs : Evaluated cfg m.state)
    {e : Event ν ι ε α} (h : (system cfg).step m e = some m') :
    Inv cfg m'.state ∧ Evaluated cfg m'.state := by
  simp only [system, Core.step] at h
  split at h
  · cases h
  · obtain ⟨y, hy, ht⟩ := Option.bind_eq_some_iff.mp h
    cases hi.exec hy with
    | ok hnext _ =>
      cases ht
      exact ⟨hnext.inv, hnext.evaluated hi hs⟩
    | foreign => cases ht
    | fault hf _ =>
      rcases hf with rfl | rfl
      · cases ht
        exact ⟨hi, hs⟩
      · cases ht
        exact ⟨hi, hs⟩

theorem inv_of_reachable (hs : (system cfg).Reachable m) :
    Inv cfg m.state ∧ Evaluated cfg m.state := by
  refine System.Inductive.reachable (P := fun m => Inv cfg m.state ∧ Evaluated cfg m.state)
    ⟨?_, ?_⟩ hs
  · rintro m rfl
    refine ⟨inv_empty, ?_⟩
    intro o _ n r hr
    cases hr.1
  · rintro m e m' ⟨hi, hs⟩ h _
    exact inv_step hi hs h

/-! A pipeline that unwraps the task of a coroutine. -/

/-- A `Then` on an executor that returns the task of a coroutine. -/
def unwrapStep : Step (Fin 4) Nat Nat Nat where
  type := { toUnique := true, call := true, fromUnique := true }
  executor := some 7
  previous := some 0
  param := .value
  returns := .task
  func _ := .ok (.inr 2)
  instantiable := .attached false true
  run_iff := by simp
  run_executor := by simp
  inline_executor := by simp
  detach_plain := by simp
  typed := by
    intro r x h
    cases h
    simp

/-- The `ThenInline` after it. -/
def inlineStep : Step (Fin 4) Nat Nat Nat where
  type := { toUnique := true, fromUnique := true }
  executor := none
  previous := some 1
  param := .value
  returns := .plain
  func
    | .ok v => .ok (.inl (.ok (v + 1)))
    | .error e => .error e
  instantiable := .attached false false
  run_iff := by simp
  run_executor := by simp
  inline_executor := by simp
  detach_plain := by simp
  typed := by
    rintro (e | v) x h
    · cases h
    · cases h
      simp

def unwrapTask : Config (Fin 4) Nat Nat Nat where
  prog
    | 0 => .contract false none
    | 1 => .core false unwrapStep
    | 2 => .promiseType .lazy
    | 3 => .core false inlineStep
  stopTag := 0
  unit := 0
  inline := 1

/-- The promise is set, the coroutine returns, and then the inline step runs. -/
def unwrapTaskRun : List (Event (Fin 4) Nat Nat Nat) :=
  [.make 0, .make 2, .attach 1, .attach 3, .set 0 (.ok 5), .here 1, .call 1, .here 2,
    .set 2 (.ok 8), .here 1, .here 3]

def unwrapTaskEnd : Machine (Fin 4) Nat Nat Nat :=
  ((system unwrapTask).run {} unwrapTaskRun).get (by decide)

theorem reachable_unwrapTaskEnd : (system unwrapTask).Reachable unwrapTaskEnd :=
  .run (fun _ _ _ _ => trivial) (.init rfl) (Option.some_get _).symm

def unwrapTaskOutside : Outside (Fin 4) Nat Nat where
  given
    | 0 => some (.ok 5)
    | 2 => some (.ok 8)
    | _ => none
  dropped _ := false

theorem agrees_unwrapTask : Agrees unwrapTask unwrapTaskEnd.state unwrapTaskOutside where
  given := by
    rintro ⟨_ | _ | _ | _ | n, hn⟩ r hproducer ⟨-, hslot⟩ -
    · cases hslot
      rfl
    · cases hproducer
    · cases hslot
      rfl
    · cases hproducer
    · omega
  dropped := by decide

/-! A coroutine that awaits a `Schedule` step. -/

/-- The result of every core is the one of the reference, whatever the order of events was:
another run of the program that is given the same from outside comes to the same result. -/
theorem results_eval (hs : (system cfg).Reachable m) {o : Outside ν ε α}
    (ho : Agrees cfg m.state o) (hr : Final m.state n r) :
    (∃ k, eval cfg o k n = some r) ∧
      ∀ m', (system cfg).Reachable m' → Agrees cfg m'.state o → ∀ r', Final m'.state n r' →
        r' = r := by
  obtain ⟨k, hk⟩ := (inv_of_reachable hs).2 o ho n r hr
  refine ⟨⟨k, hk⟩, ?_⟩
  intro m' hs' ho' r' hr'
  obtain ⟨k', hk'⟩ := (inv_of_reachable hs').2 o ho' n r' hr'
  exact eval_unique o hk' hk

theorem results_eval_unwrapTask :
    (unwrapTaskEnd.state.cores 3).result = some (.ok 9) ∧
      ∃ k, eval unwrapTask unwrapTaskOutside k 3 = some (.ok 9) :=
  ⟨rfl, (results_eval reachable_unwrapTaskEnd agrees_unwrapTask ⟨rfl, rfl⟩).1⟩

/-! The reference counts and the functors. -/

/-- No step does anything twice, and a step that is done has destroyed its functor and
released what it owned: its inner core, and the core that it was attached to. That core is
its own if it is unique; from a shared one it took a reference if the step was submitted or
returned an async result. -/
theorem references_settled (hs : (system cfg).Reachable m) (hprog : cfg.prog n = .core sch step) :
    AtMostOnce step (m.state.cores n) ∧
    ((m.state.cores n).phase = .done →
      (m.state.cores n).destroyed = 1 ∧
      (step.previous = none → (m.state.cores n).acquired = [] ∧
        (m.state.cores n).released = (m.state.cores n).inner.toList) ∧
      ∀ p, step.previous = some p →
        ((cfg.prog p).shared = false → (m.state.cores n).acquired = [] ∧
          (m.state.cores n).released = p :: (m.state.cores n).inner.toList) ∧
        ((cfg.prog p).shared = true →
          (m.state.cores n).acquired =
            (if step.type.call = true ∨ step.returns ≠ .plain then [p] else []) ∧
          (m.state.cores n).released =
            (m.state.cores n).acquired ++ (m.state.cores n).inner.toList)) := by
  have hi := (inv_of_reachable hs).1
  by_cases hmade : (m.state.cores n).made = true
  · have hshape := hi.stepShape hprog hmade
    refine ⟨hshape.atMostOnce, ?_⟩
    intro hdone
    rw [StepShape, hdone] at hshape
    have hacquired := hshape.acquired
    have hreleased := hshape.released
    refine ⟨hshape.destroyed, ?_, ?_⟩
    · intro hnone
      simpa [hnone] using And.intro hacquired hreleased
    · intro p hp
      obtain ⟨hreleases, hacquires⟩ := step.releases_of_previous hi hprog hmade hp
      refine ⟨?_, ?_⟩
      · intro hunique
        rw [hacquires hunique] at hacquired
        rw [hreleases, hunique, hp] at hreleased
        exact ⟨by simpa using hacquired, by simpa using hreleased⟩
      · intro hshared
        have hasync : step.returns.async ≠ .none ↔ step.returns ≠ .plain := by
          cases step.returns <;> simp [Returns.async]
        have hkind := hi.owned.kind n sch step p hprog hmade hp
        have hiff : step.acquires = true ↔ step.type.call = true ∨ step.returns ≠ .plain := by
          simp [Step.acquires, hkind, hshared, hasync]
        rw [hreleases, hshared] at hreleased
        refine ⟨?_, ?_⟩
        · rw [hacquired, hp]
          simp only [hiff, Option.toList_some]
        · rw [hreleased, hacquired]
          simp
  · rw [hi.unmade n (by simpa using hmade)]
    refine ⟨⟨by simp, by simp, by simp, by simp⟩, ?_⟩
    intro h
    cases h

theorem references_settled_unwrapTask :
    (unwrapTaskEnd.state.cores 1).released = [0, 2] ∧ (unwrapTaskEnd.state.cores 1).destroyed = 1 :=
  ⟨by decide, ((references_settled reachable_unwrapTaskEnd (show unwrapTask.prog 1 = _ from rfl)).2
    (by decide)).1⟩

/-- Where a step works. With an executor of its own it works there; without one it works where
the step before it did, also when that step unwrapped a core that was done on another executor.
Of the coroutines, which await unique futures and tasks only, one that begins a task leaves its
inline executor to the step that unwraps the task. A step is submitted once, or runs where it
is called. -/
theorem executor_inherited (hs : (system cfg).Reachable m)
    (hprog : cfg.prog n = .core sch step) (hprevious : step.previous = some p)
    (hreached : (m.state.cores n).on ≠ none) :
    (∀ e, step.executor = some e → (m.state.cores n).on = some e) ∧
    (step.executor = none → (cfg.prog p).isCoroutine = false →
      ((m.state.cores n).on = (m.state.cores p).on ∧ ¬ Swaps cfg m.state p) ∨
        ((m.state.cores n).on = some cfg.inline ∧ Swaps cfg m.state p)) ∧
    (m.state.cores n).submits =
      (if step.type.call then (m.state.cores n).on.toList else []) := by
  have hi := (inv_of_reachable hs).1
  have hbegun := (hi.stepShape hprog (hi.made_of_on hreached)).begun (by simp [hprevious]) hreached
  refine ⟨hbegun.given (by simp [hprevious]), ?_, hbegun.submits⟩
  intro hnone hp
  exact hi.executors.inherits n sch step p hprog hprevious hp hnone hreached

theorem executor_inherited_unwrapTask :
    (unwrapTaskEnd.state.cores 3).on = some 1 ∧ Swaps unwrapTask unwrapTaskEnd.state 1 := by
  have hon : (unwrapTaskEnd.state.cores 3).on = some 1 := by decide
  refine ⟨hon, ?_⟩
  have h := (executor_inherited (p := 1) reachable_unwrapTaskEnd
    (show unwrapTask.prog 3 = .core false inlineStep from rfl) rfl (by decide)).2.1 rfl rfl
  rcases h with ⟨h, -⟩ | ⟨-, h⟩
  · exact absurd (hon.symm.trans h) (by decide)
  · exact h

/-! The callbacks. -/

/-- No callback is lost: the list of a core that is not done has each core that waits for it
once, and none waits for a core that is done. -/
theorem callbacks_waiting (hs : (system cfg).Reachable m) :
    (∀ p, (m.state.cores p).phase = .done → ∀ n, (m.state.cores n).phase ≠ .waiting p) ∧
    ∀ p, (m.state.cores p).phase ≠ .done → ∃ cs, (m.state.cores p).callback = some cs ∧
      cs.Nodup ∧ ∀ n, n ∈ cs ↔ (m.state.cores n).phase = .waiting p := by
  have hi := (inv_of_reachable hs).1
  refine ⟨?_, ?_⟩
  · intro p hdone
    exact hi.links.closed p ((hi.cell p).mpr hdone)
  · intro p hdone
    obtain ⟨cs, hcs⟩ := Option.ne_none_iff_exists'.mp fun h => hdone ((hi.cell p).mp h)
    exact ⟨cs, hcs, hi.links.nodup p cs hcs, hi.links.mem p cs hcs⟩

theorem callbacks_waiting_unwrapTask :
    (unwrapTaskEnd.state.cores 3).phase = .done ∧
      ∀ n, (unwrapTaskEnd.state.cores n).phase ≠ .waiting 3 := by
  have hdone : (unwrapTaskEnd.state.cores 3).phase = .done := by decide
  exact ⟨hdone, (callbacks_waiting reachable_unwrapTaskEnd).1 3 hdone⟩

end Yaclib.Core
