import Yaclib.Algo.Core.Invariant

/-!
A core goes on: the head of a task is submitted, a step is reached, a coroutine is
resumed. Of the other cores only executors change.
-/

namespace Yaclib.Core

variable {ν ι ε α : Type} {cfg : Config ν ι ε α} {s t : State ν ι ε α} {n : ν}

/-- The state after `n` went on: it is submitted or at work. -/
structure Going (s : State ν ι ε α) (n : ν) (t : State ν ι ε α) : Prop where
  self : t.cores n = { s.cores n with
    slot := (t.cores n).slot
    executor := (t.cores n).executor
    on := (t.cores n).on
    submits := (t.cores n).submits
    runs := (t.cores n).runs
    acquired := (t.cores n).acquired
    destroyed := (t.cores n).destroyed
    phase := (t.cores n).phase }
  other : ∀ j, j ≠ n → t.cores j = { s.cores j with executor := (t.cores j).executor }
  waiting : ∀ p, (s.cores n).phase ≠ .waiting p
  done : (s.cores n).phase ≠ .done
  phase : (t.cores n).phase = .submitted ∨ (t.cores n).phase = .running

/-- The core `n` can go on: its input is there, and it is the head of no task. -/
structure Able (cfg : Config ν ι ε α) (s : State ν ι ε α) (n : ν) : Prop where
  made : (s.cores n).made = true
  head : ∀ m, (s.cores m).handle = some .task → (s.cores m).headOf m ≠ n
  previous : ∀ p, (cfg.prog n).previous = some p → ∃ r, Final s p r
  fresh : (cfg.prog n).isCoroutine = false → (s.cores n).inner = none

namespace Going

/-- A field that going on does not touch is the same in every core. -/
theorem field {β : Type} (h : Going s n t) (f : CoreState ν ι ε α → β)
    (hself : ∀ (c : CoreState ν ι ε α) slot executor on submits runs acquired destroyed phase,
      f { c with slot, executor, on, submits, runs, acquired, destroyed, phase } = f c) (j : ν) :
    f (t.cores j) = f (s.cores j) := by
  by_cases hj : j = n
  · rw [hj, h.self, hself]
  · rw [h.other j hj]
    exact hself (s.cores j) _ _ _ _ _ _ _ _

/-- Of another core only the executor changes. -/
theorem field_other {β : Type} (h : Going s n t) (f : CoreState ν ι ε α → β)
    (hother : ∀ (c : CoreState ν ι ε α) executor, f { c with executor } = f c) {j : ν}
    (hj : j ≠ n) : f (t.cores j) = f (s.cores j) := by
  rw [h.other j hj, hother]

theorem made (h : Going s n t) (j : ν) : (t.cores j).made = (s.cores j).made :=
  h.field (·.made) (fun _ _ _ _ _ _ _ _ _ => rfl) j

theorem callback (h : Going s n t) (j : ν) : (t.cores j).callback = (s.cores j).callback :=
  h.field (·.callback) (fun _ _ _ _ _ _ _ _ _ => rfl) j

theorem inner (h : Going s n t) (j : ν) : (t.cores j).inner = (s.cores j).inner :=
  h.field (·.inner) (fun _ _ _ _ _ _ _ _ _ => rfl) j

theorem head (h : Going s n t) (j : ν) : (t.cores j).head = (s.cores j).head :=
  h.field (·.head) (fun _ _ _ _ _ _ _ _ _ => rfl) j

theorem taken (h : Going s n t) (j : ν) : (t.cores j).taken = (s.cores j).taken :=
  h.field (·.taken) (fun _ _ _ _ _ _ _ _ _ => rfl) j

theorem handle (h : Going s n t) (j : ν) : (t.cores j).handle = (s.cores j).handle :=
  h.field (·.handle) (fun _ _ _ _ _ _ _ _ _ => rfl) j

theorem phase_other (h : Going s n t) {j : ν} (hj : j ≠ n) :
    (t.cores j).phase = (s.cores j).phase :=
  h.field_other (·.phase) (fun _ _ => rfl) hj

theorem on_other (h : Going s n t) {j : ν} (hj : j ≠ n) : (t.cores j).on = (s.cores j).on :=
  h.field_other (·.on) (fun _ _ => rfl) hj

theorem runs_other (h : Going s n t) {j : ν} (hj : j ≠ n) :
    (t.cores j).runs = (s.cores j).runs :=
  h.field_other (·.runs) (fun _ _ => rfl) hj

theorem waiting_iff (h : Going s n t) (j p : ν) :
    (t.cores j).phase = .waiting p ↔ (s.cores j).phase = .waiting p := by
  by_cases hj : j = n
  · rw [hj]
    refine iff_of_false ?_ (h.waiting p)
    rcases h.phase with hphase | hphase <;> simp [hphase]
  · rw [h.phase_other hj]

/-- What is done stays done, whatever happens to its executor. -/
theorem final (h : Going s n t) (hi : Inv cfg s) (p : ν) (r : Except ε α) (hp : Final s p r) :
    Final t p r := by
  have hpn : p ≠ n := by
    rintro rfl
    exact h.done ((hi.cell p).mp hp.1)
  refine ⟨?_, ?_⟩
  · rw [h.callback, hp.1]
  · rw [h.field_other (·.slot) (fun _ _ => rfl) hpn, hp.2]

theorem links (h : Going s n t) (hi : Inv cfg s) : Links t :=
  hi.links.congr h.callback h.waiting_iff

theorem owned (h : Going s n t) (hi : Inv cfg s) : Owned cfg t :=
  hi.owned.congr h.made h.inner h.taken h.handle

theorem chains (h : Going s n t) (hi : Inv cfg s) (hn : Able cfg s n) : Chains cfg t := by
  have hheadOf : ∀ m, (t.cores m).headOf m = (s.cores m).headOf m := fun m =>
    h.field (CoreState.headOf · m) (fun _ _ _ _ _ _ _ _ _ => rfl) m
  refine ⟨?_, ?_, ?_⟩
  · intro m
    rw [hheadOf]
    exact hi.chains.root m
  · intro m hm
    rw [h.handle] at hm
    rw [hheadOf, h.made, h.phase_other (hn.head m hm),
      h.field (·.last) (fun _ _ _ _ _ _ _ _ _ => rfl)]
    exact hi.chains.task m hm
  · intro j x hx
    rw [h.head] at hx
    rw [h.inner]
    exact hi.chains.head j x hx

/-- Who goes on is called with nobody any more. -/
theorem callers (h : Going s n t) (hi : Inv cfg s) (hn : Able cfg s n) : Callers cfg t := by
  have hfinal := h.final hi
  refine ⟨?_, ?_, ?_⟩
  · intro j p hj
    rw [h.inner]
    exact hi.callers.waiting j p ((h.waiting_iff j p).mp hj)
  · intro j p hj
    have hjn : j ≠ n := by
      rintro rfl
      rcases h.phase with hphase | hphase <;> simp [hphase] at hj
    rw [h.phase_other hjn] at hj
    cases hi.callers.here j p hj with
    | unwrapped r hin hr => exact .unwrapped r (by rw [h.inner, hin]) (hfinal p r hr)
    | attached r hin hprev hr => exact .attached r (by rw [h.inner, hin]) hprev (hfinal p r hr)
    | started m hin hprev hhead hm hruns =>
      refine .started m (by rw [h.inner, hin]) hprev (by rw [h.head, hhead])
        ((h.waiting_iff p m).mpr hm) ?_
      rw [h.runs_other hjn]
      exact hruns
  · intro j p hon hprev
    by_cases hj : j = n
    · subst hj
      obtain ⟨r, hr⟩ := hn.previous p hprev
      exact ⟨r, hfinal p r hr⟩
    · rw [h.on_other hj] at hon
      obtain ⟨r, hr⟩ := hi.callers.previous j p hon hprev
      exact ⟨r, hfinal p r hr⟩

/-- No step returned a core or is done by going on. -/
theorem values (h : Going s n t) (hi : Inv cfg s) (hn : Able cfg s n) : Values cfg t := by
  refine hi.values.other (h.final hi) (n := n) ?_ ?_ ?_
  · intro j hj
    refine ⟨⟨h.inner j, ?_, h.runs_other hj, ?_⟩, ?_⟩
    · exact h.field_other (·.dropped) (fun _ _ => rfl) hj
    · exact h.field_other (·.slot) (fun _ _ => rfl) hj
    · rw [h.phase_other hj]
      exact id
  · intro sch step m hstep hm
    rw [h.inner, hn.fresh (by rw [hstep]; rfl)] at hm
    cases hm
  · intro sch step _ hdone
    rcases h.phase with hphase | hphase <;> simp [hphase] at hdone

/-- A core that was reached stays reached. -/
theorem reached (h : Going s n t) (hon : (t.cores n).on ≠ none) {k q : ν}
    (hk : Reached cfg s k q) : Reached cfg t k q := by
  refine ⟨hk.1, ?_⟩
  by_cases hkn : k = n
  · rw [hkn]
    exact hon
  · rw [h.on_other hkn]
    exact hk.2

/-- What is attached to a core that goes on was not reached. -/
theorem not_reached (h : Going s n t) (hi : Inv cfg s) (k : ν) : ¬ Reached cfg s k n := by
  rintro ⟨hprev, hon⟩
  obtain ⟨r, hr⟩ := hi.callers.previous k n hon hprev
  exact h.done ((hi.cell n).mp hr.1)

theorem frame (h : Going s n t) : Frame s t := by
  intro j hj
  have hjn : j ≠ n := by
    rintro rfl
    exact h.done hj
  rw [h.other j hjn]
  rfl

theorem not_done (h : Going s n t) (j : ν) (hj : (t.cores j).phase = .done) :
    (s.cores j).phase = .done := by
  by_cases hjn : j = n
  · rw [hjn] at hj
    rcases h.phase with hphase | hphase <;> simp [hphase] at hj
  · rwa [h.phase_other hjn] at hj

end Going

/-- How the executors change when `n` goes on. -/
structure Moves (cfg : Config ν ι ε α) (s : State ν ι ε α) (n : ν) (t : State ν ι ε α) :
    Prop where
  self : (t.cores n).executor ≠ none
  on : (t.cores n).on ≠ none
  own : (cfg.prog n).isCoroutine = false → (t.cores n).executor = (t.cores n).on ∨
    ((t.cores n).executor = (s.cores n).executor ∧ (t.cores n).on = (s.cores n).on)
  /-- kept, moved to the one user, or swapped with the executor of a coroutine -/
  other : ∀ j, j ≠ n → (t.cores j).executor = (s.cores j).executor ∨
    ((t.cores j).executor = none ∧ (cfg.prog j).shared = false ∧ (s.cores j).taken = some n ∧
      (cfg.prog n).previous = some j) ∨
    ((t.cores j).executor ≠ none ∧
      ((s.cores j).phase = .done ∨
        ((∃ m, (s.cores j).phase = .waiting m) ∧ (s.cores j).inner ≠ none)) ∧
      ((∃ c, (s.cores j).taken = some c ∧ (cfg.prog c).isCoroutine = true) ∨
        ((t.cores j).executor = some cfg.inline ∧ Swaps cfg s j)))
  swapped : ∀ j, (s.cores j).head = some n → (cfg.prog n).isCoroutine = true →
    (t.cores n).runs ≠ 0
  inline : ∀ j, (s.cores j).head = some n → (cfg.prog n).isCoroutine = true →
    (s.cores n).runs = 0 → (t.cores j).executor = some cfg.inline
  inherits : ∀ sch step q, cfg.prog n = .core sch step → step.previous = some q →
    (cfg.prog q).isCoroutine = false → step.executor = none →
    ((t.cores n).on = (s.cores q).on ∧ ¬ Swaps cfg s q) ∨
      ((t.cores n).on = some cfg.inline ∧ Swaps cfg s q)

theorem Going.executors (h : Going s n t) (hi : Inv cfg s) (hn : Able cfg s n)
    (hm : Moves cfg s n t) : Executors cfg t := by
  have hhead : (cfg.prog n).isCoroutine = false → ∀ x, (s.cores n).head ≠ some x := by
    intro hnot x hx
    obtain ⟨m, hinner, -⟩ := hi.chains.head n x hx
    rw [hn.fresh hnot] at hinner
    cases hinner
  refine ⟨?_, ?_, ?_, ?_, ?_⟩
  · intro j hon
    by_cases hj : j = n
    · exact .inl (hj ▸ hm.self)
    rw [h.on_other hj] at hon
    rw [h.taken]
    rcases hm.other j hj with hkept | ⟨-, hshared, htaken, hprevious⟩ | ⟨hsome, -⟩
    · rw [hkept]
      refine (hi.executors.kept j hon).imp_right ?_
      rintro ⟨hshared, k, hk, hreached⟩
      exact ⟨hshared, k, hk, h.reached hm.on hreached⟩
    · exact .inr ⟨hshared, n, htaken, hprevious, hm.on⟩
    · exact .inl hsome
  · intro j hj hon
    by_cases hjn : j = n
    · subst hjn
      rcases hm.own hj with hown | ⟨hexecutor, hsame⟩
      · exact .inr (.inr (.inl hown))
      · rw [hsame] at hon ⊢
        rw [hexecutor, h.taken, Swaps.congr h.head]
        exact hi.executors.own j hj hon
    rw [h.on_other hjn] at hon ⊢
    rw [h.taken, Swaps.congr h.head]
    rcases hm.other j hjn with hkept | ⟨hnone, -⟩ | ⟨-, -, htaken | hinline⟩
    · rw [hkept]
      exact hi.executors.own j hj hon
    · exact .inr (.inl hnone)
    · exact .inl htaken
    · exact .inr (.inr (.inr hinline))
  · intro j x hx hcoroutine
    rw [h.head] at hx
    by_cases hxn : x = n
    · subst hxn
      exact .inr (hm.swapped j hx hcoroutine)
    · rw [h.phase_other hxn, h.runs_other hxn]
      exact hi.executors.swapped j x hx hcoroutine
  · intro j x hj hx hcoroutine hruns
    rw [h.head] at hx
    have hjn : j ≠ n := by
      rintro rfl
      exact hhead hj x hx
    rw [h.taken]
    by_cases hfirst : x = n ∧ (s.cores n).runs = 0
    · obtain ⟨rfl, hzero⟩ := hfirst
      exact .inr (.inr (hm.inline j hx hcoroutine hzero))
    have hruns' : (s.cores x).runs ≠ 0 := by
      by_cases hxn : x = n
      · intro hzero
        exact hfirst ⟨hxn, hxn ▸ hzero⟩
      · rwa [h.runs_other hxn] at hruns
    rcases hm.other j hjn with hkept | ⟨hnone, -⟩ | ⟨-, -, htaken | ⟨hinline, -⟩⟩
    · rw [hkept]
      exact hi.executors.inline j x hj hx hcoroutine hruns'
    · exact .inr (.inl hnone)
    · exact .inl htaken
    · exact .inr (.inr hinline)
  · intro k sch step j hk hprevious hj hnone hon
    rw [Swaps.congr h.head]
    have hjn : k ≠ n → j ≠ n := by
      rintro hkn rfl
      rw [h.on_other hkn] at hon
      exact h.not_reached hi k ⟨by rw [hk, Node.previous, hprevious], hon⟩
    by_cases hkn : k = n
    · subst hkn
      have hjk : j ≠ k := by
        rintro rfl
        obtain ⟨r, hr⟩ := hn.previous j (by rw [hk, Node.previous, hprevious])
        exact h.done ((hi.cell j).mp hr.1)
      rw [h.on_other hjk]
      exact hm.inherits sch step j hk hprevious hj hnone
    · rw [h.on_other hkn] at hon ⊢
      rw [h.on_other (hjn hkn)]
      exact hi.executors.inherits k sch step j hk hprevious hj hnone hon

/-- Nothing was taken from a core that is not made. -/
theorem Moves.unmade (hm : Moves cfg s n t) (hi : Inv cfg s) {j : ν} (hj : j ≠ n)
    (hmade : (s.cores j).made = false) : (t.cores j).executor = (s.cores j).executor := by
  have hempty := hi.unmade j hmade
  rcases hm.other j hj with hkept | ⟨-, -, htaken, -⟩ | ⟨-, -, ⟨c, htaken, -⟩ | ⟨-, x, hhead, -⟩⟩
  · exact hkept
  · rw [hempty] at htaken
    cases htaken
  · rw [hempty] at htaken
    cases htaken
  · rw [hempty] at hhead
    cases hhead

theorem Going.shape_other (h : Going s n t) (hi : Inv cfg s) (hn : Able cfg s n)
    (hm : Moves cfg s n t) {j : ν} (hj : j ≠ n) (hmade : (s.cores j).made = true) :
    Shape cfg j (t.cores j) := by
  have hshape := hi.shape j hmade
  rw [h.other j hj]
  rcases hm.other j hj with hkept | ⟨-, -, -, hprevious⟩ | ⟨-, hdone | ⟨⟨m, hwait⟩, hinner⟩, -⟩
  · rw [hkept]
    exact hshape
  · obtain ⟨r, hr⟩ := hn.previous j hprevious
    exact hshape.executor_of_done ((hi.cell j).mp hr.1)
  · exact hshape.executor_of_done hdone
  · exact hshape.executor_of_waiting hwait hinner

/-- A core that goes on keeps the invariant, if the executors change as `Moves` says. -/
theorem Inv.going (hi : Inv cfg s) (hn : Able cfg s n) (h : Going s n t) (hm : Moves cfg s n t)
    (hshape : Shape cfg n (t.cores n)) : Inv cfg t := by
  refine ⟨?_, ?_, ?_, h.links hi, h.owned hi, h.chains hi hn, h.callers hi hn,
    h.executors hi hn hm, h.values hi hn⟩
  · intro j hj
    rw [h.made] at hj
    have hjn : j ≠ n := by
      rintro rfl
      rw [hn.made] at hj
      cases hj
    rw [h.other j hjn, hm.unmade hi hjn hj]
    exact hi.unmade j hj
  · intro j
    rw [h.callback, hi.cell]
    by_cases hj : j = n
    · rw [hj]
      refine iff_of_false h.done ?_
      rcases h.phase with hphase | hphase <;> simp [hphase]
    · rw [h.phase_other hj]
  · intro j hj
    rw [h.made] at hj
    by_cases hjn : j = n
    · exact hjn ▸ hshape
    · exact h.shape_other hi hn hm hjn hj

theorem Inv.going_move (hi : Inv cfg s) (hn : Able cfg s n) (h : Going s n t)
    (hm : Moves cfg s n t) (hshape : Shape cfg n (t.cores n)) : Move cfg s t :=
  ⟨hi.going hn h hm hshape, h.frame, fun j hj => .inl (h.not_done j hj)⟩

end Yaclib.Core
