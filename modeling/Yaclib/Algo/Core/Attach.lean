import Yaclib.Algo.Core.Link
import Yaclib.Algo.Core.Resume

/-!
New cores: those that are made by themselves, and the steps that are attached to a future,
a shared future or a task.
-/

namespace Yaclib.Core

variable {ν ι ε α : Type} {cfg : Config ν ι ε α} {s t : State ν ι ε α} {n p : ν}

namespace Inv

/-- Nobody uses a core before it is made. -/
theorem not_uses_unmade (hi : Inv cfg s) (hmade : (s.cores n).made = false) (j : ν) :
    ¬ Uses cfg s j n := by
  intro huses
  have hn := (hi.owned.attached j n huses).1
  rw [hmade] at hn
  cases hn

/-- Only a core that was made works somewhere. -/
theorem made_of_on (hi : Inv cfg s) (hon : (s.cores n).on ≠ none) : (s.cores n).made = true := by
  by_contra hmade
  rw [hi.unmade n (by simpa using hmade)] at hon
  exact hon rfl

theorem made_of_head (hi : Inv cfg s) {j : ν} (h : (s.cores j).head ≠ none) :
    (s.cores j).made = true := by
  by_contra hmade
  rw [hi.unmade j (by simpa using hmade)] at h
  exact h rfl

/-- The pipeline before a core that is made is made. -/
theorem made_of_root (hi : Inv cfg s) {m h : ν} (hroot : Root cfg.prog m h)
    (hm : (s.cores m).made = true) : (s.cores h).made = true := by
  induction hroot with
  | refl => exact hm
  | step hprevious _ ih => exact ih (hi.owned.attached _ _ (.inr ⟨hm, hprevious⟩)).1

theorem made_of_headed (hi : Inv cfg s) {j h : ν} (hh : (s.cores j).head = some h) :
    (s.cores h).made = true := by
  obtain ⟨m, hinner, hroot⟩ := hi.chains.head j h hh
  exact hi.made_of_root hroot (hi.owned.attached j m (.inl hinner)).1

/-- Nothing is attached to a core that is not made. -/
theorem not_reached_unmade (hi : Inv cfg s) (hmade : (s.cores n).made = false) (k : ν)
    (hon : (s.cores k).on ≠ none) : (cfg.prog k).previous ≠ some n := by
  intro hprevious
  exact hi.not_uses_unmade hmade k (.inr ⟨hi.made_of_on hon, hprevious⟩)

end Inv

/-- The fields of a core that is made by itself. -/
structure New (n : ν) (c : CoreState ν ι ε α) : Prop where
  made : c.made = true
  cell : c.callback = none ↔ c.phase = .done
  callback : ∀ cs, c.callback = some cs → cs = []
  waiting : ∀ p, c.phase ≠ .waiting p
  here : ∀ p, c.phase ≠ .here p
  inner : c.inner = none
  head : c.head = none
  taken : c.taken = none
  next : c.next = []
  task : c.handle = some .task → c.phase = .idle ∧ c.last = some n
  executor : c.executor = c.on
  on : c.on ≠ none

/-- A core that is made by itself and can be added to any state. -/
structure Born (cfg : Config ν ι ε α) (n : ν) (c : CoreState ν ι ε α) : Prop
    extends New n c where
  shape : Shape cfg n c
  handle : c.handle ≠ none → (cfg.prog n).shared = false ∧ (cfg.prog n).detached = false
  previous : (cfg.prog n).previous = none
  step : ∀ sch step, cfg.prog n = .core sch step → c.phase ≠ .done

/-- A core that nobody refers to yet can be added: the others do not change. -/
theorem Inv.born (hi : Inv cfg s) {c : CoreState ν ι ε α} (hmade : (s.cores n).made = false)
    (hc : Born cfg n c) (hself : t.cores n = c) (hother : ∀ j, j ≠ n → t.cores j = s.cores j) :
    Inv cfg t := by
  have hempty := hi.unmade n hmade
  have hmadeOf : ∀ j, (s.cores j).made = true → j ≠ n := by
    rintro j hj rfl
    rw [hmade] at hj
    cases hj
  have hfinal : ∀ p r, Final s p r → Final t p r := by
    intro p r hp
    rw [Final, hother p (hmadeOf p (hi.made_of_callback hp.1))]
    exact hp
  have huses : ∀ j p, Uses cfg t j p → Uses cfg s j p := by
    intro j p h
    by_cases hj : j = n
    · rw [Uses, hj, hself, hc.inner, hc.previous] at h
      simp at h
    · rwa [Uses, hother j hj] at h
  have hwaiting : ∀ j p, (t.cores j).phase = .waiting p ↔ (s.cores j).phase = .waiting p := by
    intro j p
    by_cases hj : j = n
    · rw [hj, hself, hempty]
      exact iff_of_false (hc.waiting p) (by simp)
    · rw [hother j hj]
  refine ⟨?_, ?_, ?_, ?_, ?_, ?_, ?_, ?_, ?_⟩
  · intro j hj
    have hjn : j ≠ n := by
      rintro rfl
      rw [hself, hc.made] at hj
      cases hj
    rw [hother j hjn] at hj ⊢
    exact hi.unmade j hj
  · intro j
    by_cases hj : j = n
    · rw [hj, hself]
      exact hc.cell
    · rw [hother j hj]
      exact hi.cell j
  · intro j hj
    by_cases hjn : j = n
    · rw [hjn, hself]
      exact hc.shape
    · rw [hother j hjn] at hj ⊢
      exact hi.shape j hj
  · have hnone : ∀ j, (s.cores j).phase ≠ .waiting n := fun j hj =>
      hi.not_uses_unmade hmade j (hi.uses_of_waiting hj)
    refine ⟨?_, ?_, ?_⟩
    · intro p cs hcs
      by_cases hp : p = n
      · rw [hp, hself] at hcs
        rw [hc.callback cs hcs]
        exact List.nodup_nil
      · rw [hother p hp] at hcs
        exact hi.links.nodup p cs hcs
    · intro p cs hcs j
      rw [hwaiting]
      by_cases hp : p = n
      · rw [hp, hself] at hcs
        rw [hp, hc.callback cs hcs]
        exact iff_of_false (by simp) (hnone j)
      · rw [hother p hp] at hcs
        exact hi.links.mem p cs hcs j
    · intro p hp j
      rw [ne_eq, hwaiting]
      by_cases hpn : p = n
      · rw [hpn]
        exact hnone j
      · rw [hother p hpn] at hp
        exact hi.links.closed p hp j
  · refine ⟨?_, ?_, ?_, ?_, ?_, ?_⟩
    · intro j p h hshared
      have h := huses j p h
      rw [hother p (hmadeOf p (hi.owned.attached j p h).1)]
      exact hi.owned.taken j p h hshared
    · intro j p h
      have h := huses j p h
      rw [hother p (hmadeOf p (hi.owned.attached j p h).1)]
      exact hi.owned.attached j p h
    · intro p hp
      by_cases hpn : p = n
      · rw [hpn, hself] at hp ⊢
        obtain ⟨hshared, hdetached⟩ := hc.handle hp
        exact ⟨hc.taken, hc.made, hshared, hdetached⟩
      · rw [hother p hpn] at hp ⊢
        exact hi.owned.handle p hp
    · intro j sch step p hj hjmade hprevious
      by_cases hjn : j = n
      · have hnone := hc.previous
        rw [← hjn, hj, Node.previous, hprevious] at hnone
        cases hnone
      · rw [hother j hjn] at hjmade
        exact hi.owned.kind j sch step p hj hjmade hprevious
    · intro j p hcoroutine hinner
      by_cases hjn : j = n
      · rw [hjn, hself, hc.inner] at hinner
        cases hinner
      · rw [hother j hjn] at hinner
        exact hi.owned.awaits j p hcoroutine hinner
    · intro p hshared
      by_cases hpn : p = n
      · rw [hpn, hself]
        exact hc.taken
      · rw [hother p hpn]
        exact hi.owned.free p hshared
  · refine ⟨?_, ?_, ?_⟩
    · intro j
      by_cases hj : j = n
      · rw [hj, hself, CoreState.headOf, hc.next]
        exact .refl n
      · rw [hother j hj]
        exact hi.chains.root j
    · intro j hj
      by_cases hjn : j = n
      · rw [hjn, hself] at hj
        obtain ⟨hidle, hlast⟩ := hc.task hj
        have hheadOf : (t.cores n).headOf n = n := by
          rw [hself, CoreState.headOf, hc.next]
          rfl
        rw [hjn, hheadOf, hself]
        exact ⟨hc.made, hidle, hlast⟩
      · rw [hother j hjn] at hj ⊢
        have htask := hi.chains.task j hj
        rw [hother _ (hmadeOf _ htask.1)]
        exact htask
    · intro j h hh
      by_cases hj : j = n
      · rw [hj, hself, hc.head] at hh
        cases hh
      · rw [hother j hj] at hh ⊢
        exact hi.chains.head j h hh
  · refine ⟨?_, ?_, ?_⟩
    · intro j p hj
      have hj := (hwaiting j p).mp hj
      rw [hother j (hmadeOf j (hi.made_of_phase (by simp [hj])))]
      exact hi.callers.waiting j p hj
    · intro j p hj
      have hjn : j ≠ n := by
        rintro rfl
        rw [hself] at hj
        exact hc.here p hj
      have hsame := hother j hjn
      rw [hsame] at hj
      cases hi.callers.here j p hj with
      | unwrapped r hin hr => exact .unwrapped r (by rw [hsame, hin]) (hfinal p r hr)
      | attached r hin hprevious hr =>
        exact .attached r (by rw [hsame, hin]) hprevious (hfinal p r hr)
      | started q hin hprevious hpj hq hzero =>
        have hp := hother p (hmadeOf p (hi.made_of_head (by simp [hpj])))
        refine .started q (by rw [hsame, hin]) hprevious (by rw [hp, hpj]) (by rw [hp, hq]) ?_
        rw [hsame]
        exact hzero
    · intro j p hon hprevious
      by_cases hj : j = n
      · rw [hj, hc.previous] at hprevious
        cases hprevious
      · rw [hother j hj] at hon
        obtain ⟨r, hr⟩ := hi.callers.previous j p hon hprevious
        exact ⟨r, hfinal p r hr⟩
  · have hswaps : ∀ j, Swaps cfg s j → Swaps cfg t j := by
      rintro j ⟨h, hh, hcoroutine⟩
      exact ⟨h, by rw [hother j (hmadeOf j (hi.made_of_head (by simp [hh]))), hh], hcoroutine⟩
    have hheads : ∀ j h, (t.cores j).head = some h → j ≠ n ∧ h ≠ n := by
      intro j h hh
      have hj : j ≠ n := by
        rintro rfl
        rw [hself, hc.head] at hh
        cases hh
      rw [hother j hj] at hh
      exact ⟨hj, hmadeOf h (hi.made_of_headed hh)⟩
    refine ⟨?_, ?_, ?_, ?_, ?_⟩
    · intro j hon
      by_cases hj : j = n
      · rw [hj, hself] at hon ⊢
        exact .inl (hc.executor ▸ hon)
      · rw [hother j hj] at hon ⊢
        refine (hi.executors.kept j hon).imp_right ?_
        rintro ⟨hshared, k, hk, hreached⟩
        refine ⟨hshared, k, hk, hreached.1, ?_⟩
        rw [hother k (hmadeOf k (hi.made_of_on hreached.2))]
        exact hreached.2
    · intro j hj hon
      by_cases hjn : j = n
      · rw [hjn, hself]
        exact .inr (.inr (.inl hc.executor))
      · rw [hother j hjn] at hon ⊢
        refine (hi.executors.own j hj hon).imp_right (.imp_right (.imp_right ?_))
        rintro ⟨hinline, h⟩
        exact ⟨hinline, hswaps j h⟩
    · intro j h hh hcoroutine
      obtain ⟨hj, hhn⟩ := hheads j h hh
      rw [hother j hj] at hh
      rw [hother h hhn]
      exact hi.executors.swapped j h hh hcoroutine
    · intro j h hj hh hcoroutine hruns
      obtain ⟨hjn, hhn⟩ := hheads j h hh
      rw [hother j hjn] at hh ⊢
      rw [hother h hhn] at hruns
      exact hi.executors.inline j h hj hh hcoroutine hruns
    · intro k sch step j hk hprevious hj hnone hon
      have hkprevious : (cfg.prog k).previous = some j := by rw [hk, Node.previous, hprevious]
      have hkn : k ≠ n := by
        rintro rfl
        rw [hc.previous] at hkprevious
        cases hkprevious
      rw [hother k hkn] at hon ⊢
      have hjn : j ≠ n := by
        rintro rfl
        exact hi.not_reached_unmade hmade k hon hkprevious
      have hs : Swaps cfg t j ↔ Swaps cfg s j := by rw [Swaps, Swaps, hother j hjn]
      rw [hother j hjn, hs]
      exact hi.executors.inherits k sch step j hk hprevious hj hnone hon
  · refine hi.values.other hfinal (n := n) ?_ ?_ ?_
    · intro j hj
      rw [hother j hj]
      exact ⟨⟨rfl, rfl, rfl, rfl⟩, id⟩
    · intro sch step m _ hm
      rw [hself, hc.inner] at hm
      cases hm
    · intro sch step hstep hdone
      rw [hself] at hdone
      exact absurd hdone (hc.step sch step hstep)

theorem Inv.born_frame (hi : Inv cfg s) (hmade : (s.cores n).made = false)
    (hother : ∀ j, j ≠ n → t.cores j = s.cores j) : Frame s t := by
  intro j hj
  refine .of_eq (hother j ?_)
  rintro rfl
  rw [hi.unmade j hmade] at hj
  cases hj

variable {step : Step ν ι ε α}

/-- The step `n` can be attached to `p`. -/
structure Attaching (cfg : Config ν ι ε α) (s : State ν ι ε α) (n p : ν) (step : Step ν ι ε α) :
    Prop where
  prog : ∃ sch, cfg.prog n = .core sch step
  unmade : (s.cores n).made = false
  previous : step.previous = some p
  shared : step.type.fromShared = true → (s.cores p).made = true ∧ (cfg.prog p).shared = true
  unique : step.type.fromShared = false →
    (s.cores p).handle = some (if step.type.lazy then .task else .future)

namespace Attaching

theorem node (hn : Attaching cfg s n p step) : (cfg.prog n).previous = some p := by
  obtain ⟨sch, hprog⟩ := hn.prog
  rw [hprog, Node.previous, hn.previous]

theorem caller (hn : Attaching cfg s n p step) (hi : Inv cfg s) :
    (s.cores p).made = true ∧ (cfg.prog p).detached = false := by
  cases hshared : step.type.fromShared with
  | true =>
    obtain ⟨hmade, hp⟩ := hn.shared hshared
    exact ⟨hmade, Node.detached_of_shared hp⟩
  | false =>
    obtain ⟨-, hmade, -, hdetached⟩ := hi.owned.handle p (by simp [hn.unique hshared])
    exact ⟨hmade, hdetached⟩

theorem ne (hn : Attaching cfg s n p step) (hi : Inv cfg s) : p ≠ n := by
  rintro rfl
  have hmade := (hn.caller hi).1
  rw [hn.unmade] at hmade
  cases hmade

/-- A step knows whether it is attached to a shared core. -/
theorem kind (hn : Attaching cfg s n p step) (hi : Inv cfg s) :
    step.type.fromShared = (cfg.prog p).shared := by
  cases hshared : step.type.fromShared with
  | true => exact (hn.shared hshared).2.symm
  | false => exact (hi.owned.handle p (by simp [hn.unique hshared])).2.2.1.symm

/-- Nobody uses a unique core that a step is attached to. -/
theorem not_uses (hn : Attaching cfg s n p step) (hi : Inv cfg s)
    (hunique : (cfg.prog p).shared = false) (j : ν) : ¬ Uses cfg s j p := by
  rw [← hn.kind hi] at hunique
  exact hi.not_uses (by simp [hn.unique hunique]) j

/-- A step that is attached to another is no shared core. -/
theorem not_shared (hn : Attaching cfg s n p step) : (cfg.prog n).shared = false := by
  obtain ⟨sch, hprog⟩ := hn.prog
  have hrun : step.type.run ≠ true := by
    intro hrun
    rw [step.run_iff, hn.previous] at hrun
    cases hrun
  rw [hprog]
  exact step.instantiable.not_shared_of_attached (by simpa using hrun)

/-- The task that a lazy step is attached to. -/
theorem task (hn : Attaching cfg s n p step) (hlazy : step.type.lazy = true) :
    (s.cores p).handle = some .task := by
  rw [hn.unique (step.instantiable.unique_of_lazy hlazy), if_pos hlazy]

/-- Nobody has taken the core that the step is attached to, since its handle is there. -/
theorem taken (hn : Attaching cfg s n p step) (hi : Inv cfg s)
    (hunique : (cfg.prog p).shared = false) : (s.cores p).taken = none := by
  rw [← hn.kind hi] at hunique
  exact (hi.owned.handle p (by simp [hn.unique hunique])).1

end Attaching

variable [DecidableEq ν]

/-- The state after the step `n` was attached to `p`. -/
structure Attach (cfg : Config ν ι ε α) (s : State ν ι ε α) (n p : ν) (step : Step ν ι ε α)
    (t : State ν ι ε α) : Prop where
  made : ∀ j, (t.cores j).made = if j = n then true else (s.cores j).made
  callback : ∀ j, (t.cores j).callback =
    if j = p then (s.cores p).callback.map (n :: ·) else (s.cores j).callback
  handle : ∀ j, (t.cores j).handle =
    if j = n then
      if step.type.detach then none else some (if step.type.lazy then .task else .future)
    else if j = p then none
    else (s.cores j).handle
  next : ∀ j, (t.cores j).next =
    if j = n then if step.type.lazy then p :: (s.cores p).next else [] else (s.cores j).next
  phase : ∀ j, (t.cores j).phase =
    if j = n then if (s.cores p).callback = none then .here p else .waiting p
    else (s.cores j).phase
  taken : ∀ j, (t.cores j).taken =
    if j = p ∧ (cfg.prog p).shared = false then some n else (s.cores j).taken
  last : ∀ j, (t.cores j).last =
    if step.type.lazy = true ∧ j = (s.cores p).headOf p then some n else (s.cores j).last
  executor : (t.cores n).executor = step.executor
  inside : SameInside { s.cores n with executor := step.executor } (t.cores n)
  other : ∀ j, j ≠ n → SameInside (s.cores j) (t.cores j)

namespace Attach

theorem other_made (h : Attach cfg s n p step t) {j : ν} (hj : j ≠ n) :
    (t.cores j).made = (s.cores j).made := by
  rw [h.made, if_neg hj]

theorem other_phase (h : Attach cfg s n p step t) {j : ν} (hj : j ≠ n) :
    (t.cores j).phase = (s.cores j).phase := by
  rw [h.phase, if_neg hj]

theorem untouched (h : Attach cfg s n p step t) (hn : Attaching cfg s n p step)
    (hi : Inv cfg s) : Untouched (t.cores n) ∧ (t.cores n).on = none := by
  have hinside := h.inside
  rw [hi.unmade n hn.unmade] at hinside
  refine ⟨⟨hinside.slot, hinside.submits, hinside.runs, hinside.dropped, hinside.acquired,
    hinside.released, hinside.destroyed, hinside.inner, hinside.head⟩, hinside.on⟩

theorem frame (h : Attach cfg s n p step t) (hn : Attaching cfg s n p step) (hi : Inv cfg s) :
    Frame s t := by
  intro j hj
  have hjn : j ≠ n := by
    rintro rfl
    rw [hi.unmade j hn.unmade] at hj
    cases hj
  have hinside := h.other j hjn
  have hcallback : (t.cores j).callback = (s.cores j).callback := by
    rw [h.callback]
    split
    · subst j
      rw [(hi.cell p).mpr hj, Option.map_none]
    · rfl
  rw [Kept]
  ext1
  · exact h.other_made hjn
  · exact hcallback
  · exact hinside.slot
  · rfl
  · rfl
  · rfl
  · exact h.other_phase hjn
  · rfl
  · exact hinside.on
  · exact hinside.submits
  · exact hinside.runs
  · exact hinside.dropped
  · exact hinside.acquired
  · exact hinside.released
  · exact hinside.destroyed
  · exact hinside.inner
  · exact hinside.head
  · rfl

theorem final (h : Attach cfg s n p step t) (hn : Attaching cfg s n p step) (hi : Inv cfg s)
    (q : ν) (r : Except ε α) (hq : Final s q r) : Final t q r := by
  have hqn : q ≠ n := by
    rintro rfl
    have hmade := hi.made_of_callback hq.1
    rw [hn.unmade] at hmade
    cases hmade
  refine ⟨?_, ?_⟩
  · rw [h.callback]
    split
    · subst q
      rw [hq.1, Option.map_none]
    · exact hq.1
  · rw [(h.other q hqn).slot]
    exact hq.2

/-- The new step waits for the core, unless that is done; nobody else begins to wait, or
stops. -/
theorem waiting (h : Attach cfg s n p step t) (hn : Attaching cfg s n p step) (hi : Inv cfg s)
    (j q : ν) : (t.cores j).phase = .waiting q ↔
      (j = n ∧ q = p ∧ (s.cores p).callback ≠ none) ∨ (s.cores j).phase = .waiting q := by
  rw [h.phase]
  split
  · subst j
    rw [hi.unmade n hn.unmade]
    split
    · simp [*]
    · simp only [Phase.waiting.injEq]
      constructor
      · rintro rfl
        exact .inl ⟨trivial, rfl, by assumption⟩
      · rintro (⟨-, rfl, -⟩ | hw)
        · rfl
        · cases hw
  · simp [*]

/-- The only new user is the step, of the core it is attached to. -/
theorem uses (h : Attach cfg s n p step t) (hn : Attaching cfg s n p step) (hi : Inv cfg s)
    {j q : ν} (huses : Uses cfg t j q) : (j = n ∧ q = p) ∨ Uses cfg s j q := by
  by_cases hj : j = n
  · subst hj
    rcases huses with hinner | ⟨-, hprevious⟩
    · rw [(h.untouched hn hi).1.inner] at hinner
      cases hinner
    · exact .inl ⟨rfl, Option.some.inj (hprevious.symm.trans hn.node)⟩
  · rw [Uses, (h.other j hj).inner, h.other_made hj] at huses
    exact .inr huses

theorem owned (h : Attach cfg s n p step t) (hn : Attaching cfg s n p step) (hi : Inv cfg s) :
    Owned cfg t := by
  refine ⟨?_, ?_, ?_, ?_, ?_, ?_⟩
  · intro j q huses hunique
    rw [h.taken]
    rcases h.uses hn hi huses with ⟨rfl, rfl⟩ | huses
    · rw [if_pos ⟨rfl, hunique⟩]
    · rw [if_neg]
      · exact hi.owned.taken j q huses hunique
      · rintro ⟨rfl, hp⟩
        exact hn.not_uses hi hp j huses
  · intro j q huses
    rw [h.made]
    rcases h.uses hn hi huses with ⟨rfl, rfl⟩ | huses
    · rw [if_neg (hn.ne hi)]
      exact hn.caller hi
    · obtain ⟨hmade, hdetached⟩ := hi.owned.attached j q huses
      refine ⟨?_, hdetached⟩
      split
      · rfl
      · exact hmade
  · intro q hq
    rw [h.handle] at hq
    rw [h.taken, h.made]
    by_cases hqn : q = n
    · subst hqn
      rw [if_pos rfl] at hq ⊢
      rw [if_neg fun hand => hn.ne hi hand.1.symm, hi.unmade q hn.unmade]
      refine ⟨rfl, rfl, hn.not_shared, ?_⟩
      obtain ⟨sch, hprog⟩ := hn.prog
      rw [hprog, Node.detached]
      cases hdetach : step.type.detach with
      | true => simp [hdetach] at hq
      | false => rfl
    · rw [if_neg hqn] at hq ⊢
      split at hq
      · exact absurd rfl hq
      · rw [if_neg fun hand => by simp_all]
        exact hi.owned.handle q hq
  · intro j sch step' q hj hmade hprevious
    by_cases hjn : j = n
    · subst hjn
      obtain ⟨sch', hprog⟩ := hn.prog
      cases hj.symm.trans hprog
      cases hprevious.symm.trans hn.previous
      exact hn.kind hi
    · rw [h.other_made hjn] at hmade
      exact hi.owned.kind j sch step' q hj hmade hprevious
  · intro j q hcoroutine hinner
    have hjn : j ≠ n := by
      rintro rfl
      rw [(h.untouched hn hi).1.inner] at hinner
      cases hinner
    rw [(h.other j hjn).inner] at hinner
    exact hi.owned.awaits j q hcoroutine hinner
  · intro q hshared
    rw [h.taken, if_neg]
    · exact hi.owned.free q hshared
    · rintro ⟨rfl, hunique⟩
      rw [hshared] at hunique
      cases hunique

/-- A step of a task continues the chain of the task, and any other one begins a chain of its
own. -/
theorem headOf (h : Attach cfg s n p step t) (j : ν) :
    (t.cores j).headOf j =
      if j = n then if step.type.lazy then (s.cores p).headOf p else n
      else (s.cores j).headOf j := by
  rw [CoreState.headOf, h.next]
  split
  · subst j
    split
    · rw [CoreState.headOf, List.getLastD_cons]
    · rfl
  · rfl

theorem chains (h : Attach cfg s n p step t) (hn : Attaching cfg s n p step) (hi : Inv cfg s) :
    Chains cfg t := by
  have hmadeOf : ∀ j, (s.cores j).made = true → j ≠ n := by
    rintro j hj rfl
    rw [hn.unmade] at hj
    cases hj
  refine ⟨?_, ?_, ?_⟩
  · intro j
    rw [h.headOf]
    split
    · subst j
      split
      · exact .step hn.node (hi.chains.root p)
      · exact .refl n
    · exact hi.chains.root j
  · intro j hj
    rw [h.handle] at hj
    by_cases hjn : j = n
    · subst hjn
      rw [if_pos rfl] at hj
      have hlazy : step.type.lazy = true := by
        by_contra hlazy
        simp [hlazy] at hj
      obtain ⟨hmade, hidle, -⟩ := hi.chains.task p (hn.task hlazy)
      have hne := hmadeOf _ hmade
      rw [h.headOf, if_pos rfl, if_pos hlazy, h.other_made hne, h.other_phase hne, h.last,
        if_pos ⟨hlazy, rfl⟩]
      exact ⟨hmade, hidle, rfl⟩
    · rw [if_neg hjn] at hj
      split at hj
      · cases hj
      · rename_i hjp
        obtain ⟨hmade, hidle, hlast⟩ := hi.chains.task j hj
        have hne := hmadeOf _ hmade
        rw [h.headOf, if_neg hjn, h.other_made hne, h.other_phase hne, h.last, if_neg]
        · exact ⟨hmade, hidle, hlast⟩
        · rintro ⟨hlazy, heq⟩
          obtain ⟨-, -, hlast'⟩ := hi.chains.task p (hn.task hlazy)
          rw [heq, hlast'] at hlast
          exact hjp (Option.some.inj hlast).symm
  · intro j x hx
    have hjn : j ≠ n := by
      rintro rfl
      rw [(h.untouched hn hi).1.head] at hx
      cases hx
    rw [(h.other j hjn).head] at hx
    rw [(h.other j hjn).inner]
    exact hi.chains.head j x hx

theorem callers (h : Attach cfg s n p step t) (hn : Attaching cfg s n p step) (hi : Inv cfg s) :
    Callers cfg t := by
  have hfinal := h.final hn hi
  have hu := (h.untouched hn hi).1
  refine ⟨?_, ?_, ?_⟩
  · intro j q hj
    rcases (h.waiting hn hi j q).mp hj with ⟨rfl, rfl, -⟩ | hj
    · exact .inr ⟨hu.inner, hn.node⟩
    · have hjn : j ≠ n := by
        rintro rfl
        rw [hi.unmade j hn.unmade] at hj
        cases hj
      rw [(h.other j hjn).inner]
      exact hi.callers.waiting j q hj
  · intro j q hj
    by_cases hjn : j = n
    · subst hjn
      rw [h.phase, if_pos rfl] at hj
      split at hj
      · cases hj
        obtain ⟨r, hr⟩ := hi.final_of_callback (by assumption) (hn.caller hi).2
        exact .attached r hu.inner hn.node (hfinal p r hr)
      · cases hj
    rw [h.other_phase hjn] at hj
    have hinner := (h.other j hjn).inner
    cases hi.callers.here j q hj with
    | unwrapped r hin hr => exact .unwrapped r (hinner.trans hin) (hfinal q r hr)
    | attached r hin hprevious hr =>
      exact .attached r (hinner.trans hin) hprevious (hfinal q r hr)
    | started m hin hprevious hhead hm hzero =>
      have hqn : q ≠ n := by
        rintro rfl
        rw [hi.unmade q hn.unmade] at hm
        cases hm
      refine .started m (hinner.trans hin) hprevious ((h.other q hqn).head.trans hhead)
        ((h.other_phase hqn).trans hm) ?_
      rw [(h.other j hjn).runs]
      exact hzero
  · intro j q hon hprevious
    have hjn : j ≠ n := by
      rintro rfl
      exact hon (h.untouched hn hi).2
    rw [(h.other j hjn).on] at hon
    obtain ⟨r, hr⟩ := hi.callers.previous j q hon hprevious
    exact ⟨r, hfinal q r hr⟩

/-- Who took a core over stays so: the step is attached to one that nobody took. -/
theorem taken_other (h : Attach cfg s n p step t) (hn : Attaching cfg s n p step)
    (hi : Inv cfg s) {j c : ν} (hj : (s.cores j).taken = some c) :
    (t.cores j).taken = some c := by
  rw [h.taken, if_neg, hj]
  rintro ⟨rfl, hunique⟩
  rw [hn.taken hi hunique] at hj
  cases hj

theorem executors (h : Attach cfg s n p step t) (hn : Attaching cfg s n p step)
    (hi : Inv cfg s) : Executors cfg t := by
  obtain ⟨hu, hnone⟩ := h.untouched hn hi
  have hon : ∀ j, (t.cores j).on ≠ none → j ≠ n := by
    rintro j hj rfl
    exact hj hnone
  have hheads : ∀ j x, (t.cores j).head = some x → j ≠ n ∧ x ≠ n := by
    intro j x hx
    have hj : j ≠ n := by
      rintro rfl
      rw [hu.head] at hx
      cases hx
    refine ⟨hj, ?_⟩
    rintro rfl
    rw [(h.other j hj).head] at hx
    have hmade := hi.made_of_headed hx
    rw [hn.unmade] at hmade
    cases hmade
  have hswaps : ∀ j, Swaps cfg s j → Swaps cfg t j := by
    rintro j ⟨x, hx, hcoroutine⟩
    have hj : j ≠ n := by
      rintro rfl
      rw [hi.unmade j hn.unmade] at hx
      cases hx
    exact ⟨x, (h.other j hj).head.trans hx, hcoroutine⟩
  refine ⟨?_, ?_, ?_, ?_, ?_⟩
  · intro j hj
    have hjn := hon j hj
    rw [(h.other j hjn).on] at hj
    rw [(h.other j hjn).executor]
    refine (hi.executors.kept j hj).imp_right ?_
    rintro ⟨hunique, k, hk, hprevious, hreached⟩
    have hkn : k ≠ n := by
      rintro rfl
      rw [hi.unmade k hn.unmade] at hreached
      exact hreached rfl
    exact ⟨hunique, k, h.taken_other hn hi hk, hprevious, (h.other k hkn).on ▸ hreached⟩
  · intro j hprog hj
    have hjn := hon j hj
    rw [(h.other j hjn).on] at hj ⊢
    rw [(h.other j hjn).executor]
    rcases hi.executors.own j hprog hj with ⟨c, hc, hcoroutine⟩ | hno | hown |
      ⟨hinline, hs⟩
    · exact .inl ⟨c, h.taken_other hn hi hc, hcoroutine⟩
    · exact .inr (.inl hno)
    · exact .inr (.inr (.inl hown))
    · exact .inr (.inr (.inr ⟨hinline, hswaps j hs⟩))
  · intro j x hx hcoroutine
    obtain ⟨hjn, hxn⟩ := hheads j x hx
    rw [(h.other j hjn).head] at hx
    rw [h.other_phase hxn, (h.other x hxn).runs]
    exact hi.executors.swapped j x hx hcoroutine
  · intro j x hprog hx hcoroutine hruns
    obtain ⟨hjn, hxn⟩ := hheads j x hx
    rw [(h.other j hjn).head] at hx
    rw [(h.other x hxn).runs] at hruns
    rw [(h.other j hjn).executor]
    refine (hi.executors.inline j x hprog hx hcoroutine hruns).imp_left ?_
    rintro ⟨c, hc, hcoroutine⟩
    exact ⟨c, h.taken_other hn hi hc, hcoroutine⟩
  · intro k sch step' j hk hprevious hj hinherits hkon
    have hkn := hon k hkon
    rw [(h.other k hkn).on] at hkon ⊢
    have hjn : j ≠ n := by
      rintro rfl
      exact hi.not_reached_unmade hn.unmade k hkon (by rw [hk, Node.previous, hprevious])
    have hs : Swaps cfg t j ↔ Swaps cfg s j := by rw [Swaps, Swaps, (h.other j hjn).head]
    rw [(h.other j hjn).on, hs]
    exact hi.executors.inherits k sch step' j hk hprevious hj hinherits hkon

theorem shape (h : Attach cfg s n p step t) (hn : Attaching cfg s n p step) (hi : Inv cfg s) :
    Shape cfg n (t.cores n) := by
  obtain ⟨hu, hon⟩ := h.untouched hn hi
  have hpending : Pending step (t.cores n) := by
    refine ⟨fun _ => hu, ?_, fun _ _ => hon, fun _ _ => h.executor, ?_⟩
    · intro _ hprevious
      rw [hn.previous] at hprevious
      cases hprevious
    · intro m hm
      rw [hu.inner] at hm
      cases hm
  obtain ⟨sch, hprog⟩ := hn.prog
  have hphase := h.phase n
  rw [if_pos rfl] at hphase
  rw [Shape, hprog]
  change StepShape step (t.cores n)
  rw [StepShape]
  split at hphase <;> rw [hphase] <;> exact hpending

end Attach

/-- Attaching a step is a move that ends no core: a caller that is done is called back by a
step of its own. -/
theorem Inv.attach (hi : Inv cfg s) (hn : Attaching cfg s n p step)
    (h : Attach cfg s n p step t) : Move cfg s t := by
  have hu := (h.untouched hn hi).1
  have hdone : ∀ j, (t.cores j).phase = .done → (s.cores j).phase = .done := by
    intro j hj
    rw [h.phase] at hj
    split at hj
    · split at hj <;> cases hj
    · exact hj
  refine ⟨?_, h.frame hn hi, fun j hj => .inl (hdone j hj)⟩
  refine ⟨?_, ?_, ?_, ?_, h.owned hn hi, h.chains hn hi, h.callers hn hi, h.executors hn hi, ?_⟩
  · intro j hj
    have hjn : j ≠ n := by
      rintro rfl
      rw [h.made, if_pos rfl] at hj
      cases hj
    rw [h.other_made hjn] at hj
    have hinside := h.other j hjn
    have hjp : j ≠ p := by
      rintro rfl
      rw [(hn.caller hi).1] at hj
      cases hj
    have hjh : ¬ (step.type.lazy = true ∧ j = (s.cores p).headOf p) := by
      rintro ⟨hlazy, rfl⟩
      rw [(hi.chains.task p (hn.task hlazy)).1] at hj
      cases hj
    rw [← hi.unmade j hj]
    ext1
    · exact h.other_made hjn
    · rw [h.callback, if_neg hjp]
    · exact hinside.slot
    · exact hinside.executor
    · rw [h.next, if_neg hjn]
    · rw [h.handle, if_neg hjn, if_neg hjp]
    · exact h.other_phase hjn
    · rw [h.taken, if_neg fun hand => hjp hand.1]
    · exact hinside.on
    · exact hinside.submits
    · exact hinside.runs
    · exact hinside.dropped
    · exact hinside.acquired
    · exact hinside.released
    · exact hinside.destroyed
    · exact hinside.inner
    · exact hinside.head
    · rw [h.last, if_neg hjh]
  · intro j
    have hempty := hi.unmade n hn.unmade
    rw [h.callback, h.phase]
    by_cases hj : j = n
    · subst hj
      rw [if_neg (hn.ne hi).symm, if_pos rfl, hempty]
      split <;> simp
    · rw [if_neg hj, ← hi.cell]
      split
      · subst j
        exact Option.map_eq_none_iff
      · rfl
  · intro j hj
    by_cases hjn : j = n
    · exact hjn ▸ h.shape hn hi
    · rw [h.other_made hjn] at hj
      exact (hi.shape j hj).same (h.other j hjn) (h.other_phase hjn)
  · refine hi.links.push h.callback ?_ (h.waiting hn hi)
    intro q
    simp [hi.unmade n hn.unmade]
  · refine hi.values.other (h.final hn hi) (n := n) ?_ ?_ ?_
    · intro j hj
      have hinside := h.other j hj
      refine ⟨⟨hinside.inner, hinside.dropped, hinside.runs, hinside.slot⟩, ?_⟩
      rw [h.other_phase hj]
      exact id
    · intro sch step' m _ hm
      rw [hu.inner] at hm
      cases hm
    · intro sch step' _ hdone
      rw [h.phase, if_pos rfl] at hdone
      split at hdone <;> cases hdone

end Yaclib.Core
