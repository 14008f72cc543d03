import Yaclib.Algo.Core.Invariant

/-!
A step unwraps the core that its callback returned, or a coroutine awaits a core: it takes
the core over and becomes its callback, and the head of a task is entered.
-/

namespace Yaclib.Core

variable {ν ι ε α : Type} {cfg : Config ν ι ε α} {s t : State ν ι ε α} {n m : ν} {root : Option ν}
  {q : Phase ν}

/-- The core `n` is at work and may take `m` over. -/
structure Linking (cfg : Config ν ι ε α) (s : State ν ι ε α) (n m : ν) (root : Option ν) :
    Prop where
  made : (s.cores n).made = true
  phase : (s.cores n).phase = .submitted ∨ (s.cores n).phase = .running
  handle : (s.cores m).handle ≠ none ∨ ((cfg.prog m).shared = true ∧ (s.cores m).made = true)
  task : ∀ h, root = some h → (s.cores m).handle = some .task ∧ (s.cores m).headOf m = h
  step : (cfg.prog n).isCoroutine = false → (s.cores n).head = none
  coroutine : (cfg.prog n).isCoroutine = true →
    (s.cores n).runs ≠ 0 ∧ (cfg.prog m).shared = false

/-- A core whose handle is there has no user. -/
theorem Inv.not_uses (hi : Inv cfg s) {p : ν} (h : (s.cores p).handle ≠ none) (j : ν) :
    ¬ Uses cfg s j p := by
  intro huses
  obtain ⟨htaken, -, hshared, -⟩ := hi.owned.handle p h
  have hj := hi.owned.taken j p huses hshared
  rw [htaken] at hj
  cases hj

/-- A callback uses the core that it waits for. -/
theorem Inv.uses_of_waiting (hi : Inv cfg s) {j p : ν} (h : (s.cores j).phase = .waiting p) :
    Uses cfg s j p := by
  rcases hi.callers.waiting j p h with hinner | ⟨-, hprevious⟩
  · exact .inl hinner
  · refine .inr ⟨?_, hprevious⟩
    by_contra hmade
    rw [hi.unmade j (by simpa using hmade)] at h
    cases h

/-- Nobody is in the list of a core that nobody took. -/
theorem Inv.callback_of_handle (hi : Inv cfg s) {p : ν} (h : (s.cores p).handle ≠ none)
    {cs : List ν} (hcs : (s.cores p).callback = some cs) : cs = [] := by
  refine List.eq_nil_iff_forall_not_mem.mpr ?_
  intro j hj
  exact hi.not_uses h j (hi.uses_of_waiting ((hi.links.mem p cs hcs j).mp hj))

/-- A task is not done before it is started. -/
theorem Inv.callback_of_task (hi : Inv cfg s) {p : ν} (h : (s.cores p).handle = some .task) :
    (s.cores p).callback = some [] := by
  obtain ⟨-, hidle, -⟩ := hi.chains.task p h
  cases hcallback : (s.cores p).callback with
  | none =>
    have hdone := hi.root_done (hi.chains.root p) ((hi.cell p).mp hcallback)
    rw [hdone] at hidle
    cases hidle
  | some cs => rw [hi.callback_of_handle (by simp [h]) hcallback]

namespace Linking

theorem not_waiting (hn : Linking cfg s n m root) (p : ν) : (s.cores n).phase ≠ .waiting p := by
  rcases hn.phase with h | h <;> simp [h]

theorem not_done (hn : Linking cfg s n m root) : (s.cores n).phase ≠ .done := by
  rcases hn.phase with h | h <;> simp [h]

/-- Nothing has happened to the head of a task that is taken over. -/
theorem idle (hn : Linking cfg s n m root) (hi : Inv cfg s) {h : ν} (hh : root = some h) :
    (s.cores h).phase = .idle ∧ h ≠ n ∧ (s.cores h).last = some m := by
  obtain ⟨htask, rfl⟩ := hn.task h hh
  obtain ⟨-, hidle, hlast⟩ := hi.chains.task m htask
  refine ⟨hidle, ?_, hlast⟩
  intro heq
  rw [heq] at hidle
  rcases hn.phase with h | h <;> simp [h] at hidle

theorem idle_shape (hn : Linking cfg s n m root) (hi : Inv cfg s) {h : ν} (hh : root = some h) :
    (cfg.prog h).previous = none ∧ (s.cores h).inner = none ∧
      ((cfg.prog h).isCoroutine = true → (s.cores h).runs = 0) := by
  obtain ⟨htask, rfl⟩ := hn.task h hh
  obtain ⟨hmade, hidle, -⟩ := hi.chains.task m htask
  exact hi.idle_shape hmade hidle

theorem made_other (hn : Linking cfg s n m root) (hi : Inv cfg s) :
    (s.cores m).made = true ∧ (cfg.prog m).detached = false := by
  rcases hn.handle with hhandle | ⟨hshared, hmade⟩
  · obtain ⟨-, hmade, -, hdetached⟩ := hi.owned.handle m hhandle
    exact ⟨hmade, hdetached⟩
  · exact ⟨hmade, Node.detached_of_shared hshared⟩

/-- Nobody waits for a core at the end of a task. -/
theorem callback (hn : Linking cfg s n m root) (hi : Inv cfg s) {h : ν} (hh : root = some h) :
    (s.cores m).callback = some [] :=
  hi.callback_of_task (hn.task h hh).1

end Linking

variable [DecidableEq ν]

/-- The state after `n` began to use `m`, where `root` is the head of the task `m`, and `q`
is where `n` is left if `m` is done already. -/
structure Link (cfg : Config ν ι ε α) (s : State ν ι ε α) (n m : ν) (root : Option ν)
    (q : Phase ν) (t : State ν ι ε α) : Prop where
  made : ∀ j, (t.cores j).made = (s.cores j).made
  last : ∀ j, (t.cores j).last = (s.cores j).last
  executor : ∀ j, (t.cores j).executor = (s.cores j).executor
  on : ∀ j, (t.cores j).on = (s.cores j).on
  runs : ∀ j, (cfg.prog j).isCoroutine = true → (t.cores j).runs = (s.cores j).runs
  inner : ∀ j, (t.cores j).inner = if j = n then some m else (s.cores j).inner
  head : ∀ j, (t.cores j).head = if j = n then root else (s.cores j).head
  taken : ∀ j, (t.cores j).taken =
    if j = m ∧ (cfg.prog m).shared = false then some n else (s.cores j).taken
  handle : ∀ j, (t.cores j).handle = if j = m then none else (s.cores j).handle
  next : ∀ j, (t.cores j).next = if j = m ∧ root ≠ none then [] else (s.cores j).next
  callback : ∀ j, (t.cores j).callback =
    if j = m then (s.cores m).callback.map (n :: ·) else (s.cores j).callback
  phase : ∀ j, (t.cores j).phase =
    if root = some j then .here n
    else if j = n then if (s.cores m).callback = none then q else .waiting m
    else (s.cores j).phase
  inside : ∀ j, j ≠ n → SameInside (s.cores j) (t.cores j)
  slot : ∀ r, (t.cores n).slot ≠ .result r
  q_eq : q = .here m ∨ q = .running

namespace Link

theorem final (h : Link cfg s n m root q t) (hn : Linking cfg s n m root) (hi : Inv cfg s) (p : ν)
    (r : Except ε α) (hp : Final s p r) : Final t p r := by
  have hpn : p ≠ n := by
    rintro rfl
    exact hn.not_done ((hi.cell p).mp hp.1)
  refine ⟨?_, ?_⟩
  · rw [h.callback]
    split
    · subst p
      rw [hp.1, Option.map_none]
    · exact hp.1
  · rw [(h.inside p hpn).slot]
    exact hp.2

theorem phase_other (h : Link cfg s n m root q t) {j : ν} (hj : j ≠ n) (hh : root ≠ some j) :
    (t.cores j).phase = (s.cores j).phase := by
  rw [h.phase, if_neg hh, if_neg hj]

theorem other (h : Link cfg s n m root q t) {j : ν} (hjn : j ≠ n) (hjm : j ≠ m)
    (hjroot : root ≠ some j) : t.cores j = s.cores j := by
  have hinside := h.inside j hjn
  ext1
  · exact h.made j
  · rw [h.callback, if_neg hjm]
  · exact hinside.slot
  · exact hinside.executor
  · rw [h.next, if_neg fun hand => hjm hand.1]
  · rw [h.handle, if_neg hjm]
  · exact h.phase_other hjn hjroot
  · rw [h.taken, if_neg fun hand => hjm hand.1]
  · exact hinside.on
  · exact hinside.submits
  · exact hinside.runs
  · exact hinside.dropped
  · exact hinside.acquired
  · exact hinside.released
  · exact hinside.destroyed
  · exact hinside.inner
  · exact hinside.head
  · exact h.last j

/-- The core waits for what it took over, unless that is done; nobody else begins to wait, or
stops. -/
theorem waiting (h : Link cfg s n m root q t) (hn : Linking cfg s n m root) (hi : Inv cfg s)
    (j p : ν) : (t.cores j).phase = .waiting p ↔
      (j = n ∧ p = m ∧ (s.cores m).callback ≠ none) ∨ (s.cores j).phase = .waiting p := by
  rw [h.phase]
  split
  · obtain ⟨hidle, hne, -⟩ := hn.idle hi ‹_›
    simp [hidle, hne]
  · split
    · subst j
      have hwait := hn.not_waiting p
      split
      · rcases h.q_eq with rfl | rfl <;> simp [*]
      · simp only [Phase.waiting.injEq]
        constructor
        · rintro rfl
          exact .inl ⟨trivial, rfl, by assumption⟩
        · rintro (⟨-, rfl, -⟩ | hw)
          · rfl
          · exact absurd hw hwait
    · simp [*]

/-- Taking a core over ends nothing. -/
theorem done (h : Link cfg s n m root q t) (hn : Linking cfg s n m root) (hi : Inv cfg s) (j : ν) :
    (t.cores j).phase = .done ↔ (s.cores j).phase = .done := by
  rw [h.phase]
  split
  · simp [(hn.idle hi ‹_›).1]
  · split
    · subst j
      refine iff_of_false ?_ hn.not_done
      split
      · rcases h.q_eq with rfl | rfl <;> simp
      · simp
    · rfl

theorem frame (h : Link cfg s n m root q t) (hn : Linking cfg s n m root) (hi : Inv cfg s) :
    Frame s t := by
  intro j hj
  have hjn : j ≠ n := by
    rintro rfl
    exact hn.not_done hj
  have hjroot : root ≠ some j := by
    intro heq
    rw [(hn.idle hi heq).1] at hj
    cases hj
  have hinside := h.inside j hjn
  have hcallback : (t.cores j).callback = (s.cores j).callback := by
    rw [h.callback]
    split
    · subst j
      rw [(hi.cell m).mpr hj, Option.map_none]
    · rfl
  rw [Kept]
  ext1
  · exact h.made j
  · exact hcallback
  · exact hinside.slot
  · rfl
  · rfl
  · rfl
  · exact h.phase_other hjn hjroot
  · rfl
  · exact hinside.on
  · exact hinside.submits
  · exact hinside.runs
  · exact hinside.dropped
  · exact hinside.acquired
  · exact hinside.released
  · exact hinside.destroyed
  · exact hinside.inner
  · exact hinside.head
  · rfl

theorem links (h : Link cfg s n m root q t) (hn : Linking cfg s n m root) (hi : Inv cfg s) :
    Links t :=
  hi.links.push h.callback hn.not_waiting (h.waiting hn hi)

/-- The only new use is that of the core that is taken over. -/
theorem uses (h : Link cfg s n m root q t) {j p : ν} (huses : Uses cfg t j p) :
    (j = n ∧ p = m) ∨ Uses cfg s j p := by
  rcases huses with hinner | ⟨hmade, hprevious⟩
  · rw [h.inner] at hinner
    split at hinner
    · exact .inl ⟨‹_›, (Option.some.inj hinner).symm⟩
    · exact .inr (.inl hinner)
  · rw [h.made] at hmade
    exact .inr (.inr ⟨hmade, hprevious⟩)

theorem owned (h : Link cfg s n m root q t) (hn : Linking cfg s n m root) (hi : Inv cfg s) :
    Owned cfg t := by
  refine ⟨?_, ?_, ?_, ?_, ?_, ?_⟩
  · intro j p huses hshared
    rw [h.taken]
    rcases h.uses huses with ⟨rfl, rfl⟩ | huses
    · rw [if_pos ⟨rfl, hshared⟩]
    · rw [if_neg]
      · exact hi.owned.taken j p huses hshared
      · rintro ⟨rfl, -⟩
        rcases hn.handle with hhandle | ⟨hs, -⟩
        · exact hi.not_uses hhandle j huses
        · rw [hs] at hshared
          cases hshared
  · intro j p huses
    rw [h.made]
    rcases h.uses huses with ⟨rfl, rfl⟩ | huses
    · exact hn.made_other hi
    · exact hi.owned.attached j p huses
  · intro p hp
    rw [h.handle] at hp
    split at hp
    · exact absurd rfl hp
    · rw [h.made, h.taken, if_neg (fun hpm => by simp_all)]
      exact hi.owned.handle p hp
  · intro j sch step p hj hmade
    rw [h.made] at hmade
    exact hi.owned.kind j sch step p hj hmade
  · intro j p hcoroutine hinner
    rw [h.inner] at hinner
    split at hinner
    · subst j
      cases hinner
      exact (hn.coroutine hcoroutine).2
    · exact hi.owned.awaits j p hcoroutine hinner
  · intro p hshared
    rw [h.taken, if_neg]
    · exact hi.owned.free p hshared
    · rintro ⟨rfl, hunique⟩
      rw [hshared] at hunique
      cases hunique

theorem headOf (h : Link cfg s n m root q t) (p : ν) :
    (t.cores p).headOf p = if p = m ∧ root ≠ none then p else (s.cores p).headOf p := by
  rw [CoreState.headOf, h.next]
  split <;> rfl

theorem chains (h : Link cfg s n m root q t) (hn : Linking cfg s n m root) (hi : Inv cfg s) :
    Chains cfg t := by
  refine ⟨?_, ?_, ?_⟩
  · intro p
    rw [h.headOf]
    split
    · exact .refl p
    · exact hi.chains.root p
  · intro p hp
    rw [h.handle] at hp
    split at hp
    · cases hp
    · rename_i hpm
      rw [h.headOf, if_neg (fun hand => hpm hand.1), h.made, h.last]
      obtain ⟨hmade, hidle, hlast⟩ := hi.chains.task p hp
      refine ⟨hmade, ?_, hlast⟩
      rw [h.phase_other, hidle]
      · intro heq
        rw [heq] at hidle
        rcases hn.phase with hphase | hphase <;> simp [hphase] at hidle
      · intro hhead
        obtain ⟨-, -, hlast'⟩ := hn.idle hi hhead
        exact hpm (Option.some.inj (hlast.symm.trans hlast'))
  · intro j x hx
    rw [h.head] at hx
    rw [h.inner]
    split at hx
    · subst j
      refine ⟨m, if_pos rfl, ?_⟩
      obtain ⟨-, rfl⟩ := hn.task x hx
      exact hi.chains.root m
    · rw [if_neg ‹_›]
      exact hi.chains.head j x hx

/-- The head of the task is entered with the core that took the task over, as if that were
done. -/
theorem callers (h : Link cfg s n m root q t) (hn : Linking cfg s n m root) (hi : Inv cfg s) :
    Callers cfg t := by
  have hfinal := h.final hn hi
  refine ⟨?_, ?_, ?_⟩
  · intro j p hj
    rw [h.inner]
    rcases (h.waiting hn hi j p).mp hj with ⟨rfl, rfl, -⟩ | hj
    · exact .inl (if_pos rfl)
    · have hjn : j ≠ n := by
        rintro rfl
        exact hn.not_waiting p hj
      rw [if_neg hjn]
      exact hi.callers.waiting j p hj
  · intro j p hj
    by_cases hjroot : root = some j
    · -- the head of the task is entered
      rw [h.phase, if_pos hjroot] at hj
      cases hj
      obtain ⟨hidle, hjn, -⟩ := hn.idle hi hjroot
      have hshape := hn.idle_shape hi hjroot
      refine .started m ?_ hshape.1 (by rw [h.head, if_pos rfl, hjroot]) ?_ ?_
      · rw [h.inner, if_neg hjn]
        exact hshape.2.1
      · have hnroot : root ≠ some n := by
          intro heq
          exact (hn.idle hi heq).2.1 rfl
        rw [h.phase, if_neg hnroot, if_pos rfl, if_neg (by simp [hn.callback hi hjroot])]
      · intro hcoroutine
        rw [h.runs j hcoroutine]
        exact hshape.2.2 hcoroutine
    by_cases hjn : j = n
    · subst hjn
      rw [h.phase, if_neg hjroot, if_pos rfl] at hj
      split at hj
      · rename_i hcallback
        have hp : p = m := by
          rcases h.q_eq with rfl | rfl <;> simp_all
        subst hp
        obtain ⟨r, hr⟩ := hi.final_of_callback hcallback (hn.made_other hi).2
        exact .unwrapped r (by rw [h.inner, if_pos rfl]) (hfinal p r hr)
      · cases hj
    rw [h.phase_other hjn hjroot] at hj
    have hinner : (t.cores j).inner = (s.cores j).inner := by rw [h.inner, if_neg hjn]
    cases hi.callers.here j p hj with
    | unwrapped r hin hr => exact .unwrapped r (hinner.trans hin) (hfinal p r hr)
    | attached r hin hprevious hr => exact .attached r (hinner.trans hin) hprevious (hfinal p r hr)
    | started m' hin hprevious hhead hm hruns =>
      have hpn : p ≠ n := by
        rintro rfl
        exact hn.not_waiting m' hm
      refine .started m' (hinner.trans hin) hprevious (by rw [h.head, if_neg hpn, hhead])
        ((h.waiting hn hi p m').mpr (.inr hm)) ?_
      intro hcoroutine
      rw [h.runs j hcoroutine]
      exact hruns hcoroutine
  · intro j p hon hprevious
    rw [h.on] at hon
    obtain ⟨r, hr⟩ := hi.callers.previous j p hon hprevious
    exact ⟨r, hfinal p r hr⟩

theorem taken_other (h : Link cfg s n m root q t) (hn : Linking cfg s n m root) (hi : Inv cfg s)
    {p c : ν} (hp : (s.cores p).taken = some c) : (t.cores p).taken = some c := by
  rw [h.taken, if_neg, hp]
  rintro ⟨rfl, hshared⟩
  rcases hn.handle with hhandle | ⟨hs, -⟩
  · obtain ⟨htaken, -⟩ := hi.owned.handle p hhandle
    cases htaken.symm.trans hp
  · rw [hs] at hshared
    cases hshared

theorem swaps (h : Link cfg s n m root q t) (hn : Linking cfg s n m root) {j : ν}
    (hj : (cfg.prog j).isCoroutine = false) (hs : Swaps cfg s j) : Swaps cfg t j := by
  obtain ⟨x, hx, hcoroutine⟩ := hs
  have hjn : j ≠ n := by
    rintro rfl
    rw [hn.step hj] at hx
    cases hx
  exact ⟨x, by rw [h.head, if_neg hjn, hx], hcoroutine⟩

theorem executors (h : Link cfg s n m root q t) (hn : Linking cfg s n m root) (hi : Inv cfg s) :
    Executors cfg t := by
  refine ⟨?_, ?_, ?_, ?_, ?_⟩
  · intro j hon
    rw [h.on] at hon
    rw [h.executor]
    refine (hi.executors.kept j hon).imp_right ?_
    rintro ⟨hshared, k, hk, hreached⟩
    exact ⟨hshared, k, h.taken_other hn hi hk, (Reached.congr h.on).mpr hreached⟩
  · intro j hj hon
    rw [h.on] at hon ⊢
    rw [h.executor]
    rcases hi.executors.own j hj hon with ⟨c, hc, hcoroutine⟩ | hnone | hsome |
      ⟨hinline, hswaps⟩
    · exact .inl ⟨c, h.taken_other hn hi hc, hcoroutine⟩
    · exact .inr (.inl hnone)
    · exact .inr (.inr (.inl hsome))
    · exact .inr (.inr (.inr ⟨hinline, h.swaps hn hj hswaps⟩))
  · intro j x hx hcoroutine
    rw [h.head] at hx
    rw [h.runs x hcoroutine]
    split at hx
    · subst j
      exact .inl (by rw [h.phase, if_pos hx])
    · rcases hi.executors.swapped j x hx hcoroutine with hphase | hruns
      · have hxn : x ≠ n := by
          rintro rfl
          rcases hn.phase with hp | hp <;> simp [hp] at hphase
        have hxroot : root ≠ some x := by
          intro heq
          rw [(hn.idle hi heq).1] at hphase
          cases hphase
        exact .inl ((h.phase_other hxn hxroot).trans hphase)
      · exact .inr hruns
  · intro j x hj hx hcoroutine hruns
    rw [h.head] at hx
    rw [h.runs x hcoroutine] at hruns
    rw [h.executor]
    split at hx
    · exact absurd ((hn.idle_shape hi hx).2.2 hcoroutine) hruns
    · refine (hi.executors.inline j x hj hx hcoroutine hruns).imp_left ?_
      rintro ⟨c, hc, hcoroutine⟩
      exact ⟨c, h.taken_other hn hi hc, hcoroutine⟩
  · intro k sch step j hk hprevious hj hnone hon
    rw [h.on] at hon ⊢
    obtain ⟨r, hr⟩ := hi.callers.previous k j hon (by rw [hk, Node.previous, hprevious])
    have hjn : j ≠ n := by
      rintro rfl
      exact hn.not_done ((hi.cell j).mp hr.1)
    have hswaps : Swaps cfg t j ↔ Swaps cfg s j := by rw [Swaps, Swaps, h.head, if_neg hjn]
    rw [h.on, hswaps]
    exact hi.executors.inherits k sch step j hk hprevious hj hnone hon

/-- The core that is taken over is the one that the callback returned. -/
theorem values (h : Link cfg s n m root q t) (hn : Linking cfg s n m root) (hi : Inv cfg s)
    (hunwraps : ∀ sch step, cfg.prog n = .core sch step → Unwraps cfg s step (t.cores n) m) :
    Values cfg t := by
  have hfinal := h.final hn hi
  refine hi.values.other hfinal (n := n) ?_ ?_ ?_
  · intro j hj
    have hinside := h.inside j hj
    exact ⟨⟨hinside.inner, hinside.dropped, hinside.runs, hinside.slot⟩, (h.done hn hi j).mp⟩
  · intro sch step m' hstep hm
    rw [h.inner, if_pos rfl] at hm
    cases hm
    exact (hunwraps sch step hstep).mono hfinal
  · intro sch step _ hd
    exact absurd ((h.done hn hi n).mp hd) hn.not_done

/-- A head that is entered keeps the shape of its class. -/
theorem shape_root (h : Link cfg s n m root q t) (hn : Linking cfg s n m root) (hi : Inv cfg s)
    {j : ν} (hj : root = some j) (hmade : (s.cores j).made = true) :
    Shape cfg j (t.cores j) := by
  obtain ⟨hidle, hjn, -⟩ := hn.idle hi hj
  have hphase : (t.cores j).phase = .here n := by rw [h.phase, if_pos hj]
  exact (hi.shape j hmade).enter (h.inside j hjn) hidle hphase

end Link

/-- Taking a core over keeps the invariant, for a step and for a coroutine. -/
theorem Inv.link (hi : Inv cfg s) (hn : Linking cfg s n m root) (h : Link cfg s n m root q t)
    (hshape : Shape cfg n (t.cores n))
    (hunwraps : ∀ sch step, cfg.prog n = .core sch step → Unwraps cfg s step (t.cores n) m) :
    Inv cfg t := by
  refine ⟨?_, ?_, ?_, h.links hn hi, h.owned hn hi, h.chains hn hi, h.callers hn hi,
    h.executors hn hi, h.values hn hi hunwraps⟩
  · intro j hmade
    rw [h.made] at hmade
    have hjn : j ≠ n := by
      rintro rfl
      rw [hn.made] at hmade
      cases hmade
    have hjm : j ≠ m := by
      rintro rfl
      rw [(hn.made_other hi).1] at hmade
      cases hmade
    have hjroot : root ≠ some j := by
      intro heq
      obtain ⟨htask, rfl⟩ := hn.task j heq
      rw [(hi.chains.task m htask).1] at hmade
      cases hmade
    rw [h.other hjn hjm hjroot, hi.unmade j hmade]
  · intro j
    rw [h.done hn hi, ← hi.cell, h.callback]
    split
    · subst j
      exact Option.map_eq_none_iff
    · rfl
  · intro j hmade
    rw [h.made] at hmade
    by_cases hj : j = n
    · exact hj ▸ hshape
    by_cases hjroot : root = some j
    · exact h.shape_root hn hi hjroot hmade
    · exact (hi.shape j hmade).same (h.inside j hj) (h.phase_other hj hjroot)

end Yaclib.Core
