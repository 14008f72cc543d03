import Yaclib.Algo.Core.Invariant

/-!
The end of a core: its result is stored and the exchange of `_callback` hands the
callbacks over.
-/

namespace Yaclib.Core

variable {ν ι ε α : Type} {cfg : Config ν ι ε α} {s : State ν ι ε α} {n : ν} {c : CoreState ν ι ε α}

/-- What a core has reached when its result is stored. -/
structure Ready (cfg : Config ν ι ε α) (s : State ν ι ε α) (n : ν) : Prop where
  made : (s.cores n).made = true
  idle : (s.cores n).phase ≠ .idle
  waiting : ∀ p, (s.cores n).phase ≠ .waiting p
  done : (s.cores n).phase ≠ .done
  here : (cfg.prog n).isCoroutine = true → ∀ p, (s.cores n).phase ≠ .here p
  previous : ∀ p, (cfg.prog n).previous = some p → ∃ r, Final s p r

/-- A head that was not done is not behind a core whose result is stored. -/
theorem Ready.not_root (hn : Ready cfg s n) (hi : Inv cfg s) {j p : ν} (hjn : j ≠ n)
    (hj : (s.cores j).phase = .here p) : ¬ Root cfg.prog n j := by
  intro hroot
  cases hroot with
  | refl => exact hjn rfl
  | step hq hroot =>
    obtain ⟨r, hr⟩ := hn.previous _ hq
    have hdone := hi.root_done hroot ((hi.cell _).mp hr.1)
    rw [hdone] at hj
    cases hj

variable [DecidableEq ν]

@[simp] theorem State.cores_put (j : ν) :
    (s.put n c).cores j = if j = n then c else s.cores j := by
  simp only [State.put, Function.update_apply]

@[simp] theorem State.cores_modify (f : CoreState ν ι ε α → CoreState ν ι ε α) (j : ν) :
    (s.modify n f).cores j = if j = n then f (s.cores n) else s.cores j := by
  simp only [State.modify, State.cores_put]

/-- `SetResult` closes the list of its core and calls those who were in it, and changes
nothing else. -/
theorem cores_setResult {cs : List ν} (h : (s.cores n).callback = some cs) (j : ν) :
    (setResult s n).cores j =
      if j = n then { s.cores j with callback := none, phase := .done }
      else if j ∈ cs then { s.cores j with phase := .here n }
      else s.cores j := by
  rw [setResult, h]

/-- The core `c` differs from `b` in what only the core itself reads. -/
structure SameOutside (cfg : Config ν ι ε α) (n : ν) (b c : CoreState ν ι ε α) : Prop where
  made : c.made = b.made
  callback : c.callback = b.callback
  executor : c.executor = b.executor
  next : c.next = b.next
  handle : c.handle = b.handle
  taken : c.taken = b.taken
  on : c.on = b.on
  inner : c.inner = b.inner
  head : c.head = b.head
  last : c.last = b.last
  runs : (cfg.prog n).isCoroutine = true → c.runs = b.runs

/-- The phases after `n` handed its callbacks over. -/
def handedOver (s : State ν ι ε α) (n j : ν) : Phase ν :=
  if j = n then .done
  else if (s.cores j).phase = .waiting n then .here n
  else (s.cores j).phase

/-- The state in which `n` has the fields of `c`, its result is stored and its callbacks are
handed over. -/
structure Finish (cfg : Config ν ι ε α) (s : State ν ι ε α) (n : ν) (c : CoreState ν ι ε α)
    (t : State ν ι ε α) : Prop where
  same : SameOutside cfg n (s.cores n) c
  self : t.cores n = { c with callback := none, phase := .done }
  other : ∀ j, j ≠ n → t.cores j = { s.cores j with phase := handedOver s n j }

theorem Finish.of_setResult (hi : Inv cfg s) (hphase : (s.cores n).phase ≠ .done)
    (hsame : SameOutside cfg n (s.cores n) c) :
    Finish cfg s n c (setResult (s.put n c) n) := by
  obtain ⟨cs, hcs⟩ : ∃ cs, (s.cores n).callback = some cs :=
    Option.ne_none_iff_exists'.mp fun h => hphase ((hi.cell n).mp h)
  have hcallback : ((s.put n c).cores n).callback = some cs := by
    rw [State.cores_put, if_pos rfl, hsame.callback, hcs]
  refine ⟨hsame, ?_, ?_⟩
  · rw [cores_setResult hcallback, if_pos rfl, State.cores_put, if_pos rfl]
  · intro j hj
    rw [cores_setResult hcallback, if_neg hj, State.cores_put, if_neg hj, handedOver, if_neg hj]
    have hmem := hi.links.mem n cs hcs j
    by_cases hwait : (s.cores j).phase = .waiting n
    · rw [if_pos (hmem.mpr hwait), if_pos hwait]
    · rw [if_neg (fun h => hwait (hmem.mp h)), if_neg hwait]

namespace Finish

variable {t : State ν ι ε α}

/-- A field that neither `c` nor a change of phase touches is the same in every core. -/
theorem field {β : Type} (hf : Finish cfg s n c t) (f : CoreState ν ι ε α → β)
    (hself : f { c with callback := none, phase := .done } = f (s.cores n))
    (hother : ∀ (b : CoreState ν ι ε α) (phase : Phase ν), f { b with phase } = f b) (j : ν) :
    f (t.cores j) = f (s.cores j) := by
  by_cases hj : j = n
  · subst hj
    rw [hf.self, hself]
  · rw [hf.other j hj, hother]

theorem phase (hf : Finish cfg s n c t) (j : ν) : (t.cores j).phase = handedOver s n j := by
  by_cases hj : j = n
  · subst hj
    rw [hf.self, handedOver, if_pos rfl]
  · rw [hf.other j hj]

theorem callback (hf : Finish cfg s n c t) (j : ν) :
    (t.cores j).callback = if j = n then none else (s.cores j).callback := by
  by_cases hj : j = n
  · subst hj
    rw [hf.self, if_pos rfl]
  · rw [hf.other j hj, if_neg hj]

theorem made (hf : Finish cfg s n c t) (j : ν) : (t.cores j).made = (s.cores j).made :=
  hf.field (·.made) hf.same.made (fun _ _ => rfl) j

theorem inner (hf : Finish cfg s n c t) (j : ν) : (t.cores j).inner = (s.cores j).inner :=
  hf.field (·.inner) hf.same.inner (fun _ _ => rfl) j

theorem head (hf : Finish cfg s n c t) (j : ν) : (t.cores j).head = (s.cores j).head :=
  hf.field (·.head) hf.same.head (fun _ _ => rfl) j

theorem on (hf : Finish cfg s n c t) (j : ν) : (t.cores j).on = (s.cores j).on :=
  hf.field (·.on) hf.same.on (fun _ _ => rfl) j

theorem taken (hf : Finish cfg s n c t) (j : ν) : (t.cores j).taken = (s.cores j).taken :=
  hf.field (·.taken) hf.same.taken (fun _ _ => rfl) j

theorem handle (hf : Finish cfg s n c t) (j : ν) : (t.cores j).handle = (s.cores j).handle :=
  hf.field (·.handle) hf.same.handle (fun _ _ => rfl) j

theorem executor (hf : Finish cfg s n c t) (j : ν) :
    (t.cores j).executor = (s.cores j).executor :=
  hf.field (·.executor) hf.same.executor (fun _ _ => rfl) j

theorem runs (hf : Finish cfg s n c t) (j : ν) (hcoroutine : (cfg.prog j).isCoroutine = true) :
    (t.cores j).runs = (s.cores j).runs := by
  by_cases hj : j = n
  · subst hj
    rw [hf.self, ← hf.same.runs hcoroutine]
  · rw [hf.other j hj]

/-- What is done stays done with the same result. -/
theorem final (hf : Finish cfg s n c t) (hi : Inv cfg s) (hphase : (s.cores n).phase ≠ .done)
    (p : ν) (r : Except ε α) (h : Final s p r) : Final t p r := by
  have hp : p ≠ n := by
    rintro rfl
    exact hphase ((hi.cell p).mp h.1)
  rw [Final, hf.other p hp]
  exact h

/-- Those who waited for the core that ends wait no longer, and nobody else is touched. -/
theorem waiting (hf : Finish cfg s n c t) (hwait : ∀ p, (s.cores n).phase ≠ .waiting p) (j p : ν) :
    (t.cores j).phase = .waiting p ↔ p ≠ n ∧ (s.cores j).phase = .waiting p := by
  rw [hf.phase, handedOver]
  split
  · subst j
    simp [hwait]
  · split
    · simp_all
      exact Ne.symm
    · aesop

theorem frame (hf : Finish cfg s n c t) (hphase : (s.cores n).phase ≠ .done) : Frame s t := by
  intro j hj
  have hjn : j ≠ n := by
    rintro rfl
    exact hphase hj
  have hsame : handedOver s n j = (s.cores j).phase := by
    rw [handedOver, if_neg hjn, if_neg (by simp [hj])]
  refine .of_eq ?_
  rw [hf.other j hjn, hsame]

end Finish

namespace Finish

variable {t : State ν ι ε α}

/-- A list that was handed over is closed, and all that were in it are on their way. -/
theorem links (hf : Finish cfg s n c t) (hi : Inv cfg s) (hn : Ready cfg s n) : Links t := by
  have hwaiting := hf.waiting hn.waiting
  refine ⟨?_, ?_, ?_⟩
  · intro p cs hcs
    rw [hf.callback] at hcs
    split at hcs
    · cases hcs
    · exact hi.links.nodup p cs hcs
  · intro p cs hcs j
    rw [hf.callback] at hcs
    split at hcs
    · cases hcs
    · rw [hwaiting]
      have hmem := hi.links.mem p cs hcs j
      tauto
  · intro p hp j hj
    obtain ⟨hpn, hj⟩ := (hwaiting j p).mp hj
    rw [hf.callback, if_neg hpn] at hp
    exact hi.links.closed p hp j hj

theorem owned (hf : Finish cfg s n c t) (hi : Inv cfg s) : Owned cfg t :=
  hi.owned.congr hf.made hf.inner hf.taken hf.handle

theorem chains (hf : Finish cfg s n c t) (hi : Inv cfg s) (hn : Ready cfg s n) : Chains cfg t := by
  refine hi.chains.congr hf.made hf.inner hf.head hf.handle ?_ ?_ ?_
  · exact hf.field (·.next) hf.same.next fun _ _ => rfl
  · exact hf.field (·.last) hf.same.last fun _ _ => rfl
  · intro j hj
    have hjn : j ≠ n := by
      rintro rfl
      exact hn.idle hj
    rw [hf.phase, handedOver, if_neg hjn, if_neg (by simp [hj]), hj]

/-- The core that ends leaves its executor to the steps that are reached from it. -/
theorem executors (hf : Finish cfg s n c t) (hi : Inv cfg s) (hn : Ready cfg s n) :
    Executors cfg t := by
  refine hi.executors.congr hf.on hf.executor hf.taken hf.head hf.runs ?_
  intro j p hcoroutine hj
  have hjn : j ≠ n := by
    rintro rfl
    exact hn.here hcoroutine p hj
  rw [hf.phase, handedOver, if_neg hjn, if_neg (by simp [hj]), hj]

/-- The head that a core was entered from is not done before that core is called back. -/
theorem callers (hf : Finish cfg s n c t) (hi : Inv cfg s) (hn : Ready cfg s n)
    (hresult : (cfg.prog n).detached = false → ∃ r, c.slot = .result r) : Callers cfg t := by
  have hfinal := hf.final hi hn.done
  refine ⟨?_, ?_, ?_⟩
  · intro j p hj
    rw [hf.inner]
    exact hi.callers.waiting j p ((hf.waiting hn.waiting j p).mp hj).2
  · intro j p hj
    have hjn : j ≠ n := by
      rintro rfl
      simp [hf.phase, handedOver] at hj
    rw [hf.phase, handedOver, if_neg hjn] at hj
    split at hj
    · -- a callback that `n` hands over
      rename_i hwait
      cases hj
      obtain ⟨r, hr⟩ : ∃ r, Final t n r := by
        have huses : Uses cfg s j n := by
          rcases hi.callers.waiting j n hwait with hinner | ⟨-, hprevious⟩
          · exact .inl hinner
          · refine .inr ⟨?_, hprevious⟩
            by_contra hmade
            rw [hi.unmade j (by simpa using hmade)] at hwait
            cases hwait
        obtain ⟨r, hr⟩ := hresult (hi.owned.attached j n huses).2
        exact ⟨r, by rw [hf.self], by rw [hf.self]; exact hr⟩
      rcases hi.callers.waiting j n hwait with hinner | ⟨hinner, hprevious⟩
      · exact .unwrapped r (by rw [hf.inner, hinner]) hr
      · exact .attached r (by rw [hf.inner, hinner]) hprevious hr
    · cases hi.callers.here j p hj with
      | unwrapped r hinner hr =>
        exact .unwrapped r (by rw [hf.inner, hinner]) (hfinal p r hr)
      | attached r hinner hprevious hr =>
        exact .attached r (by rw [hf.inner, hinner]) hprevious (hfinal p r hr)
      | started m hinner hprevious hhead hm hruns =>
        have hpn : p ≠ n := by
          rintro rfl
          exact hn.waiting m hm
        have hmn : m ≠ n := by
          rintro rfl
          exact hn.not_root hi hjn hj (hi.root_of_waiting hhead hm)
        refine .started m (by rw [hf.inner, hinner]) hprevious (by rw [hf.head, hhead]) ?_ ?_
        · rw [hf.phase, handedOver, if_neg hpn, if_neg (by simp [hm, hmn]), hm]
        · intro hcoroutine
          rw [hf.runs j hcoroutine]
          exact hruns hcoroutine
  · intro j p hon hprevious
    rw [hf.on] at hon
    obtain ⟨r, hr⟩ := hi.callers.previous j p hon hprevious
    exact ⟨r, hfinal p r hr⟩

/-- The core that ends has the result of the reference, by the cores that were done before.
-/
theorem values (hf : Finish cfg s n c t) (hi : Inv cfg s) (hn : Ready cfg s n)
    (hinner : ∀ sch step m, cfg.prog n = .core sch step → c.inner = some m →
      Unwraps cfg s step c m)
    (hsettled : ∀ sch step, cfg.prog n = .core sch step → Settled cfg s step c) :
    Values cfg t := by
  have hfinal := hf.final hi hn.done
  have hself : SameValue c (t.cores n) := by
    rw [hf.self]
    exact ⟨rfl, rfl, rfl, rfl⟩
  refine hi.values.other hfinal (n := n) ?_ ?_ ?_
  · intro j hj
    refine ⟨?_, ?_⟩
    · rw [hf.other j hj]
      exact ⟨rfl, rfl, rfl, rfl⟩
    · rw [hf.phase, handedOver, if_neg hj]
      split
      · intro h
        cases h
      · exact id
  · intro sch step m hstep hm
    exact ((hinner sch step m hstep (hself.inner ▸ hm)).mono hfinal).same hself
  · intro sch step hstep _
    exact ((hsettled sch step hstep).mono hfinal).same hself

theorem shape (hf : Finish cfg s n c t) (hi : Inv cfg s)
    (hshape : Shape cfg n { c with callback := none, phase := .done }) (j : ν)
    (hmade : (t.cores j).made = true) : Shape cfg j (t.cores j) := by
  rw [hf.made] at hmade
  by_cases hj : j = n
  · subst hj
    rw [hf.self]
    exact hshape
  · rw [hf.other j hj, handedOver, if_neg hj]
    have hs := hi.shape j hmade
    split
    · exact hs.handed ‹_›
    · exact hs

end Finish

/-- The end of a core is a move: its result is stored, and its callbacks are reached by steps
of their own. -/
theorem Inv.finish {t : State ν ι ε α} (hi : Inv cfg s) (hf : Finish cfg s n c t)
    (hn : Ready cfg s n) (hshape : Shape cfg n { c with callback := none, phase := .done })
    (hinner : ∀ sch step m, cfg.prog n = .core sch step → c.inner = some m →
      Unwraps cfg s step c m)
    (hsettled : ∀ sch step, cfg.prog n = .core sch step → Settled cfg s step c) :
    Inv cfg t := by
  refine ⟨?_, ?_, hf.shape hi hshape, hf.links hi hn, hf.owned hi, hf.chains hi hn,
    hf.callers hi hn hshape.result, hf.executors hi hn, hf.values hi hn hinner hsettled⟩
  · intro j hmade
    rw [hf.made] at hmade
    have hj : j ≠ n := by
      rintro rfl
      rw [hn.made] at hmade
      cases hmade
    have hempty := hi.unmade j hmade
    rw [hf.other j hj, handedOver, if_neg hj, if_neg (by simp [hempty]), hempty]
  · intro j
    rw [hf.callback, hf.phase, handedOver]
    split
    · simp
    · rw [hi.cell]
      split
      · simp [*]
      · rfl

/-- What a core that ends depends on is done before. -/
theorem Inv.finish_move {t : State ν ι ε α} (hi : Inv cfg s) (hf : Finish cfg s n c t)
    (hn : Ready cfg s n) (hshape : Shape cfg n { c with callback := none, phase := .done })
    (hinner : ∀ sch step m, cfg.prog n = .core sch step → c.inner = some m →
      Unwraps cfg s step c m)
    (hsettled : ∀ sch step, cfg.prog n = .core sch step → Settled cfg s step c)
    (hdone : (cfg.prog n).isCoroutine = false → ∀ m, c.inner = some m → ∃ r, Final s m r) :
    Move cfg s t := by
  refine ⟨hi.finish hf hn hshape hinner hsettled, hf.frame hn.done, ?_⟩
  intro j hj
  by_cases hjn : j = n
  · subst hjn
    refine .inr ⟨hn.previous, ?_⟩
    intro hnot m hm
    rw [hf.self] at hm
    exact hdone hnot m hm
  · rw [hf.phase, handedOver, if_neg hjn] at hj
    split at hj
    · cases hj
    · exact .inl hj

end Yaclib.Core
