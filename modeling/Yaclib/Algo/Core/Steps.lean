import Yaclib.Algo.Core.Attach
import Yaclib.Algo.Core.Enter

/-!
What the functions of the cores do to a state with the invariant. A step that is called
stores a result and hands its callbacks over, or takes over the core that its callback
returned; only a head that was entered from outside may read a caller that is not there.
-/

namespace Yaclib.Core

variable {ν ι ε α : Type} {cfg : Config ν ι ε α} {s t : State ν ι ε α} {n m p : ν}
  {step : Step ν ι ε α} {b c : CoreState ν ι ε α} {r x : Except ε α}

theorem Step.releases_previous (step : Step ν ι ε α) (h : step.releases = true) :
    ∃ p, step.previous = some p := by
  rw [Step.releases, Bool.and_eq_true, Bool.not_eq_true'] at h
  refine Option.ne_none_iff_exists'.mp ?_
  intro hnone
  rw [step.run_iff.mpr hnone] at h
  cases h.1

/-- The step `n` is about to invoke its callback. -/
structure Calling (cfg : Config ν ι ε α) (s : State ν ι ε α) (n : ν) (step : Step ν ι ε α) :
    Prop where
  prog : ∃ sch, cfg.prog n = .core sch step
  made : (s.cores n).made = true
  entered : Entered step (s.cores n)
  dropped : (s.cores n).dropped = false
  phase : (s.cores n).phase = .submitted ∨ (s.cores n).phase = .running

/-- The fields of a step that is called, or dropped, `runs` times so far. -/
def called (dropped : Bool) (runs : Nat) (c : CoreState ν ι ε α) : CoreState ν ι ε α :=
  { c with dropped, runs }

namespace Calling

theorem node (hn : Calling cfg s n step) : (cfg.prog n).previous = step.previous := by
  obtain ⟨sch, hprog⟩ := hn.prog
  rw [hprog, Node.previous]

theorem not_coroutine (hn : Calling cfg s n step) : (cfg.prog n).isCoroutine = false := by
  obtain ⟨sch, hprog⟩ := hn.prog
  rw [hprog]
  rfl

theorem ready (hn : Calling cfg s n step) (hi : Inv cfg s) : Ready cfg s n := by
  refine ⟨hn.made, ?_, ?_, ?_, ?_, fun p => hi.callers.previous n p hn.entered.on⟩
  · rcases hn.phase with h | h <;> simp [h]
  · rcases hn.phase with h | h <;> simp [h]
  · rcases hn.phase with h | h <;> simp [h]
  · simp [hn.not_coroutine]

end Calling

/-- A step with an async result always takes the core before it along. -/
theorem Step.releases_of_async (step : Step ν ι ε α) (h : step.returns ≠ .plain) :
    step.releases = !step.type.run := by
  have hasync : step.returns.async ≠ .none := by
    cases hreturns : step.returns with
    | plain => exact absurd hreturns h
    | future | sharedFuture | task => simp [Returns.async]
  simp [Step.releases, hasync]

theorem Unwrapping.pending (h : Unwrapping step c m) : Pending step c := by
  have hinner : c.inner ≠ none := by simp [h.inner]
  refine ⟨fun hnone => absurd hnone hinner, fun hnone => absurd hnone hinner,
    fun hnone => absurd hnone hinner, fun hnone => absurd hnone hinner, ?_⟩
  intro m' hm'
  cases h.inner.symm.trans hm'
  exact h

namespace Calling

variable {dropped : Bool}

theorem called_self (hn : Calling cfg s n step) : called false 0 (s.cores n) = s.cores n := by
  have hruns := hn.entered.runs
  have hdropped := hn.dropped
  ext1 <;> simp [called, hruns, hdropped]

end Calling

theorem Unwrapping.detach (h : Unwrapping step c m) : step.type.detach = false := by
  by_contra hdetach
  exact h.async (step.detach_plain (by simpa using hdetach))

/-- The executor that a step goes on with. -/
theorem Entering.transfer (hn : Entering cfg s n p step) (hi : Inv cfg s) :
    ∃ e, ((s.cores n).executor = some e ∨
      ((s.cores n).executor = none ∧ (s.cores p).executor = some e)) := by
  cases hexecutor : (s.cores n).executor with
  | some e => exact ⟨e, .inl rfl⟩
  | none =>
    obtain ⟨e, he⟩ := Option.ne_none_iff_exists'.mp (hn.caller_executor hi)
    exact ⟨e, .inr ⟨rfl, he⟩⟩

theorem Entering.ne (hn : Entering cfg s n p step) (hi : Inv cfg s) : p ≠ n := by
  rintro rfl
  obtain ⟨r, hr⟩ := hn.final
  have hdone := (hi.cell p).mp hr.1
  rw [hn.phase] at hdone
  cases hdone

/-- The invariant is kept, unless a callback returned what it did not own, or the caller that
is needed is not there. -/
inductive Outcome (cfg : Config ν ι ε α) (s : State ν ι ε α) (wild : Prop) :
    Except Fault (State ν ι ε α) → Prop
  | ok {t : State ν ι ε α} : Next cfg s t → ¬ wild → Outcome cfg s wild (.ok t)
  | foreign : Outcome cfg s wild (.error .foreign)
  | fault {f : Fault} : f = .nullCaller ∨ f = .noResult → wild → Outcome cfg s wild (.error f)

theorem Outcome.of_or {wild : Prop} {y : Except Fault (State ν ι ε α)}
    (h : y = .error .foreign ∨ ∃ t, y = .ok t ∧ Next cfg s t) (hwild : ¬ wild) :
    Outcome cfg s wild y := by
  rcases h with rfl | ⟨t, rfl, ht⟩
  · exact .foreign
  · exact .ok ht hwild

variable [DecidableEq ν]

namespace State

@[simp] theorem put_put : (s.put n b).put n c = s.put n c := by
  simp only [put, Function.update_idem]

@[simp] theorem put_self : s.put n (s.cores n) = s := by
  simp only [put, Function.update_eq_self]

@[simp] theorem modify_put (f : CoreState ν ι ε α → CoreState ν ι ε α) :
    (s.put n c).modify n f = s.put n (f c) := by
  rw [modify, cores_put, if_pos rfl, put_put]

end State

/-! The end of a step. -/

/-- The fields of a step that ends with the result `x`. -/
def ended (step : Step ν ι ε α) (x : Except ε α) (c : CoreState ν ι ε α) : CoreState ν ι ε α :=
  { c with
    slot := if step.type.detach then c.slot else .result x
    released := c.released ++ if step.releases then step.previous.toList else []
    destroyed := c.destroyed + 1 }

theorem done_put (hslot : c.slot = .self { caller := step.previous }) :
    done (s.put n c) n step false x = .ok (setResult (s.put n (ended step x c)) n) := by
  have hself : ((s.put n c).cores n).self = .ok { caller := step.previous } := by
    rw [State.cores_put, if_pos rfl, CoreState.self, hslot]
  rw [done, hself]
  cases hreleases : step.releases with
  | true =>
    obtain ⟨p, hp⟩ := step.releases_previous hreleases
    simp [ended, hreleases, hp, decRef, deref, destroyFunctor, Step.store, bind, Except.bind,
      pure, Except.pure]
    split <;> rfl
  | false =>
    simp [ended, hreleases, destroyFunctor, Step.store, bind, Except.bind, pure, Except.pure]
    split <;> rfl

namespace Calling

variable {dropped : Bool} {runs : Nat}

/-- A step whose input gives a result at once stores it and hands its callbacks over. -/
theorem finish (hn : Calling cfg s n step) (hi : Inv cfg s) (hruns : runs ≤ 1)
    (hinput : Input cfg s step dropped r) (hx : step.reference r = .inl x)
    (hcount : runs = if step.accepts r then 1 else 0) :
    ∃ t, done (s.put n (called dropped runs (s.cores n))) n step false x = .ok t ∧
      Next cfg s t := by
  have he := hn.entered
  rw [done_put (by simpa [called] using he.slot)]
  refine ⟨_, rfl, ?_⟩
  have hready := hn.ready hi
  have hsame : SameOutside cfg n (s.cores n)
      (ended step x (called dropped runs (s.cores n))) := by
    refine ⟨rfl, rfl, rfl, rfl, rfl, rfl, rfl, rfl, rfl, rfl, ?_⟩
    simp [hn.not_coroutine]
  have hfinish := Finish.of_setResult hi hready.done hsame
  refine .move (hi.finish_move hfinish hready ?_ ?_ ?_ ?_)
  · obtain ⟨sch, hprog⟩ := hn.prog
    rw [Shape, hprog]
    refine ⟨⟨he.on, he.given, he.submits, he.acquired⟩, ?_, hruns, ?_, ?_⟩
    · cases hdetach : step.type.detach with
      | true => exact .inl rfl
      | false => exact .inr ⟨x, by simp [ended, hdetach]⟩
    · simp [ended, called, he.released, he.inner]
    · simp [ended, called, he.destroyed]
  · intro sch step' m _ hm
    simp [ended, called, he.inner] at hm
  · intro sch step' hprog'
    obtain ⟨sch', hprog⟩ := hn.prog
    cases hprog'.symm.trans hprog
    constructor
    · intro _
      refine ⟨r, x, hinput, hx, hcount, ?_⟩
      cases hdetach : step.type.detach with
      | true => exact .inl ⟨rfl, by simp [ended, called, hdetach, he.slot]⟩
      | false => exact .inr (by simp [ended, hdetach])
    · intro m hm
      simp [ended, called, he.inner] at hm
  · intro _ m hm
    simp [ended, called, he.inner] at hm

end Calling

/-! A step whose callback returned a core. -/

def unwrapping (step : Step ν ι ε α) (m : ν) (c : CoreState ν ι ε α) : CoreState ν ι ε α :=
  { c with
    slot := .self { caller := some m, unwrapping := !step.type.run }
    released := c.released ++ if step.type.run then [] else step.previous.toList
    destroyed := c.destroyed + 1
    inner := some m }

theorem unwrap_put (hslot : c.slot = .self { caller := step.previous })
    (hholds : holds cfg (s.put n c) m step.returns = true) :
    unwrap cfg (s.put n c) n step m =
      .ok (follow (s.put n (unwrapping step m c)) n m step.returns) := by
  have hself : ((s.put n c).cores n).self = .ok { caller := step.previous } := by
    rw [State.cores_put, if_pos rfl, CoreState.self, hslot]
  rw [unwrap, hself]
  cases hrun : step.type.run with
  | true =>
    simp [unwrapping, destroyFunctor, hholds, hrun, bind, Except.bind, pure, Except.pure]
  | false =>
    obtain ⟨p, hp⟩ : ∃ p, step.previous = some p := by
      refine Option.ne_none_iff_exists'.mp ?_
      intro hnone
      rw [step.run_iff.mpr hnone] at hrun
      cases hrun
    simp [unwrapping, destroyFunctor, hholds, hrun, hp, decRef, deref, bind, Except.bind, pure,
      Except.pure]

/-- The core `c` is `n` with `m` for its inner core. -/
structure Linkable (cfg : Config ν ι ε α) (n m : ν) (b c : CoreState ν ι ε α) : Prop where
  made : c.made = b.made
  callback : c.callback = b.callback
  executor : c.executor = b.executor
  next : c.next = b.next
  handle : c.handle = b.handle
  phase : c.phase = b.phase
  taken : c.taken = b.taken
  on : c.on = b.on
  last : c.last = b.last
  runs : (cfg.prog n).isCoroutine = true → c.runs = b.runs
  inner : c.inner = some m
  slot : ∀ r, c.slot ≠ .result r

/-- The fields that taking over the core `m` changes. -/
def takenOver (cfg : Config ν ι ε α) (s : State ν ι ε α) (n m : ν) (root : Option ν)
    (q : Phase ν) (j : ν) (c : CoreState ν ι ε α) : CoreState ν ι ε α :=
  { c with
    handle := if j = m then none else c.handle
    taken := if j = m ∧ (cfg.prog m).shared = false then some n else c.taken
    next := if j = m ∧ root ≠ none then [] else c.next
    callback := if j = m then (s.cores m).callback.map (n :: ·) else c.callback
    phase := if root = some j then .here n
      else if j = n then if (s.cores m).callback = none then q else .waiting m
      else c.phase
    head := if j = n then root else c.head }

theorem Link.of_cores {root : Option ν} {q : Phase ν} (hq : q = .here m ∨ q = .running)
    (hc : Linkable cfg n m (s.cores n) c)
    (ht : ∀ j, t.cores j = takenOver cfg s n m root q j (if j = n then c else s.cores j)) :
    Link cfg s n m root q t := by
  have hfield : ∀ {β : Type} (f : CoreState ν ι ε α → β), f c = f (s.cores n) →
      ∀ j, f (if j = n then c else s.cores j) = f (s.cores j) := by
    intro β f hf j
    split
    · subst j
      exact hf
    · rfl
  refine ⟨?_, ?_, ?_, ?_, ?_, ?_, ?_, ?_, ?_, ?_, ?_, ?_, ?_, ?_, hq⟩
  · intro j
    rw [ht, takenOver, hfield (·.made) hc.made]
  · intro j
    rw [ht, takenOver, hfield (·.last) hc.last]
  · intro j
    rw [ht, takenOver, hfield (·.executor) hc.executor]
  · intro j
    rw [ht, takenOver, hfield (·.on) hc.on]
  · intro j hcoroutine
    rw [ht, takenOver]
    by_cases hj : j = n
    · subst hj
      rw [if_pos rfl]
      exact hc.runs hcoroutine
    · rw [if_neg hj]
  · intro j
    rw [ht, takenOver]
    split
    · exact hc.inner
    · rfl
  · intro j
    rw [ht, takenOver]
    split <;> rfl
  · intro j
    rw [ht, takenOver, hfield (·.taken) hc.taken]
  · intro j
    rw [ht, takenOver, hfield (·.handle) hc.handle]
  · intro j
    rw [ht, takenOver, hfield (·.next) hc.next]
  · intro j
    rw [ht, takenOver, hfield (·.callback) hc.callback]
  · intro j
    rw [ht, takenOver, hfield (·.phase) hc.phase]
  · intro j hj
    rw [ht, takenOver, if_neg hj]
    exact ⟨rfl, rfl, rfl, rfl, rfl, rfl, rfl, rfl, rfl, rfl, by simp [hj]⟩
  · intro r
    rw [ht, takenOver, if_pos rfl]
    exact hc.slot r

@[simp] theorem cores_take (j : ν) : (take s m n).cores j = { s.cores j with
    handle := if j = m then none else (s.cores j).handle
    taken := if j = m then some n else (s.cores j).taken } := by
  rw [take, State.cores_modify]
  split
  · subst j
    rfl
  · rfl

theorem cores_setInline {shared : Bool}
    (h : shared = true ∨ ∀ cs, (s.cores m).callback = some cs → cs = []) (j : ν) :
    (setInline s shared m n).cores j = { s.cores j with
      callback := if j = m then (s.cores m).callback.map (n :: ·) else (s.cores j).callback
      phase := if j = n then if (s.cores m).callback = none then .here m else .waiting m
        else (s.cores j).phase } := by
  rw [setInline]
  cases hcallback : (s.cores m).callback with
  | none =>
    dsimp only
    rw [State.cores_modify]
    split
    · subst j
      by_cases hm : n = m
      · subst hm
        simp [hcallback]
      · simp [hm]
    · by_cases hm : j = m
      · subst hm
        ext1 <;> simp [hcallback]
      · simp [hm]
  | some cs =>
    have hcs : shared = true ∨ cs = [] := h.imp_right fun h => h cs hcallback
    dsimp only
    rw [if_pos hcs, State.cores_modify, State.cores_modify, State.cores_modify]
    by_cases hj : j = n
    · subst hj
      by_cases hm : j = m
      · subst hm
        simp
      · simp [hm]
    · by_cases hm : j = m
      · subst hm
        simp [hj]
      · simp [hj, hm]

theorem storeCallback_eq (h : (s.cores m).callback = some []) :
    storeCallback s m n = setInline s true m n := by
  rw [storeCallback, setInline, h]
  simp

theorem Linkable.callback_put (hc : Linkable cfg n m (s.cores n) c) (j : ν) :
    ((s.put n c).cores j).callback = (s.cores j).callback := by
  rw [State.cores_put]
  split
  · subst j
    exact hc.callback
  · rfl

/-- The callback is put in the list of a future, or can be called. -/
theorem cores_follow_future (hi : Inv cfg s) (hc : Linkable cfg n m (s.cores n) c)
    (hhead : c.head = none) (hhandle : (s.cores m).handle ≠ none) (j : ν) :
    (follow (s.put n c) n m .future).cores j =
      takenOver cfg s n m none (.here m) j (if j = n then c else s.cores j) := by
  have hm := (hi.owned.handle m hhandle).2.2.1
  have hcallback : ((take (s.put n c) m n).cores m).callback = (s.cores m).callback := by
    rw [cores_take, hc.callback_put]
  rw [follow, cores_setInline]
  · rw [hcallback, cores_take, State.cores_put, takenOver]
    ext1 <;> simp [hm]
    intro hj
    rw [if_pos hj, hhead]
  · right
    intro cs hcs
    exact hi.callback_of_handle hhandle (hcallback ▸ hcs)

/-- The callback is put in the list of a shared future, or can be called. -/
theorem cores_follow_shared (hi : Inv cfg s) (hc : Linkable cfg n m (s.cores n) c)
    (hhead : c.head = none) (hm : (cfg.prog m).shared = true) (j : ν) :
    (follow (s.put n c) n m .sharedFuture).cores j =
      takenOver cfg s n m none (.here m) j (if j = n then c else s.cores j) := by
  have hnone : (s.cores m).handle = none := by
    by_contra hhandle
    have hunique := (hi.owned.handle m hhandle).2.2.1
    rw [hm] at hunique
    cases hunique
  rw [follow, cores_setInline (.inl rfl)]
  · rw [hc.callback_put, State.cores_put, takenOver]
    ext1 <;> simp [hm]
    · intro hj
      split
      · rw [hc.handle, ← ‹j = n›, hj, hnone]
      · rw [hj, hnone]
    · intro hj
      rw [if_pos hj, hhead]

/-- The head of the task is entered. -/
theorem cores_follow_task (hi : Inv cfg s) (hc : Linkable cfg n m (s.cores n) c)
    (hn : (s.cores n).phase ≠ .idle) (hm : (s.cores m).handle = some .task) (j : ν) :
    (follow (s.put n c) n m .task).cores j =
      takenOver cfg s n m (some ((s.cores m).headOf m)) (.here m) j
        (if j = n then c else s.cores j) := by
  have hempty := hi.callback_of_task hm
  have hunique := (hi.owned.handle m (by simp [hm])).2.2.1
  have hcallback : ((take (s.put n c) m n).cores m).callback = some [] := by
    rw [cores_take, hc.callback_put, hempty]
  have hheadOf : ((s.put n c).cores m).headOf m = (s.cores m).headOf m := by
    rw [State.cores_put, CoreState.headOf, CoreState.headOf]
    split
    · subst m
      rw [hc.next]
    · rfl
  have hne : (s.cores m).headOf m ≠ n := by
    intro heq
    have hidle := (hi.chains.task m hm).2.1
    rw [heq] at hidle
    exact hn hidle
  generalize (s.cores m).headOf m = h at hheadOf hne
  have hcores : ∀ i, (storeCallback (take (s.put n c) m n) m n).cores i =
      { (if i = n then c else s.cores i) with
        handle := if i = m then none else (if i = n then c else s.cores i).handle
        taken := if i = m then some n else (if i = n then c else s.cores i).taken
        callback := if i = m then some [n] else (if i = n then c else s.cores i).callback
        phase := if i = n then .waiting m else (if i = n then c else s.cores i).phase } := by
    intro i
    rw [storeCallback_eq hcallback, cores_setInline (.inl rfl), hcallback, cores_take,
      State.cores_put]
    rfl
  simp only [follow, hheadOf, State.cores_modify, hcores, takenOver, hempty, hunique]
  by_cases hjh : j = h
  · subst hjh
    by_cases hjm : j = m
    · subst hjm
      simp [hne]
    · simp [hne, hjm]
  · by_cases hjn : j = n
    · subst hjn
      by_cases hjm : j = m
      · subst hjm
        simp [hjh, Ne.symm hjh]
      · simp [hjh, hjm, Ne.symm hjh]
    · by_cases hjm : j = m
      · subst hjm
        simp [hjh, hjn, Ne.symm hjh]
      · simp [hjh, hjn, hjm, Ne.symm hjh]

/-- `n` takes over a core that its callback returned, or that it awaits. -/
theorem follow_cores (hi : Inv cfg s) (returns : Returns)
    (hholds : holds cfg s m returns = true) (hmade : (s.cores n).made = true)
    (hphase : (s.cores n).phase = .submitted ∨ (s.cores n).phase = .running)
    (hstep : (cfg.prog n).isCoroutine = false → (s.cores n).head = none)
    (hcoroutine : (cfg.prog n).isCoroutine = true →
      (s.cores n).runs ≠ 0 ∧ (cfg.prog m).shared = false)
    (hc : Linkable cfg n m (s.cores n) c) (hhead : returns ≠ .task → c.head = none) :
    ∃ root, Linking cfg s n m root ∧ ∀ j, (follow (s.put n c) n m returns).cores j =
      takenOver cfg s n m root (.here m) j (if j = n then c else s.cores j) := by
  cases returns with
  | plain => cases hholds
  | future =>
    have hm : (s.cores m).handle = some .future := of_decide_eq_true hholds
    refine ⟨none, ⟨hmade, hphase, .inl (by simp [hm]), by simp, hstep, hcoroutine⟩, ?_⟩
    exact cores_follow_future hi hc (hhead (by simp)) (by simp [hm])
  | sharedFuture =>
    rw [holds, Bool.and_eq_true] at hholds
    refine ⟨none, ⟨hmade, hphase, .inr hholds.symm, by simp, hstep, hcoroutine⟩, ?_⟩
    exact cores_follow_shared hi hc (hhead (by simp)) hholds.2
  | task =>
    have hm : (s.cores m).handle = some .task := of_decide_eq_true hholds
    refine ⟨some ((s.cores m).headOf m), ⟨hmade, hphase, .inl (by simp [hm]), ?_, hstep,
      hcoroutine⟩, ?_⟩
    · intro h hh
      exact ⟨hm, Option.some.inj hh⟩
    · exact cores_follow_task hi hc (by rcases hphase with h | h <;> simp [h]) hm

namespace Calling

variable {dropped : Bool}

/-- A step whose callback returned a core takes it over, unless that core was not its own to
return. -/
theorem unwrap (hn : Calling cfg s n step) (hi : Inv cfg s) (hinput : Input cfg s step dropped r)
    (haccepts : step.accepts r = true) (hm : step.reference r = .inr m)
    (hreturns : step.returns ≠ .plain) :
    Core.unwrap cfg (s.put n (called dropped 1 (s.cores n))) n step m = .error .foreign ∨
    ∃ t, Core.unwrap cfg (s.put n (called dropped 1 (s.cores n))) n step m = .ok t ∧
      Next cfg s t := by
  have he := hn.entered
  have hput : holds cfg (s.put n (called dropped 1 (s.cores n))) m step.returns =
      holds cfg s m step.returns := by
    by_cases hmn : m = n
    · subst hmn
      cases hret : step.returns <;> simp [holds, called]
    · cases hret : step.returns <;> simp [holds, hmn]
  by_cases hholds : holds cfg s m step.returns = true
  · right
    rw [unwrap_put (by simpa [called] using he.slot) (hput.trans hholds)]
    refine ⟨_, rfl, ?_⟩
    have hc : Linkable cfg n m (s.cores n) (unwrapping step m (called dropped 1 (s.cores n))) := by
      refine ⟨rfl, rfl, rfl, rfl, rfl, rfl, rfl, rfl, rfl, ?_, rfl, by simp [unwrapping]⟩
      simp [hn.not_coroutine]
    obtain ⟨root, hlinking, ht⟩ := follow_cores hi _ hholds hn.made hn.phase
      (fun _ => he.head) (by simp [hn.not_coroutine]) hc fun _ => he.head
    have hself := ht n
    rw [if_pos rfl] at hself
    have hlink := Link.of_cores (.inl rfl) hc ht
    refine .move ⟨hi.link hlinking hlink ?_ ?_, hlink.frame hlinking hi,
      fun j hj => .inl ((hlink.done hlinking hi j).mp hj)⟩
    · obtain ⟨sch, hprog⟩ := hn.prog
      have hreleased : (if step.type.run then [] else step.previous.toList) =
          if step.releases then step.previous.toList else [] := by
        rw [step.releases_of_async hreturns]
        cases step.type.run <;> rfl
      have hunwrapping : Unwrapping step ((follow (s.put n (unwrapping step m
          (called dropped 1 (s.cores n)))) n m step.returns).cores n) m := by
        rw [hself]
        refine ⟨⟨he.on, he.given, he.submits, he.acquired⟩, rfl, rfl, rfl, ?_, ?_, hreturns⟩
        · simp [takenOver, unwrapping, called, he.released, hreleased]
        · simp [takenOver, unwrapping, called, he.destroyed]
      have hroot : root ≠ some n := fun heq => (hlinking.idle hi heq).2.1 rfl
      have hphase : ((follow (s.put n (unwrapping step m (called dropped 1 (s.cores n)))) n m
          step.returns).cores n).phase =
          if (s.cores m).callback = none then .here m else .waiting m := by
        rw [hself, takenOver, if_neg hroot, if_pos rfl]
      rw [Shape, hprog]
      change StepShape step _
      rw [StepShape]
      split at hphase
      · rw [hphase]
        exact hunwrapping.pending
      · rw [hphase]
        exact hunwrapping.pending
    · intro sch step' hprog'
      obtain ⟨sch', hprog⟩ := hn.prog
      cases hprog'.symm.trans hprog
      refine ⟨r, ?_, haccepts, hm⟩
      rw [hself]
      exact hinput
  · left
    rw [Core.unwrap, hput]
    simp [hholds, bind, Except.bind, throw, throwThe, MonadExceptOf.throw]

/-- A callback that does not take its input is skipped, and the step passes the input on. -/
theorem callImpl_eq :
    Core.callImpl cfg s n step r =
      if step.accepts r then callResolveAsync cfg s n step r else done s n step false r := by
  cases hparam : step.param with
  | result => cases r <;> simp [Core.callImpl, Step.accepts, hparam]
  | value => cases r <;> simp [Core.callImpl, Step.accepts, hparam]
  | error => cases r <;> simp [Core.callImpl, Step.accepts, hparam]

/-- A step whose callback is next ends, or takes over the core that the callback returned. -/
theorem callImpl (hn : Calling cfg s n step) (hi : Inv cfg s) (dropped : Bool)
    (hinput : Input cfg s step dropped r) :
    Core.callImpl cfg (s.put n (called dropped 0 (s.cores n))) n step r = .error .foreign ∨
    ∃ t, Core.callImpl cfg (s.put n (called dropped 0 (s.cores n))) n step r = .ok t ∧
      Next cfg s t := by
  rw [callImpl_eq]
  by_cases haccepts : step.accepts r = true
  · have hput : (s.put n (called dropped 0 (s.cores n))).modify n
        (fun c => { c with runs := c.runs + 1 }) = s.put n (called dropped 1 (s.cores n)) := by
      rw [State.modify_put]
      rfl
    have hdestroyed : ((s.put n (called dropped 0 (s.cores n))).cores n).destroyed = 0 := by
      rw [State.cores_put, if_pos rfl]
      exact hn.entered.destroyed
    rw [if_pos haccepts, callResolveAsync, hput, hdestroyed]
    have hcount : 1 = if step.accepts r then 1 else 0 := by rw [if_pos haccepts]
    cases hfunc : step.func r with
    | error e =>
      have hx : step.reference r = .inl (.error e) := by
        rw [Step.reference, if_pos haccepts, hfunc]
      exact .inr (hn.finish hi (Nat.le_refl 1) hinput hx hcount)
    | ok y =>
      cases y with
      | inl x =>
        have hx : step.reference r = .inl x := by
          rw [Step.reference, if_pos haccepts, hfunc]
        exact .inr (hn.finish hi (Nat.le_refl 1) hinput hx hcount)
      | inr m =>
        have hm : step.reference r = .inr m := by
          rw [Step.reference, if_pos haccepts, hfunc]
        exact hn.unwrap hi hinput haccepts hm ((step.typed r _ hfunc).mp rfl)
  · have hx : step.reference r = .inl r := by rw [Step.reference, if_neg haccepts]
    rw [if_neg haccepts]
    exact .inr (hn.finish hi (by simp) hinput hx (by simp [haccepts]))

/-- A step that is dropped goes on with the `StopTag` error. -/
theorem drop (hn : Calling cfg s n step) (hi : Inv cfg s) :
    Core.drop cfg s n step = .error .foreign ∨
    ∃ t, Core.drop cfg s n step = .ok t ∧ Next cfg s t := by
  have hput : s.modify n (fun c => { c with dropped := true }) =
      s.put n (called true 0 (s.cores n)) := by
    rw [State.modify]
    congr 1
    have hruns := hn.entered.runs
    ext1 <;> simp [called, hruns]
  rw [Core.drop, hput]
  exact hn.callImpl hi true (by simp [Input])

/-- What a step that is called reads is the result of the core before it. -/
theorem call (hn : Calling cfg s n step) (hi : Inv cfg s) :
    Core.call cfg s n step = .error .foreign ∨
    ∃ t, Core.call cfg s n step = .ok t ∧ Next cfg s t := by
  have himpl := fun r => hn.callImpl (r := r) hi false
  rw [hn.called_self, State.put_self] at himpl
  rw [Core.call]
  cases hrun : step.type.run with
  | true =>
    refine himpl (.ok cfg.unit) ?_
    simp [Input, step.run_iff.mp hrun]
  | false =>
    obtain ⟨p, hp⟩ : ∃ p, step.previous = some p := by
      refine Option.ne_none_iff_exists'.mp ?_
      intro hnone
      rw [step.run_iff.mpr hnone] at hrun
      cases hrun
    obtain ⟨r, hr⟩ := hi.callers.previous n p hn.entered.on (hn.node.trans hp)
    have hself : (s.cores n).self = .ok { caller := some p } := by
      rw [CoreState.self, hn.entered.slot, hp]
    have hget : (s.cores p).get = .ok r := by rw [CoreState.get, hr.2]
    simp only [Bool.false_eq_true, if_false, hself, deref, hget, bind, Except.bind]
    refine himpl r ?_
    simp [Input, hp, hr]

end Calling

/-! `Impl`: a step is reached, or its inner core is done. -/

/-- The fields of a step whose inner core `m` ended with `x`. -/
def unwrapped (m : ν) (x : Except ε α) (c : CoreState ν ι ε α) : CoreState ν ι ε α :=
  { c with slot := .result x, released := c.released ++ [m] }

/-- An inner core that is done gives the step its result, moved out or copied. -/
theorem Unwrapping.asyncDone (h : Unwrapping step (s.cores n) m) (hx : Final s m x) :
    Core.asyncDone s n step = .ok (setResult (s.put n (unwrapped m x (s.cores n))) n) := by
  have hself : (s.cores n).self = .ok { caller := some m, unwrapping := !step.type.run } := by
    rw [CoreState.self, h.slot]
  have hget : (s.cores m).get = .ok x := by rw [CoreState.get, hx.2]
  rw [Core.asyncDone, hself]
  simp [deref, hget, done, hself, Step.store, h.detach, decRef, unwrapped, State.modify, bind,
    Except.bind, pure, Except.pure]

/-- A step of which the inner core is done ends with its result. -/
theorem Inv.asyncDone (hi : Inv cfg s) {sch : Bool} (hprog : cfg.prog n = .core sch step)
    (hphase : (s.cores n).phase = .here m) (hinner : (s.cores n).inner = some m)
    (hx : Final s m x) :
    ∃ t, Core.asyncDone s n step = .ok t ∧ Next cfg s t := by
  have hmade := hi.made_of_phase (n := n) (by simp [hphase])
  have hshape := hi.stepShape hprog hmade
  rw [StepShape, hphase] at hshape
  have hu := hshape.unwrapping m hinner
  refine ⟨_, hu.asyncDone hx, ?_⟩
  have hready : Ready cfg s n := by
    refine ⟨hmade, by simp [hphase], by simp [hphase], by simp [hphase], ?_,
      fun p => hi.callers.previous n p hu.on⟩
    rw [hprog]
    intro hcoroutine
    cases hcoroutine
  have hsame : SameOutside cfg n (s.cores n) (unwrapped m x (s.cores n)) :=
    ⟨rfl, rfl, rfl, rfl, rfl, rfl, rfl, rfl, rfl, rfl, fun _ => rfl⟩
  have hfinish := Finish.of_setResult hi hready.done hsame
  refine .move (hi.finish_move hfinish hready ?_ ?_ ?_ ?_)
  · rw [Shape, hprog]
    refine ⟨⟨hu.on, hu.given, hu.submits, hu.acquired⟩, .inr ⟨x, rfl⟩, ?_, ?_, hu.destroyed⟩
    · exact Nat.le_of_eq hu.runs
    · simp [unwrapped, hu.released, hu.inner]
  · exact fun sch' step' m' hprog' hm' => hi.values.inner n sch' step' m' hprog' hm'
  · intro sch' step' hprog'
    cases hprog'.symm.trans hprog
    constructor
    · intro hnone
      rw [unwrapped, hinner] at hnone
      cases hnone
    · intro m' hm'
      cases hinner.symm.trans hm'
      exact ⟨hu.runs, x, hx, rfl⟩
  · intro _ m' hm'
    cases hinner.symm.trans hm'
    exact ⟨x, hx⟩

/-- The state after the executor of the caller was moved to `n`, but for `n` itself. -/
def transferred (s : State ν ι ε α) (shared : Bool) (p n : ν) : State ν ι ε α :=
  match (s.cores n).executor with
  | some _ => s
  | none => if shared then s else s.modify p fun c => { c with executor := none }

/-- Reaching a step moves the executor of its caller to it, if it has none of its own. -/
theorem Entering.enter {e : ι} (hn : Entering cfg s n p step) (hi : Inv cfg s)
    (he : (s.cores n).executor = some e ∨
      ((s.cores n).executor = none ∧ (s.cores p).executor = some e)) :
    Enter s n p step e
      ((transferred s step.type.fromShared p n).put n (entered step p e (s.cores n))) := by
  have hne := hn.ne hi
  refine ⟨hne.symm, he, ?_, ?_, ?_⟩
  · rw [State.cores_put, if_pos rfl]
  · intro j hj hjp
    rw [State.cores_put, if_neg hj, transferred]
    split
    · rfl
    · split
      · rfl
      · rw [State.cores_modify, if_neg hjp]
  · rw [State.cores_put, if_neg hne, transferred]
    split
    · exact .inl rfl
    · split
      · exact .inl rfl
      · rename_i hshared
        refine .inr ⟨by simpa using hshared, ?_⟩
        rw [State.cores_modify, if_pos rfl]

theorem State.put_modify (hne : p ≠ n) (f : CoreState ν ι ε α → CoreState ν ι ε α) :
    (s.put n c).modify p f = (s.modify p f).put n c := by
  rw [modify, modify, cores_put, if_neg hne, put, put, put, put]
  congr 1
  exact Function.update_comm hne.symm _ _ _

theorem transferExecutorTo_put (hne : p ≠ n) (hc : c.executor = (s.cores n).executor)
    (shared : Bool) :
    transferExecutorTo (s.put n c) shared p n = (transferred s shared p n).put n
      { c with executor := (s.cores n).executor.or (s.cores p).executor } := by
  rw [transferExecutorTo, transferred, State.cores_put, State.cores_put, if_pos rfl, if_neg hne,
    hc]
  cases hexecutor : (s.cores n).executor with
  | some e =>
    have hsame : { c with executor := some e } = c := by
      rw [← hexecutor, ← hc]
    rw [Option.some_or, hsame]
  | none =>
    simp only [Option.none_or, State.modify_put]
    split
    · rfl
    · rw [State.put_modify hne]

theorem Entering.impl {e : ι} (hn : Entering cfg s n p step) (hi : Inv cfg s)
    (he : (s.cores n).executor = some e ∨
      ((s.cores n).executor = none ∧ (s.cores p).executor = some e))
    (hr : Final s p r) :
    Core.impl cfg s n step p =
      let t := (transferred s step.type.fromShared p n).put n (entered step p e (s.cores n))
      if step.type.call then .ok t else Core.callImpl cfg t n step r := by
  have hu := hn.untouched hi
  have hne := hn.ne hi
  have hrun : step.type.run = false := by
    by_contra hrun
    have hnone := step.run_iff.mp (by simpa using hrun)
    rw [hn.previous] at hnone
    cases hnone
  have hor : (s.cores n).executor.or (s.cores p).executor = some e := by
    rcases he with he | ⟨hnone, he⟩
    · rw [he, Option.some_or]
    · rw [hnone, he, Option.none_or]
  have hself : (s.cores n).self = .ok {} := by rw [CoreState.self, hu.slot]
  have hget : ((transferred s step.type.fromShared p n).cores p).get = .ok r := by
    have hslot : ((transferred s step.type.fromShared p n).cores p).slot = (s.cores p).slot := by
      rw [transferred]
      split
      · rfl
      · split
        · rfl
        · rw [State.cores_modify, if_pos rfl]
    rw [CoreState.get, hslot, hr.2]
  have htransfer := transferExecutorTo_put
    (c := { s.cores n with slot := .self { caller := some p } }) hne rfl step.type.fromShared
  rw [hor] at htransfer
  have hfirst : s.modify n (fun c => { c with slot := .self { caller := some p } }) =
      s.put n { s.cores n with slot := .self { caller := some p } } := rfl
  rw [Core.impl, hrun, hself]
  simp only [bind, Except.bind, Bool.false_eq_true, if_false, and_false, hfirst, htransfer]
  cases hacquires : step.acquires with
  | true =>
    cases hcall : step.type.call with
    | true => simp [submit, entered, hacquires, hcall, hu.acquired, hu.submits]
    | false => simp [entered, hacquires, hcall, hu.acquired, hu.submits, hne, hget]
  | false =>
    cases hcall : step.type.call with
    | true => simp [submit, entered, hacquires, hcall, hu.acquired, hu.submits]
    | false => simp [entered, hacquires, hcall, hu.acquired, hu.submits, hne, hget]

/-! What a function of the cores does to a state with the invariant. -/

/-- The caller of a head is there already when `Here` of a ready task or of a coroutine is
called; a step and a promise expect one that is done. -/
def Node.startsHere : Node ν ι ε α → Bool
  | readyCore _ | promiseType _ => true
  | _ => false

/-- `Here` of the head of a task is called, and the head expects a caller that is done. -/
def Unstarted (cfg : Config ν ι ε α) (s : State ν ι ε α) (n : ν) : Prop :=
  (s.cores n).inner = none ∧ (cfg.prog n).previous = none ∧ (cfg.prog n).startsHere = false

/-- A step is called back with the result of its inner core, or of the core before it. -/
theorem Inv.impl (hi : Inv cfg s) {sch : Bool} (hprog : cfg.prog n = .core sch step)
    (hphase : (s.cores n).phase = .here p) :
    Outcome cfg s (Unstarted cfg s n) (Core.impl cfg s n step p) := by
  have hmade := hi.made_of_phase (n := n) (by simp [hphase])
  have hpending := hi.stepShape hprog hmade
  rw [StepShape, hphase] at hpending
  have hprevious : (cfg.prog n).previous = step.previous := by rw [hprog, Node.previous]
  cases hi.callers.here n p hphase with
  | unwrapped r hinner hr =>
    have hu := hpending.unwrapping p hinner
    have heq : Core.impl cfg s n step p = Core.asyncDone s n step := by
      have hself : (s.cores n).self = .ok { caller := some p, unwrapping := !step.type.run } := by
        rw [CoreState.self, hu.slot]
      have hasync : step.returns.async ≠ .none := by
        cases hreturns : step.returns with
        | plain => exact absurd hreturns hu.async
        | future | sharedFuture | task => simp [Returns.async]
      rw [Core.impl]
      split
      · rfl
      · rename_i hrun
        simp [hself, hasync, hrun, bind, Except.bind]
    rw [heq]
    refine .of_or (.inr (hi.asyncDone hprog hphase hinner hr)) ?_
    rintro ⟨hnone, -⟩
    rw [hinner] at hnone
    cases hnone
  | attached r hinner hp hr =>
    have hwild : ¬ Unstarted cfg s n := by
      rintro ⟨-, hnone, -⟩
      rw [hp] at hnone
      cases hnone
    have hn : Entering cfg s n p step :=
      ⟨⟨sch, hprog⟩, hmade, hprevious.symm.trans hp, hphase, hinner, r, hr⟩
    obtain ⟨e, he⟩ := hn.transfer hi
    have henter := hn.enter hi he
    have hnext : Next cfg s _ := .move (hi.enter hn henter)
    have himpl := hn.impl hi he hr
    generalize (transferred s step.type.fromShared p n).put n (entered step p e (s.cores n)) = t
      at henter hnext himpl
    rw [himpl]
    cases hcall : step.type.call with
    | true => exact .ok hnext hwild
    | false =>
      refine .of_or ?_ hwild
      have hgoing := henter.going hn
      have hrunning : (t.cores n).phase = .running := by rw [henter.phase, if_neg (by simp [hcall])]
      have htmade : (t.cores n).made = true := (hgoing.made n).trans hmade
      have hshape := hnext.inv.stepShape hprog htmade
      rw [StepShape, hrunning] at hshape
      have hcalling : Calling cfg t n step :=
        ⟨⟨sch, hprog⟩, htmade, hshape.1, hshape.2.1, .inr hrunning⟩
      have h := hcalling.callImpl (r := r) hnext.inv false
      rw [hcalling.called_self, State.put_self] at h
      refine (h ?_).imp_right ?_
      · simp [Input, hn.previous, hgoing.final hi p r hr]
      · rintro ⟨u, hu, hnext'⟩
        exact ⟨u, hu, hnext.trans hnext'⟩
  | started m hinner hp _ _ _ =>
    have hnone := hprevious.symm.trans hp
    have hrun := step.run_iff.mpr hnone
    have hself : (s.cores n).self = .ok {} := by
      rw [CoreState.self, (hpending.fresh hinner).slot]
    have heq : Core.impl cfg s n step p = .error .nullCaller := by
      rw [Core.impl, if_pos hrun, Core.asyncDone, hself]
      rfl
    rw [heq]
    exact .fault (.inl rfl) ⟨hinner, hp, by rw [hprog]; rfl⟩

end Yaclib.Core
