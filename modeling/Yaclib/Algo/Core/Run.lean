import Yaclib.Algo.Core.Steps

/-!
The runs of the pipelines. Every event keeps the invariant, and the one event that can meet
undefined behaviour is `Here` of a head that expects a caller that is done: a callback
returned, or a coroutine awaits, a task that begins with `Schedule` or with `LazyContract`.
-/

namespace Yaclib.Core

open Concurrency

variable {ν ι ε α : Type} {cfg : Config ν ι ε α} {s t : State ν ι ε α} {n m p : ν}
  {step : Step ν ι ε α} {c : CoreState ν ι ε α} {r : Except ε α}

theorem previous_of_other (hn : ∀ sch step, cfg.prog n ≠ .core sch step) :
    (cfg.prog n).previous = none := by
  cases hprog : cfg.prog n with
  | core sch step => exact absurd hprog (hn sch step)
  | _ => rfl

/-- Only a core that is done was dropped. -/
theorem Inv.not_dropped (hi : Inv cfg s) (hn : ∀ sch step, cfg.prog n ≠ .core sch step)
    (hmade : (s.cores n).made = true) (hphase : (s.cores n).phase ≠ .done) :
    (s.cores n).dropped = false := by
  by_contra hdropped
  have hstored := ((Shape.iff_other hn).mp (hi.shape n hmade)).stored
  exact hphase (hstored.dropped (by simpa using hdropped)).1

/-- The head of a task has no caller that is done, and no result is read from one that waits. -/
theorem Inv.no_result (hi : Inv cfg s) (hn : ∀ sch step, cfg.prog n ≠ .core sch step)
    (hcoroutine : (cfg.prog n).isCoroutine = false) (hphase : (s.cores n).phase = .here p) :
    (s.cores n).inner = none ∧ (s.cores p).get = .error .noResult := by
  have hnone := previous_of_other hn
  have hmade := hi.made_of_phase (n := n) (by simp [hphase])
  have hinner := ((Shape.iff_other hn).mp (hi.shape n hmade)).inner hcoroutine
  refine ⟨hinner, ?_⟩
  cases hi.callers.here n p hphase with
  | unwrapped r h =>
    rw [hinner] at h
    cases h
  | attached r _ h =>
    rw [hnone] at h
    cases h
  | started m _ _ hhead hm _ =>
    have hslot : ∃ callback, (s.cores p).slot = .self callback := by
      have hpmade := hi.made_of_phase (n := p) (by simp [hm])
      have hshape := hi.shape p hpmade
      unfold Shape at hshape
      cases hprog : cfg.prog p with
      | core sch step =>
        simp only [hprog, StepShape, hm] at hshape
        obtain ⟨q, hq⟩ := Option.ne_none_iff_exists'.mp (Resume.inner_of_head hi hhead)
        exact ⟨_, (hshape.unwrapping q hq).slot⟩
      | promiseType kind =>
        simp only [hprog] at hshape
        exact ⟨_, (hshape.coroutine rfl).slot (by simp [hm])⟩
      | _ =>
        simp only [hprog] at hshape
        exact absurd hm (hshape.waiting rfl m)
    obtain ⟨callback, hslot⟩ := hslot
    rw [CoreState.get, hslot]

/-- A core that is no step, when it is made. -/
theorem Born.of_other (hc : New n c) (hn : ∀ sch step, cfg.prog n ≠ .core sch step)
    (hdone : c.phase = .done → ∃ r, c.slot = .result r)
    (hready : ∀ r, (cfg.prog n).stored = some r → c.slot = .result r)
    (hdropped : c.dropped = false) (hended : ∀ r, cfg.prog n = .ready r → c.phase = .done)
    (hhandle : c.handle ≠ none → (cfg.prog n).shared = false)
    (hcoroutine : (cfg.prog n).isCoroutine = true → c.slot = .self {} ∧
      (c.runs = 0 → c.phase = .idle ∧ c.executor = some cfg.inline) ∧
      (c.phase = .idle → c.runs = 0)) : Born cfg n c := by
  refine ⟨hc, (Shape.iff_other hn).mpr ?_, ?_, previous_of_other hn,
    fun sch step hprog => absurd hprog (hn sch step)⟩
  · refine ⟨hc.on, hdone, ⟨fun r hr _ => hready r hr, by simp [hdropped], hended⟩, ?_,
      fun _ => hc.inner, fun _ => hc.waiting⟩
    intro h
    obtain ⟨hslot, hzero, hidle⟩ := hcoroutine h
    refine ⟨fun _ => hc.inner, ?_, fun _ => hc.waiting, ?_, ?_, fun _ => hslot⟩
    · intro hruns
      simp [(hzero hruns).1]
    · intro hphase
      exact ⟨hidle hphase, (hzero (hidle hphase)).2⟩
    · intro _ p hp
      exact absurd hp (hc.here p)
  · intro h
    refine ⟨hhandle h, ?_⟩
    cases hprog : cfg.prog n with
    | core sch step => exact absurd hprog (hn sch step)
    | _ => rfl

/-- The first step of a pipeline, when it is made. -/
theorem Born.of_step {sch : Bool} (hc : New n c) (hprog : cfg.prog n = .core sch step)
    (hprevious : step.previous = none) (hshape : StepShape step c)
    (hphase : c.phase ≠ .done) (hhandle : c.handle ≠ none → step.type.toShared = false) :
    Born cfg n c := by
  refine ⟨hc, ?_, ?_, ?_, fun _ _ _ => hphase⟩
  · rw [Shape, hprog]
    exact hshape
  · intro h
    have hrun := step.run_iff.mpr hprevious
    rw [hprog]
    exact ⟨hhandle h, step.instantiable.not_detach_of_run hrun⟩
  · rw [hprog, Node.previous, hprevious]

theorem New.fresh (shared : Bool) (e : ι) :
    New n (startOn e (fresh shared .future (some e) : CoreState ν ι ε α)) := by
  constructor <;> simp [startOn, Core.fresh]

theorem New.freshTask (e : ι) : New n (freshTask n (some e) : CoreState ν ι ε α) := by
  constructor <;> simp [Core.freshTask, Core.fresh]

/-- A coroutine that is at work and may await `m`. -/
structure Awaiting (cfg : Config ν ι ε α) (s : State ν ι ε α) (n m : ν) : Prop where
  prog : ∃ kind, cfg.prog n = .promiseType kind
  phase : (s.cores n).phase = .running
  handle : (s.cores m).handle ≠ none

namespace Awaiting

theorem other (hn : Awaiting cfg s n m) (sch : Bool) (step : Step ν ι ε α) :
    cfg.prog n ≠ .core sch step := by
  obtain ⟨kind, hprog⟩ := hn.prog
  simp [hprog]

theorem coroutine (hn : Awaiting cfg s n m) : (cfg.prog n).isCoroutine = true := by
  obtain ⟨kind, hprog⟩ := hn.prog
  rw [hprog, Node.isCoroutine]

theorem made (hn : Awaiting cfg s n m) (hi : Inv cfg s) : (s.cores n).made = true :=
  hi.made_of_phase (by simp [hn.phase])

theorem shape (hn : Awaiting cfg s n m) (hi : Inv cfg s) :
    OtherShape cfg (cfg.prog n) (s.cores n) :=
  (Shape.iff_other hn.other).mp (hi.shape n (hn.made hi))

theorem runs (hn : Awaiting cfg s n m) (hi : Inv cfg s) : (s.cores n).runs ≠ 0 := fun hzero =>
  ((hn.shape hi).coroutine hn.coroutine).running hzero hn.phase

theorem slot (hn : Awaiting cfg s n m) (hi : Inv cfg s) : (s.cores n).slot = .self {} :=
  ((hn.shape hi).coroutine hn.coroutine).slot (by simp [hn.phase])

theorem unique (hn : Awaiting cfg s n m) (hi : Inv cfg s) : (cfg.prog m).shared = false :=
  (hi.owned.handle m hn.handle).2.2.1

end Awaiting

def awaiting (m : ν) (head : Option ν) (c : CoreState ν ι ε α) : CoreState ν ι ε α :=
  { c with inner := some m, head }

/-- A coroutine that awaits a core takes it over as a step does. -/
theorem Awaiting.linkable (hn : Awaiting cfg s n m) (hi : Inv cfg s) (head : Option ν) :
    Linkable cfg n m (s.cores n) (awaiting m head (s.cores n)) := by
  refine ⟨rfl, rfl, rfl, rfl, rfl, rfl, rfl, rfl, rfl, fun _ => rfl, rfl, ?_⟩
  intro r
  simp [awaiting, hn.slot hi]

variable [DecidableEq ν]

/-! The classes that are no step. -/

/-- The result of a core that is no step is stored, and its callbacks are handed over. -/
theorem Inv.finishOther (hi : Inv cfg s) (hn : ∀ sch step, cfg.prog n ≠ .core sch step)
    (hphase : (s.cores n).phase = .submitted ∨ (s.cores n).phase = .running ∨
      ∃ p r, (s.cores n).phase = .here p ∧ cfg.prog n = .readyCore r)
    (hsame : SameOutside cfg n (s.cores n) c)
    (hslot : c.slot = .result r)
    (hready : ∀ x, (cfg.prog n).stored = some x → c.dropped = false → r = x)
    (hdropped : c.dropped = true → r = .error cfg.stopTag) :
    Move cfg s (setResult (s.put n c) n) := by
  have hn' : Ready cfg s n := by
    have hnone := previous_of_other hn
    have hmade : (s.cores n).made = true := by
      refine hi.made_of_phase ?_
      rcases hphase with h | h | ⟨p, r, h, -⟩ <;> simp [h]
    refine ⟨hmade, ?_, ?_, ?_, ?_, by simp [hnone]⟩
    · rcases hphase with h | h | ⟨p, r, h, -⟩ <;> simp [h]
    · rcases hphase with h | h | ⟨p, r, h, -⟩ <;> simp [h]
    · rcases hphase with h | h | ⟨p, r, h, -⟩ <;> simp [h]
    · intro hcoroutine
      rcases hphase with h | h | ⟨p, r, -, h⟩
      · simp [h]
      · simp [h]
      · simp [h, Node.isCoroutine] at hcoroutine
  have hshape := (Shape.iff_other hn).mp (hi.shape n hn'.made)
  have hfinish := Finish.of_setResult hi hn'.done hsame
  refine hi.finish_move hfinish hn' ?_ (fun sch step m hprog => absurd hprog (hn sch step))
    (fun sch step hprog => absurd hprog (hn sch step)) ?_
  refine (Shape.iff_other hn).mpr ⟨?_, fun _ => ⟨r, hslot⟩, ⟨?_, ?_, fun _ _ => rfl⟩, ?_, ?_,
    by simp⟩
  · intro hon
    exact hshape.on (hsame.on.symm.trans hon)
  · intro x hx hnot
    exact hslot.trans (by rw [hready x hx hnot])
  · intro hc
    exact ⟨rfl, hslot.trans (by rw [hdropped hc])⟩
  · intro hcoroutine
    have hc := hshape.coroutine hcoroutine
    refine ⟨?_, by simp, by simp, by simp, by simp, by simp⟩
    intro hzero
    exact hsame.inner.trans (hc.inner ((hsame.runs hcoroutine).symm.trans hzero))
  · intro hcoroutine
    exact hsame.inner.trans (hshape.inner hcoroutine)
  · intro hnot m hm
    rw [hsame.inner, hshape.inner hnot] at hm
    cases hm

/-- A core that is no step stores its result and hands its callbacks over. -/
theorem Inv.produce (hi : Inv cfg s) (hn : ∀ sch step, cfg.prog n ≠ .core sch step)
    (hphase : (s.cores n).phase = .submitted ∨ (s.cores n).phase = .running)
    (hsame : SameOutside cfg n (s.cores n) c)
    (hready : ∀ x, (cfg.prog n).stored = some x → c.dropped = false → r = x)
    (hdropped : c.dropped = true → r = .error cfg.stopTag) :
    Move cfg s (produce (s.put n c) n r) := by
  rw [Core.produce, State.modify_put]
  refine hi.finishOther hn (hphase.imp_right .inl) ?_ rfl hready hdropped
  exact ⟨hsame.made, hsame.callback, hsame.executor, hsame.next, hsame.handle, hsame.taken,
    hsame.on, hsame.inner, hsame.head, hsame.last, hsame.runs⟩

theorem Inv.ready (hi : Inv cfg s) {x : Except ε α} (hn : cfg.prog n = .readyCore x)
    (hphase : (s.cores n).phase = .submitted ∨ ∃ p, (s.cores n).phase = .here p) :
    Move cfg s (setResult s n) := by
  have hother : ∀ sch step, cfg.prog n ≠ .core sch step := by simp [hn]
  have hmade : (s.cores n).made = true := by
    refine hi.made_of_phase ?_
    rcases hphase with h | ⟨p, h⟩ <;> simp [h]
  have hnot := hi.not_dropped hother hmade (by rcases hphase with h | ⟨p, h⟩ <;> simp [h])
  have hslot := ((Shape.iff_other hother).mp (hi.shape n hmade)).stored.ready x
    (by rw [hn, Node.stored]) hnot
  have hput : setResult s n = setResult (s.put n (s.cores n)) n := by rw [State.put_self]
  rw [hput]
  refine hi.finishOther hother ?_ ⟨rfl, rfl, rfl, rfl, rfl, rfl, rfl, rfl, rfl, rfl, fun _ => rfl⟩
    hslot ?_ ?_
  · rcases hphase with h | ⟨p, h⟩
    · exact .inl h
    · exact .inr (.inr ⟨p, x, h, hn⟩)
  · intro y hy _
    rw [hn, Node.stored] at hy
    exact Option.some.inj hy
  · intro hdropped
    rw [hnot] at hdropped
    cases hdropped

/-- An executor calls the job of the core. -/
theorem Inv.callJob (hi : Inv cfg s) (hphase : (s.cores n).phase = .submitted) :
    Outcome cfg s False (callJob cfg s n) := by
  cases hprog : cfg.prog n with
  | core sch step =>
    have hmade := hi.made_of_phase (n := n) (by simp [hphase])
    have hshape := hi.stepShape hprog hmade
    rw [StepShape, hphase] at hshape
    have hn : Calling cfg s n step :=
      ⟨⟨sch, hprog⟩, hmade, hshape.1, hshape.2.1, .inl hphase⟩
    simp only [Core.callJob, hprog]
    exact .of_or (hn.call hi) id
  | readyCore x =>
    simp only [Core.callJob, hprog]
    exact .ok (.move <| hi.ready hprog (.inl hphase)) id
  | promiseType kind =>
    simp only [Core.callJob, hprog]
    refine .ok (.move <| hi.started (n := n) false (by simp [hprog]) hphase ?_ ?_) id
    · rw [State.cores_modify, if_pos rfl]
      rfl
    · intro j hj
      rw [State.cores_modify, if_neg hj]
  | promiseCore | contract | ready =>
    simp only [Core.callJob, hprog]
    refine .ok (.move <| hi.started (n := n) true (by simp [hprog]) hphase ?_ ?_) id
    · rw [State.cores_modify, if_pos rfl]
      rfl
    · intro j hj
      rw [State.cores_modify, if_neg hj]

/-- An executor drops the job of the core. -/
theorem Inv.dropJob (hi : Inv cfg s) (hphase : (s.cores n).phase = .submitted) :
    Outcome cfg s False (dropJob cfg s n) := by
  cases hprog : cfg.prog n with
  | core sch step =>
    have hmade := hi.made_of_phase (n := n) (by simp [hphase])
    have hshape := hi.stepShape hprog hmade
    rw [StepShape, hphase] at hshape
    have hn : Calling cfg s n step :=
      ⟨⟨sch, hprog⟩, hmade, hshape.1, hshape.2.1, .inl hphase⟩
    simp only [Core.dropJob, hprog]
    exact .of_or (hn.drop hi) id
  | readyCore | promiseType =>
    simp only [Core.dropJob, hprog]
    refine .ok (.move <| hi.produce (by simp [hprog]) (.inl hphase) ?_ ?_ fun _ => rfl) id
    · exact ⟨rfl, rfl, rfl, rfl, rfl, rfl, rfl, rfl, rfl, rfl, fun _ => rfl⟩
    · simp
  | promiseCore | contract | ready =>
    simp only [Core.dropJob, hprog]
    refine .ok (.move <| hi.produce (by simp [hprog]) (.inl hphase) ?_ ?_ fun _ => rfl) id
    · exact ⟨rfl, rfl, rfl, rfl, rfl, rfl, rfl, rfl, rfl, rfl, fun _ => rfl⟩
    · simp [destroyFunctor]

/-- `Here` of the core is called with its caller. -/
theorem Inv.here (hi : Inv cfg s) (hphase : (s.cores n).phase = .here p) :
    Outcome cfg s (Unstarted cfg s n) (here cfg s n p) := by
  cases hprog : cfg.prog n with
  | core sch step =>
    simp only [Core.here, hprog]
    exact hi.impl hprog hphase
  | readyCore x =>
    simp only [Core.here, hprog]
    refine .ok (.move <| hi.ready hprog (.inr ⟨p, hphase⟩)) ?_
    rintro ⟨-, -, h⟩
    simp [hprog, Node.startsHere] at h
  | promiseType kind =>
    have hne := Resume.ne hi hprog hphase
    simp only [Core.here, hprog]
    refine .ok (.move <| hi.resume (n := n) hprog hphase ⟨?_, ?_, ?_⟩) ?_
    · simp [resumeFrom, hne.symm]
    · simp [resumeFrom, hne]
    · intro j hj hjp
      simp [resumeFrom, hj, hjp]
    · rintro ⟨-, -, h⟩
      simp [hprog, Node.startsHere] at h
  | promiseCore | contract | ready =>
    have hother : ∀ sch step, cfg.prog n ≠ .core sch step := by simp [hprog]
    obtain ⟨hinner, hget⟩ := hi.no_result hother (by simp [hprog, Node.isCoroutine]) hphase
    simp only [Core.here, hprog, hget, bind, Except.bind]
    exact .fault (.inr rfl)
      ⟨hinner, previous_of_other hother, by simp [hprog, Node.startsHere]⟩

/-! New cores. -/

/-- A core that was made by itself is a move that ends no core. -/
theorem Inv.put (hi : Inv cfg s) (hmade : (s.cores n).made = false) (hc : Born cfg n c) :
    Move cfg s (s.put n c) := by
  have hother : ∀ j, j ≠ n → (s.put n c).cores j = s.cores j := by
    intro j hj
    rw [State.cores_put, if_neg hj]
  have hself : (s.put n c).cores n = c := by rw [State.cores_put, if_pos rfl]
  refine ⟨hi.born hmade hc hself hother, hi.born_frame hmade hother, ?_⟩
  intro j hj
  by_cases hjn : j = n
  · subst hjn
    refine .inr ⟨by simp [hc.previous], ?_⟩
    intro _ m hm
    rw [hself, hc.inner] at hm
    cases hm
  · rw [hother j hjn] at hj
    exact .inl hj

theorem submit_fresh (shared : Bool) (e : ι) :
    submit (s.put n (fresh shared .future (some e))) n =
      .ok (s.put n (startOn e (fresh shared .future (some e)))) := by
  simp [submit, startOn, fresh]

/-- A core is made by itself. -/
theorem Inv.make (hi : Inv cfg s) {y : Except Fault (State ν ι ε α)}
    (h : make cfg s n = some y) : Outcome cfg s False y := by
  rw [Core.make] at h
  split at h
  · cases h
  · rename_i hmade
    have hmade : (s.cores n).made = false := by simpa using hmade
    cases hprog : cfg.prog n with
    | contract shared executor =>
      simp only [hprog] at h
      cases h
      refine .ok (.move <| hi.put hmade (Born.of_other ?_ ?_ ?_ ?_ ?_ ?_ ?_ ?_)) id
      · constructor <;> simp [fresh]
      all_goals simp [hprog, fresh, Node.shared, Node.isCoroutine, Node.stored]
    | ready r =>
      simp only [hprog] at h
      cases h
      refine .ok (.move <| hi.put hmade (Born.of_other ?_ ?_ ?_ ?_ ?_ ?_ ?_ ?_)) id
      · constructor <;> simp [freshReady]
      all_goals simp [hprog, freshReady, Node.shared, Node.isCoroutine, Node.stored]
    | readyCore r =>
      simp only [hprog] at h
      cases h
      refine .ok (.move <| hi.put hmade (Born.of_other ?_ ?_ ?_ ?_ ?_ ?_ ?_ ?_)) id
      · constructor <;> simp [freshReady]
      all_goals simp [hprog, freshReady, Node.shared, Node.isCoroutine, Node.stored]
    | promiseCore kind e =>
      cases kind with
      | lazy =>
        simp only [hprog] at h
        cases h
        refine .ok (.move <| hi.put hmade (Born.of_other (.freshTask e) ?_ ?_ ?_ ?_ ?_ ?_ ?_)) id
        all_goals simp [hprog, freshTask, fresh, Node.shared, Node.isCoroutine, Node.stored]
      | unique | shared =>
        simp only [hprog, submit_fresh] at h
        cases h
        refine .ok (.move <| hi.put hmade (Born.of_other (.fresh _ e) ?_ ?_ ?_ ?_ ?_ ?_ ?_)) id
        all_goals simp [hprog, Core.startOn, fresh, Node.shared, Node.isCoroutine, Node.stored]
    | promiseType kind =>
      cases kind with
      | lazy =>
        simp only [hprog] at h
        cases h
        refine .ok (.move <| hi.put hmade
          (Born.of_other (.freshTask cfg.inline) ?_ ?_ ?_ ?_ ?_ ?_ ?_)) id
        all_goals simp [hprog, freshTask, fresh, Node.shared, Node.isCoroutine, Node.stored]
      | unique | shared =>
        simp only [hprog] at h
        cases h
        refine .ok (.move <| hi.put hmade (Born.of_other ?_ ?_ ?_ ?_ ?_ ?_ ?_ ?_)) id
        · constructor <;> simp [fresh]
        all_goals simp [hprog, fresh, Node.shared, Node.isCoroutine, Node.stored]
    | core sch step =>
      simp only [hprog] at h
      split at h
      · cases h
      rename_i hprevious
      have hprevious : step.previous = none := by simpa using hprevious
      have hrun := step.run_iff.mpr hprevious
      obtain ⟨e, he⟩ := Option.ne_none_iff_exists'.mp (step.run_executor hrun)
      rw [he] at h
      split at h
      · split at h
        · cases h
        · rename_i hshared
          cases h
          refine .ok (.move <| hi.put hmade
            (Born.of_step (.freshTask e) hprog hprevious ?_ ?_ ?_)) id
          · refine ⟨hprevious, ?_, ?_, ?_⟩
            · constructor <;> rfl
            · simp [freshTask, fresh]
            · rfl
          · simp [freshTask, fresh]
          · intro _
            simpa using hshared
      · rw [submit_fresh] at h
        cases h
        refine .ok (.move <| hi.put hmade (Born.of_step (.fresh _ e) hprog hprevious ?_ ?_ ?_)) id
        · have hcall := step.instantiable.call_of_run hrun
          refine ⟨⟨⟨?_, fun h => absurd hprevious h, ?_, ?_⟩, ?_, rfl, rfl, rfl, rfl, rfl, rfl⟩, rfl,
            hcall⟩
          · simp [Core.startOn]
          · simp [Core.startOn, hcall, fresh]
          · simp [Core.startOn, hprevious, fresh]
          · simp [Core.startOn, hprevious, fresh]
        · simp [Core.startOn]
        · intro h
          by_contra hshared
          simp [Core.startOn, fresh, hshared] at h

/-! Attaching a step. -/

/-- The fields of a step that `SetCallback` attaches to `p`. -/
def freshStep (step : Step ν ι ε α) (p : ν) (next : List ν) : CoreState ν ι ε α :=
  { made := true
    executor := step.executor
    handle := if step.type.detach then none else some (if step.type.lazy then .task else .future)
    next := if step.type.lazy then p :: next else [] }

/-- The fields that attaching `n` to `p` changes. -/
def attached (cfg : Config ν ι ε α) (s : State ν ι ε α) (n p : ν) (step : Step ν ι ε α) (j : ν)
    (c : CoreState ν ι ε α) : CoreState ν ι ε α :=
  { c with
    callback := if j = p then (s.cores p).callback.map (n :: ·) else c.callback
    handle := if j = p then none else c.handle
    taken := if j = p ∧ (cfg.prog p).shared = false then some n else c.taken
    phase := if j = n then if (s.cores p).callback = none then .here p else .waiting p
      else c.phase
    last := if step.type.lazy = true ∧ j = (s.cores p).headOf p then some n else c.last }

theorem Attach.of_cores (hi : Inv cfg s) (hn : Attaching cfg s n p step)
    (ht : ∀ j, t.cores j = attached cfg s n p step j
      (if j = n then freshStep step p (s.cores p).next else s.cores j)) :
    Attach cfg s n p step t := by
  have hne := hn.ne hi
  have hempty := hi.unmade n hn.unmade
  refine ⟨?_, ?_, ?_, ?_, ?_, ?_, ?_, ?_, ?_, ?_⟩
  · intro j
    rw [ht, attached]
    split <;> rfl
  · intro j
    rw [ht, attached]
    by_cases hj : j = n
    · subst hj
      simp [hempty, freshStep, hne.symm]
    · simp [hj]
  · intro j
    rw [ht, attached]
    by_cases hj : j = n
    · subst hj
      simp [freshStep, hne.symm]
    · simp [hj]
  · intro j
    rw [ht, attached]
    split <;> rfl
  · intro j
    rw [ht, attached]
    by_cases hj : j = n
    · simp [hj]
    · simp [hj]
  · intro j
    rw [ht, attached]
    by_cases hj : j = n
    · subst hj
      simp [hempty, freshStep, hne.symm]
    · simp [hj]
  · intro j
    rw [ht, attached]
    by_cases hj : j = n
    · subst hj
      simp [hempty, freshStep]
    · simp [hj]
  · rw [ht, attached, if_pos rfl]
    rfl
  · rw [ht, attached, if_pos rfl, hempty]
    exact ⟨rfl, rfl, rfl, rfl, rfl, rfl, rfl, rfl, rfl, rfl, rfl⟩
  · intro j hj
    rw [ht, attached, if_neg hj]
    exact ⟨rfl, rfl, rfl, rfl, rfl, rfl, rfl, rfl, rfl, rfl, rfl⟩

theorem Attaching.cores_put (hn : Attaching cfg s n p step) (hi : Inv cfg s) :
    (s.put n c).cores p = s.cores p := by
  rw [State.cores_put, if_neg (hn.ne hi)]

/-- What attaching to a shared future writes. -/
theorem cores_attach_shared (hi : Inv cfg s) (hn : Attaching cfg s n p step)
    (hshared : (cfg.prog p).shared = true) (hlazy : step.type.lazy = false) (j : ν) :
    (setInline (s.put n (freshStep step p (s.cores p).next)) true p n).cores j =
      attached cfg s n p step j
        (if j = n then freshStep step p (s.cores p).next else s.cores j) := by
  have hnone : (s.cores p).handle = none := by
    by_contra hhandle
    have hunique := (hi.owned.handle p hhandle).2.2.1
    rw [hshared] at hunique
    cases hunique
  have hne := hn.ne hi
  rw [cores_setInline (.inl rfl), hn.cores_put hi, State.cores_put, attached]
  ext1 <;> simp [hshared, hlazy]
  intro hj
  rw [hj, if_neg hne, hnone]

/-- What attaching to a future writes, which is taken over. -/
theorem cores_attach_future (hi : Inv cfg s) (hn : Attaching cfg s n p step)
    (hhandle : (s.cores p).handle ≠ none) (hlazy : step.type.lazy = false) (j : ν) :
    (setInline (take (s.put n (freshStep step p (s.cores p).next)) p n) false p n).cores j =
      attached cfg s n p step j
        (if j = n then freshStep step p (s.cores p).next else s.cores j) := by
  have hunique := (hi.owned.handle p hhandle).2.2.1
  have hcallback : ((take (s.put n (freshStep step p (s.cores p).next)) p n).cores p).callback =
      (s.cores p).callback := by
    rw [cores_take, hn.cores_put hi]
  rw [cores_setInline, hcallback, cores_take, State.cores_put, attached]
  · ext1 <;> simp [hunique, hlazy]
  · right
    intro cs hcs
    exact hi.callback_of_handle hhandle (hcallback ▸ hcs)

/-- What attaching to a task writes: the step becomes the end of the chain. -/
theorem cores_attach_task (hi : Inv cfg s) (hn : Attaching cfg s n p step)
    (htask : (s.cores p).handle = some .task) (hlazy : step.type.lazy = true) (j : ν) :
    ((storeCallback (take (s.put n (freshStep step p (s.cores p).next)) p n) p n).modify
        ((s.cores p).headOf p) fun c => { c with last := some n }).cores j =
      attached cfg s n p step j
        (if j = n then freshStep step p (s.cores p).next else s.cores j) := by
  have hunique := (hi.owned.handle p (by simp [htask])).2.2.1
  have hempty := hi.callback_of_task htask
  have hcallback : ((take (s.put n (freshStep step p (s.cores p).next)) p n).cores p).callback =
      some [] := by
    rw [cores_take, hn.cores_put hi, hempty]
  have hcores : ∀ i,
      (storeCallback (take (s.put n (freshStep step p (s.cores p).next)) p n) p n).cores i =
        { attached cfg s n p step i
          (if i = n then freshStep step p (s.cores p).next else s.cores i) with
          last := (if i = n then freshStep step p (s.cores p).next else s.cores i).last } := by
    intro i
    rw [storeCallback_eq hcallback, cores_setInline (.inl rfl), hcallback, cores_take,
      State.cores_put, attached]
    ext1 <;> simp [hunique, hempty]
  rw [State.cores_modify]
  split
  · subst j
    rw [hcores, attached]
    simp [hlazy]
  · rw [hcores, attached]
    rename_i hj
    simp [hj]

/-- A step is attached. -/
theorem Inv.attachStep (hi : Inv cfg s) (h : Core.attach cfg s n = some t) :
    Move cfg s t := by
  rw [Core.attach] at h
  split at h
  · cases h
  rename_i hmade
  have hmade : (s.cores n).made = false := by simpa using hmade
  split at h
  · rename_i sch step hprog
    cases hprevious : step.previous with
    | none => simp [hprevious] at h
    | some p =>
      simp only [hprevious] at h
      split at h
      · rename_i hshared
        have hlazy : step.type.lazy = false := by
          by_contra hlazy
          have hunique := step.instantiable.unique_of_lazy (by simpa using hlazy)
          rw [hshared] at hunique
          cases hunique
        split at h
        · rename_i hp
          cases h
          have hn : Attaching cfg s n p step :=
            ⟨⟨sch, hprog⟩, hmade, hprevious, fun _ => hp, by simp [hshared]⟩
          refine hi.attach hn (.of_cores hi hn ?_)
          intro j
          rw [← cores_attach_shared hi hn hp.2 hlazy, freshStep, hlazy]
          rfl
        · cases h
      · rename_i hshared
        split at h
        · rename_i hlazy
          split at h
          · rename_i htask
            cases h
            have hn : Attaching cfg s n p step :=
              ⟨⟨sch, hprog⟩, hmade, hprevious, fun h => absurd h hshared,
                fun _ => by rw [htask, if_pos hlazy]⟩
            refine hi.attach hn (.of_cores hi hn ?_)
            intro j
            rw [← cores_attach_task hi hn htask hlazy, freshStep, hlazy]
            rfl
          · cases h
        · rename_i hlazy
          split at h
          · rename_i hfuture
            cases h
            have hn : Attaching cfg s n p step :=
              ⟨⟨sch, hprog⟩, hmade, hprevious, fun h => absurd h hshared,
                fun _ => by rw [hfuture, if_neg hlazy]⟩
            have hlazy : step.type.lazy = false := by simpa using hlazy
            refine hi.attach hn (.of_cores hi hn ?_)
            intro j
            rw [← cores_attach_future hi hn (by simp [hfuture]) hlazy, freshStep, hlazy]
            rfl
          · cases h
  · cases h

/-! The other events. -/

/-- The head of a task that is started has an executor. -/
theorem Inv.startTask (hi : Inv cfg s) {executor : Option ι} {isDetach : Bool}
    {y : Except Fault (State ν ι ε α)} (h : Core.start s m executor isDetach = some y) :
    Outcome cfg s False y := by
  rw [Core.start] at h
  split at h
  · rename_i hm
    obtain ⟨hmade, hidle, hlast⟩ := hi.chains.task m hm
    generalize hroot : (s.cores m).headOf m = root at hmade hidle hlast h
    have hexecutor : (s.cores root).executor ≠ none := by
      refine hi.executor_of_on ?_ (by simp [hidle])
      have hshape := hi.shape root hmade
      unfold Shape at hshape
      cases hprog : cfg.prog root with
      | core sch step =>
        simp only [hprog, StepShape, hidle] at hshape
        exact hshape.2.2.1
      | _ =>
        simp only [hprog] at hshape
        exact hshape.on
    have hx : (if isDetach then none else some Handle.future) ≠ some Handle.task := by
      cases isDetach <;> simp
    generalize (if isDetach then none else some Handle.future) = x at hx h
    -- first the task is given up, then its head is submitted
    let u : State ν ι ε α := s.modify m fun c => { c with next := [], handle := x }
    have hu : ∀ j, j ≠ m → u.cores j = s.cores j := by
      intro j hj
      rw [State.cores_modify, if_neg hj]
    have hself : u.cores m = { s.cores m with next := [], handle := x } := by
      rw [State.cores_modify, if_pos rfl]
    have hrelease : Move cfg s u := by
      refine ⟨hi.release hm hx hself hu, hi.release_frame hm hu, ?_⟩
      intro j hj
      by_cases hjm : j = m
      · subst hjm
        rw [hself] at hj
        exact .inl hj
      · rw [hu j hjm] at hj
        exact .inl hj
    have hinside : (u.cores root).made = true ∧ (u.cores root).phase = .idle ∧
        (u.cores root).executor = (s.cores root).executor := by
      by_cases hrm : root = m
      · subst hrm
        rw [hself]
        exact ⟨hmade, hidle, rfl⟩
      · rw [hu root hrm]
        exact ⟨hmade, hidle, rfl⟩
    obtain ⟨e, he⟩ : ∃ e, executor.or (u.cores root).executor = some e := by
      refine Option.ne_none_iff_exists'.mp ?_
      rw [hinside.2.2]
      cases executor with
      | some e => simp
      | none => simpa using hexecutor
    have hsubmit : submit (u.modify root fun c => { c with executor := executor.or c.executor })
        root = .ok (u.put root (Core.startOn e (u.cores root))) := by
      simp [submit, State.modify, he, Core.startOn]
    have hy : y = submit (u.modify root fun c => { c with executor := executor.or c.executor })
        root := (Option.some.inj h).symm
    rw [hy, hsubmit]
    refine .ok (.trans (.move hrelease)
      (.move (hrelease.inv.startOn (n := root) (e := e) hinside.1 hinside.2.1 ?_ ?_ ?_))) id
    · intro q hq heq
      have hqm : q ≠ m := by
        rintro rfl
        rw [hself] at hq
        exact hx hq
      rw [hu q hqm] at hq heq
      have hlast' := (hi.chains.task q hq).2.2
      rw [heq, hlast] at hlast'
      exact hqm (Option.some.inj hlast').symm
    · rw [State.cores_put, if_pos rfl]
    · intro j hj
      rw [State.cores_put, if_neg hj]
  · cases h

/-- A coroutine that awaits a core keeps the shape of its class. -/
theorem Awaiting.link (head root : Option ν) {q : Phase ν} (hn : Awaiting cfg s n m)
    (hi : Inv cfg s) (hq : q = .here m ∨ q = .running) (hlinking : Linking cfg s n m root)
    (ht : ∀ j, t.cores j = takenOver cfg s n m root q j
      (if j = n then awaiting m head (s.cores n) else s.cores j)) : Move cfg s t := by
  have hself := ht n
  rw [if_pos rfl] at hself
  have hlink := Link.of_cores hq (hn.linkable hi head) ht
  refine ⟨hi.link hlinking hlink ?_ (fun sch step hprog => absurd hprog (hn.other sch step)),
    hlink.frame hlinking hi, fun j hj => .inl ((hlink.done hlinking hi j).mp hj)⟩
  have hroot : root ≠ some n := fun heq => (hlinking.idle hi heq).2.1 rfl
  have hphase : (t.cores n).phase = if (s.cores m).callback = none then q else .waiting m := by
    rw [hself, takenOver, if_neg hroot, if_pos rfl]
  have hruns : (t.cores n).runs ≠ 0 := by
    rw [hself]
    exact hn.runs hi
  have hnot : (t.cores n).phase ≠ .done ∧ (t.cores n).phase ≠ .idle := by
    rw [hphase]
    split
    · rcases hq with rfl | rfl <;> simp
    · simp
  have hcoroutine := hn.coroutine
  refine (Shape.iff_other hn.other).mpr ⟨?_, fun h => absurd h hnot.1, ?_, ?_, ?_, ?_⟩
  · rw [hself]
    exact (hn.shape hi).on
  · refine (hn.shape hi).stored.mono ?_ ?_ (by simp [hn.phase])
    · rw [hself]
      rfl
    · rw [hself]
      rfl
  · intro _
    refine ⟨fun h => absurd h hruns, fun h => absurd h hruns, fun h => absurd h hruns,
      fun h => absurd h hnot.2, fun h => absurd h hruns, ?_⟩
    intro _
    rw [hself]
    exact hn.slot hi
  · intro h
    rw [h] at hcoroutine
    cases hcoroutine
  · intro h
    rw [h] at hcoroutine
    cases hcoroutine

/-- A coroutine awaits a future or a task. -/
theorem Inv.awaitCore (hi : Inv cfg s) (h : Core.await cfg s n m = some t) :
    Move cfg s t := by
  rw [Core.await] at h
  split at h
  · rename_i kind hprog hphase hm
    have hn : Awaiting cfg s n m := ⟨⟨kind, hprog⟩, hphase, by simp [hm]⟩
    have hput : s.modify n (fun c => { c with inner := some m, head := none }) =
        s.put n (awaiting m none (s.cores n)) := rfl
    rw [hput] at h
    split at h
    · -- it is ready
      rename_i hready
      cases h
      refine hn.link none none (q := .running) hi (.inr rfl)
        ⟨hn.made hi, .inr hphase, .inl hn.handle, by simp,
          fun hnot => by simp [hn.coroutine] at hnot, fun _ => ⟨hn.runs hi, hn.unique hi⟩⟩ ?_
      have hne : n ≠ m := by
        rintro rfl
        have hdone := (hi.cell n).mp hready
        rw [hphase] at hdone
        cases hdone
      intro j
      rw [cores_take, State.cores_put, takenOver]
      by_cases hj : j = n
      · subst hj
        simp [awaiting, hne, hready, hphase]
      · by_cases hjm : j = m
        · subst hjm
          ext1 <;> simp [hj, hn.unique hi, hready]
        · simp [hj, hjm]
    · cases h
      obtain ⟨root, hlinking, ht⟩ := follow_cores hi .future (by simp [holds, hm])
        (hn.made hi) (.inr hphase) (by simp [hn.coroutine])
        (fun _ => ⟨hn.runs hi, hn.unique hi⟩) (hn.linkable hi none) (fun _ => rfl)
      exact hn.link _ _ hi (.inl rfl) hlinking ht
  · rename_i kind hprog hphase hm
    have hn : Awaiting cfg s n m := ⟨⟨kind, hprog⟩, hphase, by simp [hm]⟩
    cases h
    obtain ⟨root, hlinking, ht⟩ := follow_cores hi .task (by simp [holds, hm])
      (hn.made hi) (.inr hphase) (by simp [hn.coroutine])
      (fun _ => ⟨hn.runs hi, hn.unique hi⟩) (hn.linkable hi (s.cores n).head)
      (fun h => absurd rfl h)
    exact hn.link _ _ hi (.inl rfl) hlinking ht
  · cases h

theorem Inv.set (hi : Inv cfg s) (hphase : (s.cores n).phase = .running)
    (hproducer : (cfg.prog n).isProducer = true) :
    Move cfg s (Core.produce s n r) := by
  have hother : ∀ sch step, cfg.prog n ≠ .core sch step := by
    intro sch step hprog
    simp [hprog, Node.isProducer] at hproducer
  have hmade := hi.made_of_phase (n := n) (by simp [hphase])
  have hnot := hi.not_dropped hother hmade (by simp [hphase])
  have hstored : (cfg.prog n).stored = none := by
    cases hprog : cfg.prog n with
    | ready | readyCore | core => simp [hprog, Node.isProducer] at hproducer
    | _ => rfl
  have h := hi.produce (r := r) (c := s.cores n) hother (.inr hphase)
    ⟨rfl, rfl, rfl, rfl, rfl, rfl, rfl, rfl, rfl, rfl, fun _ => rfl⟩ (by simp [hstored])
    (by simp [hnot])
  rwa [State.put_self] at h

/-- The event calls `Here` of a head that expects a caller that is done. -/
def Wild (cfg : Config ν ι ε α) (s : State ν ι ε α) (e : Event ν ι ε α) : Prop :=
  ∃ n, e = .here n ∧ Unstarted cfg s n

/-- Every event keeps the invariant; the undefined behaviour that an event can meet is that
of a `Wild` one. -/
theorem Inv.exec (hi : Inv cfg s) {e : Event ν ι ε α} {y : Except Fault (State ν ι ε α)}
    (h : exec cfg s e = some y) : Outcome cfg s (Wild cfg s e) y := by
  have hout : ∀ (f : Event ν ι ε α), (∀ n, f ≠ .here n) → Outcome cfg s False y →
      Outcome cfg s (Wild cfg s f) y := by
    intro f hf hy
    have hwild : Wild cfg s f ↔ False := iff_of_false (fun ⟨n, hn, _⟩ => hf n hn) id
    rwa [hwild]
  cases e with
  | make n => exact hout _ (by simp) (hi.make h)
  | attach n =>
    obtain ⟨t, ht, rfl⟩ := Option.map_eq_some_iff.mp h
    exact hout _ (by simp) (.ok (.move <| hi.attachStep ht) id)
  | start m executor isDetach => exact hout _ (by simp) (hi.startTask h)
  | await c m =>
    obtain ⟨t, ht, rfl⟩ := Option.map_eq_some_iff.mp h
    exact hout _ (by simp) (.ok (.move <| hi.awaitCore ht) id)
  | call n =>
    rw [Core.exec] at h
    split at h
    · cases h
      exact hout _ (by simp) (hi.callJob (by assumption))
    · cases h
  | drop n =>
    rw [Core.exec] at h
    split at h
    · cases h
      exact hout _ (by simp) (hi.dropJob (by assumption))
    · cases h
  | here n =>
    rw [Core.exec] at h
    split at h
    · rename_i caller hphase
      cases h
      have hwild : Wild cfg s (.here n) ↔ Unstarted cfg s n := by
        constructor
        · rintro ⟨_, hn, hu⟩
          cases hn
          exact hu
        · intro hu
          exact ⟨n, rfl, hu⟩
      rw [hwild]
      exact hi.here hphase
    · cases h
  | set n r =>
    rw [Core.exec] at h
    split at h
    · rename_i hset
      cases h
      exact hout _ (by simp) (.ok (.move <| hi.set hset.1 hset.2) id)
    · cases h

end Yaclib.Core
