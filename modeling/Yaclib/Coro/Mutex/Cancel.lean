import Yaclib.Coro.Mutex.Order

/-!
The mutex when executors `Drop` the coroutines they are given: `PromiseType::Drop` stores
`StopTag` and completes the future, without `await_resume`. When the future is gone the
frame is destroyed, with the awaiter that the coroutine is suspended in. A
`GuardStickyAwaiter` has its guard from the start, and the destructor of that unlocks; a
`GuardAwaiter` would only make one in `await_resume`, and a `LockAwaiter` has none.
-/

namespace Yaclib.Mutex.Cancel

open Concurrency

inductive Awaiter where
  | lock
  | guard
  | guardSticky
  deriving DecidableEq

namespace Awaiter

/-- Whether the frame of a suspended coroutine holds a guard that owns the lock. -/
def ownsGuard : Awaiter → Bool
  | guardSticky => true
  | lock | guard => false

end Awaiter

/-- `Drop` completes the future, and the last reference to it destroys the frame. -/
inductive Life where
  | live
  | dropped
  | destroyed
  deriving DecidableEq

/-- The mutex, with the awaiter of the last lock of each coroutine. -/
structure State (ι E : Type) where
  mutex : Mutex.State ι E
  awaiter : ι → Awaiter := fun _ => .lock
  life : ι → Life := fun _ => .live

/-- A step of the mutex, where a lock says how it awaits; the `Drop` of a coroutine that
was submitted, and the end of its frame. -/
inductive Event (ι E : Type) where
  | mutex (e : Mutex.Event ι E) (awaiter : Awaiter)
  | drop (i : ι)
  | destroy (i : ι)

variable {ι E : Type}

section

variable [DecidableEq ι]

/-- The coroutine or its destructor is in an unlock. -/
def unlocking : Pc ι E → Bool
  | .unlock _ => true
  | _ => false

/-- A coroutine that is not live does nothing, but the destructor of its guard unlocks. -/
def enabled (s : State ι E) : Mutex.Event ι E → Bool
  | .call i _ => s.life i = .live
  | .advance i _ => s.life i = .live || s.life i = .destroyed && unlocking (s.mutex.pc i)
  | .detached _ | .relink _ _ => true

/-- The awaiter of a lock is in the frame from then on. -/
def await (s : State ι E) (awaiter : Awaiter) : Mutex.Event ι E → ι → Awaiter
  | .call i .lock => Function.update s.awaiter i awaiter
  | _ => s.awaiter

/-- `Drop`, of a coroutine that an unlock has submitted as the next owner or that has
submitted itself. -/
def drop (s : State ι E) (i : ι) : Option (State ι E) :=
  match s.life i, s.mutex.pc i with
  | .live, .resumed | .live, .ready => some { s with life := Function.update s.life i .dropped }
  | _, _ => none

/-- `handle.destroy()`: if the coroutine was to be the owner, the guard of its awaiter
calls `UnlockHere`. -/
def destroy (s : State ι E) (i : ι) : Option (State ι E) :=
  match s.life i with
  | .dropped =>
    let t := { s with life := Function.update s.life i .destroyed }
    match s.mutex.pc i, (s.awaiter i).ownsGuard with
    | .resumed, true => some { t with mutex := s.mutex.goto i (.unlock (.tryUnlock .here)) }
    | _, _ => some t
  | _ => none

variable [Fintype ι] (cfg : Config)

def step (s : State ι E) : Event ι E → Option (State ι E)
  | .mutex e awaiter =>
    if enabled s e then
      (Mutex.step cfg s.mutex e).map fun t => { s with mutex := t, awaiter := await s awaiter e }
    else none
  | .drop i => drop s i
  | .destroy i => destroy s i

def system : System (State ι E) (Event ι E) where
  Init s := (Mutex.system cfg).Init s.mutex ∧ ∀ i, s.life i = .live
  step := step cfg

/-- No live coroutine owns the mutex, the frames of all dropped coroutines are destroyed,
and no hand-off and no operation is in progress. -/
def Settled (s : State ι E) : Prop :=
  (∀ i, s.life i = .live → ¬ Owns s.mutex i) ∧ (∀ i, s.life i ≠ .dropped) ∧
    s.mutex.detached = [] ∧
    ∀ i, s.mutex.pc i = .running ∨ s.mutex.pc i = .waiting ∨ s.mutex.pc i = .ready ∨
      s.mutex.pc i = .resumed ∨ s.mutex.pc i = .held

/-- Only a coroutine that awaits `GuardSticky()` is dropped when it was to be the owner. -/
def Guarded (s : State ι E) : Event ι E → Prop
  | .drop i => s.mutex.pc i = .resumed → s.awaiter i = .guardSticky
  | _ => True

end

variable [DecidableEq ι]

section Other

variable {cfg : Config} {s t : Mutex.State ι E} {i n : ι} {p : Pc ι E}

theorem goto_pc_of_ne (hin : i ≠ n) : (s.goto n p).pc i = s.pc i :=
  Function.update_of_ne hin _ _

/-- A call moves its own coroutine only. -/
theorem call_pc_of_ne {op : Op E} (hin : i ≠ n) (hstep : Mutex.call s n op = some t) :
    t.pc i = s.pc i := by
  unfold Mutex.call at hstep
  split at hstep
  · cases hstep
    exact goto_pc_of_ne hin
  · cases hstep
    exact goto_pc_of_ne hin
  · cases hstep
    exact goto_pc_of_ne hin
  · cases hstep
    exact goto_pc_of_ne hin
  · cases hstep
    exact goto_pc_of_ne hin
  · contradiction

theorem awaitLock_pc_of_ne {expected : Word ι} {weak : Bool} (hin : i ≠ n) :
    (Mutex.awaitLock s n expected weak).pc i = s.pc i := by
  unfold Mutex.awaitLock
  cases expected with
  | kNotLocked =>
    dsimp only
    split
    · exact goto_pc_of_ne hin
    · exact goto_pc_of_ne hin
  | ptr q =>
    dsimp only
    split
    · exact goto_pc_of_ne hin
    · exact goto_pc_of_ne hin

end Other

variable {cfg : Config} {s t : State ι E} {i : ι}

theorem put_coroutine_pc {s : Mutex.State ι E} {o : Option (Unlock ι E)} :
    (s.put (.coroutine i) o).pc i = .running ∨ ∃ u, (s.put (.coroutine i) o).pc i = .unlock u := by
  cases o with
  | none =>
    left
    exact Function.update_self i _ _
  | some u =>
    right
    exact ⟨u, Function.update_self i _ _⟩

theorem await_of_ne {awaiter : Awaiter} {e : Mutex.Event ι E} (hcall : ∀ op, e ≠ .call i op) :
    await s awaiter e i = s.awaiter i := by
  cases e with
  | call j op =>
    cases op with
    | lock =>
      apply Function.update_of_ne
      rintro rfl
      exact hcall .lock rfl
    | tryLock | unlockHere | unlock | unlockOn _ => rfl
  | advance _ _ | detached _ | relink _ _ => rfl

/-- Who can be dropped: the coroutine that an unlock has submitted, or that has submitted
itself. -/
theorem drop_eq_some (hstep : drop s i = some t) :
    t = { s with life := Function.update s.life i .dropped } ∧
      (s.mutex.pc i = .resumed ∨ s.mutex.pc i = .ready) := by
  unfold drop at hstep
  split at hstep
  · next hpc =>
    cases hstep
    exact ⟨rfl, .inl hpc⟩
  · next hpc =>
    cases hstep
    exact ⟨rfl, .inr hpc⟩
  · contradiction

variable [Fintype ι]

/-! ### The steps of other coroutines -/

section Other

variable {cfg : Config} {s t : Mutex.State ι E} {i n : ι} {p : Pc ι E}

/-- An unlock at another place leaves a coroutine that is not suspended where it is. -/
theorem unlockStep_pc_of_other (h : Mutex.Inv s) {a : Actor ι} {u : Unlock ι E}
    (ha : s.unlockAt a = some u) (hin : a ≠ .coroutine i) (hpc : s.pc i ≠ .waiting) :
    (Mutex.unlockStep cfg s a u).pc i = s.pc i := by
  apply h.unlockStep_pc ha _ hpc
  intro howns
  obtain ⟨-, -, hdetached, hsole⟩ := h.carrier howns.token
  cases a with
  | coroutine j =>
    apply hin
    rw [hsole j u (unlockAt_coroutine.mp ha)]
  | detached k =>
    rw [State.unlockAt, hdetached] at ha
    simp at ha

/-- A step of another coroutine moves only those that are suspended. -/
theorem advance_pc_of_ne (h : Mutex.Inv s) {weak : Bool} (hin : i ≠ n) (hpc : s.pc i ≠ .waiting)
    (hstep : Mutex.advance cfg s n weak = some t) : t.pc i = s.pc i := by
  unfold Mutex.advance at hstep
  cases hn : s.pc n with
  | running | waiting | held => simp [hn] at hstep
  | tryLock await =>
    simp only [hn, Option.some.injEq] at hstep
    subst hstep
    unfold tryLockAwaitSwap
    split
    · exact goto_pc_of_ne hin
    · exact goto_pc_of_ne hin
  | awaitLock | resumed | ready =>
    simp only [hn, Option.some.injEq] at hstep
    subst hstep
    exact goto_pc_of_ne hin
  | awaitLoop expected =>
    simp only [hn, Option.some.injEq] at hstep
    subst hstep
    exact awaitLock_pc_of_ne hin
  | unlock u =>
    simp only [hn, Option.some.injEq] at hstep
    subst hstep
    apply unlockStep_pc_of_other h (unlockAt_coroutine.mpr hn) _ hpc
    intro hsame
    cases hsame
    exact hin rfl

/-- A step of the mutex moves a coroutine only if it is its own step, or if the coroutine
is suspended in a lock. -/
theorem step_pc_of_other (h : Mutex.Inv s) {e : Mutex.Event ι E} (hpc : s.pc i ≠ .waiting)
    (hcall : ∀ op, e ≠ .call i op) (hadvance : ∀ weak, e ≠ .advance i weak)
    (hstep : Mutex.step cfg s e = some t) : t.pc i = s.pc i := by
  cases e with
  | call n op =>
    have hin : i ≠ n := by
      rintro rfl
      exact hcall op rfl
    exact call_pc_of_ne hin hstep
  | advance n weak =>
    have hin : i ≠ n := by
      rintro rfl
      exact hadvance weak rfl
    exact advance_pc_of_ne h hin hpc hstep
  | detached k =>
    simp only [Mutex.step, Option.map_eq_some_iff] at hstep
    obtain ⟨u, hu, rfl⟩ := hstep
    exact unlockStep_pc_of_other h (a := .detached k) hu (by simp) hpc
  | relink n q =>
    simp only [Mutex.step] at hstep
    split at hstep
    · contradiction
    · cases hstep
      rfl

end Other

/-! ### The lock is not lost -/

/-- A coroutine that was dropped has left the mutex, or it was to be the owner and awaits
`GuardSticky()`. One whose frame is destroyed has left it too, or is in the unlock of its
guard. -/
structure Inv (s : State ι E) : Prop where
  mutex : Mutex.Inv s.mutex
  dropped : ∀ i, s.life i = .dropped →
    s.mutex.pc i = .ready ∨ s.mutex.pc i = .resumed ∧ s.awaiter i = .guardSticky
  destroyed : ∀ i, s.life i = .destroyed →
    s.mutex.pc i = .running ∨ s.mutex.pc i = .ready ∨ ∃ u, s.mutex.pc i = .unlock u

/-- A destructor in an unlock goes on with it, or is through. -/
theorem destructor_step {s t : Mutex.State ι E} {u : Unlock ι E} {weak : Bool}
    (h : Mutex.Inv s) (hpc : s.pc i = .unlock u) (hstep : Mutex.advance cfg s i weak = some t) :
    t.pc i = .running ∨ t.pc i = .ready ∨ ∃ u, t.pc i = .unlock u := by
  have hput : ∀ (v : Mutex.State ι E) o, (v.put (.coroutine i) o).pc i = .running ∨
      (v.put (.coroutine i) o).pc i = .ready ∨ ∃ u, (v.put (.coroutine i) o).pc i = .unlock u := by
    intro v o
    exact put_coroutine_pc.imp_right .inr
  -- the next owner is suspended, and not in an unlock
  have hresume : ∀ n p, u.owes n = 1 → ((s.put (.coroutine i) none).resume n p).pc i = .running ∨
      ((s.put (.coroutine i) none).resume n p).pc i = .ready ∨
      ∃ u, ((s.put (.coroutine i) none).resume n p).pc i = .unlock u := by
    intro n p howes
    have hin : i ≠ n := by
      rintro rfl
      obtain ⟨xs, ys, hqueued⟩ := h.queued
      have hcount := hqueued.count i
      rw [h.owed_eq (unlockAt_coroutine.mpr hpc), howes, hpc] at hcount
      simp at hcount
    have hsame : ((s.put (.coroutine i) none).resume n p).pc i = (s.put (.coroutine i) none).pc i :=
      Function.update_of_ne hin _ _
    rw [hsame]
    exact hput s none
  have hslow : ∀ k, (unlockSlow cfg s (.coroutine i) k).pc i = .running ∨
      (unlockSlow cfg s (.coroutine i) k).pc i = .ready ∨
      ∃ u, (unlockSlow cfg s (.coroutine i) k).pc i = .unlock u := by
    intro k
    unfold unlockSlow
    cases getHead cfg s with
    | none => exact hput _ _
    | some r =>
      cases k with
      | here | await => exact hput _ _
      | on executor =>
        dsimp only
        split
        · exact hput _ _
        · exact hput _ _
  simp only [Mutex.advance, hpc, Option.some.injEq] at hstep
  subst hstep
  cases u with
  | tryUnlock k | load k =>
    unfold unlockStep
    exact hput _ _
  | swap k =>
    unfold unlockStep
    dsimp only
    split
    · exact hput _ _
    · exact hput _ _
  | slow k =>
    cases k with
    | here | on executor => exact hslow _
    | await =>
      unfold unlockStep
      dsimp only
      split
      · unfold awaitUnlock
        cases s.receiver with
        | none => exact .inl (Function.update_self i _ _)
        | some n => exact .inr (.inl (Function.update_self i _ _))
      · exact hslow _
  | submit n => exact hresume n _ (by simp)
  | transfer n => exact hresume n _ (by simp)

theorem Inv.mutex_step (h : Inv s) {e : Mutex.Event ι E} {awaiter : Awaiter}
    (hstep : step cfg s (.mutex e awaiter) = some t) : Inv t := by
  simp only [Cancel.step] at hstep
  split at hstep
  · next henabled =>
    obtain ⟨m, hm, rfl⟩ := Option.map_eq_some_iff.mp hstep
    have hcall : ∀ i, s.life i ≠ .live → ∀ op, e ≠ .call i op := by
      rintro i hi op rfl
      simp [enabled, hi] at henabled
    refine ⟨h.mutex.of_step hm, ?_, ?_⟩
    · intro i hi
      have hi' : s.life i = .dropped := hi
      have hold := h.dropped i hi'
      have hnot := hcall i (by rw [hi']; simp)
      have hpc : m.pc i = s.mutex.pc i := by
        apply step_pc_of_other h.mutex _ hnot _ hm
        · rcases hold with hold | ⟨hold, -⟩ <;> rw [hold] <;> simp
        · rintro weak rfl
          simp [enabled, hi'] at henabled
      show m.pc i = _ ∨ m.pc i = _ ∧ await s awaiter e i = _
      rw [hpc, await_of_ne hnot]
      exact hold
    · intro i hi
      have hi' : s.life i = .destroyed := hi
      have hold := h.destroyed i hi'
      have hnot := hcall i (by rw [hi']; simp)
      by_cases hadvance : ∃ weak, e = .advance i weak
      · obtain ⟨weak, rfl⟩ := hadvance
        obtain ⟨u, hu⟩ : ∃ u, s.mutex.pc i = .unlock u := by
          cases hpc : s.mutex.pc i with
          | unlock u => exact ⟨u, rfl⟩
          | _ => simp [enabled, hi', unlocking, hpc] at henabled
        exact destructor_step h.mutex hu hm
      · have hpc : m.pc i = s.mutex.pc i := by
          apply step_pc_of_other h.mutex _ hnot _ hm
          · rcases hold with hold | hold | ⟨u, hold⟩ <;> rw [hold] <;> simp
          · rintro weak rfl
            exact hadvance ⟨weak, rfl⟩
        show m.pc i = _ ∨ m.pc i = _ ∨ ∃ u, m.pc i = _
        rw [hpc]
        exact hold
  · contradiction

/-- A guarded drop leaves the mutex to the guard of the coroutine, if it was to be the owner.
-/
theorem Inv.drop_step (h : Inv s) (hstep : drop s i = some t) (hguarded : Guarded s (.drop i)) :
    Inv t := by
  obtain ⟨rfl, hpc⟩ := drop_eq_some hstep
  refine ⟨h.mutex, ?_, ?_⟩
  · intro j hj
    by_cases hji : j = i
    · subst hji
      rcases hpc with hpc | hpc
      · exact .inr ⟨hpc, hguarded hpc⟩
      · exact .inl hpc
    · have hold : Function.update s.life i .dropped j = .dropped := hj
      rw [Function.update_of_ne hji] at hold
      exact h.dropped j hold
  · intro j hj
    have hold : Function.update s.life i .dropped j = .destroyed := hj
    by_cases hji : j = i
    · rw [hji, Function.update_self] at hold
      contradiction
    · rw [Function.update_of_ne hji] at hold
      exact h.destroyed j hold

/-- The frame ends, where the coroutine is through or its guard begins to unlock. -/
theorem Inv.end_frame (h : Inv s) {m : Mutex.State ι E} (hm : Mutex.Inv m)
    (hothers : ∀ j, j ≠ i → m.pc j = s.mutex.pc j) (hi : m.pc i = .ready ∨ ∃ u, m.pc i = .unlock u) :
    Inv { s with life := Function.update s.life i .destroyed, mutex := m } := by
  refine ⟨hm, ?_, ?_⟩
  · intro j hj
    have hold : Function.update s.life i .destroyed j = .dropped := hj
    by_cases hji : j = i
    · rw [hji, Function.update_self] at hold
      contradiction
    · rw [Function.update_of_ne hji] at hold
      show m.pc j = _ ∨ m.pc j = _ ∧ _
      rw [hothers j hji]
      exact h.dropped j hold
  · intro j hj
    by_cases hji : j = i
    · subst hji
      exact .inr hi
    · have hold : Function.update s.life i .destroyed j = .destroyed := hj
      rw [Function.update_of_ne hji] at hold
      show m.pc j = _ ∨ m.pc j = _ ∨ ∃ u, m.pc j = _
      rw [hothers j hji]
      exact h.destroyed j hold

/-- The frame that is destroyed unlocks, if its guard owns the lock. -/
theorem Inv.destroy_step (h : Inv s) (hstep : destroy s i = some t) : Inv t := by
  unfold destroy at hstep
  cases hlife : s.life i with
  | live | destroyed => simp [hlife] at hstep
  | dropped =>
    rcases h.dropped i hlife with hpc | ⟨hpc, hawaiter⟩
    · simp only [hlife, hpc, Option.some.injEq] at hstep
      subst hstep
      exact h.end_frame h.mutex (fun j hj => rfl) (.inl hpc)
    · simp only [hlife, hpc, hawaiter, Awaiter.ownsGuard, Option.some.injEq] at hstep
      subst hstep
      apply h.end_frame
      · exact h.mutex.goto (by simp [hpc]) (by simp [hpc]) (by simp [State.Good])
      · intro j hj
        exact goto_pc_of_ne hj
      · right
        exact ⟨_, Function.update_self i _ _⟩

theorem Inv.of_step (h : Inv s) {e : Event ι E} (hstep : step cfg s e = some t)
    (hguarded : Guarded s e) : Inv t := by
  cases e with
  | mutex e awaiter => exact h.mutex_step hstep
  | drop i => exact h.drop_step hstep hguarded
  | destroy i => exact h.destroy_step hstep

/-- When all is settled, nothing is in progress in the mutex either. -/
theorem Inv.settled (h : Inv s) (hsettled : Settled s) : Quiescent s.mutex := by
  obtain ⟨howns, hdropped, hdetached, hpc⟩ := hsettled
  refine ⟨hdetached, ?_⟩
  intro i
  rcases hpc i with hi | hi | hi | hi
  · exact .inl hi
  · exact .inr (.inl hi)
  · exact .inr (.inr hi)
  · exfalso
    have hOwns : Owns s.mutex i := by
      rcases hi with hi | hi
      · exact .inl hi
      · exact .inr (.inl hi)
    cases hlife : s.life i with
    | live => exact howns i hlife hOwns
    | dropped => exact hdropped i hlife
    | destroyed =>
      rcases h.destroyed i hlife with hold | hold | ⟨u, hold⟩ <;> rw [hold] at hi <;> simp at hi

/-- In every run in which no coroutine is dropped that was handed the lock in `Guard()` or
`Lock()`: once no live coroutine owns the mutex, the dropped coroutines are gone and
nothing is in progress, the mutex is open and nobody waits for it. -/
theorem lock_not_lost (cfg : Config) (s : State ι E)
    (hs : (system cfg).ReachableIf (fun s e _ => Guarded s e) s) (hsettled : Settled s) :
    s.mutex.sender = .kNotLocked ∧ s.mutex.receiver = none ∧ ∀ i, s.mutex.pc i ≠ .waiting := by
  have h : Inv s := by
    refine System.Inductive.reachable (P := Inv) ⟨?_, ?_⟩ hs
    · rintro s ⟨⟨next, executor, hmutex⟩, hlive⟩
      refine ⟨?_, ?_, ?_⟩
      · rw [hmutex]
        exact Mutex.Inv.init next executor
      · intro i hi
        rw [hlive i] at hi
        contradiction
      · intro i hi
        rw [hlive i] at hi
        contradiction
    · intro s e t h hstep hguarded
      exact h.of_step hstep hguarded
  exact h.mutex.quiescent (h.settled hsettled)

instance [DecidableEq E] (s : State ι E) : ∀ e, Decidable (Guarded s e)
  | .drop i => inferInstanceAs (Decidable (s.mutex.pc i = .resumed → s.awaiter i = .guardSticky))
  | .mutex _ _ | .destroy _ => isTrue trivial

/-- Coroutine 1 waits for coroutine 0, is handed the lock and dropped. -/
def dropped (awaiter : Awaiter) : List (Event (Fin 2) Unit) :=
  [.mutex (.call 0 .lock) .lock, .mutex (.advance 0 false) .lock, .mutex (.call 1 .lock) awaiter,
    .mutex (.advance 1 false) .lock, .mutex (.advance 1 false) .lock,
    .mutex (.call 0 .unlockHere) .lock, .mutex (.advance 0 false) .lock,
    .mutex (.advance 0 false) .lock, .mutex (.advance 0 false) .lock,
    .mutex (.advance 0 false) .lock, .drop 1, .destroy 1]

def start : State (Fin 2) Unit := { mutex := { next := fun _ => none, executor := fun _ => () } }

theorem start_reachable {C : State (Fin 2) Unit → Event (Fin 2) Unit → State (Fin 2) Unit → Prop} :
    (system ⟨true, true⟩).ReachableIf C start :=
  .init ⟨⟨_, _, rfl⟩, fun _ => rfl⟩

/-- Its guard unlocks at the end of its frame. -/
theorem lock_not_lost_sticky :
    let s := ((system ⟨true, true⟩).runIf (fun s e _ => Guarded s e) start
      (dropped .guardSticky ++ List.replicate 3 (.mutex (.advance 1 false) .lock))).get (by decide)
    s.life 1 = .destroyed ∧ s.mutex.sender = .kNotLocked := by
  refine ⟨by decide, ?_⟩
  apply (lock_not_lost ⟨true, true⟩ _ (start_reachable.runIf (Option.some_get _).symm) ?_).1
  refine ⟨?_, by decide, by decide, by decide⟩
  intro i _
  rw [owns_iff]
  revert i
  decide

/-- In `Guard()` there is no guard yet. -/
theorem lock_lost :
    ∃ s, (system (E := Unit) ⟨true, true⟩).Reachable s ∧ Settled s ∧
      s.mutex.sender ≠ .kNotLocked ∧ s.life (1 : Fin 2) = .destroyed := by
  have hs : (system ⟨true, true⟩).Reachable (((system ⟨true, true⟩).run start
      (dropped .guard)).get (by decide)) :=
    start_reachable.run (fun _ _ _ _ => trivial) (Option.some_get _).symm
  refine ⟨_, hs, ⟨?_, by decide, by decide, by decide⟩, by decide, by decide⟩
  intro i hlive
  rw [owns_iff]
  revert hlive
  revert i
  decide

end Yaclib.Mutex.Cancel
