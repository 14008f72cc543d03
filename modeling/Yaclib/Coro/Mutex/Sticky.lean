import Yaclib.Coro.Mutex.Cancel

/-!
`StickyGuard` of `coro/guard_sticky.hpp` on the mutex: every coroutine has one, besides the
awaiters of the mutex itself, and executors to go to. `GuardSticky()` does to its new guard
what `Lock()` does.
-/

namespace Yaclib.Mutex.Sticky

open Concurrency

/-- The mutex, `_executor` and the owned bit of the guard of each coroutine, and two ghosts:
the executor that a coroutine had when it began to lock its guard, and the one that it has to
have after the unlock that it called last. -/
structure State (ι E : Type) where
  mutex : Mutex.State ι E
  saved : ι → Option E := fun _ => none
  owns : ι → Bool := fun _ => false
  before : ι → Option E := fun _ => none
  due : ι → Option E := fun _ => none

/-- A step of the mutex, a call of a guard, or `On`. -/
inductive Event (ι E : Type) where
  | mutex (e : Mutex.Event ι E)
  | lock (i : ι)
  | tryLock (i : ι)
  | unlock (i : ι)
  | unlockOn (i : ι) (e : E)
  | unlockHere (i : ι)
  | on (i : ι) (e : E)

variable {ι E : Type}

section

variable [DecidableEq ι]

/-- The guard begins to lock: `LockState` sets the bit. -/
def State.enter (s : State ι E) (i : ι) (t : Mutex.State ι E) : State ι E :=
  { s with
    mutex := t
    owns := Function.update s.owns i true
    before := Function.update s.before i (some (s.mutex.executor i))
    due := Function.update s.due i none }

/-- The guard begins to unlock: `UnlockState` clears the bit. -/
def State.leave (s : State ι E) (i : ι) (t : Mutex.State ι E) (due : Option E) : State ι E :=
  { s with
    mutex := t
    owns := Function.update s.owns i false
    due := Function.update s.due i due }

/-- `await_ready` of `LockStickyAwaiter` -/
def lock (s : State ι E) (i : ι) : Option (State ι E) :=
  if s.owns i then none else (Mutex.call s.mutex i .lock).map fun t =>
    { s.enter i t with saved := Function.update s.saved i none }

/-- Whether a `TryLock` goes on. -/
def tries : Pc ι E → Bool
  | .running => false
  | _ => true

/-- `UnlockState` follows when the mutex refuses at once. -/
def tryLock (s : State ι E) (i : ι) : Option (State ι E) :=
  if s.owns i then none else (Mutex.call s.mutex i .tryLock).map fun t =>
    { s.enter i t with owns := Function.update s.owns i (tries (t.pc i)) }

/-- `UnlockStickyAwaiter`: `UnlockHere` when no executor was saved, else `AwaitUnlockOn`. -/
def unlock (s : State ι E) (i : ι) : Option (State ι E) :=
  if s.owns i then
    let op := match s.saved i with
      | none => Op.unlockHere
      | some e => Op.unlockOn e
    (Mutex.call s.mutex i op).map fun t => s.leave i t (s.before i)
  else none

def unlockOn (s : State ι E) (i : ι) (e : E) : Option (State ι E) :=
  if s.owns i then (Mutex.call s.mutex i (.unlockOn e)).map fun t => s.leave i t (some e)
  else none

def unlockHere (s : State ι E) (i : ι) : Option (State ι E) :=
  if s.owns i then (Mutex.call s.mutex i .unlockHere).map fun t => s.leave i t none else none

/-- What a lock of the guard does beside a step of the mutex: `await_suspend` of
`LockStickyAwaiter` saves the executor before it calls `AwaitLock`, and forgets it when that
is false; a `TryLock` that fails clears the bit. -/
def advance (s : State ι E) (i : ι) (t : Mutex.State ι E) : State ι E :=
  if s.owns i then
    match s.mutex.pc i, t.pc i with
    | .awaitLock, _ =>
      { s with mutex := t, saved := Function.update s.saved i (some (s.mutex.executor i)) }
    | .awaitLoop _, .held => { s with mutex := t, saved := Function.update s.saved i none }
    | .tryLock false, .running => { s with mutex := t, owns := Function.update s.owns i false }
    | _, _ => { s with mutex := t }
  else { s with mutex := t }

/-- `co_await On(e)`; the coroutine goes on at `e`. -/
def on (s : State ι E) (i : ι) (e : E) : Option (State ι E) :=
  match s.mutex.pc i with
  | .running | .held => some { s with
      mutex := { s.mutex with executor := Function.update s.mutex.executor i e }
      due := Function.update s.due i none }
  | _ => none

variable [Fintype ι] (cfg : Config)

/-- What a guard locked, the guard unlocks. -/
def step (s : State ι E) : Event ι E → Option (State ι E)
  | .mutex (.call i op) =>
    if s.owns i then none else (Mutex.call s.mutex i op).map fun t =>
      { s with mutex := t, due := Function.update s.due i none }
  | .mutex (.advance i weak) => (Mutex.advance cfg s.mutex i weak).map (advance s i)
  | .mutex e => (Mutex.step cfg s.mutex e).map fun t => { s with mutex := t }
  | .lock i => lock s i
  | .tryLock i => tryLock s i
  | .unlock i => unlock s i
  | .unlockOn i e => unlockOn s i e
  | .unlockHere i => unlockHere s i
  | .on i e => on s i e

def system : System (State ι E) (Event ι E) where
  Init s := ∃ m, (Mutex.system cfg).Init m ∧ s = { mutex := m }
  step := step cfg

/-- Coroutine `i` does not switch executors inside a critical section. -/
def Stays (i : ι) (s : State ι E) : Event ι E → Prop
  | .on j _ => j = i → s.mutex.pc i = .running
  | _ => True

/-- When `TryLock` of the guard of `i` succeeds, no executor is saved, or the one that `i`
has. -/
def Fresh (i : ι) (s : State ι E) : Event ι E → State ι E → Prop
  | .mutex (.advance j _), t => j = i → s.owns i = true → s.mutex.pc i = .tryLock false →
    t.mutex.pc i = .held → s.saved i = none ∨ s.saved i = some (s.mutex.executor i)
  | _, _ => True

end

variable [DecidableEq ι]

section Executor

variable {cfg : Config} {s t : Mutex.State ι E} {i n : ι} {a : Actor ι} {u : Unlock ι E}

@[simp] theorem put_executor {o : Option (Unlock ι E)} : (s.put a o).executor = s.executor := by
  cases a <;> cases o <;> rfl

/-- Of the calls only `UnlockOn` changes the executor of its own coroutine. -/
theorem call_executor {op : Op E} (hstep : Mutex.call s n op = some t)
    (hop : ∀ e, i = n → op ≠ .unlockOn e) : t.executor i = s.executor i := by
  unfold Mutex.call at hstep
  split at hstep
  · cases hstep
    rfl
  · cases hstep
    rfl
  · cases hstep
    rfl
  · cases hstep
    rfl
  · cases hstep
    have hin : i ≠ n := fun heq => hop _ heq rfl
    exact Function.update_of_ne hin _ _
  · contradiction

/-- A coroutine that is suspended stays so while others unlock. -/
theorem put_waiting {o : Option (Unlock ι E)} (ha : s.unlockAt a = some u)
    (hpc : s.pc i = .waiting) : (s.put a o).pc i = .waiting := by
  cases a with
  | coroutine j =>
    have hij : i ≠ j := by
      rintro rfl
      rw [unlockAt_coroutine.mp ha] at hpc
      cases hpc
    cases o <;> exact (Function.update_of_ne hij _ _).trans hpc
  | detached k => cases o <;> exact hpc

/-- A coroutine that is suspended can only be handed the mutex. -/
theorem resume_waiting {p : Pc ι E} (hpc : s.pc i = .waiting) (hp : p = .resumed ∨ p = .held) :
    (s.resume n p).pc i = .waiting ∨ (s.resume n p).pc i = .resumed ∨
      (s.resume n p).pc i = .held := by
  by_cases hin : i = n
  · subst hin
    have hself : (s.resume i p).pc i = p := Function.update_self i _ _
    rw [hself]
    exact .inr hp
  · exact .inl ((Function.update_of_ne hin _ _).trans hpc)

end Executor

variable {cfg : Config} {s t : State ι E} {i j : ι} {m : Mutex.State ι E}

section Call

variable {m n : Mutex.State ι E} {op : Op E}

theorem tryLockAwait_pc (m : Mutex.State ι E) (i : ι) (await : Bool) :
    (tryLockAwait m i await).pc i = .tryLock await ∨
      (tryLockAwait m i await).pc i = lockFailed await := by
  unfold tryLockAwait
  split
  · exact .inl (Function.update_self i _ _)
  · exact .inr (Function.update_self i _ _)

theorem call_lock (hm : Mutex.call m i .lock = some n) : n = tryLockAwait m i true := by
  unfold Mutex.call at hm
  split at hm <;> simp_all

theorem call_tryLock (hm : Mutex.call m i .tryLock = some n) : n = tryLockAwait m i false := by
  unfold Mutex.call at hm
  split at hm <;> simp_all

theorem call_unlockHere (hm : Mutex.call m i .unlockHere = some n) :
    m.pc i = .held ∧ n = m.goto i (.unlock (.tryUnlock .here)) := by
  unfold Mutex.call at hm
  split at hm <;> simp_all

theorem call_unlockOn {e : E} (hm : Mutex.call m i (.unlockOn e) = some n) :
    m.pc i = .held ∧ n = awaitUnlockOn m i e := by
  unfold Mutex.call at hm
  split at hm <;> simp_all

end Call

section Advance

variable {weak : Bool}

@[simp] theorem advance_mutex : (advance s i m).mutex = m := by
  unfold advance
  split
  · split <;> rfl
  · rfl

@[simp] theorem advance_before : (advance s i m).before = s.before := by
  unfold advance
  split
  · split <;> rfl
  · rfl

@[simp] theorem advance_due : (advance s i m).due = s.due := by
  unfold advance
  split
  · split <;> rfl
  · rfl

theorem advance_saved_of_ne (hij : i ≠ j) : (advance s j m).saved i = s.saved i := by
  unfold advance
  split
  · split
    · exact Function.update_of_ne hij _ _
    · exact Function.update_of_ne hij _ _
    · rfl
    · rfl
  · rfl

theorem advance_owns_of_ne (hij : i ≠ j) : (advance s j m).owns i = s.owns i := by
  unfold advance
  split
  · split
    · rfl
    · rfl
    · exact Function.update_of_ne hij _ _
    · rfl
  · rfl

theorem goto_pc (m : Mutex.State ι E) (p : Pc ι E) : (m.goto i p).pc i = p :=
  Function.update_self i _ _

/-- A round of the loop ends it or goes on, or the coroutine waits. -/
theorem awaitLock_pc (m : Mutex.State ι E) (i : ι) (expected : Word ι) (weak : Bool) :
    (awaitLock m i expected weak).pc i = .held ∨
      (∃ expected', (awaitLock m i expected weak).pc i = .awaitLoop expected') ∨
      (awaitLock m i expected weak).pc i = .waiting := by
  unfold awaitLock
  cases expected with
  | kNotLocked =>
    dsimp only
    split
    · exact .inl (goto_pc _ _)
    · exact .inr (.inl ⟨_, goto_pc _ _⟩)
  | ptr p =>
    dsimp only
    split
    · exact .inr (.inr (goto_pc _ _))
    · exact .inr (.inl ⟨_, goto_pc _ _⟩)

theorem tryLockAwaitSwap_pc (m : Mutex.State ι E) (i : ι) (await : Bool) :
    (tryLockAwaitSwap m i await).pc i = .held ∨
      (tryLockAwaitSwap m i await).pc i = lockFailed await := by
  unfold tryLockAwaitSwap
  split
  · exact .inl (goto_pc _ _)
  · exact .inr (goto_pc _ _)

end Advance

variable [Fintype ι]

/-! ### The executors of the coroutines -/

section Executor

variable {cfg : Config} {s t : Mutex.State ι E} {i n : ι} {a : Actor ι} {u : Unlock ι E}

/-- The next node of the batch is suspended. -/
theorem receiver_waiting (h : Mutex.Inv s) (hn : s.receiver = some n) : s.pc n = .waiting := by
  obtain ⟨xs, ys, hqueued⟩ := h.queued
  have hys := hqueued.receiver
  rw [hn] at hys
  obtain ⟨zs, rfl, -⟩ := hys.of_some
  have hcount := hqueued.count n
  rw [List.count_cons_self] at hcount
  exact Pc.eq_waiting (by omega)

/-- `AwaitUnlockOn` gives an executor to a suspended coroutine only. -/
theorem unlockSlow_executor (h : Mutex.Inv s) {k : Kind E} (ha : s.unlockAt a = some (.slow k))
    (hpc : s.pc i ≠ .waiting) : (Mutex.unlockSlow cfg s a k).executor i = s.executor i := by
  obtain ⟨n, v, xs, ys, hhead, hv, -, -, -, hcount⟩ := h.getHead cfg ha
  have hexecutor : v.executor = s.executor := by rw [hv]
  have hin : i ≠ n := by
    rintro rfl
    have hi := hcount i
    rw [List.count_cons_self] at hi
    exact hpc (Pc.eq_waiting (by omega))
  rw [Mutex.unlockSlow, hhead]
  cases k with
  | here | await =>
    dsimp only
    rw [put_executor, hexecutor]
  | on executor =>
    dsimp only
    split
    · rw [put_executor]
      simp only [Function.update_of_ne hin, hexecutor]
    · rw [put_executor, hexecutor]

/-- The only unlock that changes the executor of a coroutine that is not suspended is the
`AwaitUnlock` of its own. -/
theorem unlockStep_executor (h : Mutex.Inv s) (ha : s.unlockAt a = some u)
    (hpc : s.pc i ≠ .waiting) (hself : a = .coroutine i → u ≠ .slow .await) :
    (Mutex.unlockStep cfg s a u).executor i = s.executor i := by
  cases u with
  | tryUnlock k => exact congrFun (put_executor (s := s.check _)) i
  | load k => exact congrFun put_executor i
  | swap k =>
    unfold Mutex.unlockStep
    dsimp only
    split
    · exact congrFun (put_executor (s := { s with sender := .kNotLocked })) i
    · exact congrFun put_executor i
  | submit n => exact congrFun (put_executor (s := s)) i
  | transfer n => exact congrFun (put_executor (s := s)) i
  | slow k =>
    cases a with
    | detached m => exact unlockSlow_executor h ha hpc
    | coroutine j =>
      cases k with
      | here | on executor => exact unlockSlow_executor h ha hpc
      | await =>
        unfold Mutex.unlockStep
        dsimp only
        split
        · next hbatching =>
          obtain ⟨n, hn⟩ := Option.ne_none_iff_exists'.mp hbatching.2
          have hin : i ≠ n := by
            rintro rfl
            exact hpc (receiver_waiting h hn)
          have hij : i ≠ j := by
            rintro rfl
            exact hself rfl rfl
          simp only [Mutex.awaitUnlock, hn, State.goto, Function.update_of_ne hin,
            Function.update_of_ne hij]
        · exact unlockSlow_executor h ha hpc

/-- The executor of a coroutine that is not suspended is changed by its own `AwaitUnlock`
only. -/
theorem advance_executor (h : Mutex.Inv s) {weak : Bool} (hpc : s.pc i ≠ .waiting)
    (hself : i = n → s.pc i ≠ .unlock (.slow .await))
    (hstep : Mutex.advance cfg s n weak = some t) : t.executor i = s.executor i := by
  unfold Mutex.advance at hstep
  cases hn : s.pc n with
  | running | waiting | held => simp [hn] at hstep
  | tryLock await =>
    simp only [hn, Option.some.injEq] at hstep
    subst hstep
    unfold tryLockAwaitSwap
    split <;> rfl
  | awaitLock | resumed | ready =>
    simp only [hn, Option.some.injEq] at hstep
    subst hstep
    rfl
  | awaitLoop expected =>
    simp only [hn, Option.some.injEq] at hstep
    subst hstep
    unfold awaitLock
    cases expected <;> dsimp only <;> split <;> rfl
  | unlock u =>
    simp only [hn, Option.some.injEq] at hstep
    subst hstep
    refine unlockStep_executor h (unlockAt_coroutine.mpr hn) hpc ?_
    rintro heq rfl
    cases heq
    exact hself rfl hn

/-! Where a suspended coroutine goes. -/

/-- It stays where it is until an unlock makes it the owner. -/
theorem unlockStep_waiting (h : Mutex.Inv s) (ha : s.unlockAt a = some u)
    (hpc : s.pc i = .waiting) : (Mutex.unlockStep cfg s a u).pc i = .waiting ∨
      (Mutex.unlockStep cfg s a u).pc i = .resumed ∨
      (Mutex.unlockStep cfg s a u).pc i = .held := by
  have hput : ∀ (v : Mutex.State ι E) o, v.pc = s.pc → v.detached = s.detached →
      (v.put a o).pc i = .waiting := by
    intro v o hvpc hvdetached
    exact put_waiting ((unlockAt_congr hvpc hvdetached).trans ha) (hvpc ▸ hpc)
  have hslow : ∀ k, u = .slow k → (Mutex.unlockSlow cfg s a k).pc i = .waiting := by
    rintro k rfl
    obtain ⟨n, v, xs, ys, hhead, hv, -⟩ := h.getHead cfg ha
    have hvpc : v.pc = s.pc ∧ v.detached = s.detached := by
      rw [hv]
      exact ⟨rfl, rfl⟩
    rw [Mutex.unlockSlow, hhead]
    cases k with
    | here | await => exact hput _ _ hvpc.1 hvpc.2
    | on executor =>
      dsimp only
      split
      · exact hput _ _ hvpc.1 hvpc.2
      · exact hput _ _ hvpc.1 hvpc.2
  cases u with
  | tryUnlock k => exact .inl (hput (s.check _) _ rfl rfl)
  | load k => exact .inl (hput s _ rfl rfl)
  | swap k =>
    unfold Mutex.unlockStep
    dsimp only
    split
    · exact .inl (hput { s with sender := .kNotLocked } _ rfl rfl)
    · exact .inl (hput s _ rfl rfl)
  | submit n => exact resume_waiting (hput s _ rfl rfl) (.inl rfl)
  | transfer n => exact resume_waiting (hput s _ rfl rfl) (.inr rfl)
  | slow k =>
    cases a with
    | detached m => exact .inl (hslow k rfl)
    | coroutine j =>
      cases k with
      | here | on executor => exact .inl (hslow _ rfl)
      | await =>
        unfold Mutex.unlockStep
        dsimp only
        split
        · next hbatching =>
          obtain ⟨n, hn⟩ := Option.ne_none_iff_exists'.mp hbatching.2
          have hij : i ≠ j := by
            rintro rfl
            rw [unlockAt_coroutine.mp ha] at hpc
            cases hpc
          simp only [Mutex.awaitUnlock, hn, State.goto, Function.update_of_ne hij]
          exact .inl hpc
        · exact .inl (hslow _ rfl)

/-- Others do not change the executor of a coroutine that is not suspended. -/
theorem step_executor_of_other (h : Mutex.Inv s) {e : Mutex.Event ι E} (hpc : s.pc i ≠ .waiting)
    (hcall : ∀ op, e ≠ .call i op) (hadvance : ∀ weak, e ≠ .advance i weak)
    (hstep : Mutex.step cfg s e = some t) : t.executor i = s.executor i := by
  cases e with
  | call n op =>
    refine call_executor hstep ?_
    rintro e rfl
    exact absurd rfl (hcall op)
  | advance n weak =>
    refine advance_executor h hpc ?_ hstep
    rintro rfl
    exact absurd rfl (hadvance weak)
  | detached k =>
    simp only [Mutex.step, Option.map_eq_some_iff] at hstep
    obtain ⟨u, hu, rfl⟩ := hstep
    exact unlockStep_executor h (a := .detached k) hu hpc (by simp)
  | relink n q =>
    simp only [Mutex.step] at hstep
    split at hstep
    · contradiction
    · cases hstep
      rfl

/-- A step finds a suspended coroutine suspended, or hands it the mutex. -/
theorem step_waiting (h : Mutex.Inv s) {e : Mutex.Event ι E} (hpc : s.pc i = .waiting)
    (hstep : Mutex.step cfg s e = some t) :
    t.pc i = .waiting ∨ t.pc i = .resumed ∨ t.pc i = .held := by
  cases e with
  | call n op =>
    have hin : i ≠ n := by
      rintro rfl
      simp [Mutex.step, Mutex.call, hpc] at hstep
    exact .inl ((Cancel.call_pc_of_ne hin hstep).trans hpc)
  | advance n weak =>
    have hin : i ≠ n := by
      rintro rfl
      simp [Mutex.step, Mutex.advance, hpc] at hstep
    simp only [Mutex.step, Mutex.advance] at hstep
    cases hn : s.pc n with
    | running | waiting | held => simp [hn] at hstep
    | tryLock await =>
      simp only [hn, Option.some.injEq] at hstep
      subst hstep
      unfold tryLockAwaitSwap
      split
      · exact .inl ((Cancel.goto_pc_of_ne hin).trans hpc)
      · exact .inl ((Cancel.goto_pc_of_ne hin).trans hpc)
    | awaitLock | resumed | ready =>
      simp only [hn, Option.some.injEq] at hstep
      subst hstep
      exact .inl ((Cancel.goto_pc_of_ne hin).trans hpc)
    | awaitLoop expected =>
      simp only [hn, Option.some.injEq] at hstep
      subst hstep
      exact .inl ((Cancel.awaitLock_pc_of_ne hin).trans hpc)
    | unlock u =>
      simp only [hn, Option.some.injEq] at hstep
      subst hstep
      exact unlockStep_waiting h (unlockAt_coroutine.mpr hn) hpc
  | detached k =>
    simp only [Mutex.step, Option.map_eq_some_iff] at hstep
    obtain ⟨u, hu, rfl⟩ := hstep
    exact unlockStep_waiting h (a := .detached k) hu hpc
  | relink n q =>
    simp only [Mutex.step] at hstep
    split at hstep
    · contradiction
    · cases hstep
      exact .inl hpc

end Executor

/-! ### Going home -/

/-- The unlock may end in `AwaitUnlock`, which changes the executor. -/
def awaits : Unlock ι E → Bool
  | .tryUnlock .await | .load .await | .swap .await | .slow .await => true
  | _ => false

/-- What a guard knows that is locked or being locked, with the executor `x` of its
coroutine. -/
def Keeps (saved before : Option E) (x : E) : Pc ι E → Prop
  | .tryLock true | .awaitLock => saved = none ∧ before = some x
  | .tryLock false => before = some x
  | .awaitLoop _ => saved = before ∧ before = some x
  | .waiting => saved = before ∧ before ≠ none
  | .resumed | .held => saved = before ∧ before ≠ none ∨ saved = none ∧ before = some x
  | _ => False

/-- The coroutine is on its way to the executor `e`, or there. -/
def Arrives (e x : E) : Pc ι E → Prop
  | .running | .ready => x = e
  | .unlock u => x = e ∧ awaits u = false
  | _ => False

/-- While the guard of `i` is locked or being locked it knows at which executor `i` was
before, and once it has begun to unlock `i` is on the way to that executor, or there. -/
structure Inv (i : ι) (s : State ι E) : Prop where
  mutex : Mutex.Inv s.mutex
  keeps : s.owns i = true → Keeps (s.saved i) (s.before i) (s.mutex.executor i) (s.mutex.pc i)
  due : ∀ e, s.due i = some e →
    s.owns i = false ∧ Arrives e (s.mutex.executor i) (s.mutex.pc i)

/-- A step of another coroutine. -/
theorem Inv.other (h : Inv i s) (hm : Mutex.Inv m)
    (hpc : s.mutex.pc i ≠ .waiting → m.pc i = s.mutex.pc i)
    (hexecutor : s.mutex.pc i ≠ .waiting → m.executor i = s.mutex.executor i)
    (hwaiting : s.mutex.pc i = .waiting → m.pc i = .waiting ∨ m.pc i = .resumed ∨ m.pc i = .held)
    (hmutex : t.mutex = m) (hsaved : t.saved i = s.saved i) (howns : t.owns i = s.owns i)
    (hbefore : t.before i = s.before i) (hdue : t.due i = s.due i) : Inv i t := by
  subst hmutex
  by_cases hwait : s.mutex.pc i = .waiting
  · refine ⟨hm, ?_, ?_⟩
    · rw [hsaved, howns, hbefore]
      intro hi
      have hkeeps := h.keeps hi
      rw [hwait] at hkeeps
      rcases hwaiting hwait with hpc' | hpc' | hpc' <;> rw [hpc']
      · exact hkeeps
      · exact .inl hkeeps
      · exact .inl hkeeps
    · rw [hdue]
      intro e he
      have harrives := (h.due e he).2
      rw [hwait] at harrives
      cases harrives
  · refine ⟨hm, ?_, ?_⟩
    · rw [hsaved, howns, hbefore, hpc hwait, hexecutor hwait]
      exact h.keeps
    · rw [howns, hdue, hpc hwait, hexecutor hwait]
      exact h.due

/-- A step of the mutex that is not one of `i` itself. -/
theorem Inv.mutex_other (h : Inv i s) {e : Mutex.Event ι E} (hcall : ∀ op, e ≠ .call i op)
    (hadvance : ∀ weak, e ≠ .advance i weak) (hstep : Mutex.step cfg s.mutex e = some m)
    (hmutex : t.mutex = m) (hsaved : t.saved i = s.saved i) (howns : t.owns i = s.owns i)
    (hbefore : t.before i = s.before i) (hdue : t.due i = s.due i) : Inv i t :=
  h.other (h.mutex.of_step hstep)
    (fun hpc => Cancel.step_pc_of_other h.mutex hpc hcall hadvance hstep)
    (fun hpc => step_executor_of_other h.mutex hpc hcall hadvance hstep)
    (fun hpc => step_waiting h.mutex hpc hstep) hmutex hsaved howns hbefore hdue

/-- A call of another coroutine. -/
theorem Inv.call_other (h : Inv i s) {op : Op E} (hij : i ≠ j)
    (hm : Mutex.call s.mutex j op = some m) (hmutex : t.mutex = m)
    (hsaved : t.saved i = s.saved i) (howns : t.owns i = s.owns i)
    (hbefore : t.before i = s.before i) (hdue : t.due i = s.due i) : Inv i t := by
  have hpc := Cancel.call_pc_of_ne hij hm
  refine h.other (h.mutex.call hm) (fun _ => hpc) ?_ ?_ hmutex hsaved howns hbefore hdue
  · intro _
    exact call_executor hm fun e heq => absurd heq hij
  · intro hwait
    exact .inl (hpc.trans hwait)

/-- Nothing is due, and the guard is not locked. -/
theorem Inv.idle (hm : Mutex.Inv t.mutex) (howns : t.owns i = false) (hdue : t.due i = none) :
    Inv i t := by
  refine ⟨hm, ?_, ?_⟩
  · intro hi
    rw [howns] at hi
    cases hi
  · intro e he
    rw [hdue] at he
    cases he

/-- The guard is locked or being locked, and nothing is due. -/
theorem Inv.locked (hm : Mutex.Inv t.mutex) (hdue : t.due i = none)
    (hkeeps : Keeps (t.saved i) (t.before i) (t.mutex.executor i) (t.mutex.pc i)) : Inv i t := by
  refine ⟨hm, fun _ => hkeeps, ?_⟩
  intro e he
  rw [hdue] at he
  cases he

/-- The guard was unlocked, and the coroutine is on its way. -/
theorem Inv.unlocked (hm : Mutex.Inv t.mutex) (howns : t.owns i = false)
    (hdue : ∀ e, t.due i = some e → Arrives e (t.mutex.executor i) (t.mutex.pc i)) : Inv i t := by
  refine ⟨hm, ?_, fun e he => ⟨howns, hdue e he⟩⟩
  intro hi
  rw [howns] at hi
  cases hi

/-- The lock of a guard begins. -/
theorem Inv.lock_step (h : Inv i s) (hstep : lock s j = some t) : Inv i t := by
  unfold lock at hstep
  split at hstep
  · cases hstep
  obtain ⟨m, hm, rfl⟩ := Option.map_eq_some_iff.mp hstep
  by_cases hij : i = j
  · subst hij
    refine .locked (h.mutex.call hm) (Function.update_self i _ _) ?_
    obtain rfl := call_lock hm
    simp only [State.enter, Function.update_self]
    have hexecutor : (tryLockAwait s.mutex i true).executor = s.mutex.executor := rfl
    rw [hexecutor]
    rcases tryLockAwait_pc s.mutex i true with hpc | hpc <;> rw [hpc] <;> exact ⟨rfl, rfl⟩
  · exact h.call_other hij hm rfl (Function.update_of_ne hij _ _) (Function.update_of_ne hij _ _)
      (Function.update_of_ne hij _ _) (Function.update_of_ne hij _ _)

/-- A `TryLock` of a guard saves no executor, and clears the bit if it fails. -/
theorem Inv.tryLock_step (h : Inv i s) (hstep : tryLock s j = some t) : Inv i t := by
  unfold tryLock at hstep
  split at hstep
  · cases hstep
  obtain ⟨m, hm, rfl⟩ := Option.map_eq_some_iff.mp hstep
  by_cases hij : i = j
  · subst hij
    have hdue : ∀ d : ι → Option E, Function.update d i none i = none :=
      fun d => Function.update_self i _ _
    obtain rfl := call_tryLock hm
    rcases tryLockAwait_pc s.mutex i false with hpc | hpc
    · refine .locked (h.mutex.call hm) (hdue _) ?_
      have hexecutor : (tryLockAwait s.mutex i false).executor = s.mutex.executor := rfl
      simp only [State.enter, Function.update_self]
      rw [hexecutor, hpc]
      rfl
    · refine .idle (h.mutex.call hm) ?_ (hdue _)
      simp only [Function.update_self, hpc]
      rfl
  · exact h.call_other hij hm rfl rfl (Function.update_of_ne hij _ _)
      (Function.update_of_ne hij _ _) (Function.update_of_ne hij _ _)

/-- `UnlockHere` stays where the coroutine is, `UnlockOn` goes where it says. -/
theorem Inv.leave_step (h : Inv i s) {op : Op E} {due : Option E}
    (hm : Mutex.call s.mutex j op = some m)
    (hdue : i = j → op = .unlockHere ∧ (∀ e, due = some e → s.mutex.executor i = e) ∨
      ∃ e, op = .unlockOn e ∧ ∀ e', due = some e' → e = e') : Inv i (s.leave j m due) := by
  by_cases hij : i = j
  · subst hij
    refine .unlocked (h.mutex.call hm) (Function.update_self i _ _) ?_
    simp only [State.leave, Function.update_self]
    rcases hdue rfl with ⟨rfl, hhere⟩ | ⟨e, rfl, hon⟩
    · obtain ⟨-, rfl⟩ := call_unlockHere hm
      intro e he
      have hpc : (s.mutex.goto i (.unlock (.tryUnlock .here))).pc i =
          .unlock (.tryUnlock .here) := Function.update_self i _ _
      rw [hpc]
      exact ⟨hhere e he, rfl⟩
    · obtain ⟨-, rfl⟩ := call_unlockOn hm
      intro e' he
      have hpc : (awaitUnlockOn s.mutex i e).pc i = .ready := Function.update_self i _ _
      have hexecutor : (awaitUnlockOn s.mutex i e).executor i = e := Function.update_self i _ _
      rw [hpc, hexecutor]
      exact hon e' he
  · exact h.call_other hij hm rfl rfl (Function.update_of_ne hij _ _) rfl
      (Function.update_of_ne hij _ _)

/-- The executor that was saved is the one before the lock; when none was saved, the coroutine
is still there. -/
theorem Inv.unlock_step (h : Inv i s) (hstep : unlock s j = some t) : Inv i t := by
  unfold unlock at hstep
  split at hstep
  · next howns =>
    obtain ⟨m, hm, rfl⟩ := Option.map_eq_some_iff.mp hstep
    refine h.leave_step hm ?_
    rintro rfl
    have hkeeps := h.keeps howns
    cases hsaved : s.saved i with
    | none =>
      rw [hsaved] at hm hkeeps
      rw [(call_unlockHere hm).1] at hkeeps
      refine .inl ⟨rfl, ?_⟩
      intro e he
      rcases hkeeps with ⟨hnone, -⟩ | ⟨-, hbefore⟩
      · rw [← hnone] at he
        cases he
      · exact Option.some.inj (hbefore.symm.trans he)
    | some e =>
      rw [hsaved] at hm hkeeps
      rw [(call_unlockOn hm).1] at hkeeps
      refine .inr ⟨e, rfl, ?_⟩
      intro e' he
      rcases hkeeps with ⟨hbefore, -⟩ | ⟨hnone, -⟩
      · exact Option.some.inj (hbefore.trans he)
      · cases hnone
  · cases hstep

/-- `UnlockOn` sends the coroutine to the executor that it names, whatever was saved. -/
theorem Inv.unlockOn_step (h : Inv i s) {e : E} (hstep : unlockOn s j e = some t) : Inv i t := by
  unfold unlockOn at hstep
  split at hstep
  · obtain ⟨m, hm, rfl⟩ := Option.map_eq_some_iff.mp hstep
    exact h.leave_step hm fun _ => .inr ⟨e, rfl, fun e' he => Option.some.inj he⟩
  · cases hstep

theorem Inv.unlockHere_step (h : Inv i s) (hstep : unlockHere s j = some t) : Inv i t := by
  unfold unlockHere at hstep
  split at hstep
  · obtain ⟨m, hm, rfl⟩ := Option.map_eq_some_iff.mp hstep
    exact h.leave_step hm fun _ => .inl ⟨rfl, fun e he => by cases he⟩
  · cases hstep

/-- No step of the mutex asks for an executor. -/
theorem Inv.moved {m : Mutex.State ι E} (h : Mutex.Inv m) (executor : ι → E) :
    Mutex.Inv { m with executor := executor } := by
  obtain ⟨xs, ys, hqueued⟩ := h.queued
  exact ⟨h.tokens_eq, ⟨xs, ys, hqueued.sender, hqueued.receiver, hqueued.count⟩, h.open_eq,
    fun a u ha => (good_congr rfl rfl).mpr (h.good a u ((unlockAt_congr rfl rfl).symm.trans ha)),
    h.wakes_eq, h.asserts_eq, h.derefs_eq⟩

/-- The coroutine switches executors only outside of the critical section. -/
theorem Inv.on_step (h : Inv i s) {e : E} (hstays : Stays i s (.on j e))
    (hstep : on s j e = some t) : Inv i t := by
  unfold on at hstep
  by_cases hij : i = j
  · subst hij
    have hpc : s.mutex.pc i = .running := hstays rfl
    have howns : s.owns i = false := by
      cases howns : s.owns i with
      | false => rfl
      | true =>
        have hkeeps := h.keeps howns
        rw [hpc] at hkeeps
        cases hkeeps
    simp only [hpc, Option.some.injEq] at hstep
    subst hstep
    exact .idle (moved h.mutex _) howns (Function.update_self i _ _)
  · split at hstep
    · cases hstep
      exact h.other (moved h.mutex (Function.update s.mutex.executor j e)) (fun _ => rfl)
        (fun _ => Function.update_of_ne hij _ _) .inl rfl rfl rfl rfl
        (Function.update_of_ne hij _ _)
    · cases hstep
      exact h.other (moved h.mutex (Function.update s.mutex.executor j e)) (fun _ => rfl)
        (fun _ => Function.update_of_ne hij _ _) .inl rfl rfl rfl rfl
        (Function.update_of_ne hij _ _)
    · cases hstep

/-- What is not an `AwaitUnlock` does not become one. -/
theorem unlockStep_quiet {m : Mutex.State ι E} {u : Unlock ι E} (h : Mutex.Inv m)
    (hpc : m.pc i = .unlock u) (hu : awaits u = false) :
    (Mutex.unlockStep cfg m (.coroutine i) u).pc i = .running ∨
      ∃ v, (Mutex.unlockStep cfg m (.coroutine i) u).pc i = .unlock v ∧ awaits v = false := by
  have hend : ∀ v : Mutex.State ι E, (v.put (.coroutine i) none).pc i = .running :=
    fun v => Function.update_self i _ _
  have hgo : ∀ (v : Mutex.State ι E) u', awaits u' = false →
      ∃ u, (v.put (.coroutine i) (some u')).pc i = .unlock u ∧ awaits u = false :=
    fun v u' hu' => ⟨u', Function.update_self i _ _, hu'⟩
  have hresume : ∀ n p, u.owes n = 1 →
      ((m.put (.coroutine i) none).resume n p).pc i = .running := by
    intro n p howes
    have hin : i ≠ n := by
      rintro rfl
      obtain ⟨xs, ys, hqueued⟩ := h.queued
      have hcount := hqueued.count i
      rw [h.owed_eq (unlockAt_coroutine.mpr hpc), howes, hpc] at hcount
      simp at hcount
    exact (Function.update_of_ne hin _ _).trans (hend m)
  have hslow : ∀ k, (Mutex.unlockSlow cfg m (.coroutine i) k).pc i = .running ∨
      ∃ v, (Mutex.unlockSlow cfg m (.coroutine i) k).pc i = .unlock v ∧ awaits v = false := by
    intro k
    unfold Mutex.unlockSlow
    cases getHead cfg m with
    | none => exact .inl (hend _)
    | some r =>
      cases k with
      | here | await => exact .inr (hgo _ _ rfl)
      | on executor =>
        dsimp only
        split
        · exact .inr (hgo _ _ rfl)
        · exact .inr (hgo _ _ rfl)
  cases u with
  | tryUnlock k =>
    refine .inr (hgo _ _ ?_)
    split
    · cases k <;> simp_all [awaits]
    · cases k <;> simp_all [awaits]
  | load k =>
    refine .inr (hgo _ _ ?_)
    split
    · cases k <;> simp_all [awaits]
    · cases k <;> simp_all [awaits]
  | swap k =>
    unfold Mutex.unlockStep
    dsimp only
    split
    · exact .inl (hend _)
    · refine .inr (hgo _ _ ?_)
      cases k <;> simp_all [awaits]
  | slow k =>
    cases k with
    | here | on executor => exact hslow _
    | await => cases hu
  | submit n => exact .inl (hresume n _ (by simp))
  | transfer n => exact .inl (hresume n _ (by simp))

section Advance

variable {weak : Bool}

/-- The guard of the coroutine that steps is not locked. -/
theorem Inv.advance_unlocked (h : Inv i s) (howns : s.owns i = false)
    (hm : Mutex.advance cfg s.mutex i weak = some m) : Inv i (advance s i m) := by
  have heq : advance s i m = { s with mutex := m } := by simp [advance, howns]
  rw [heq]
  refine .unlocked (h.mutex.advance hm) howns ?_
  intro e he
  have harrives := (h.due e he).2
  unfold Mutex.advance at hm
  cases hpc : s.mutex.pc i with
  | running => simp [hpc] at hm
  | ready =>
    simp only [hpc, Option.some.injEq] at hm
    subst hm
    rw [hpc] at harrives
    rw [goto_pc]
    exact harrives
  | unlock u =>
    simp only [hpc, Option.some.injEq] at hm
    subst hm
    rw [hpc] at harrives
    obtain ⟨hexecutor, hquiet⟩ := harrives
    have hkept : (Mutex.unlockStep cfg s.mutex (.coroutine i) u).executor i = e := by
      rw [unlockStep_executor h.mutex (unlockAt_coroutine.mpr hpc) (by simp [hpc])]
      · exact hexecutor
      · rintro - rfl
        cases hquiet
    rcases unlockStep_quiet h.mutex hpc hquiet with hnow | ⟨v, hnow, hv⟩ <;> rw [hnow]
    · exact hkept
    · exact ⟨hkept, hv⟩
  | _ =>
    rw [hpc] at harrives
    cases harrives

/-- The guard of the coroutine that steps is being locked. -/
theorem Inv.advance_locked (h : Inv i s) (howns : s.owns i = true)
    (hm : Mutex.advance cfg s.mutex i weak = some m)
    (hfresh : s.mutex.pc i = .tryLock false → m.pc i = .held →
      s.saved i = none ∨ s.saved i = some (s.mutex.executor i)) : Inv i (advance s i m) := by
  have hdue : s.due i = none := by
    cases hdue : s.due i with
    | none => rfl
    | some e =>
      have := (h.due e hdue).1
      rw [howns] at this
      cases this
  have hmutex := h.mutex.advance hm
  have hkeeps := h.keeps howns
  unfold Mutex.advance at hm
  cases hpc : s.mutex.pc i with
  | tryLock await =>
    simp only [hpc, Option.some.injEq] at hm
    rw [hpc] at hkeeps
    have hexecutor : m.executor i = s.mutex.executor i := by
      rw [← hm]
      unfold tryLockAwaitSwap
      split <;> rfl
    have hnow := hm ▸ tryLockAwaitSwap_pc s.mutex i await
    cases await with
    | true =>
      have heq : advance s i m = { s with mutex := m } := by simp [advance, howns, hpc]
      rw [heq]
      refine .locked hmutex hdue ?_
      simp only [hexecutor]
      rcases hnow with hnow | hnow <;> rw [hnow]
      · exact .inr hkeeps
      · exact hkeeps
    | false =>
      rcases hnow with hnow | hnow
      · have heq : advance s i m = { s with mutex := m } := by simp [advance, howns, hpc, hnow]
        rw [heq]
        refine .locked hmutex hdue ?_
        have hbefore : s.before i = some (s.mutex.executor i) := hkeeps
        simp only [hexecutor, hnow]
        rcases hfresh hpc hnow with hsaved | hsaved
        · exact .inr ⟨hsaved, hbefore⟩
        · refine .inl ⟨hsaved.trans hbefore.symm, ?_⟩
          rw [hbefore]
          exact Option.some_ne_none _
      · refine .idle (by rwa [advance_mutex]) ?_ (by rwa [advance_due])
        simp [advance, howns, hpc, hnow, lockFailed]
  | awaitLock =>
    simp only [hpc, Option.some.injEq] at hm
    rw [hpc] at hkeeps
    refine .locked (by rwa [advance_mutex]) (by rwa [advance_due]) ?_
    have hsaved : (advance s i m).saved i = some (s.mutex.executor i) := by
      simp [advance, howns, hpc]
    rw [hsaved, advance_before, advance_mutex, ← hm, goto_pc]
    exact ⟨hkeeps.2.symm, hkeeps.2⟩
  | awaitLoop expected =>
    simp only [hpc, Option.some.injEq] at hm
    rw [hpc] at hkeeps
    have hexecutor : m.executor i = s.mutex.executor i := by
      rw [← hm]
      unfold awaitLock
      cases expected <;> dsimp only <;> split <;> rfl
    have hnow := hm ▸ awaitLock_pc s.mutex i expected weak
    refine .locked (by rwa [advance_mutex]) (by rwa [advance_due]) ?_
    rw [advance_before, advance_mutex, hexecutor]
    rcases hnow with hnow | ⟨expected, hnow⟩ | hnow <;>
      simp only [advance, howns, hpc, hnow, if_true, Function.update_self]
    · exact .inr ⟨rfl, hkeeps.2⟩
    · exact hkeeps
    · refine ⟨hkeeps.1, ?_⟩
      rw [hkeeps.2]
      exact Option.some_ne_none _
  | resumed =>
    simp only [hpc, Option.some.injEq] at hm
    rw [hpc] at hkeeps
    have heq : advance s i m = { s with mutex := m } := by simp [advance, howns, hpc]
    rw [heq]
    refine .locked hmutex hdue ?_
    rw [← hm, goto_pc]
    exact hkeeps
  | waiting => simp [hpc] at hm
  | held => simp [hpc] at hm
  | _ =>
    rw [hpc] at hkeeps
    cases hkeeps

/-- A fresh step of the mutex keeps what the guards know. -/
theorem Inv.advance_step (h : Inv i s) (hm : Mutex.advance cfg s.mutex j weak = some m)
    (hfresh : Fresh i s (.mutex (.advance j weak)) (advance s j m)) : Inv i (advance s j m) := by
  by_cases hij : i = j
  · subst hij
    cases howns : s.owns i with
    | false => exact h.advance_unlocked howns hm
    | true =>
      refine h.advance_locked howns hm ?_
      intro hpc hheld
      exact hfresh rfl howns hpc (by rwa [advance_mutex])
  · refine h.mutex_other (e := .advance j weak) (by simp) ?_ hm advance_mutex
      (advance_saved_of_ne hij) (advance_owns_of_ne hij) (by rw [advance_before])
      (by rw [advance_due])
    rintro weak' heq
    cases heq
    exact hij rfl

end Advance

/-- One step of the run. -/
theorem Inv.of_step (h : Inv i s) {e : Event ι E} (hstep : step cfg s e = some t)
    (hstays : Stays i s e) (hfresh : Fresh i s e t) : Inv i t := by
  cases e with
  | mutex e =>
    cases e with
    | call j op =>
      simp only [step] at hstep
      split at hstep
      · cases hstep
      · next howns =>
        obtain ⟨m, hm, rfl⟩ := Option.map_eq_some_iff.mp hstep
        by_cases hij : i = j
        · subst hij
          exact .idle (h.mutex.call hm) (Bool.not_eq_true _ ▸ howns) (Function.update_self i _ _)
        · exact h.call_other hij hm rfl rfl rfl rfl (Function.update_of_ne hij _ _)
    | advance j weak =>
      obtain ⟨m, hm, rfl⟩ := Option.map_eq_some_iff.mp hstep
      exact h.advance_step hm hfresh
    | detached k | relink n q =>
      obtain ⟨m, hm, rfl⟩ := Option.map_eq_some_iff.mp hstep
      exact h.mutex_other (by simp) (by simp) hm rfl rfl rfl rfl rfl
  | lock j => exact h.lock_step hstep
  | tryLock j => exact h.tryLock_step hstep
  | unlock j => exact h.unlock_step hstep
  | unlockOn j e => exact h.unlockOn_step hstep
  | unlockHere j => exact h.unlockHere_step hstep
  | on j e => exact h.on_step hstays hstep

/-- In every run in which coroutine `i` does not switch executors inside a critical section,
and in which no `TryLock` of its guard succeeds with a stale executor saved: when an unlock of
the guard is over, the coroutine is at the executor it had when it began the lock, or at the
one that `UnlockOn` was given. -/
theorem sticky_returns (cfg : Config) (i : ι) (s : State ι E)
    (hs : (system cfg).ReachableIf (fun s e t => Stays i s e ∧ Fresh i s e t) s) (e : E)
    (hdue : s.due i = some e) (hpc : s.mutex.pc i = .running) : s.mutex.executor i = e := by
  have h : Inv i s := by
    refine System.Inductive.reachable (P := Inv i) ⟨?_, ?_⟩ hs
    · rintro s ⟨m, ⟨next, executor, rfl⟩, rfl⟩
      exact .idle (Mutex.Inv.init next executor) rfl rfl
    · intro s e t h hstep hcond
      exact h.of_step hstep hcond.1 hcond.2
  have harrives := (h.due e hdue).2
  rw [hpc] at harrives
  exact harrives

instance [DecidableEq E] (i : ι) (s : State ι E) : ∀ e, Decidable (Stays i s e)
  | .on j _ => inferInstanceAs (Decidable (j = i → s.mutex.pc i = .running))
  | .mutex _ | .lock _ | .tryLock _ | .unlock _ | .unlockOn _ _ | .unlockHere _ => isTrue trivial

instance [DecidableEq E] (i : ι) (s : State ι E) : ∀ e t, Decidable (Fresh i s e t)
  | .mutex (.advance j _), t => inferInstanceAs (Decidable (j = i → s.owns i = true →
      s.mutex.pc i = .tryLock false → t.mutex.pc i = .held →
        s.saved i = none ∨ s.saved i = some (s.mutex.executor i)))
  | .mutex (.call _ _), _ | .mutex (.detached _), _ | .mutex (.relink _ _), _ | .lock _, _ |
    .tryLock _, _ | .unlock _, _ | .unlockOn _ _, _ | .unlockHere _, _ | .on _ _, _ =>
    isTrue trivial

/-- Each coroutine at an executor of its own. -/
def start : State (Fin 3) (Fin 3) := { mutex := { next := fun _ => none, executor := id } }

theorem start_reachable
    {C : State (Fin 3) (Fin 3) → Event (Fin 3) (Fin 3) → State (Fin 3) (Fin 3) → Prop} :
    (system ⟨true, true⟩).ReachableIf C start :=
  .init ⟨_, ⟨_, _, rfl⟩, rfl⟩

/-- Coroutine 2 and the guard of coroutine 0 wait for coroutine 1. Coroutine 2 unlocks with
a swap of the executors, and coroutine 0 owns the mutex at the executor of coroutine 2. -/
def swapped : List (Event (Fin 3) (Fin 3)) :=
  [.mutex (.call 1 .lock), .mutex (.advance 1 false), .mutex (.call 2 .lock),
    .mutex (.advance 2 false), .mutex (.advance 2 false), .lock 0, .mutex (.advance 0 false),
    .mutex (.advance 0 false), .mutex (.call 1 .unlockHere)] ++
  List.replicate 4 (.mutex (.advance 1 false)) ++
  [.mutex (.advance 2 false), .mutex (.call 2 .unlock), .mutex (.advance 2 false),
    .mutex (.advance 2 false), .mutex (.detached 0)]

/-- `Unlock` undoes the swap. -/
theorem sticky_returns_swapped :
    let s := ((system ⟨true, true⟩).runIf (fun s e t => Stays 0 s e ∧ Fresh 0 s e t) start
      (swapped ++ [.unlock 0, .mutex (.advance 0 false)])).get (by decide)
    s.mutex.executor 0 = 0 := by
  refine sticky_returns ⟨true, true⟩ 0 _ (start_reachable.runIf (Option.some_get _).symm) 0 ?_ ?_
  · decide
  · decide

/-- A `TryLock` does not forget the executor that the last lock saved. Coroutine 0 goes on at
executor 2, locks its guard again, and the unlock takes it away from there. -/
theorem not_sticky_returns : ¬ ∀ (cfg : Config) (i : Fin 3) (s : State (Fin 3) (Fin 3)),
    (system cfg).ReachableIf (fun s e _ => Stays i s e) s → ∀ e, s.due i = some e →
      s.mutex.pc i = .running → s.mutex.executor i = e := by
  intro h
  let s := ((system ⟨true, true⟩).runIf (fun s e _ => Stays 0 s e) start
    (swapped ++ [.unlockOn 0 2, .mutex (.advance 0 false)] ++
      List.replicate 3 (.mutex (.detached 0)) ++
      [.tryLock 0, .mutex (.advance 0 false), .unlock 0, .mutex (.advance 0 false)])).get (by decide)
  have hs : (system ⟨true, true⟩).ReachableIf (fun s e _ => Stays 0 s e) s :=
    start_reachable.runIf (Option.some_get _).symm
  have hdue : s.due 0 = some 2 := by decide
  have hexecutor : s.mutex.executor 0 = 0 := by decide
  have hclaim := h _ 0 s hs 2 hdue (by decide)
  rw [hexecutor] at hclaim
  exact absurd hclaim (by decide)

end Yaclib.Mutex.Sticky
