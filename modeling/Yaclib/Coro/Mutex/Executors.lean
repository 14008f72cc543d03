import Yaclib.Coro.Mutex.Sticky

/-!
Who owns the executors of the mutex. `_executor` of a coroutine that has not ended is a
reference, and so is `curr_executor` of an `AwaitUnlockOn` that has not returned; all others,
that of a local variable about to be destroyed too, are counted in `ext`. `_executor` of a
`StickyGuard` is a plain pointer.
-/

namespace Yaclib.Mutex.Executors

open Concurrency

structure State (ι E : Type) where
  sticky : Sticky.State ι E
  ended : ι → Bool := fun _ => false
  ext : E → Nat
  /-- ghost: the last reference was given up -/
  destroyed : E → Bool := fun _ => false

/-- A step of the mutex and its guards, the end of a coroutine, and a reference outside the
coroutines that is made or given up. -/
inductive Event (ι E : Type) where
  | sticky (e : Sticky.Event ι E)
  | finish (i : ι)
  | share (e : E)
  | release (e : E)

variable {ι E : Type}

section

variable [DecidableEq ι] [DecidableEq E]

/-- 1 if the reference is one to `e`. -/
def one (e : E) (o : Option E) : Nat := if o = some e then 1 else 0

/-- `curr_executor` -/
def curr : Unlock ι E → Option E
  | .tryUnlock (.on x) | .load (.on x) | .swap (.on x) | .slow (.on x) => some x
  | _ => none

def holds (ended : ι → Bool) (executor : ι → E) (i : ι) : Option E :=
  if ended i then none else some (executor i)

/-- The references to `e` that the coroutines and the unlocks hold. -/
def count [Fintype ι] (ended : ι → Bool) (m : Mutex.State ι E) (e : E) : Nat :=
  tally (one e) (holds ended m.executor) + m.weigh fun u => one e (curr u)

def State.refs [Fintype ι] (s : State ι E) (e : E) : Nat :=
  count s.ended s.sticky.mutex e + s.ext e

/-- What is in `curr_executor` when `AwaitUnlockOn` returns: `operator=` swapped it with the
`_executor` of the next owner, if the mutex was handed over in a batch. -/
def left [Fintype ι] (cfg : Config) (m : Mutex.State ι E) : Unlock ι E → Option E
  | .swap (.on x) => if m.sender = kLockedNoWaiters then some x else none
  | .slow (.on x) =>
    match getHead cfg m with
    | some (n, v) => if cfg.batching ∧ v.receiver ≠ none then some (v.executor n) else some x
    | none => some x
  | _ => none

/-- The reference that a step leaves in a local variable. -/
def given [Fintype ι] (cfg : Config) (s : Sticky.State ι E) : Sticky.Event ι E → Option E
  | .mutex (.advance i _) => (s.mutex.unlockAt (.coroutine i)).bind (left cfg s.mutex)
  | .mutex (.detached k) => (s.mutex.unlockAt (.detached k)).bind (left cfg s.mutex)
  | .on i x => if x = s.mutex.executor i then none else some (s.mutex.executor i)
  | _ => none

def names : Op E → Option E
  | .unlockOn x => some x
  | _ => none

def taken (s : Sticky.State ι E) : Sticky.Event ι E → Option E
  | .mutex (.call _ op) => names op
  | .unlockOn _ x => some x
  | .unlock i => s.saved i
  | .on i x => if x = s.mutex.executor i then none else some x
  | _ => none

/-- A coroutine that has ended calls nothing, and who names an executor has a reference to
it. -/
def State.allows [Fintype ι] (s : State ι E) : Sticky.Event ι E → Bool
  | .mutex (.call i op) => !s.ended i && (names op).all fun x => 0 < s.refs x
  | .unlockOn i x | .on i x => !s.ended i && 0 < s.refs x
  | .lock i | .tryLock i | .unlock i | .unlockHere i => !s.ended i
  | .mutex _ => true

/-- `_executor` goes to the continuation of the coroutine, or is destroyed with the frame. -/
def finish (s : State ι E) (i : ι) : Option (State ι E) :=
  match s.sticky.mutex.pc i, s.ended i with
  | .running, false => some { s with
      ended := Function.update s.ended i true
      ext := fun e => s.ext e + one e (some (s.sticky.mutex.executor i)) }
  | _, _ => none

variable [Fintype ι] (cfg : Config)

def release (s : State ι E) (e : E) : Option (State ι E) :=
  if s.ext e = 0 then none else some { s with
    ext := Function.update s.ext e (s.ext e - 1)
    destroyed := if s.refs e = 1 then Function.update s.destroyed e true else s.destroyed }

def step (s : State ι E) : Event ι E → Option (State ι E)
  | .sticky ev =>
    if s.allows ev then
      (Sticky.step cfg s.sticky ev).map fun t =>
        { s with sticky := t, ext := fun e => s.ext e + one e (given cfg s.sticky ev) }
    else none
  | .finish i => finish s i
  | .share e =>
    if 0 < s.refs e then some { s with ext := Function.update s.ext e (s.ext e + 1) } else none
  | .release e => release s e

def system : System (State ι E) (Event ι E) where
  Init s := (Sticky.system cfg).Init s.sticky ∧ (∀ i, s.ended i = false) ∧
    ∀ e, s.destroyed e = false
  step := step cfg

/-- The guard of `i` is locked, and has saved `e`. -/
def Relies (s : Sticky.State ι E) (i : ι) (e : E) : Prop :=
  s.owns i = true ∧ s.saved i = some e ∧ s.mutex.pc i ≠ .tryLock false

/-- The last reference to an executor is not given up when the guard has saved it of a
coroutine that was handed another one, and no `TryLock` of a guard succeeds that still has
an executor saved of which no reference is left. -/
def Spares (s : State ι E) : Event ι E → State ι E → Prop
  | .release e, _ => s.refs e = 1 → ∀ i, Relies s.sticky i e → s.sticky.mutex.executor i = e
  | .sticky (.mutex (.advance i _)), t => s.sticky.owns i = true →
    s.sticky.mutex.pc i = .tryLock false → t.sticky.mutex.pc i = .held →
      ∀ e, s.sticky.saved i = some e → 0 < s.refs e
  | _, _ => True

end

/-! ### What a locked guard has saved -/

/-- What a guard that is locked or being locked has saved. -/
def Uses (alive : E → Prop) (saved : Option E) : Pc ι E → Prop
  | .tryLock true | .awaitLock => saved = none
  | .tryLock false => True
  | .awaitLoop _ | .waiting | .resumed | .held => ∀ e, saved = some e → alive e
  | _ => False

section Uses

variable {cfg : Config} {alive live : E → Prop} {s t : Sticky.State ι E} {ev : Sticky.Event ι E}
variable {i j : ι}

theorem Uses.mono {saved : Option E} {p : Pc ι E} (h : Uses alive saved p)
    (hle : ∀ e, alive e → live e) : Uses live saved p := by
  cases p with
  | tryLock await => cases await <;> exact h
  | awaitLock => exact h
  | awaitLoop _ | waiting | resumed | held => exact fun e he => hle e (h e he)
  | running | unlock _ | ready => exact h

variable [DecidableEq ι]

/-- A step of another coroutine. -/
theorem uses_other (huses : s.owns i = true → Uses alive (s.saved i) (s.mutex.pc i))
    (hpc : s.mutex.pc i ≠ .waiting → t.mutex.pc i = s.mutex.pc i)
    (hwaiting : s.mutex.pc i = .waiting →
      t.mutex.pc i = .waiting ∨ t.mutex.pc i = .resumed ∨ t.mutex.pc i = .held)
    (hsaved : t.saved i = s.saved i) (howns : t.owns i = s.owns i) :
    t.owns i = true → Uses alive (t.saved i) (t.mutex.pc i) := by
  rw [hsaved, howns]
  intro hi
  have huses := huses hi
  by_cases hwait : s.mutex.pc i = .waiting
  · rw [hwait] at huses
    rcases hwaiting hwait with hpc' | hpc' | hpc' <;> rw [hpc'] <;> exact huses
  · rw [hpc hwait]
    exact huses

/-- A call of a coroutine: the guard of another one is as it was. -/
theorem uses_call {op : Op E} (huses : s.owns i = true → Uses alive (s.saved i) (s.mutex.pc i))
    (hm : Mutex.call s.mutex j op = some t.mutex)
    (hself : i = j → t.owns i = true → Uses alive (t.saved i) (t.mutex.pc i))
    (hsaved : i ≠ j → t.saved i = s.saved i) (howns : i ≠ j → t.owns i = s.owns i) :
    t.owns i = true → Uses alive (t.saved i) (t.mutex.pc i) := by
  by_cases hij : i = j
  · exact hself hij
  · have hpc := Cancel.call_pc_of_ne hij hm
    exact uses_other huses (fun _ => hpc) (fun hwait => .inl (hpc.trans hwait)) (hsaved hij)
      (howns hij)

variable [Fintype ι]

/-- A step of the lock of the guard. -/
theorem uses_advance {weak : Bool} {m : Mutex.State ι E} (howns : s.owns i = true)
    (hm : Mutex.advance cfg s.mutex i weak = some m)
    (huses : Uses alive (s.saved i) (s.mutex.pc i))
    (hexecutor : s.mutex.pc i = .awaitLock → alive (s.mutex.executor i))
    (hfresh : s.mutex.pc i = .tryLock false → m.pc i = .held →
      ∀ e, s.saved i = some e → alive e) :
    (Sticky.advance s i m).owns i = true → Uses alive ((Sticky.advance s i m).saved i) (m.pc i) := by
  unfold Mutex.advance at hm
  cases hpc : s.mutex.pc i with
  | tryLock await =>
    simp only [hpc, Option.some.injEq] at hm
    rw [hpc] at huses
    have hnow := hm ▸ Sticky.tryLockAwaitSwap_pc s.mutex i await
    cases await with
    | true =>
      have heq : Sticky.advance s i m = { s with mutex := m } := by
        simp [Sticky.advance, howns, hpc]
      have hsaved : s.saved i = none := huses
      rw [heq]
      intro _
      simp only [hsaved]
      rcases hnow with hnow | hnow <;> rw [hnow]
      · exact fun e he => by cases he
      · rfl
    | false =>
      rcases hnow with hnow | hnow
      · have heq : Sticky.advance s i m = { s with mutex := m } := by
          simp [Sticky.advance, howns, hpc, hnow]
        rw [heq, hnow]
        exact fun _ => hfresh hpc hnow
      · simp [Sticky.advance, howns, hpc, hnow, lockFailed]
  | awaitLock =>
    simp only [hpc, Option.some.injEq] at hm
    have hsaved : (Sticky.advance s i m).saved i = some (s.mutex.executor i) := by
      simp [Sticky.advance, howns, hpc]
    rw [hsaved, ← hm, Sticky.goto_pc]
    intro _ e he
    cases he
    exact hexecutor hpc
  | awaitLoop expected =>
    simp only [hpc, Option.some.injEq] at hm
    rw [hpc] at huses
    have hnow := hm ▸ Sticky.awaitLock_pc s.mutex i expected weak
    rcases hnow with hnow | ⟨expected, hnow⟩ | hnow <;> rw [hnow] <;>
      simp only [Sticky.advance, howns, hpc, hnow, if_true, Function.update_self]
    · exact fun _ e he => by cases he
    · exact fun _ => huses
    · exact fun _ => huses
  | resumed =>
    simp only [hpc, Option.some.injEq] at hm
    rw [hpc] at huses
    have heq : Sticky.advance s i m = { s with mutex := m } := by
      simp [Sticky.advance, howns, hpc]
    rw [heq, ← hm, Sticky.goto_pc]
    exact fun _ => huses
  | waiting => simp [hpc] at hm
  | held => simp [hpc] at hm
  | _ =>
    rw [hpc] at huses
    cases huses

/-- No guard loses what it has saved, and what it saves is the executor its coroutine has. -/
theorem uses_step (h : Mutex.Inv s.mutex) (hstep : Sticky.step cfg s ev = some t)
    (huses : s.owns i = true → Uses alive (s.saved i) (s.mutex.pc i))
    (hexecutor : s.owns i = true → s.mutex.pc i = .awaitLock → alive (s.mutex.executor i))
    (hfresh : ∀ weak, ev = .mutex (.advance i weak) → s.owns i = true →
      s.mutex.pc i = .tryLock false → t.mutex.pc i = .held → ∀ e, s.saved i = some e → alive e) :
    t.owns i = true → Uses alive (t.saved i) (t.mutex.pc i) := by
  cases ev with
  | mutex e =>
    cases e with
    | call j op =>
      simp only [Sticky.step] at hstep
      split at hstep
      · cases hstep
      · next howns =>
        obtain ⟨m, hm, rfl⟩ := Option.map_eq_some_iff.mp hstep
        refine uses_call huses hm ?_ (fun _ => rfl) (fun _ => rfl)
        rintro rfl hi
        exact absurd hi howns
    | advance j weak =>
      obtain ⟨m, hm, rfl⟩ := Option.map_eq_some_iff.mp hstep
      by_cases hij : i = j
      · subst hij
        cases howns : s.owns i with
        | false => simp [Sticky.advance, howns]
        | true =>
          rw [Sticky.advance_mutex]
          refine uses_advance howns hm (huses howns) (hexecutor howns) ?_
          intro hpc hheld
          exact hfresh weak rfl howns hpc (by rwa [Sticky.advance_mutex])
      · have hother : ∀ weak', (.advance j weak : Mutex.Event ι E) ≠ .advance i weak' := by
          rintro weak' heq
          cases heq
          exact hij rfl
        have hm' : Mutex.step cfg s.mutex (.advance j weak) = some m := hm
        refine uses_other huses ?_ ?_ (Sticky.advance_saved_of_ne hij)
          (Sticky.advance_owns_of_ne hij)
        · rw [Sticky.advance_mutex]
          exact fun hpc => Cancel.step_pc_of_other h hpc (by simp) hother hm'
        · rw [Sticky.advance_mutex]
          exact fun hpc => Sticky.step_waiting h hpc hm'
    | detached k | relink n q =>
      obtain ⟨m, hm, rfl⟩ := Option.map_eq_some_iff.mp hstep
      exact uses_other huses (fun hpc => Cancel.step_pc_of_other h hpc (by simp) (by simp) hm)
        (fun hpc => Sticky.step_waiting h hpc hm) rfl rfl
  | lock j =>
    unfold Sticky.step Sticky.lock at hstep
    dsimp only at hstep
    split at hstep
    · cases hstep
    · obtain ⟨m, hm, rfl⟩ := Option.map_eq_some_iff.mp hstep
      refine uses_call huses hm ?_ (fun hij => Function.update_of_ne hij _ _)
        (fun hij => Function.update_of_ne hij _ _)
      rintro rfl -
      obtain rfl := Sticky.call_lock hm
      simp only [Sticky.State.enter, Function.update_self]
      rcases Sticky.tryLockAwait_pc s.mutex i true with hpc | hpc <;> rw [hpc] <;> rfl
  | tryLock j =>
    unfold Sticky.step Sticky.tryLock at hstep
    dsimp only at hstep
    split at hstep
    · cases hstep
    · obtain ⟨m, hm, rfl⟩ := Option.map_eq_some_iff.mp hstep
      refine uses_call huses hm ?_ (fun _ => rfl) (fun hij => Function.update_of_ne hij _ _)
      rintro rfl
      obtain rfl := Sticky.call_tryLock hm
      simp only [Sticky.State.enter, Function.update_self]
      rcases Sticky.tryLockAwait_pc s.mutex i false with hpc | hpc <;> rw [hpc]
      · exact fun _ => trivial
      · exact fun hi => by cases hi
  | unlock j | unlockOn j x | unlockHere j =>
    simp only [Sticky.step, Sticky.unlock, Sticky.unlockOn, Sticky.unlockHere] at hstep
    split at hstep
    · obtain ⟨m, hm, rfl⟩ := Option.map_eq_some_iff.mp hstep
      refine uses_call huses hm ?_ (fun _ => rfl) (fun hij => Function.update_of_ne hij _ _)
      rintro rfl
      simp [Sticky.State.leave]
    · cases hstep
  | on j x =>
    simp only [Sticky.step, Sticky.on] at hstep
    split at hstep
    · cases hstep
      exact uses_other huses (fun _ => rfl) .inl rfl rfl
    · cases hstep
      exact uses_other huses (fun _ => rfl) .inl rfl rfl
    · cases hstep

end Uses

/-! ### The references move -/

section Count

variable {cfg : Config} {m v : Mutex.State ι E} {a : Actor ι} {u : Unlock ι E}
variable {o : Option (Unlock ι E)} {ended : ι → Bool} {i n : ι} {p : Pc ι E} {e x : E}

theorem holds_of_live (executor : ι → E) (hlive : ended i = false) :
    holds ended executor i = some (executor i) := by
  rw [holds, hlive]
  rfl

theorem holds_update [DecidableEq ι] (executor : ι → E) (hlive : ended n = false) :
    holds ended (Function.update executor n x) =
      Function.update (holds ended executor) n (some x) := by
  funext j
  by_cases hj : j = n
  · subst hj
    rw [Function.update_self, holds_of_live _ hlive, Function.update_self]
  · rw [Function.update_of_ne hj, holds, holds, Function.update_of_ne hj]

variable [DecidableEq E]

@[simp] theorem one_none : one e none = 0 := rfl

variable [Fintype ι]

theorem count_congr
    (hexecutor : v.executor = m.executor) (hpc : v.pc = m.pc)
    (hdetached : v.detached = m.detached) : count ended v e = count ended m e := by
  rw [count, count, State.weigh, State.weigh, hexecutor, hpc, hdetached]

theorem count_detach (ended : ι → Bool) (e : E) (u : Unlock ι E) :
    count ended { m with detached := m.detached ++ [u] } e = count ended m e + one e (curr u) := by
  simp only [count, State.weigh, List.map_append, List.sum_append, List.map_cons, List.map_nil,
    List.sum_cons, List.sum_nil]
  omega

variable [DecidableEq ι]

/-- A live coroutine is given the executor `x`. -/
theorem count_update (hlive : ended n = false) :
    count ended { m with executor := Function.update m.executor n x } e +
      one e (some (m.executor n)) = count ended m e + one e (some x) := by
  have hupdate := tally_update (one e) (holds ended m.executor) n (some x)
  rw [holds_of_live _ hlive, ← holds_update _ hlive] at hupdate
  have hweigh : ({ m with executor := Function.update m.executor n x } : Mutex.State ι E).weigh
      (fun u => one e (curr u)) = m.weigh fun u => one e (curr u) := rfl
  simp only [count, hweigh]
  omega

theorem count_put (ended : ι → Bool) (e : E) (o : Option (Unlock ι E))
    (ha : m.unlockAt a = some u) :
    count ended (m.put a o) e + one e (curr u) =
      count ended m e + o.elim 0 fun u => one e (curr u) := by
  have hweigh := weigh_put (o := o) (fun u => one e (curr u)) ha
  rw [count, count, Sticky.put_executor]
  omega

theorem count_goto (ended : ι → Bool) (e : E) (h : (m.pc i).weigh (fun u => one e (curr u)) =
    p.weigh fun u => one e (curr u)) : count ended (m.goto i p) e = count ended m e := by
  have hpc : tally (Pc.weigh fun u => one e (curr u)) (m.goto i p).pc =
      tally (Pc.weigh fun u => one e (curr u)) m.pc := tally_stay h.symm
  have hsame : (m.goto i p).executor = m.executor ∧ (m.goto i p).detached = m.detached :=
    ⟨rfl, rfl⟩
  rw [count, count, State.weigh, State.weigh, hpc, hsame.1, hsame.2]

theorem unlockSlow_count (h : Mutex.Inv m) (hended : ∀ j, ended j = true → m.pc j = .running)
    {k : Kind E} (ha : m.unlockAt a = some (.slow k)) :
    count ended (Mutex.unlockSlow cfg m a k) e + one e (left cfg m (.slow k)) =
      count ended m e := by
  obtain ⟨n, v, xs, ys, hhead, hv, -, -, -, hcount⟩ := h.getHead cfg ha
  have hcongr : ∀ receiver, count ended { v with receiver := receiver } e = count ended m e := by
    rw [hv]
    exact fun _ => count_congr rfl rfl rfl
  have hva : ∀ receiver executor,
      ({ v with receiver := receiver, executor := executor } : Mutex.State ι E).unlockAt a =
        some (.slow k) := by
    intro receiver executor
    refine (unlockAt_congr ?_ ?_).trans ha
    · rw [hv]
    · rw [hv]
  rw [Mutex.unlockSlow, hhead]
  cases k with
  | here | await =>
    have hput := count_put ended e (some (.submit n))
      (hva (v.next n) v.executor)
    rw [hcongr] at hput
    exact hput
  | on x =>
    have hlive : ended n = false := by
      cases hn : ended n with
      | false => rfl
      | true =>
        have hpc := hcount n
        rw [hended n hn, List.count_cons_self] at hpc
        simp at hpc
    simp only [left, hhead]
    split
    · have hput := count_put ended e (some (.transfer n))
        (hva (v.next n) (Function.update v.executor n x))
      have hupdate := count_update (m := { v with receiver := v.next n }) (e := e) (x := x) hlive
      dsimp only at hupdate
      rw [hcongr] at hupdate
      simp only [curr, Option.elim, one_none] at hput
      omega
    · have hput := count_put ended e (some (.submit n))
        (hva (v.next n) v.executor)
      rw [hcongr] at hput
      exact hput

/-- `AwaitUnlock` swaps two references. -/
theorem awaitUnlock_count (h : Mutex.Inv m) (hended : ∀ j, ended j = true → m.pc j = .running)
    (hpc : m.pc i = .unlock (.slow .await)) (hn : m.receiver = some n) :
    count ended (awaitUnlock m i) e = count ended m e := by
  have hwait := Sticky.receiver_waiting h hn
  have hin : n ≠ i := by
    rintro rfl
    rw [hpc] at hwait
    cases hwait
  have hlive : ∀ j, m.pc j ≠ .running → ended j = false := by
    intro j hj
    cases heq : ended j with
    | false => rfl
    | true => exact absurd (hended j heq) hj
  have hi := hlive i (by simp [hpc])
  have hn' := hlive n (by simp [hwait])
  have hfirst := count_update (m := m) (e := e) (x := m.executor n) hi
  have hsecond := count_update (m := { m with
    executor := Function.update m.executor i (m.executor n) }) (e := e) (x := m.executor i) hn'
  simp only [Function.update_of_ne hin] at hsecond
  have hdetach := count_detach ended e (m := { m with
    receiver := m.next n
    executor := Function.update (Function.update m.executor i (m.executor n)) n (m.executor i) })
    (.transfer n)
  have hreceiver : count ended { m with
      receiver := m.next n
      executor := Function.update (Function.update m.executor i (m.executor n)) n (m.executor i) }
      e = count ended { m with
      executor := Function.update (Function.update m.executor i (m.executor n)) n (m.executor i) }
      e := count_congr rfl rfl rfl
  have hgoto := count_goto ended e (i := i) (p := .ready) (m := { m with
    receiver := m.next n
    executor := Function.update (Function.update m.executor i (m.executor n)) n (m.executor i)
    detached := m.detached ++ [.transfer n] }) (by simp [hpc, Pc.weigh, curr])
  simp only [awaitUnlock, hn]
  simp only [curr, one_none] at hdetach
  omega

/-- No step of an unlock makes a reference or loses one, but it may leave one behind. -/
theorem unlockStep_count (cfg : Config) (e : E) (h : Mutex.Inv m)
    (hended : ∀ j, ended j = true → m.pc j = .running) (ha : m.unlockAt a = some u) :
    count ended (Mutex.unlockStep cfg m a u) e + one e (left cfg m u) = count ended m e := by
  have hlook : ∀ (w : Mutex.State ι E) u', w.executor = m.executor → w.pc = m.pc →
      w.detached = m.detached → curr u' = curr u →
        count ended (w.put a (some u')) e = count ended m e := by
    intro w u' hexecutor hwpc hdetached hcurr
    have hput := count_put ended e (some u')
      ((unlockAt_congr hwpc hdetached).trans ha)
    rw [count_congr hexecutor hwpc hdetached] at hput
    simp only [Option.elim, hcurr] at hput
    omega
  have hresume : ∀ n p, u.owes n = 1 → curr u = none → p = .resumed ∨ p = .held →
      count ended ((m.put a none).resume n p) e = count ended m e := by
    intro n p howes hcurr hp
    have hput := count_put ended e none ha
    simp only [Option.elim, hcurr, one_none] at hput
    have hwait : (m.put a none).pc n = .waiting := by
      obtain ⟨xs, ys, hqueued⟩ := h.queued
      have hcount := hqueued.count n
      rw [h.owed_eq ha, howes] at hcount
      exact Sticky.put_waiting ha (Pc.eq_waiting (by omega))
    have hgoto := count_goto ended e (m := m.put a none) (i := n) (p := p)
      (by rcases hp with rfl | rfl <;> simp [hwait, Pc.weigh])
    have hsame : count ended ((m.put a none).resume n p) e =
        count ended ((m.put a none).goto n p) e := count_congr rfl rfl rfl
    omega
  cases u with
  | tryUnlock k =>
    have hleft : left cfg m (.tryUnlock k) = none := by cases k <;> rfl
    rw [hleft, one_none, Nat.add_zero]
    refine hlook (m.check _) _ rfl rfl rfl ?_
    split <;> cases k <;> rfl
  | load k =>
    have hleft : left cfg m (.load k) = none := by cases k <;> rfl
    rw [hleft, one_none, Nat.add_zero]
    refine hlook m _ rfl rfl rfl ?_
    split <;> cases k <;> rfl
  | swap k =>
    unfold Mutex.unlockStep
    dsimp only
    split
    · next hlast =>
      have hput := count_put ended e none
        (m := { m with sender := .kNotLocked }) ((unlockAt_congr rfl rfl).trans ha)
      have hcongr : count ended { m with sender := .kNotLocked } e = count ended m e :=
        count_congr rfl rfl rfl
      have hleft : left cfg m (.swap k) = curr (.swap k : Unlock ι E) := by
        cases k <;> simp [left, curr, hlast]
      rw [hleft]
      simp only [Option.elim] at hput
      omega
    · next hmore =>
      have hleft : left cfg m (.swap k) = none := by cases k <;> simp [left, hmore]
      rw [hleft, one_none, Nat.add_zero]
      refine hlook m _ rfl rfl rfl ?_
      cases k <;> rfl
  | slow k =>
    cases a with
    | detached j => exact unlockSlow_count h hended ha
    | coroutine j =>
      cases k with
      | here | on x => exact unlockSlow_count h hended ha
      | await =>
        unfold Mutex.unlockStep
        dsimp only
        split
        · next hbatching =>
          obtain ⟨n, hn⟩ := Option.ne_none_iff_exists'.mp hbatching.2
          exact awaitUnlock_count h hended (unlockAt_coroutine.mp ha) hn
        · exact unlockSlow_count h hended ha
  | submit n => exact hresume n _ (by simp) rfl (.inl rfl)
  | transfer n => exact hresume n _ (by simp) rfl (.inr rfl)

theorem call_count {op : Op E} (hlive : ended i = false) (hm : Mutex.call m i op = some v) :
    count ended v e = count ended m e + one e (names op) := by
  unfold Mutex.call at hm
  split at hm
  · next hpc =>
    cases hm
    refine count_goto ended e ?_
    split <;> simp [hpc, Pc.weigh, lockFailed]
  · next hpc =>
    cases hm
    refine count_goto ended e ?_
    split <;> simp [hpc, Pc.weigh, lockFailed]
  · next hpc =>
    cases hm
    exact count_goto ended e (by simp [hpc, Pc.weigh, curr])
  · next hpc =>
    cases hm
    exact count_goto ended e (by simp [hpc, Pc.weigh, curr])
  · next x hpc =>
    cases hm
    have hupdate := count_update (m := m) (e := e) (x := x) hlive
    have hdetach := count_detach ended e (m := { m with
      executor := Function.update m.executor i x }) (.tryUnlock (.on (m.executor i)))
    have hgoto := count_goto ended e (i := i) (p := .ready) (m := { m with
      executor := Function.update m.executor i x
      detached := m.detached ++ [.tryUnlock (.on (m.executor i))] }) (by simp [hpc, Pc.weigh])
    simp only [curr] at hdetach
    unfold awaitUnlockOn
    rw [names]
    omega
  · contradiction

/-- A step of a coroutine that is not in an unlock. -/
theorem advance_count {weak : Bool} (ended : ι → Bool) (e : E) (hu : ∀ u, m.pc i ≠ .unlock u)
    (hm : Mutex.advance cfg m i weak = some v) : count ended v e = count ended m e := by
  have hgo : ∀ (w : Mutex.State ι E) p, w.executor = m.executor → w.pc = m.pc →
      w.detached = m.detached → (p : Pc ι E).weigh (fun u => one e (curr u)) = 0 →
        count ended (w.goto i p) e = count ended m e := by
    intro w p hexecutor hwpc hdetached hp
    rw [← count_congr hexecutor hwpc hdetached]
    refine count_goto ended e ?_
    rw [hp, hwpc]
    cases hpc : m.pc i with
    | unlock u => exact absurd hpc (hu u)
    | _ => rfl
  unfold Mutex.advance at hm
  cases hpc : m.pc i with
  | running | waiting | held => simp [hpc] at hm
  | unlock u => exact absurd hpc (hu u)
  | tryLock await =>
    simp only [hpc, Option.some.injEq] at hm
    subst hm
    unfold tryLockAwaitSwap
    split
    · exact hgo { m with sender := kLockedNoWaiters } _ rfl rfl rfl rfl
    · refine hgo m _ rfl rfl rfl ?_
      cases await <;> rfl
  | awaitLock | resumed | ready =>
    simp only [hpc, Option.some.injEq] at hm
    subst hm
    exact hgo m _ rfl rfl rfl rfl
  | awaitLoop expected =>
    simp only [hpc, Option.some.injEq] at hm
    subst hm
    unfold awaitLock
    cases expected with
    | kNotLocked =>
      dsimp only
      split
      · exact hgo { m with sender := kLockedNoWaiters } _ rfl rfl rfl rfl
      · exact hgo m _ rfl rfl rfl rfl
    | ptr p =>
      dsimp only
      split
      · exact hgo { m with
          next := Function.update m.next i p
          sender := .ptr (some i)
          parks := Function.update m.parks i (m.parks i + 1) } _ rfl rfl rfl rfl
      · exact hgo { m with next := Function.update m.next i p } _ rfl rfl rfl rfl

end Count

variable {cfg : Config} {s t : State ι E} {ev : Sticky.Event ι E} {u : Sticky.State ι E} {i : ι}
variable {e : E} [DecidableEq E] [Fintype ι]

/-- The executor of a live coroutine has a reference. -/
theorem one_le_count (hlive : s.ended i = false) :
    1 ≤ count s.ended s.sticky.mutex (s.sticky.mutex.executor i) := by
  have hle := le_tally_of (one (s.sticky.mutex.executor i))
    (holds_of_live s.sticky.mutex.executor hlive)
  rw [one, if_pos rfl] at hle
  unfold count
  omega

variable [DecidableEq ι]

/-- The references of a step of the mutex and its guards. -/
theorem step_count {s : State ι E} {ev : Sticky.Event ι E} {t : Sticky.State ι E} {e : E}
    {cfg : Config} (h : Mutex.Inv s.sticky.mutex)
    (hended : ∀ j, s.ended j = true → s.sticky.mutex.pc j = .running) (hallows : s.allows ev = true)
    (hstep : Sticky.step cfg s.sticky ev = some t) :
    count s.ended t.mutex e + one e (given cfg s.sticky ev) =
      count s.ended s.sticky.mutex e + one e (taken s.sticky ev) := by
  cases ev with
  | mutex ev =>
    cases ev with
    | call i op =>
      simp only [State.allows, Bool.and_eq_true, Bool.not_eq_true'] at hallows
      simp only [Sticky.step] at hstep
      split at hstep
      · cases hstep
      · obtain ⟨m, hm, rfl⟩ := Option.map_eq_some_iff.mp hstep
        exact call_count hallows.1 hm
    | advance i weak =>
      obtain ⟨m, hm, rfl⟩ := Option.map_eq_some_iff.mp hstep
      rw [Sticky.advance_mutex]
      cases hu : s.sticky.mutex.unlockAt (.coroutine i) with
      | none =>
        have hcount := advance_count s.ended e (fun u hpc => by
          rw [unlockAt_coroutine.mpr hpc] at hu
          cases hu) hm
        simpa [given, taken, hu] using hcount
      | some u =>
        have hpc := unlockAt_coroutine.mp hu
        simp only [Mutex.advance, hpc, Option.some.injEq] at hm
        subst hm
        have hcount := unlockStep_count cfg e h hended hu
        simpa [given, taken, hu] using hcount
    | detached k =>
      obtain ⟨m, hm, rfl⟩ := Option.map_eq_some_iff.mp hstep
      simp only [Mutex.step, Option.map_eq_some_iff] at hm
      obtain ⟨u, hu, rfl⟩ := hm
      have hcount := unlockStep_count cfg e h hended (a := .detached k) hu
      have hu' : s.sticky.mutex.unlockAt (.detached k) = some u := hu
      simpa [given, taken, hu'] using hcount
    | relink n q =>
      obtain ⟨m, hm, rfl⟩ := Option.map_eq_some_iff.mp hstep
      simp only [Mutex.step] at hm
      split at hm
      · cases hm
      · cases hm
        rfl
  | lock i =>
    simp only [State.allows, Bool.not_eq_true'] at hallows
    unfold Sticky.step Sticky.lock at hstep
    dsimp only at hstep
    split at hstep
    · cases hstep
    · obtain ⟨m, hm, rfl⟩ := Option.map_eq_some_iff.mp hstep
      exact call_count hallows hm
  | tryLock i =>
    simp only [State.allows, Bool.not_eq_true'] at hallows
    unfold Sticky.step Sticky.tryLock at hstep
    dsimp only at hstep
    split at hstep
    · cases hstep
    · obtain ⟨m, hm, rfl⟩ := Option.map_eq_some_iff.mp hstep
      exact call_count hallows hm
  | unlock i =>
    simp only [State.allows, Bool.not_eq_true'] at hallows
    unfold Sticky.step Sticky.unlock at hstep
    dsimp only at hstep
    split at hstep
    · obtain ⟨m, hm, rfl⟩ := Option.map_eq_some_iff.mp hstep
      cases hsaved : s.sticky.saved i with
      | none =>
        rw [hsaved] at hm
        have hcount := call_count (e := e) hallows hm
        simp only [given, taken, hsaved]
        exact hcount
      | some x =>
        rw [hsaved] at hm
        have hcount := call_count (e := e) hallows hm
        simp only [given, taken, hsaved]
        exact hcount
    · cases hstep
  | unlockOn i x =>
    simp only [State.allows, Bool.and_eq_true, Bool.not_eq_true'] at hallows
    unfold Sticky.step Sticky.unlockOn at hstep
    dsimp only at hstep
    split at hstep
    · obtain ⟨m, hm, rfl⟩ := Option.map_eq_some_iff.mp hstep
      exact call_count hallows.1 hm
    · cases hstep
  | unlockHere i =>
    simp only [State.allows, Bool.not_eq_true'] at hallows
    unfold Sticky.step Sticky.unlockHere at hstep
    dsimp only at hstep
    split at hstep
    · obtain ⟨m, hm, rfl⟩ := Option.map_eq_some_iff.mp hstep
      exact call_count hallows hm
    · cases hstep
  | on i x =>
    simp only [State.allows, Bool.and_eq_true, Bool.not_eq_true'] at hallows
    have hupdate := count_update (m := s.sticky.mutex) (e := e) (x := x) hallows.1
    have hgoal : count s.ended t.mutex e = count s.ended { s.sticky.mutex with
        executor := Function.update s.sticky.mutex.executor i x } e := by
      unfold Sticky.step Sticky.on at hstep
      dsimp only at hstep
      split at hstep
      · cases hstep
        rfl
      · cases hstep
        rfl
      · cases hstep
    rw [hgoal]
    simp only [given, taken]
    split
    · next heq =>
      subst heq
      rw [one_none]
      omega
    · exact hupdate

/-! ### The invariant -/

/-- What the guards have saved is alive as long as they are locked, and an executor that was
destroyed has no references left. A coroutine that has ended does nothing with the mutex. -/
structure Inv (s : State ι E) : Prop where
  mutex : Mutex.Inv s.sticky.mutex
  ended : ∀ i, s.ended i = true → s.sticky.mutex.pc i = .running
  uses : ∀ i, s.sticky.owns i = true →
    Uses (fun e => 0 < s.refs e) (s.sticky.saved i) (s.sticky.mutex.pc i)
  destroyed : ∀ e, s.destroyed e = true → s.refs e = 0

theorem Inv.live (h : Inv s) (hpc : s.sticky.mutex.pc i ≠ .running) : s.ended i = false := by
  cases hi : s.ended i with
  | false => rfl
  | true => exact absurd (h.ended i hi) hpc

/-- A step of the guards is one of the mutex, or sets an executor. -/
theorem mutex_step (hallows : s.allows ev = true)
    (hstep : Sticky.step cfg s.sticky ev = some u) :
    (∃ e, Mutex.step cfg s.sticky.mutex e = some u.mutex ∧
      ∀ i op, e = .call i op → s.ended i = false) ∨
    ∃ executor, u.mutex = { s.sticky.mutex with executor := executor } := by
  have hcall : ∀ {j op m}, s.ended j = false → Mutex.call s.sticky.mutex j op = some m →
      ∃ e, Mutex.step cfg s.sticky.mutex e = some m ∧
        ∀ i op, e = .call i op → s.ended i = false := by
    intro j op m hlive hm
    refine ⟨.call j op, hm, ?_⟩
    intro i op heq
    cases heq
    exact hlive
  cases ev with
  | mutex e =>
    left
    cases e with
    | call j op =>
      simp only [State.allows, Bool.and_eq_true, Bool.not_eq_true'] at hallows
      simp only [Sticky.step] at hstep
      split at hstep
      · cases hstep
      · obtain ⟨m, hm, rfl⟩ := Option.map_eq_some_iff.mp hstep
        exact hcall hallows.1 hm
    | advance j weak =>
      obtain ⟨m, hm, rfl⟩ := Option.map_eq_some_iff.mp hstep
      rw [Sticky.advance_mutex]
      exact ⟨.advance j weak, hm, by simp⟩
    | detached k | relink n q =>
      obtain ⟨m, hm, rfl⟩ := Option.map_eq_some_iff.mp hstep
      exact ⟨_, hm, by simp⟩
  | lock j | tryLock j =>
    left
    simp only [State.allows, Bool.not_eq_true'] at hallows
    simp only [Sticky.step, Sticky.lock, Sticky.tryLock] at hstep
    split at hstep
    · cases hstep
    · obtain ⟨m, hm, rfl⟩ := Option.map_eq_some_iff.mp hstep
      exact hcall hallows hm
  | unlock j | unlockHere j =>
    left
    simp only [State.allows, Bool.not_eq_true'] at hallows
    simp only [Sticky.step, Sticky.unlock, Sticky.unlockHere] at hstep
    split at hstep
    · obtain ⟨m, hm, rfl⟩ := Option.map_eq_some_iff.mp hstep
      exact hcall hallows hm
    · cases hstep
  | unlockOn j x =>
    left
    simp only [State.allows, Bool.and_eq_true, Bool.not_eq_true'] at hallows
    simp only [Sticky.step, Sticky.unlockOn] at hstep
    split at hstep
    · obtain ⟨m, hm, rfl⟩ := Option.map_eq_some_iff.mp hstep
      exact hcall hallows.1 hm
    · cases hstep
  | on j x =>
    right
    simp only [Sticky.step, Sticky.on] at hstep
    split at hstep
    · cases hstep
      exact ⟨_, rfl⟩
    · cases hstep
      exact ⟨_, rfl⟩
    · cases hstep

/-- A reference is made to an executor that has one. -/
theorem Inv.taken (h : Inv s) (hallows : s.allows ev = true)
    (hstep : Sticky.step cfg s.sticky ev = some u) {x : E}
    (htaken : taken s.sticky ev = some x) : 0 < s.refs x := by
  cases ev with
  | mutex ev =>
    cases ev with
    | call j op =>
      simp only [State.allows, Bool.and_eq_true] at hallows
      have hnames : names op = some x := htaken
      simpa [hnames] using hallows.2
    | _ => cases htaken
  | unlock j =>
    simp only [Sticky.step, Sticky.unlock] at hstep
    split at hstep
    · next howns =>
      obtain ⟨m, hm, -⟩ := Option.map_eq_some_iff.mp hstep
      have hsaved : s.sticky.saved j = some x := htaken
      rw [hsaved] at hm
      have huses := h.uses j howns
      rw [(Sticky.call_unlockOn hm).1] at huses
      exact huses x hsaved
    · cases hstep
  | unlockOn j y =>
    cases htaken
    simp only [State.allows, Bool.and_eq_true, decide_eq_true_eq] at hallows
    exact hallows.2
  | on j y =>
    simp only [State.allows, Bool.and_eq_true, decide_eq_true_eq] at hallows
    simp only [Executors.taken] at htaken
    split at htaken
    · cases htaken
    · cases htaken
      exact hallows.2
  | _ => cases htaken

theorem Inv.sticky_step (h : Inv s) (hstep : step cfg s (.sticky ev) = some t)
    (hspares : Spares s (.sticky ev) t) : Inv t := by
  simp only [step] at hstep
  split at hstep
  · next hallows =>
    obtain ⟨u, hu, rfl⟩ := Option.map_eq_some_iff.mp hstep
    have hrefs : ∀ e, State.refs { s with
        sticky := u
        ext := fun e => s.ext e + one e (given cfg s.sticky ev) } e =
          s.refs e + one e (Executors.taken s.sticky ev) := by
      intro e
      have hcount := step_count (e := e) h.mutex h.ended hallows hu
      simp only [State.refs]
      omega
    refine ⟨?_, ?_, ?_, ?_⟩
    · rcases mutex_step hallows hu with ⟨e, hm, -⟩ | ⟨executor, hm⟩
      · exact h.mutex.of_step hm
      · exact hm ▸ Sticky.Inv.moved h.mutex executor
    · intro i hi
      have hpc := h.ended i hi
      rcases mutex_step hallows hu with ⟨e, hm, hcaller⟩ | ⟨executor, hm⟩
      · refine (Cancel.step_pc_of_other h.mutex (by simp [hpc]) ?_ ?_ hm).trans hpc
        · rintro op rfl
          have hlive := hcaller i op rfl
          rw [hi] at hlive
          cases hlive
        · rintro weak rfl
          simp [Mutex.step, Mutex.advance, hpc] at hm
      · simp only [hm]
        exact hpc
    · intro i
      have huses := uses_step h.mutex hu (h.uses i) ?_ ?_
      · refine fun hi => (huses hi).mono ?_
        intro e he
        rw [hrefs]
        omega
      · intro howns hpc
        have hone := one_le_count (h.live (i := i) (by simp [hpc]))
        simp only [State.refs]
        omega
      · rintro weak rfl howns hpc hheld
        exact hspares howns hpc hheld
    · intro e he
      have hzero := h.destroyed e he
      have hnone : one e (Executors.taken s.sticky ev) = 0 := by
        refine if_neg ?_
        intro htaken
        have hpos := h.taken hallows hu htaken
        omega
      rw [hrefs, hzero, hnone]
  · cases hstep

/-- `_executor` of a coroutine that ends is a reference of somebody else. -/
theorem Inv.finish_step (h : Inv s) (hstep : finish s i = some t) : Inv t := by
  unfold finish at hstep
  split at hstep
  · next hpc hlive =>
    cases hstep
    have hholds : holds (Function.update s.ended i true) s.sticky.mutex.executor =
        Function.update (holds s.ended s.sticky.mutex.executor) i none := by
      funext j
      by_cases hj : j = i
      · subst hj
        simp [holds]
      · simp [holds, hj]
    have hrefs : ∀ e, State.refs { s with
        ended := Function.update s.ended i true
        ext := fun e => s.ext e + one e (some (s.sticky.mutex.executor i)) } e = s.refs e := by
      intro e
      have hupdate := tally_update (one e) (holds s.ended s.sticky.mutex.executor) i none
      rw [← hholds, holds_of_live _ hlive, one_none] at hupdate
      simp only [State.refs, count]
      omega
    refine ⟨h.mutex, ?_, ?_, ?_⟩
    · intro j hj
      by_cases hji : j = i
      · rw [hji]
        exact hpc
      · dsimp only at hj
        rw [Function.update_of_ne hji] at hj
        exact h.ended j hj
    · intro j hj
      refine (h.uses j hj).mono ?_
      intro e he
      rwa [hrefs]
    · intro e he
      rw [hrefs]
      exact h.destroyed e he
  · cases hstep

theorem Inv.share_step (h : Inv s) (hstep : step cfg s (.share e) = some t) : Inv t := by
  simp only [step] at hstep
  split at hstep
  · next hpos =>
    cases hstep
    have hrefs : ∀ x, s.refs x ≤ State.refs { s with
        ext := Function.update s.ext e (s.ext e + 1) } x := by
      intro x
      simp only [State.refs]
      by_cases hx : x = e
      · subst hx
        rw [Function.update_self]
        omega
      · rw [Function.update_of_ne hx]
    refine ⟨h.mutex, h.ended, ?_, ?_⟩
    · intro i hi
      exact (h.uses i hi).mono fun x hx => hx.trans_le (hrefs x)
    · intro x hx
      have hzero := h.destroyed x hx
      have hxe : x ≠ e := by
        rintro rfl
        omega
      simp only [State.refs, Function.update_of_ne hxe] at hzero ⊢
      exact hzero
  · cases hstep

theorem Inv.release_step (h : Inv s) (hstep : release s e = some t)
    (hspares : Spares s (.release e) t) : Inv t := by
  unfold release at hstep
  split at hstep
  · cases hstep
  · next hext =>
    cases hstep
    have hother : ∀ d x, x ≠ e → State.refs { s with
        ext := Function.update s.ext e (s.ext e - 1), destroyed := d } x = s.refs x := by
      intro d x hx
      simp only [State.refs, Function.update_of_ne hx]
    have hself : ∀ d, State.refs { s with
        ext := Function.update s.ext e (s.ext e - 1), destroyed := d } e + 1 = s.refs e := by
      intro d
      simp only [State.refs, Function.update_self]
      omega
    refine ⟨h.mutex, h.ended, ?_, ?_⟩
    · intro i hi
      have huses := h.uses i hi
      -- a guard that has saved `e` has it still, so this is not the last reference
      have hlast : ∀ x, s.sticky.saved i = some x → s.sticky.mutex.pc i ≠ .tryLock false →
          0 < s.refs x → 0 < State.refs { s with
            ext := Function.update s.ext e (s.ext e - 1)
            destroyed := if s.refs e = 1 then Function.update s.destroyed e true
              else s.destroyed } x := by
        intro x hsaved hpc hx
        by_cases hxe : x = e
        · subst hxe
          have hless := hself (if s.refs x = 1 then Function.update s.destroyed x true
            else s.destroyed)
          have hmore : s.refs x ≠ 1 := by
            intro hone
            have hexecutor := hspares hone i ⟨hi, hsaved, hpc⟩
            have hrunning : s.sticky.mutex.pc i ≠ .running := by
              intro heq
              rw [heq] at huses
              cases huses
            have hcount := one_le_count (h.live hrunning)
            rw [hexecutor] at hcount
            unfold State.refs at hone
            omega
          omega
        · rwa [hother _ x hxe]
      cases hpc : s.sticky.mutex.pc i with
      | tryLock await =>
        rw [hpc] at huses
        cases await <;> exact huses
      | awaitLock | running | unlock _ | ready =>
        rw [hpc] at huses
        exact huses
      | awaitLoop _ | waiting | resumed | held =>
        rw [hpc] at huses
        exact fun x hx => hlast x hx (by simp [hpc]) (huses x hx)
    · intro x hx
      by_cases hxe : x = e
      · subst hxe
        have hless := hself (if s.refs x = 1 then Function.update s.destroyed x true
          else s.destroyed)
        by_cases hone : s.refs x = 1
        · omega
        · simp only [if_neg hone] at hx
          have hzero := h.destroyed x hx
          omega
      · rw [hother _ x hxe]
        refine h.destroyed x ?_
        dsimp only at hx
        split at hx
        · rwa [Function.update_of_ne hxe] at hx
        · exact hx

theorem Inv.of_step (h : Inv s) {ev : Event ι E} (hstep : step cfg s ev = some t)
    (hspares : Spares s ev t) : Inv t := by
  cases ev with
  | sticky ev => exact h.sticky_step hstep hspares
  | finish i => exact h.finish_step hstep
  | share e => exact h.share_step hstep
  | release e => exact h.release_step hstep hspares

/-- In every run in which the last reference to an executor is not given up that the locked
guard of a coroutine at another executor has saved, and no `TryLock` succeeds with a saved
executor that has no reference: a guard that is locked has saved an executor that has a
reference, and was not destroyed. -/
theorem saved_alive (cfg : Config) (s : State ι E) (hs : (system cfg).ReachableIf Spares s)
    (i : ι) (e : E) (howns : s.sticky.owns i = true) (hpc : s.sticky.mutex.pc i = .held)
    (hsaved : s.sticky.saved i = some e) : 0 < s.refs e ∧ s.destroyed e = false := by
  have h : Inv s := by
    refine System.Inductive.reachable (P := Inv) ⟨?_, ?_⟩ hs
    · rintro s ⟨⟨m, ⟨next, executor, rfl⟩, hsticky⟩, hended, hdestroyed⟩
      refine ⟨?_, ?_, ?_, ?_⟩
      · rw [hsticky]
        exact Mutex.Inv.init next executor
      · intro i hi
        rw [hended i] at hi
        cases hi
      · intro i hi
        rw [hsticky] at hi
        cases hi
      · intro e he
        rw [hdestroyed e] at he
        cases he
    · intro s ev t h hstep hspares
      exact h.of_step hstep hspares
  have huses := h.uses i howns
  rw [hpc] at huses
  have hpos := huses e hsaved
  refine ⟨hpos, ?_⟩
  cases hdestroyed : s.destroyed e with
  | false => rfl
  | true =>
    have hzero := h.destroyed e hdestroyed
    omega

instance (s : Sticky.State ι E) (i : ι) (e : E) : Decidable (Relies s i e) :=
  inferInstanceAs (Decidable (s.owns i = true ∧ s.saved i = some e ∧ s.mutex.pc i ≠ .tryLock false))

instance [Fintype E] (s : State ι E) : ∀ ev t, Decidable (Spares s ev t)
  | .release e, _ => inferInstanceAs (Decidable (s.refs e = 1 →
      ∀ i, Relies s.sticky i e → s.sticky.mutex.executor i = e))
  | .sticky (.mutex (.advance i _)), t => inferInstanceAs (Decidable (s.sticky.owns i = true →
      s.sticky.mutex.pc i = .tryLock false → t.sticky.mutex.pc i = .held →
        ∀ e, s.sticky.saved i = some e → 0 < s.refs e))
  | .sticky (.mutex (.call _ _)), _ | .sticky (.mutex (.detached _)), _ |
    .sticky (.mutex (.relink _ _)), _ | .sticky (.lock _), _ | .sticky (.tryLock _), _ |
    .sticky (.unlock _), _ | .sticky (.unlockOn _ _), _ | .sticky (.unlockHere _), _ |
    .sticky (.on _ _), _ | .finish _, _ | .share _, _ =>
    isTrue trivial

/-- Nobody but the coroutines refers to the executors. -/
def start : State (Fin 3) (Fin 3) := { sticky := Sticky.start, ext := fun _ => 0 }

theorem start_reachable
    {C : State (Fin 3) (Fin 3) → Event (Fin 3) (Fin 3) → State (Fin 3) (Fin 3) → Prop} :
    (system ⟨true, true⟩).ReachableIf C start :=
  .init ⟨⟨_, ⟨_, _, rfl⟩, rfl⟩, fun _ => rfl, fun _ => rfl⟩

/-- Coroutine 2, which handed the mutex over to coroutine 0, ends at executor 0. -/
def ends : List (Event (Fin 3) (Fin 3)) :=
  Sticky.swapped.map .sticky ++ [.sticky (.mutex (.advance 2 false)), .finish 2]

/-- Somebody else still refers to executor 0. -/
theorem saved_alive_shared :
    let s := ((system ⟨true, true⟩).runIf Spares start
      (.share 0 :: ends ++ [.release 0])).get (by decide)
    0 < s.refs 0 ∧ s.destroyed 0 = false := by
  refine saved_alive ⟨true, true⟩ _ (start_reachable.runIf (Option.some_get _).symm) 0 0 ?_ ?_ ?_
  · decide
  · decide
  · decide

/-- The only reference to executor 0 went to coroutine 2, and ends with it. -/
theorem not_saved_alive : ¬ ∀ (cfg : Config) (s : State (Fin 3) (Fin 3)),
    (system cfg).Reachable s → ∀ i e, s.sticky.owns i = true → s.sticky.mutex.pc i = .held →
      s.sticky.saved i = some e → 0 < s.refs e ∧ s.destroyed e = false := by
  intro h
  let s := ((system ⟨true, true⟩).run start (ends ++ [.release 0])).get (by decide)
  have hs : (system ⟨true, true⟩).Reachable s :=
    start_reachable.run (fun _ _ _ _ => trivial) (Option.some_get _).symm
  have hdestroyed : s.destroyed 0 = true := by decide
  have hclaim := (h _ s hs 0 0 (by decide) (by decide) (by decide)).2
  rw [hdestroyed] at hclaim
  cases hclaim

end Yaclib.Mutex.Executors
