import Yaclib.Coro.Mutex.Steps

/-!
What the mutex guarantees in every reachable state: exclusion, and that every
suspended coroutine is kept and resumed once.
-/

namespace Yaclib.Mutex

open Concurrency

variable {ι E : Type}
variable {cfg : Config} {s t : State ι E} {a : Actor ι} {i n : ι} {u : Unlock ι E}

theorem Owns.token (h : Owns s i) : (s.pc i).token = 1 := by
  rcases h with h | h | ⟨u, h⟩ <;> rw [h] <;> rfl

variable [DecidableEq ι] [Fintype ι]

theorem Inv.init (next : ι → Option ι) (executor : ι → E) :
    Inv ({ next := next, executor := executor } : State ι E) := by
  refine ⟨?_, ⟨[], [], .nil, .nil, fun n => ?_⟩, fun _ => rfl, fun b u hb => ?_, fun _ => rfl, rfl,
    rfl⟩
  · simp [State.tokens, tally_const]
  · simp [State.owed, tally_const]
  · cases b <;> simp [State.unlockAt] at hb

theorem Inv.unlockStep (h : Inv s) (ha : s.unlockAt a = some u) : Inv (unlockStep cfg s a u) := by
  cases u with
  | tryUnlock k => exact h.tryUnlock ha
  | load k => exact h.load ha
  | swap k => exact h.swap ha
  | slow k =>
    cases a with
    | coroutine i =>
      cases k with
      | await =>
        simp only [Mutex.unlockStep]
        split
        · next hbatching => exact h.awaitUnlock (unlockAt_coroutine.mp ha) hbatching.2
        · exact h.unlockSlow ha
      | _ => exact h.unlockSlow ha
    | detached m => exact h.unlockSlow ha
  | submit n => exact h.deliver ha (fun _ => rfl) ⟨rfl, rfl, fun _ => rfl, by simp⟩
  | transfer n => exact h.deliver ha (fun _ => rfl) ⟨rfl, rfl, fun _ => rfl, by simp⟩

theorem Inv.tryLockAwait (h : Inv s) {await : Bool} (hpc : s.pc i = .running) :
    Inv (tryLockAwait s i await) := by
  apply h.goto
  · split <;> cases await <;> simp [hpc, lockFailed]
  · split <;> cases await <;> simp [hpc, lockFailed]
  · split <;> cases await <;> simp [lockFailed]

theorem Inv.tryLockAwaitSwap (h : Inv s) {await : Bool} (hpc : s.pc i = .tryLock await) :
    Inv (tryLockAwaitSwap s i await) := by
  unfold Mutex.tryLockAwaitSwap
  split
  · next hopen => exact h.acquire hopen (by simp [hpc])
  · apply h.goto <;> cases await <;> simp [hpc, lockFailed]

theorem Inv.awaitLock (h : Inv s) {expected : Word ι} {weak : Bool}
    (hpc : s.pc i = .awaitLoop expected) : Inv (awaitLock s i expected weak) := by
  cases expected with
  | kNotLocked =>
    simp only [Mutex.awaitLock]
    split
    · next hswap => exact h.acquire hswap.1 (by simp [hpc])
    · exact h.goto (by simp [hpc]) (by simp [hpc]) (by simp)
  | ptr q =>
    simp only [Mutex.awaitLock]
    split
    · next hswap => exact h.park hswap.1 (by simp [hpc])
    · have hrelink := h.relink (i := i) (by simp [hpc]) q
      exact hrelink.goto (by simp [hpc]) (by simp [hpc]) (by simp)

theorem Inv.call (h : Inv s) {op : Op E} (hstep : call s i op = some t) : Inv t := by
  unfold Mutex.call at hstep
  split at hstep
  · next hpc =>
    cases hstep
    exact h.tryLockAwait hpc
  · next hpc =>
    cases hstep
    exact h.tryLockAwait hpc
  · next hpc =>
    cases hstep
    exact h.goto (by simp [hpc]) (by simp [hpc]) (by simp [State.Good])
  · next hpc =>
    cases hstep
    exact h.goto (by simp [hpc]) (by simp [hpc]) (by simp [State.Good])
  · next hpc =>
    cases hstep
    exact h.awaitUnlockOn hpc
  · contradiction

theorem Inv.advance (h : Inv s) {weak : Bool} (hstep : advance cfg s i weak = some t) : Inv t := by
  unfold Mutex.advance at hstep
  cases hpc : s.pc i with
  | running | waiting | held => simp [hpc] at hstep
  | tryLock await =>
    simp only [hpc, Option.some.injEq] at hstep
    exact hstep ▸ h.tryLockAwaitSwap hpc
  | awaitLock =>
    simp only [hpc, Option.some.injEq] at hstep
    exact hstep ▸ h.goto (by simp [hpc]) (by simp [hpc]) (by simp)
  | awaitLoop expected =>
    simp only [hpc, Option.some.injEq] at hstep
    exact hstep ▸ h.awaitLock hpc
  | resumed =>
    simp only [hpc, Option.some.injEq] at hstep
    exact hstep ▸ h.goto (by simp [hpc]) (by simp [hpc]) (by simp)
  | ready =>
    simp only [hpc, Option.some.injEq] at hstep
    exact hstep ▸ h.goto (by simp [hpc]) (by simp [hpc]) (by simp)
  | unlock u =>
    simp only [hpc, Option.some.injEq] at hstep
    exact hstep ▸ h.unlockStep (unlockAt_coroutine.mpr hpc)

theorem Inv.of_step (h : Inv s) {e : Event ι E} (hstep : step cfg s e = some t) : Inv t := by
  cases e with
  | call i op => exact h.call hstep
  | advance i weak => exact h.advance hstep
  | detached k =>
    simp only [step, Option.map_eq_some_iff] at hstep
    obtain ⟨u, hu, rfl⟩ := hstep
    exact h.unlockStep hu
  | relink i p =>
    simp only [step] at hstep
    split at hstep
    · contradiction
    · next hpc =>
      cases hstep
      apply h.relink
      cases hi : s.pc i with
      | waiting => exact absurd hi hpc
      | _ => rfl

/-- The run lemma: the invariant holds in every reachable state. -/
theorem inv_of_reachable (hs : (system cfg).Reachable s) : Inv s := by
  refine System.Inductive.reachable ⟨fun s hs => ?_, fun s e t h hstep _ => h.of_step hstep⟩ hs
  obtain ⟨next, executor, rfl⟩ := hs
  exact Inv.init next executor

/-! What the invariant says. -/

theorem Inv.one_owner (h : Inv s) {j : ι} (hi : Owns s i) (hj : Owns s j) : i = j := by
  by_contra hne
  have hsum := add_le_tally Pc.token s.pc hne
  have hone := h.tokens_le
  rw [hi.token, hj.token] at hsum
  simp only [State.tokens] at hone
  omega

/-- A coroutine is owed a resumption by an unlock exactly when one chose it. -/
theorem owed_pos : 0 < s.owed n ↔ HandedTo s n := by
  have hplace : ∀ u : Unlock ι E, 0 < u.owes n ↔ u = .submit n ∨ u = .transfer n := by
    intro u
    cases u with
    | submit m => by_cases hm : m = n <;> simp [hm]
    | transfer m => by_cases hm : m = n <;> simp [hm]
    | _ => simp
  constructor
  · intro hpos
    by_cases hpc : tally (Pc.owes n) s.pc = 0
    · have hsum : 0 < (s.detached.map (Unlock.owes n)).sum := by
        simp only [State.owed, hpc] at hpos
        omega
      obtain ⟨u, hu, hun⟩ : ∃ u ∈ s.detached, 0 < u.owes n := by
        by_contra hnone
        have hzero : (s.detached.map (Unlock.owes n)).sum = 0 := by
          apply List.sum_eq_zero
          intro m hm
          obtain ⟨u, hu, rfl⟩ := List.mem_map.mp hm
          have hle : ¬ 0 < u.owes n := fun hlt => hnone ⟨u, hu, hlt⟩
          omega
        omega
      obtain ⟨k, hk⟩ := List.getElem?_of_mem hu
      refine ⟨.detached k, ?_⟩
      simp only [State.unlockAt, hk, Option.some.injEq]
      exact (hplace u).mp hun
    · obtain ⟨j, hj⟩ : ∃ j, (s.pc j).owes n ≠ 0 := by
        by_contra hnone
        apply hpc
        apply tally_eq_zero.mpr
        intro j
        by_contra hj
        exact hnone ⟨j, hj⟩
      refine ⟨.coroutine j, ?_⟩
      cases hpcj : s.pc j with
      | unlock u =>
        rw [hpcj] at hj
        simp only [State.unlockAt, hpcj, Option.some.injEq]
        exact (hplace u).mp (Nat.pos_of_ne_zero hj)
      | _ => simp [hpcj] at hj
  · rintro ⟨a, ha⟩
    obtain ⟨u, hu, hun⟩ : ∃ u, s.unlockAt a = some u ∧ 0 < u.owes n := by
      rcases ha with ha | ha
      · exact ⟨_, ha, (hplace _).mpr (.inl rfl)⟩
      · exact ⟨_, ha, (hplace _).mpr (.inr rfl)⟩
    have hput := owed_put (o := none) hu n
    simp only [owes?, Option.elim] at hput
    omega

/-- The two chains hold the waiting coroutines, each once. -/
theorem Queued.waits {xs ys : List ι} (h : Queued s xs ys) :
    (xs ++ ys).Nodup ∧ ∀ i, i ∈ xs ++ ys ↔ Waits s i := by
  have hle : ∀ i, (s.pc i).parked ≤ 1 := by
    intro i
    cases s.pc i <;> simp
  constructor
  · apply List.nodup_iff_count_le_one.mpr
    intro i
    have hi := h.count i
    have hone := hle i
    rw [List.count_append]
    omega
  · intro i
    have hi := h.count i
    rw [← List.count_pos_iff, List.count_append, Waits, ← owed_pos]
    constructor
    · intro hpos
      have hone := hle i
      exact ⟨Pc.eq_waiting (by omega), by omega⟩
    · rintro ⟨hpc, howed⟩
      rw [hpc, Pc.parked] at hi
      omega

theorem Inv.quiescent (h : Inv s) (hq : Quiescent s) :
    s.sender = .kNotLocked ∧ s.receiver = none ∧ ∀ i, s.pc i ≠ .waiting := by
  obtain ⟨hdetached, hpc⟩ := hq
  have hzero : ∀ w : Pc ι E → Nat, w .running = 0 → w .waiting = 0 → w .ready = 0 →
      tally w s.pc = 0 := by
    intro w h1 h2 h3
    apply tally_eq_zero.mpr
    intro i
    rcases hpc i with hi | hi | hi <;> rw [hi] <;> assumption
  have htokens := h.tokens_eq
  simp only [State.tokens, hdetached, hzero Pc.token rfl rfl rfl, List.length_nil] at htokens
  have hopen : s.sender = .kNotLocked := by
    by_contra hlocked
    rw [if_neg hlocked] at htokens
    omega
  have hreceiver := h.open_eq hopen
  obtain ⟨xs, ys, hxs, hys, hcount⟩ := h.queued
  rw [hopen] at hxs
  rw [hreceiver] at hys
  obtain rfl := hxs.of_none
  obtain rfl := hys.of_none
  refine ⟨hopen, hreceiver, fun i hi => ?_⟩
  have hcounti := hcount i
  simp [State.owed, hdetached, hzero (Pc.owes i) rfl rfl rfl, hi] at hcounti

/-- In every reachable state of the mutex: at most one coroutine owns it, and
none does while an unlock goes on without its coroutine; a suspended coroutine
was resumed as the owner once for every earlier suspension, and every other
coroutine once for every suspension; the two chains are disjoint and hold
exactly the waiting coroutines; only nodes were dereferenced, and every
assertion held; and a mutex at rest is open and nobody waits for it. -/
theorem mutex_safe (cfg : Config) (s : State ι E) (hs : (system cfg).Reachable s) :
    ((∀ i j, Owns s i → Owns s j → i = j) ∧ (s.detached ≠ [] → ∀ i, ¬ Owns s i)) ∧
      (∀ i, s.parks i = s.wakes i + if s.pc i matches .waiting then 1 else 0) ∧
      (∃ xs ys, Chain s.next s.sender.toPtr xs ∧ Chain s.next s.receiver ys ∧
        (xs ++ ys).Nodup ∧ ∀ i, i ∈ xs ++ ys ↔ Waits s i) ∧
      (s.derefs = true ∧ s.asserts = true) ∧
      (Quiescent s → s.sender = .kNotLocked ∧ s.receiver = none ∧ ∀ i, s.pc i ≠ .waiting) := by
  have h := inv_of_reachable hs
  obtain ⟨xs, ys, hqueued⟩ := h.queued
  refine ⟨⟨fun i j hi hj => h.one_owner hi hj, fun hdetached i hi => ?_⟩, fun i => ?_,
    ⟨xs, ys, hqueued.sender, hqueued.receiver, hqueued.waits⟩, ⟨h.derefs_eq, h.asserts_eq⟩,
    h.quiescent⟩
  · exact hdetached (h.carrier hi.token).2.2.1
  · have hi := h.wakes_eq i
    cases hpc : s.pc i <;> simpa [hpc] using hi

/-- Coroutine 1 waits for coroutine 0, which unlocks, runs again and waits
itself before its unlock has handed the mutex to coroutine 1. -/
def overtaken : List (Event (Fin 2) Unit) :=
  [.call 0 .lock, .advance 0 false, .call 1 .lock, .advance 1 false, .advance 1 false,
    .call 0 (.unlockOn ()), .advance 0 false, .call 0 .lock, .advance 0 false, .advance 0 false,
    .detached 0, .detached 0, .detached 0, .detached 0]

theorem mutex_safe_overtaken :
    let s := ((system ⟨true, true⟩).run
      ({ next := fun _ => none, executor := fun _ => () } : State (Fin 2) Unit) overtaken).get
        (by decide)
    Owns s 1 ∧ s.receiver = some 0 ∧ ∀ i, Owns s i → i = 1 := by
  refine ⟨.inl (by decide), by decide, fun i hi => ?_⟩
  exact (mutex_safe ⟨true, true⟩ _ (.run (fun _ _ _ _ => trivial) (.init ⟨_, _, rfl⟩)
    (Option.some_get _).symm)).1.1 i 1 hi (.inl (by decide))

end Yaclib.Mutex
