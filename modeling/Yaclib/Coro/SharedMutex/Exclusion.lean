import Yaclib.Coro.SharedMutex.Readers
import Yaclib.Coro.SharedMutex.Submit
import Yaclib.Coro.SharedMutex.Unlock
import Yaclib.Coro.SharedMutex.Writers

/-!
What the shared mutex guarantees in every reachable state: exclusion, and that
no waiter is stranded.
-/

namespace Yaclib.SharedMutex

open Concurrency

variable {ι : Type}
variable {cfg : Config} {s t : State ι} {i : ι}

theorem HoldsExclusive.owner (h : HoldsExclusive s i) : (s.pc i).owner = 1 := by
  rcases h with h | h <;> rw [h] <;> rfl

theorem HoldsShared.active (h : HoldsShared s i) : (s.pc i).active = 1 := by
  rcases h with h | h <;> rw [h] <;> rfl

variable [Fintype ι]

theorem few_of_card (hcard : Fintype.card ι < 2 ^ 32) (s : State ι) : s.Few := by
  have hle : ∀ w : Pc ι → Nat, (∀ p, w p ≤ 1) → tally w s.pc < 2 ^ 32 := by
    intro w hw
    have hsum : tally w s.pc ≤ tally (fun _ => 1) s.pc := tally_mono fun i => hw _
    have hone : tally (fun _ => 1) s.pc = Fintype.card ι := by simp [tally]
    omega
  refine ⟨hle _ fun p => ?_, hle _ fun p => ?_⟩
  · induction p with
    | unlocking k ih => exact ih
    | _ => simp
  · induction p with
    | unlocking k ih => exact ih
    | _ => simp

variable [DecidableEq ι]

theorem Inv.init : Inv cfg ({} : State ι) := by
  refine ⟨?_, ?_, ?_, ?_, ?_, fun _ => Nat.zero_le 1, fun _ _ => rfl, rfl⟩
  · constructor <;> simp [tally_const]
  · have hphase : (ledger ({} : State ι)).Phase := by
      refine .readersOnly ?_ ?_ ?_ ?_ ?_ ?_ ?_ ?_ ?_ <;> simp [ledger, tally_const]
    refine ⟨?_, ?_, ?_, ?_, ?_, ?_, ?_, hphase⟩ <;>
    simp [ledger, tally_const, Ledger.writers, Ledger.readers, Ledger.parked]
  · refine ⟨?_, ?_, ?_, ?_⟩ <;>
    simp [tally_const, State.firstIs, State.firstParked, Ledger.parked, ledger]
  · simp [tally_const]
  · simp [tally_const]

theorem Inv.acquire (h : Inv cfg s) {p : Pc ι} (hstep : s.acquire i p = some t)
    (hcount : p.SameCount (s.pc i)) (howed : p.SameOwed (s.pc i))
    (hwakes : p.wakes = (s.pc i).wakes) (hinside : p.inside = (s.pc i).inside + 1)
    (hwrong : p.wrong = 0) (hasking : p.asking = true → (s.pc i).asking = true)
    (hfew : t.Few) : Inv cfg t := by
  unfold State.acquire at hstep
  split at hstep
  · next hlock =>
    cases hstep
    exact h.plain .held hcount howed hwakes (by rw [hinside, hlock]; rfl) hwrong
      (fun ha => h.asking i (hasking ha)) hfew
  · contradiction

theorem Inv.call (h : Inv cfg s) {op : Op} (hpc : s.pc i = .idle)
    (hfew : (call s i op).Few) : Inv cfg (call s i op) := by
  have hreset := h.reset i
  have hzero : Function.update s.submits i 0 i = 0 := Function.update_self ..
  cases op with
  | lock => exact hreset.tryLockAwait hpc hzero hfew
  | lockShared => exact hreset.tryLockSharedAwait hpc hzero hfew
  | tryLock => exact hreset.tryLockAwait hpc hzero hfew
  | tryLockShared => exact hreset.tryLockShared (.inl hpc) hzero hfew

/-- Every step of a request keeps the invariant. -/
theorem Inv.advance (h : Inv cfg s) {weak : Bool} (hstep : advance cfg s i weak = some t)
    (hfew : t.Few) : Inv cfg t := by
  unfold SharedMutex.advance at hstep
  cases hpc : s.pc i with
  | idle | shWaiting | exWaiting => simp [hpc] at hstep
  | shEnter | exEnter | slowEnter =>
    simp only [hpc] at hstep
    exact h.acquire hstep (by simp [hpc]) (by simp [hpc]) (by simp [hpc]) (by simp [hpc]) rfl
      (by simp [hpc]) hfew
  | shResumed | exResumed =>
    simp only [hpc, Option.some.injEq] at hstep
    subst hstep
    exact h.plain s.lock (by simp [hpc]) (by simp [hpc]) (by simp [hpc]) (by simp [hpc]) rfl
      (by simp) hfew
  | shSection =>
    simp only [hpc, Option.some.injEq] at hstep
    subst hstep
    exact h.awaitLockShared hpc hfew
  | shHeld =>
    simp only [hpc, Option.some.injEq] at hstep
    subst hstep
    exact h.unlockHereShared hpc hfew
  | tryShared expected =>
    simp only [hpc, Option.some.injEq] at hstep
    subst hstep
    exact h.tryLockSharedSwap hpc hfew
  | shLeave =>
    simp only [hpc, Option.some.injEq] at hstep
    subst hstep
    exact h.unlockHereSharedWait hpc hfew
  | shWake =>
    simp only [hpc, Option.some.injEq] at hstep
    subst hstep
    exact h.wake hpc hfew
  | tryLock await =>
    simp only [hpc, Option.some.injEq] at hstep
    subst hstep
    exact h.tryLockAwaitSwap hpc hfew
  | exSection =>
    simp only [hpc, Option.some.injEq] at hstep
    subst hstep
    exact h.awaitLock hpc hfew
  | exFirst r =>
    simp only [hpc, Option.some.injEq] at hstep
    subst hstep
    exact h.awaitLockFirst hpc hfew
  | exWait r =>
    simp only [hpc, Option.some.injEq] at hstep
    subst hstep
    exact h.awaitLockWait hpc hfew
  | exHeld =>
    simp only [hpc, Option.some.injEq] at hstep
    subst hstep
    exact h.unlockHere hpc hfew
  | slowSection =>
    simp only [hpc, Option.some.injEq] at hstep
    subst hstep
    exact h.slowUnlock hpc hfew
  | runReaders old =>
    simp only [hpc, Option.some.injEq] at hstep
    subst hstep
    exact h.runReadersStore hpc hfew
  | nextWriter old =>
    simp only [hpc, Option.some.injEq] at hstep
    subst hstep
    exact h.nextWriter hpc hfew
  | unlocking k =>
    simp only [hpc, Option.some.injEq] at hstep
    subst hstep
    have hlock := h.held hpc (by simp)
    have hwrong := tally_eq_zero.mp h.wrong_eq i
    rw [hpc] at hwrong
    cases k with
    | idle | shHeld | exHeld | submitOne | submitAll =>
      exact h.plain .free (by simp [hpc]) (by simp [hpc]) (by simp [hpc]) (by simp [hpc, hlock]) rfl
        (by simp) hfew
    | _ => contradiction
  | submitOne n =>
    simp only [hpc, Option.some.injEq] at hstep
    subst hstep
    exact h.submitOne hpc hfew
  | submitAll ns =>
    cases ns with
    | nil =>
      simp only [hpc, Option.some.injEq] at hstep
      subst hstep
      exact h.plain s.lock (by simp [hpc]) (by simp [hpc]) (by simp [hpc]) (by simp [hpc]) rfl
        (by simp) hfew
    | cons n ns =>
      simp only [hpc, Option.some.injEq] at hstep
      subst hstep
      exact h.submitAll hpc hfew

/-- The run lemma: the invariant holds in every state that few requests reach. -/
theorem inv_of_reachable (hs : (system cfg ι).ReachableIf (fun _ _ t => t.Few) s) : Inv cfg s := by
  refine System.Inductive.reachable ⟨fun s hs => ?_, fun s e t h hstep hfew => ?_⟩ hs
  · rw [hs]
    exact Inv.init
  · cases e with
    | call i op =>
      simp only [system, step] at hstep
      split at hstep
      · next hpc =>
        cases hstep
        exact h.call hpc hfew
      · contradiction
    | advance i weak => exact h.advance hstep hfew
    | release =>
      simp only [system, step] at hstep
      split at hstep
      · next hlock =>
        cases hstep
        have hinside := h.inside_eq
        rw [hlock] at hinside
        exact { h with
          few := hfew
          inside_eq := hinside
          queues := ⟨h.queues.reader, h.queues.writer, h.queues.named, h.queues.naming⟩ }
      · contradiction

theorem Inv.one_writer (h : Inv cfg s) {j : ι} (hi : HoldsExclusive s i)
    (hj : HoldsExclusive s j) : i = j := by
  by_contra hne
  have hsum := add_le_tally Pc.owner s.pc hne
  have hpos : 0 < (ledger s).owner := by
    have hle := le_tally Pc.owner s.pc i
    simp only [ledger]
    rw [hi.owner] at hle
    omega
  have hone : tally Pc.owner s.pc = 1 := (h.ok.owned hpos).1
  rw [hi.owner, hj.owner] at hsum
  omega

theorem Inv.no_reader (h : Inv cfg s) {j : ι} (hi : HoldsExclusive s i) : ¬ HoldsShared s j := by
  intro hj
  have howner := le_tally Pc.owner s.pc i
  have hactive := le_tally Pc.active s.pc j
  rw [hi.owner] at howner
  rw [hj.active] at hactive
  obtain ⟨-, -, -, -, -, hahead⟩ := h.ok.owned howner
  simp only [Ledger.ahead, ledger] at hahead
  omega

/-- A writer holds the mutex, and a reader is queued behind it. -/
def queuedReader : List (Event (Fin 2)) :=
  [.call 0 .lock, .advance 0 false, .call 1 .lockShared, .advance 1 false, .advance 1 false,
    .release]

/-- The writer unlocks and submits the reader, which unlocks as well. -/
def handedOff : List (Event (Fin 2)) :=
  queuedReader ++ [.advance 0 false, .advance 0 false, .advance 0 false, .advance 0 false,
    .advance 0 false, .advance 0 false, .advance 1 false, .advance 1 false]

theorem run_reachable {es : List (Event (Fin 2))} {s : State (Fin 2)}
    (h : (system cfg (Fin 2)).run {} es = some s) :
    (system cfg (Fin 2)).ReachableIf (fun _ _ t => t.Few) s :=
  .run (fun _ _ t _ => few_of_card (by simp) t) (.init rfl) h

/-- Exclusion: in every reachable state at most one writer holds the mutex, and
while one does no reader holds it. -/
theorem exclusion (cfg : Config) (s : State ι)
    (hs : (system cfg ι).ReachableIf (fun _ _ t => t.Few) s) :
    (∀ i j, HoldsExclusive s i → HoldsExclusive s j → i = j) ∧
      ∀ i j, HoldsExclusive s i → ¬ HoldsShared s j :=
  ⟨fun _ _ hi hj => (inv_of_reachable hs).one_writer hi hj,
    fun _ _ hi => (inv_of_reachable hs).no_reader hi⟩

theorem exclusion_queuedReader :
    let s := ((system ⟨true, true⟩ (Fin 2)).run {} queuedReader).get (by decide)
    HoldsExclusive s 0 ∧ s.readers = [1] ∧ ¬ HoldsShared s 1 := by
  refine ⟨.inl (by decide), by decide, ?_⟩
  exact (exclusion ⟨true, true⟩ _ (run_reachable (Option.some_get _).symm)).2 0 1 (.inl (by decide))

/-- Nothing is left behind. -/
structure AtRest (s : State ι) : Prop where
  state_eq : s.state = 0
  readers_eq : s.readers = []
  writers_eq : s.writers = []
  first_done : ∀ n, s.writersFirst = some n → s.pc n ≠ .exWaiting
  counters_eq : s.readersWait = 0 ∧ s.readersSize = 0 ∧ s.readersPass = 0 ∧ s.writersPrio = 0
  idle : ∀ i, s.pc i = .idle

theorem Inv.atRest (h : Inv cfg s) (hq : Quiescent s) : AtRest s := by
  have hzero : ∀ w : Pc ι → Nat, w .idle = 0 → w .shWaiting = 0 → w .exWaiting = 0 →
      tally w s.pc = 0 := by
    intro w h1 h2 h3
    refine tally_eq_zero.mpr fun i => ?_
    rcases hq.2 i with hpc | hpc | hpc <;> rw [hpc] <;> assumption
  have hactive : (ledger s).active = 0 := hzero _ rfl rfl rfl
  have htransit : (ledger s).transit = 0 := hzero _ rfl rfl rfl
  have hleaving : (ledger s).leaving = 0 := hzero _ rfl rfl rfl
  have howner : (ledger s).owner = 0 := hzero _ rfl rfl rfl
  have hfirst : (ledger s).first = 0 := hzero _ rfl rfl rfl
  have hhanding : (ledger s).handing = 0 := hzero _ rfl rfl rfl
  have hwakes : tally Pc.wakes s.pc = 0 := hzero _ rfl rfl rfl
  have hpass := h.ok.pass_le
  have hlow := h.ok.low_sum
  have hsize := h.ok.size_eq
  have hprio := h.ok.prio_le
  cases h.ok.phase with
  | readersOnly h1 h2 h3 h4 h5 h6 h7 h8 h9 =>
    have hhigh := h.ok.high_of (Ledger.parked_of_wait h5)
    have hreaders : s.readers = [] := List.length_eq_zero_iff.mp h6
    have hwriters : s.writers = [] := List.length_eq_zero_iff.mp h7
    have hparked : s.firstParked = 0 := by
      rw [State.firstParked, Ledger.parked_of_wait h5, hwakes]
    have hidle : ∀ i, s.pc i = .idle := by
      intro i
      have hreader := h.queues.reader i
      have hwriter := h.queues.writer i
      rw [hreaders, hzero (Pc.owesReader i) rfl rfl rfl] at hreader
      rw [hwriters, hzero (Pc.owesWriter i) rfl rfl rfl, firstIs_zero hparked] at hwriter
      rcases hq.2 i with hpc | hpc | hpc
      · exact hpc
      · simp [hpc] at hreader
      · simp [hpc] at hwriter
    exact {
      state_eq := eq_zero_of_halves (by rw [h1, h2, h7] at hhigh; exact hhigh)
        (by rw [hactive, htransit, h6] at hlow; exact hlow)
      readers_eq := hreaders
      writers_eq := hwriters
      first_done := fun n _ => by simp [hidle n]
      counters_eq := ⟨h5, hsize.trans h6, h9.trans htransit, Nat.eq_zero_of_le_zero (h7 ▸ hprio)⟩
      idle := hidle }
  | waiting h1 h2 h3 h4 h5 h6 h7 =>
    rw [Ledger.ahead] at h6
    omega
  | _ => omega

/-- No waiter is stranded: every request is submitted at most once, and not
before it is suspended; when no operation is in progress and nobody holds the
mutex, it is back in its initial state; and every assertion reached held. -/
theorem no_stranded_waiter (cfg : Config) (s : State ι)
    (hs : (system cfg ι).ReachableIf (fun _ _ t => t.Few) s) :
    (∀ i, s.submits i ≤ 1 ∧ ((s.pc i).asking = true → s.submits i = 0)) ∧
      (Quiescent s → AtRest s) ∧ s.asserts = true := by
  have h := inv_of_reachable hs
  exact ⟨fun i => ⟨h.submits_le i, h.asking i⟩, h.atRest, h.asserts_eq⟩

theorem no_stranded_waiter_handedOff :
    let s := ((system ⟨true, true⟩ (Fin 2)).run {} handedOff).get (by decide)
    s.submits 1 = 1 ∧ AtRest s := by
  refine ⟨by decide, ?_⟩
  exact (no_stranded_waiter ⟨true, true⟩ _ (run_reachable (Option.some_get _).symm)).2.1
    ⟨by decide, by decide⟩

end Yaclib.SharedMutex
