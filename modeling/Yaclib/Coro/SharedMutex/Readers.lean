import Yaclib.Coro.SharedMutex.Steps

/-!
The steps of a reader keep the invariant.
-/

namespace Yaclib.SharedMutex

open Concurrency

variable {ι : Type}
variable {cfg : Config} {s t : State ι} {i : ι} {p : Pc ι}

theorem length_pushBack (rs : List ι) : (pushBack cfg rs i).length = rs.length + 1 := by
  unfold pushBack
  split <;> simp

variable [DecidableEq ι]

theorem count_pushBack (rs : List ι) (n : ι) :
    (pushBack cfg rs i).count n = rs.count n + if i = n then 1 else 0 := by
  unfold pushBack
  split <;> simp [List.count_cons, List.count_append]

variable [Fintype ι]

/-- `fetch_add(kReader)` does not carry into the writers. -/
theorem Inv.add_reader (h : Inv cfg s) (ht : Queues t) (hfew : t.Few)
    (hmore : (ledger t).readers = (ledger s).readers + 1) :
    add64 s.state kReader / kWriter = s.state / kWriter ∧
      add64 s.state kReader % kWriter = s.state % kWriter + 1 := by
  have hlow : s.state % kWriter = (ledger s).readers := h.ok.low_eq
  have hlt := (ht.fits hfew).readers_lt
  exact SharedMutex.add_reader (by omega) h.high_lt

/-- `fetch_add(kReader)` while there is no writer. -/
theorem Inv.arriveOpen (h : Inv cfg s) (hpc : s.pc i = .idle ∨ ∃ e, s.pc i = .tryShared e)
    (hw : s.state / kWriter = 0)
    (hfew : ({ s with state := add64 s.state kReader }.goto i .shHeld).Few) :
    Inv cfg ({ s with state := add64 s.state kReader }.goto i .shHeld) := by
  have hqueues : Queues ({ s with state := add64 s.state kReader }.goto i .shHeld) := by
    refine h.queues.goto rfl ?_ rfl rfl rfl (firstParked_congr rfl (tally_stay ?_) (tally_stay ?_)
      (tally_stay ?_)) <;>
    rcases hpc with hpc | ⟨e, hpc⟩ <;> simp [hpc]
  have hadd := h.add_reader hqueues hfew (by
    rcases hpc with hpc | ⟨e, hpc⟩ <;>
    simp [Ledger.readers, ledger, State.goto, tally_move, hpc] <;> omega)
  have hledger : ledger ({ s with state := add64 s.state kReader }.goto i .shHeld) =
      (ledger s).arriveOpen := by
    rcases hpc with hpc | ⟨e, hpc⟩ <;>
    simp [ledger, State.goto, tally_move, hpc, Ledger.arriveOpen, hadd]
  refine h.goto rfl (hledger ▸ h.ok.arriveOpen hw) hqueues hfew ?_ rfl rfl (by simp)
    h.asserts_eq
  rcases hpc with hpc | ⟨e, hpc⟩ <;> simp [hpc, State.goto]

theorem Inv.tryLockSharedAwait (h : Inv cfg s) (hpc : s.pc i = .idle) (hsubmits : s.submits i = 0)
    (hfew : (tryLockSharedAwait s i).Few) : Inv cfg (tryLockSharedAwait s i) := by
  by_cases hw : s.state / kWriter = 0
  · simp only [SharedMutex.tryLockSharedAwait, if_pos hw] at hfew ⊢
    exact h.arriveOpen (.inl hpc) hw hfew
  · simp only [SharedMutex.tryLockSharedAwait, if_neg hw] at hfew ⊢
    have hqueues : Queues ({ s with state := add64 s.state kReader }.goto i .shEnter) :=
      h.queues.goto rfl (by simp [hpc]) rfl rfl rfl
        (firstParked_congr rfl (tally_stay (by simp [hpc])) (tally_stay (by simp [hpc]))
        (tally_stay (by simp [hpc])))
    have hadd := h.add_reader hqueues hfew (by
      simp [Ledger.readers, ledger, State.goto, tally_move, hpc]
      omega)
    have hledger : ledger ({ s with state := add64 s.state kReader }.goto i .shEnter) =
        (ledger s).arriveBusy := by
      simp [ledger, State.goto, tally_move, hpc, Ledger.arriveBusy, hadd]
    exact h.goto rfl (hledger ▸ h.ok.arriveBusy hw) hqueues hfew (by simp [hpc, State.goto]) rfl rfl
      (fun _ => hsubmits) h.asserts_eq

theorem Queues.pushReader (h : Queues s) (hold : s.pc i = .shSection)
    (hpc : t.pc = Function.update s.pc i .shWaiting)
    (hreaders : t.readers = pushBack cfg s.readers i) (hwriters : t.writers = s.writers)
    (hfirst : t.writersFirst = s.writersFirst) (hwait : t.readersWait = s.readersWait) :
    Queues t := by
  have hparked : t.firstParked = s.firstParked :=
    firstParked_congr hwait (hpc ▸ tally_stay (by simp [hold])) (hpc ▸ tally_stay (by simp [hold]))
      (hpc ▸ tally_stay (by simp [hold]))
  refine ⟨fun n => ?_, fun n => ?_, fun hpos => ?_, h.naming_goto hpc (by simp) hfirst⟩
  · have hreader := h.reader n
    rw [hreaders, hpc, count_pushBack, tally_stay (by simp [hold]), at_update Pc.shParked]
    by_cases hin : i = n
    · rw [← hin, hold] at hreader
      simp only [Pc.shParked, hin, if_true] at hreader ⊢
      omega
    · simpa only [hin, if_false, Nat.add_zero] using hreader
  · have hwriter := h.writer n
    rw [hwriters, hpc, tally_stay (by simp [hold]), at_update Pc.exParked,
      firstIs_congr hfirst hparked]
    by_cases hin : i = n
    · rw [← hin, hold] at hwriter
      simpa only [hin, if_true, Pc.exParked] using hwriter
    · simpa only [hin, if_false] using hwriter
  · rw [hfirst]
    exact h.named (hparked ▸ hpos)

theorem Inv.awaitLockShared (h : Inv cfg s) (hpc : s.pc i = .shSection)
    (hfew : (awaitLockShared cfg s i).Few) : Inv cfg (awaitLockShared cfg s i) := by
  have hlt : (ledger s).active + (ledger s).transit + (ledger s).queuedR < 2 ^ 32 :=
    h.fits.readers_lt
  have htransit : 0 < (ledger s).transit := le_tally_of Pc.transit hpc
  have hlock : s.lock = .held := h.held hpc (by simp)
  by_cases hpass : s.readersPass = 0
  · simp only [SharedMutex.awaitLockShared, ne_eq, hpass, not_true, if_false] at hfew ⊢
    have hwriter : s.state / kWriter ≠ 0 := h.ok.writer_of_transit hpass htransit
    have hsize : add32 s.readersSize 1 = s.readersSize + 1 := by
      have heq : s.readersSize = (ledger s).queuedR := h.ok.size_eq
      exact add32_of_lt (by omega)
    refine h.goto rfl ?_ ?_ hfew (by simp [hpc, hlock, State.goto, State.check]) rfl rfl
      (fun _ => h.asking i (by rw [hpc]; rfl))
      (by simp [State.goto, State.check, h.asserts_eq, hwriter])
    · have hhand : (ledger s).handing = 0 := h.sole_inside hpc rfl handing_of_inside
      have hledger := h.ok.queueReader hpass htransit hhand
      simpa [ledger, Ledger.queueReader, State.goto, State.check, tally_move, hpc,
        length_pushBack, hsize, hpass] using hledger
    · exact h.queues.pushReader hpc rfl rfl rfl rfl rfl
  · have hle : s.readersPass ≤ (ledger s).transit := h.ok.pass_le
    have hsub : sub32 s.readersPass 1 = s.readersPass - 1 := sub32_of_le (by omega) (by omega)
    simp only [SharedMutex.awaitLockShared, ne_eq, hpass, not_false_iff, if_true] at hfew ⊢
    refine h.goto rfl ?_ (h.queues.goto rfl (by simp [hpc]) rfl rfl rfl
      (firstParked_congr rfl (tally_stay (by simp [hpc])) (tally_stay (by simp [hpc]))
        (tally_stay (by simp [hpc]))))
      hfew (by simp [hpc, hlock, State.goto]) rfl rfl (by simp) h.asserts_eq
    have hledger := h.ok.takePass hpass
    simpa [ledger, Ledger.takePass, State.goto, tally_move, hpc, hsub] using hledger

theorem kWriter_le_iff {n : Nat} : kWriter ≤ n ↔ n / kWriter ≠ 0 := by
  rw [kWriter_eq]
  omega

theorem Inv.unlockHereShared (h : Inv cfg s) (hpc : s.pc i = .shHeld)
    (hfew : (unlockHereShared s i).Few) : Inv cfg (unlockHereShared s i) := by
  have hactive : 0 < (ledger s).active := le_tally_of Pc.active hpc
  have hlow : s.state % kWriter = _ := h.ok.low_sum
  have hsub := sub_reader (n := s.state) (by omega) h.high_lt
  by_cases hw : kWriter ≤ s.state
  · simp only [SharedMutex.unlockHereShared, if_pos hw] at hfew ⊢
    have hledger := h.ok.leaveBusy hactive (kWriter_le_iff.mp hw)
    refine h.goto rfl ?_ (h.queues.goto rfl (by simp [hpc]) rfl rfl rfl
      (firstParked_congr rfl (tally_stay (by simp [hpc])) (tally_stay (by simp [hpc]))
        (tally_stay (by simp [hpc]))))
      hfew (by simp [hpc, State.goto]) rfl rfl (by simp) h.asserts_eq
    simpa [ledger, Ledger.leaveBusy, State.goto, tally_move, hpc, hsub] using hledger
  · simp only [SharedMutex.unlockHereShared, if_neg hw] at hfew ⊢
    have hledger := h.ok.leaveOpen hactive (not_not.mp (kWriter_le_iff.not.mp hw))
    refine h.goto rfl ?_ (h.queues.goto rfl (by simp [hpc]) rfl rfl rfl
      (firstParked_congr rfl (tally_stay (by simp [hpc])) (tally_stay (by simp [hpc]))
        (tally_stay (by simp [hpc]))))
      hfew (by simp [hpc, State.goto]) rfl rfl (by simp) h.asserts_eq
    simpa [ledger, Ledger.leaveOpen, State.goto, tally_move, hpc, hsub] using hledger

theorem Inv.unlockHereSharedWait (h : Inv cfg s) (hpc : s.pc i = .shLeave)
    (hfew : (unlockHereSharedWait s i).Few) :
    Inv cfg (unlockHereSharedWait s i) := by
  have hleaving : 0 < (ledger s).leaving := le_tally_of Pc.leaving hpc
  by_cases hw : s.readersWait = 1
  · simp only [SharedMutex.unlockHereSharedWait, if_pos hw] at hfew ⊢
    have hsub : sub32 s.readersWait 1 = 0 := by simp [hw, sub32, u32]
    have hok : (ledger ({ s with readersWait := sub32 s.readersWait 1 }.goto i .shWake)).Ok
        cfg.fifo := by
      simpa [ledger, Ledger.countLast, State.goto, tally_move, hpc, hsub] using
        h.ok.countLast hleaving hw
    have hparked := h.firstParked_goto hok rfl rfl (by simp [hpc, State.goto])
    exact h.goto rfl hok (h.queues.goto rfl (by simp [hpc]) rfl rfl rfl hparked)
      hfew (by simp [hpc, State.goto]) rfl rfl (by simp) h.asserts_eq
  · simp only [SharedMutex.unlockHereSharedWait, if_neg hw] at hfew ⊢
    have hok : (ledger ({ s with readersWait := sub32 s.readersWait 1 }.goto i .idle)).Ok
        cfg.fifo := by
      simpa [ledger, Ledger.countDown, State.goto, tally_move, hpc] using
        h.ok.countDown hleaving hw rfl
    have hparked := h.firstParked_goto hok rfl rfl (by simp [hpc, State.goto])
    exact h.goto rfl hok (h.queues.goto rfl (by simp [hpc]) rfl rfl rfl hparked)
      hfew (by simp [hpc, State.goto]) rfl rfl (by simp) h.asserts_eq

theorem Inv.tryLockShared (h : Inv cfg s) (hpc : s.pc i = .idle ∨ ∃ e, s.pc i = .tryShared e)
    (hsubmits : s.submits i = 0) (hfew : (tryLockShared s i).Few) :
    Inv cfg (tryLockShared s i) := by
  by_cases hw : s.state / kWriter = 0
  · simp only [SharedMutex.tryLockShared, hw, ne_eq, not_true, if_false] at hfew ⊢
    refine h.plain s.lock ?_ ?_ ?_ ?_ hw (fun _ => hsubmits) hfew <;>
    rcases hpc with hpc | ⟨e, hpc⟩ <;> simp [hpc]
  · simp only [SharedMutex.tryLockShared, hw, ne_eq, not_false_iff, if_true] at hfew ⊢
    refine h.plain s.lock ?_ ?_ ?_ ?_ rfl (by simp) hfew <;>
    rcases hpc with hpc | ⟨e, hpc⟩ <;> simp [hpc]

theorem Inv.tryLockSharedSwap (h : Inv cfg s) {expected : Nat} {weak : Bool}
    (hpc : s.pc i = .tryShared expected)
    (hfew : (tryLockSharedSwap s i expected weak).Few) :
    Inv cfg (tryLockSharedSwap s i expected weak) := by
  by_cases heq : s.state = expected ∧ weak = false
  · simp only [SharedMutex.tryLockSharedSwap, if_pos heq] at hfew ⊢
    have hopen := tally_eq_zero.mp h.wrong_eq i
    rw [hpc] at hopen
    exact h.arriveOpen (.inr ⟨_, hpc⟩) (heq.1 ▸ hopen) hfew
  · simp only [SharedMutex.tryLockSharedSwap, if_neg heq] at hfew ⊢
    exact h.tryLockShared (.inr ⟨_, hpc⟩) (h.asking i (by rw [hpc]; rfl)) hfew

end Yaclib.SharedMutex
