import Yaclib.Coro.SharedMutex.Steps

/-!
The steps of a writer that locks keep the invariant.
-/

namespace Yaclib.SharedMutex

open Concurrency

variable {ι : Type} [DecidableEq ι] [Fintype ι]
variable {cfg : Config} {s t : State ι} {i : ι} {p : Pc ι}

theorem Inv.tryLockAwait (h : Inv cfg s) {await : Bool} (hpc : s.pc i = .idle)
    (hsubmits : s.submits i = 0) (hfew : (tryLockAwait s i await).Few) :
    Inv cfg (tryLockAwait s i await) := by
  unfold SharedMutex.tryLockAwait at hfew ⊢
  refine h.plain s.lock ?_ ?_ ?_ ?_ ?_ (fun _ => hsubmits) hfew <;>
  split <;> cases await <;> simp [hpc, lockFailed]

theorem Inv.tryLockAwaitSwap (h : Inv cfg s) {await : Bool} (hpc : s.pc i = .tryLock await)
    (hfew : (tryLockAwaitSwap s i await).Few) :
    Inv cfg (tryLockAwaitSwap s i await) := by
  by_cases hopen : s.state = 0
  · simp only [SharedMutex.tryLockAwaitSwap, if_pos hopen] at hfew ⊢
    have hok : (ledger ({ s with state := add64 0 kWriter }.goto i .exHeld)).Ok cfg.fifo := by
      have hhalves : add64 0 kWriter / kWriter = 1 ∧ add64 0 kWriter % kWriter = 0 := by
        simp [add64, u64, kWriter_eq]
      simpa [ledger, Ledger.lockOpen, State.goto, tally_move, hpc, hopen, hhalves] using
        h.ok.lockOpen (by simp [ledger, hopen]) (by simp [ledger, hopen])
    have hparked := h.firstParked_goto hok rfl rfl (by
      simp [hpc, State.goto, hopen, add64, u64, kWriter_eq])
    exact h.goto rfl hok (h.queues.goto rfl (by simp [hpc]) rfl rfl rfl hparked)
      hfew (by simp [hpc, State.goto]) rfl rfl (by simp) h.asserts_eq
  · simp only [SharedMutex.tryLockAwaitSwap, if_neg hopen] at hfew ⊢
    refine h.plain s.lock ?_ ?_ ?_ ?_ ?_ (fun _ => h.asking i (by rw [hpc]; rfl)) hfew <;>
    cases await <;> simp [hpc, lockFailed]

/-- `fetch_add(kWriter)` does not carry out of the word. -/
theorem Inv.add_writer (h : Inv cfg s) (ht : Queues t) (hfew : t.Few)
    (hmore : (ledger t).writers = (ledger s).writers + 1) :
    add64 s.state kWriter / kWriter = s.state / kWriter + 1 ∧
      add64 s.state kWriter % kWriter = s.state % kWriter := by
  have hhigh : s.state / kWriter = (ledger s).writers := h.ok.high_eq
  have hlt := (ht.fits hfew).writers_lt
  exact SharedMutex.add_writer (by omega)

theorem Queues.pushWriter (h : Queues s) (hold : s.pc i = .exSection)
    (hpc : t.pc = Function.update s.pc i .exWaiting) (hreaders : t.readers = s.readers)
    (hwriters : t.writers = s.writers ++ [i]) (hfirst : t.writersFirst = s.writersFirst)
    (hwait : t.readersWait = s.readersWait) : Queues t := by
  have hparked : t.firstParked = s.firstParked :=
    firstParked_congr hwait (hpc ▸ tally_stay (by simp [hold])) (hpc ▸ tally_stay (by simp [hold]))
      (hpc ▸ tally_stay (by simp [hold]))
  refine ⟨fun n => ?_, fun n => ?_, fun hpos => ?_, h.naming_goto hpc (by simp) hfirst⟩
  · have hreader := h.reader n
    rw [hreaders, hpc, tally_stay (by simp [hold]), at_update Pc.shParked]
    by_cases hin : i = n
    · rw [← hin, hold] at hreader
      simpa only [hin, if_true, Pc.shParked] using hreader
    · simpa only [hin, if_false] using hreader
  · have hwriter := h.writer n
    rw [hwriters, hpc, tally_stay (by simp [hold]), at_update Pc.exParked,
      firstIs_congr hfirst hparked, List.count_append, List.count_singleton]
    by_cases hin : i = n
    · rw [← hin, hold] at hwriter
      simp only [hin, if_true, Pc.exParked, beq_self_eq_true] at hwriter ⊢
      omega
    · simpa [hin] using hwriter
  · rw [hfirst]
    exact h.named (hparked ▸ hpos)

theorem Inv.awaitLock (h : Inv cfg s) (hpc : s.pc i = .exSection)
    (hfew : (awaitLock cfg s i).Few) : Inv cfg (awaitLock cfg s i) := by
  have hasking : s.submits i = 0 := h.asking i (by rw [hpc]; rfl)
  have hlock : s.lock = .held := h.held hpc (by simp)
  by_cases hw : s.state / kWriter = 0
  · simp only [SharedMutex.awaitLock, if_pos hw] at hfew ⊢
    have hadd := SharedMutex.add_writer (n := s.state) (by omega)
    have hr : u32 (s.state % kWriter) = s.state % kWriter := u32_of_lt h.low_lt
    have hok : (ledger ({ s with state := add64 s.state kWriter }.goto i
        (.exFirst (u32 (s.state % kWriter))))).Ok cfg.fifo := by
      simpa [ledger, Ledger.announce, State.goto, tally_move, hpc, hadd, hr] using
        h.ok.announce h.fits hw rfl
    have hparked := h.firstParked_goto hok rfl rfl (by simp [hpc, State.goto, hadd])
    exact h.goto rfl hok (h.queues.goto rfl (by simp [hpc]) rfl rfl rfl hparked)
      hfew (by simp [hpc, State.goto]) rfl rfl (fun _ => hasking) h.asserts_eq
  · have hhand : (ledger s).handing = 0 := h.sole_inside hpc rfl handing_of_inside
    obtain ⟨t, ht⟩ : ∃ t, t = SharedMutex.awaitLock cfg s i := ⟨_, rfl⟩
    rw [← ht] at hfew ⊢
    simp only [SharedMutex.awaitLock, if_neg hw] at ht
    have hqueues : Queues t := by
      refine h.queues.pushWriter hpc ?_ ?_ ?_ ?_ ?_ <;> rw [ht] <;> rfl
    have hparked : (ledger t).parked = (ledger s).parked := by
      refine Ledger.parked_congr ?_ ?_ ?_
      · rw [ht]
        exact tally_stay (by simp [hpc])
      · rw [ht]
        exact tally_stay (by simp [hpc])
      · rw [ht]
        rfl
    have hmore : (ledger t).writers = (ledger s).writers + 1 := by
      rw [Ledger.writers, hparked, Ledger.writers]
      simp [ledger, ht, State.goto, tally_move, hpc]
      omega
    have hadd := h.add_writer hqueues hfew hmore
    have hprio : add32 s.writersPrio (if s.readers = [] then 1 else 0) =
        s.writersPrio + if s.readers = [] then 1 else 0 := by
      have hle : s.writersPrio ≤ s.writers.length := h.ok.prio_le
      have hqueued : s.writers.length ≤ (ledger s).writers := Nat.le_add_left _ _
      have hlt := (hqueues.fits hfew).writers_lt
      refine add32_of_lt ?_
      split <;> omega
    refine h.goto (by rw [ht]; rfl) ?_ hqueues hfew (by simp [hpc, ht, hlock, State.goto]) rfl
      (by rw [ht]; rfl) (fun _ => hasking) (by rw [ht]; exact h.asserts_eq)
    have hledger := h.ok.queueWriter hw hhand
    simpa [ledger, Ledger.queueWriter, ht, State.goto, tally_move, hpc, hadd, hprio] using hledger

/-- The first writer before its `_readers_wait.fetch_add` is the only one that
is served. -/
theorem Inv.announcing (h : Inv cfg s) {r : Nat} (hpc : s.pc i = .exFirst r ∨ s.pc i = .exWait r) :
    0 < (ledger s).first ∧ (ledger s).announced = r ∧ s.firstParked = 0 ∧
      ∀ j r', s.pc j = .exWait r' → j = i := by
  have hpos : 0 < (ledger s).first := by
    rcases hpc with hpc | hpc <;> exact le_tally_of Pc.first hpc
  obtain ⟨howner, hfirst, -⟩ := h.ok.announcing hpos
  have hle : tally Pc.first s.pc ≤ (s.pc i).first := by
    have heq : tally Pc.first s.pc = 1 := hfirst
    rcases hpc with hpc | hpc <;> simp [hpc, heq]
  refine ⟨hpos, ?_, ?_, fun j r' hj => ?_⟩
  · have hsole := tally_eq_of_sole (v := Pc.announced) hle fun q hq => by
      cases q <;> simp at hq ⊢
    rcases hpc with hpc | hpc <;> exact hsole.trans (by rw [hpc]; rfl)
  · have hwakes : tally Pc.wakes s.pc ≤ tally Pc.owner s.pc :=
      tally_mono fun j => (s.pc j).wakes_le_owner
    have heq : tally Pc.owner s.pc = 0 := howner
    rw [State.firstParked, Ledger.parked_of_first (Nat.ne_of_gt hpos)]
    omega
  · by_contra hji
    have hsum := add_le_tally Pc.first s.pc hji
    rw [hj] at hsum
    have hone : Pc.first (.exWait r' : Pc ι) = 1 := rfl
    rcases hpc with hpc | hpc <;> simp only [hpc, Pc.first] at hsum hle <;> omega

/-- Naming a first writer that is not parked. -/
theorem Queues.rename (h : Queues s) (hpc : t.pc = Function.update s.pc i p)
    (hreader : ∀ n, p.owesReader n = (s.pc i).owesReader n)
    (hwriter : ∀ n, p.owesWriter n = (s.pc i).owesWriter n)
    (hsh : p.shParked = (s.pc i).shParked) (hex : p.exParked = (s.pc i).exParked)
    (hreaders : t.readers = s.readers) (hwriters : t.writers = s.writers)
    (hfirst : t.writersFirst = some i) (hsole : ∀ j r, s.pc j = .exWait r → j = i)
    (hs : s.firstParked = 0) (ht : t.firstParked = 0) : Queues t := by
  refine ⟨fun n => ?_, fun n => ?_, fun hpos => ⟨i, hfirst⟩, fun j r hj => ?_⟩
  · have := h.reader n
    rwa [place_stay hpc Pc.shParked hsh, hreaders, hpc, tally_stay (hreader n)]
  · have := h.writer n
    rw [firstIs_zero hs] at this
    rwa [place_stay hpc Pc.exParked hex, hwriters, hpc, tally_stay (hwriter n), firstIs_zero ht]
  · rw [hpc] at hj
    by_cases hji : j = i
    · rw [hfirst, hji]
    · rw [Function.update_of_ne hji] at hj
      exact absurd (hsole j r hj) hji

theorem Inv.awaitLockFirst (h : Inv cfg s) {r : Nat} (hpc : s.pc i = .exFirst r)
    (hfew : (awaitLockFirst s i r).Few) : Inv cfg (awaitLockFirst s i r) := by
  obtain ⟨hfirst, hannounced, hparked, hsole⟩ := h.announcing (.inl hpc)
  by_cases hr : r = 0
  · simp only [SharedMutex.awaitLockFirst, if_pos hr] at hfew ⊢
    have hwait : s.readersWait = 0 := h.ok.announced_zero hfirst (hannounced.trans hr)
    have hok : (ledger ({ s with writersFirst := some i }.goto i (.unlocking .exHeld))).Ok
        cfg.fifo := by
      have hann : tally Pc.announced s.pc = r := hannounced
      simpa [ledger, Ledger.ownFirst, State.goto, tally_move, hpc, hwait, hann, hr] using
        h.ok.ownFirst hfirst (by simp [ledger, hwait, hann, hr, u32])
    have hparked' := h.firstParked_goto hok rfl rfl (by simp [hpc, State.goto])
    exact h.goto rfl hok (h.queues.rename rfl (by simp [hpc]) (by simp [hpc]) (by simp [hpc])
      (by simp [hpc]) rfl rfl rfl hsole hparked (hparked'.trans hparked)) hfew
      (by simp [hpc, State.goto]) rfl rfl (by simp) h.asserts_eq
  · simp only [SharedMutex.awaitLockFirst, if_neg hr] at hfew ⊢
    have hledger : ledger ({ s with writersFirst := some i }.goto i (.exWait r)) = ledger s :=
      ledger_stay (by simp [hpc])
    have hok : (ledger ({ s with writersFirst := some i }.goto i (.exWait r))).Ok cfg.fifo :=
      hledger ▸ h.ok
    have hparked' := h.firstParked_goto hok rfl rfl (by simp [hpc, State.goto])
    exact h.goto rfl hok (h.queues.rename rfl (by simp [hpc]) (by simp [hpc]) (by simp [hpc])
      (by simp [hpc]) rfl rfl rfl hsole hparked (hparked'.trans hparked)) hfew
      (by simp [hpc, State.goto]) rfl rfl (fun _ => h.asking i (by rw [hpc]; rfl)) h.asserts_eq

/-- The first writer is suspended. -/
theorem Queues.park (h : Queues s) {r : Nat} (hold : s.pc i = .exWait r)
    (hpc : t.pc = Function.update s.pc i .exWaiting) (hreaders : t.readers = s.readers)
    (hwriters : t.writers = s.writers) (hfirst : t.writersFirst = s.writersFirst)
    (hs : s.firstParked = 0) (ht : t.firstParked = 1) : Queues t := by
  have hname : t.writersFirst = some i := hfirst.trans (h.naming i r hold)
  refine ⟨fun n => ?_, fun n => ?_, fun _ => ⟨i, hname⟩, h.naming_goto hpc (by simp) hfirst⟩
  · have := h.reader n
    rwa [place_stay hpc Pc.shParked (by simp [hold]), hreaders, hpc, tally_stay (by simp [hold])]
  · have hwriter := h.writer n
    rw [firstIs_zero hs] at hwriter
    rw [hwriters, hpc, tally_stay (by simp [hold]), at_update Pc.exParked, State.firstIs, hname, ht]
    by_cases hin : i = n
    · rw [← hin, hold] at hwriter
      simp only [hin, if_true, Pc.exParked] at hwriter ⊢
      omega
    · simpa [hin] using hwriter

theorem Inv.awaitLockWait (h : Inv cfg s) {r : Nat} (hpc : s.pc i = .exWait r)
    (hfew : (awaitLockWait s i r).Few) : Inv cfg (awaitLockWait s i r) := by
  obtain ⟨hfirst, hannounced, hparked, -⟩ := h.announcing (.inr hpc)
  obtain ⟨-, -, hlt⟩ := h.ok.announcing hfirst
  have hlock : s.lock = .held := h.held hpc (by simp)
  have hsum : u32 ((ledger s).wait + (ledger s).announced) = add32 s.readersWait r := by
    rw [hannounced, add32, Nat.add_comm]
    rfl
  have hzero : add32 s.readersWait r = 0 ↔ s.readersWait = sub32 0 r := add32_eq_zero_iff hlt
  have hann : tally Pc.announced s.pc = r := hannounced
  by_cases hr : s.readersWait = sub32 0 r
  · simp only [SharedMutex.awaitLockWait, if_pos hr] at hfew ⊢
    have hok : (ledger ({ s with readersWait := add32 s.readersWait r }.goto i
        (.unlocking .exHeld))).Ok cfg.fifo := by
      simpa [ledger, Ledger.ownFirst, State.goto, tally_move, hpc, hann, hzero.mpr hr] using
        h.ok.ownFirst hfirst (hsum.trans (hzero.mpr hr))
    have hparked' := h.firstParked_goto hok rfl rfl (by simp [hpc, State.goto])
    exact h.goto rfl hok (h.queues.goto rfl (by simp [hpc]) rfl rfl rfl hparked')
      hfew (by simp [hpc, State.goto]) rfl rfl (by simp) h.asserts_eq
  · obtain ⟨t, ht⟩ : ∃ t, t = SharedMutex.awaitLockWait s i r := ⟨_, rfl⟩
    rw [← ht] at hfew ⊢
    simp only [SharedMutex.awaitLockWait, if_neg hr] at ht
    have hok : (ledger t).Ok cfg.fifo := by
      simpa [ledger, Ledger.parkFirst, ht, State.goto, tally_move, hpc, hann] using
        h.ok.parkFirst hfirst hsum.symm (Nat.pos_of_ne_zero (hzero.not.mpr hr))
    have hpc' : t.pc = Function.update s.pc i .exWaiting := by rw [ht]; rfl
    have hstate : t.state = s.state := by rw [ht]; rfl
    have hwriters : t.writers = s.writers := by rw [ht]; rfl
    have hparked' : t.firstParked = 1 := by
      have hs := firstParked_add h.ok
      have htt := firstParked_add hok
      have hpos : 0 < tally Pc.first s.pc := hfirst
      rw [hpc', tally_move, tally_move, tally_move, hpc, hstate, hwriters] at htt
      simp only [Pc.owner, Pc.first, Pc.wakes] at htt
      omega
    have hqueues : Queues t := h.queues.park hpc hpc' (by rw [ht]; rfl) hwriters (by rw [ht]; rfl)
      hparked hparked'
    exact h.goto hpc' hok hqueues hfew (by simp [hpc, ht, hlock, State.goto]) rfl (by rw [ht]; rfl)
      (fun _ => h.asking i (by rw [hpc]; rfl)) (by rw [ht]; exact h.asserts_eq)

end Yaclib.SharedMutex
