import Yaclib.Coro.SharedMutex.Steps

/-!
The steps of a writer that unlocks keep the invariant, and so does the last
reader ahead of the first writer.
-/

namespace Yaclib.SharedMutex

open Concurrency

variable {ι : Type} [DecidableEq ι] [Fintype ι]
variable {cfg : Config} {s t : State ι} {i : ι} {p : Pc ι}

theorem Inv.unlockHere (h : Inv cfg s) (hpc : s.pc i = .exHeld)
    (hfew : (unlockHere s i).Few) : Inv cfg (unlockHere s i) := by
  have howner : 0 < (ledger s).owner := le_tally_of Pc.owner hpc
  by_cases hopen : s.state = kWriter
  · simp only [SharedMutex.unlockHere, if_pos hopen] at hfew ⊢
    have hhalves : s.state / kWriter = 1 ∧ s.state % kWriter = 0 := by
      simp [hopen, kWriter_eq]
    have hok : (ledger ({ s with state := 0 }.goto i .idle)).Ok cfg.fifo := by
      simpa [ledger, Ledger.unlockFast, State.goto, tally_move, hpc, hhalves] using
        h.ok.unlockFast howner hhalves.1 hhalves.2
    have hparked := h.firstParked_goto hok rfl rfl (by simp [hpc, State.goto, hhalves])
    exact h.goto rfl hok (h.queues.goto rfl (by simp [hpc]) rfl rfl rfl hparked)
      hfew (by simp [hpc, State.goto]) rfl rfl (by simp) h.asserts_eq
  · simp only [SharedMutex.unlockHere, if_neg hopen] at hfew ⊢
    exact h.plain s.lock (by simp [hpc]) (by simp [hpc]) (by simp [hpc]) (by simp [hpc]) rfl
      (by simp) hfew

theorem Queues.popWriter (h : Queues s) (hold : s.pc i = .slowSection) {n : ι} {ns : List ι}
    (hns : s.writers = n :: ns) (hpc : t.pc = Function.update s.pc i (.unlocking (.submitOne n)))
    (hreaders : t.readers = s.readers) (hwriters : t.writers = ns)
    (hfirst : t.writersFirst = s.writersFirst) (hwait : t.readersWait = s.readersWait) :
    Queues t := by
  have hparked : t.firstParked = s.firstParked :=
    firstParked_congr hwait (hpc ▸ tally_stay (by simp [hold])) (hpc ▸ tally_stay (by simp [hold]))
      (hpc ▸ tally_stay (by simp [hold]))
  refine ⟨fun m => ?_, fun m => ?_, fun hpos => ?_, h.naming_goto hpc (by simp) hfirst⟩
  · have := h.reader m
    rwa [place_stay hpc Pc.shParked (by simp [hold]), hreaders, hpc, tally_stay (by simp [hold])]
  · have hwriter := h.writer m
    rw [hns, List.count_cons] at hwriter
    rw [place_stay hpc Pc.exParked (by simp [hold]), hwriters, hpc, tally_move,
      firstIs_congr hfirst hparked]
    simp only [hold, Pc.owesWriter, beq_iff_eq] at hwriter ⊢
    omega
  · rw [hfirst]
    exact h.named (hparked ▸ hpos)

/-- `SlowUnlock` resumes the oldest queued writer. -/
theorem Inv.runWriter (h : Inv cfg s) (hpc : s.pc i = .slowSection) (hq : s.writers ≠ [])
    (hprio : cfg.fifo = true → s.writersPrio ≠ 0)
    (hfew : (runWriter cfg { s with state := sub64 s.state kWriter } i).Few) :
    Inv cfg (runWriter cfg { s with state := sub64 s.state kWriter } i) := by
  obtain ⟨n, ns, hns⟩ := List.exists_cons_of_ne_nil hq
  have howner : 0 < (ledger s).owner := le_tally_of Pc.owner hpc
  have hhigh : s.state / kWriter = _ := h.ok.owner_high howner
  have hsub := sub_writer (n := s.state) (by omega) h.high_lt
  have hprio' : (if cfg.fifo then sub32 s.writersPrio 1 else s.writersPrio) =
      if cfg.fifo then s.writersPrio - 1 else s.writersPrio := by
    split
    · next hfifo =>
      have hle : s.writersPrio ≤ s.writers.length := h.ok.prio_le
      have hqueued : s.writers.length ≤ (ledger s).writers := Nat.le_add_left _ _
      have hlt := h.fits.writers_lt
      have hpos := hprio hfifo
      exact sub32_of_le (by omega) (by omega)
    · rfl
  obtain ⟨t, ht⟩ : ∃ t, t = SharedMutex.runWriter cfg { s with state := sub64 s.state kWriter } i :=
    ⟨_, rfl⟩
  rw [← ht] at hfew ⊢
  have ht' : t = { s with
      state := sub64 s.state kWriter
      writers := ns
      writersPrio := if cfg.fifo then s.writersPrio - 1 else s.writersPrio }.goto i
        (.unlocking (.submitOne n)) := by
    rw [ht, ← hprio', SharedMutex.runWriter]
    cases hfifo : cfg.fifo with
    | true => simp [hns, hprio hfifo, State.check, State.goto]
    | false => simp [hns, State.goto]
  have hqueues : Queues t := by
    refine h.queues.popWriter hpc hns ?_ ?_ ?_ ?_ ?_ <;> rw [ht'] <;> rfl
  refine h.goto (by rw [ht']; rfl) ?_ hqueues hfew (by simp [hpc, ht', State.goto]) rfl
    (by rw [ht']; rfl) (by simp) (by rw [ht']; exact h.asserts_eq)
  have hledger := h.ok.runWriter howner (by simp [ledger, hns]) hprio
  have hkeep : tally Pc.owner s.pc - 1 + 1 = tally Pc.owner s.pc := Nat.sub_add_cancel howner
  simpa [ledger, Ledger.runWriter, ht', State.goto, tally_move, hpc, hsub, hns, hkeep] using hledger

/-- The queued readers move to the loop that submits them. -/
theorem Queues.take (h : Queues s) (hold : s.pc i = .slowSection ∨ ∃ old, s.pc i = .nextWriter old)
    (hpc : t.pc = Function.update s.pc i (.unlocking (.submitAll s.readers)))
    (hreaders : t.readers = [])
    (hwriters : ∀ n, t.writers.count n + t.firstIs n = s.writers.count n + s.firstIs n)
    (hnamed : 0 < t.firstParked → ∃ n, t.writersFirst = some n)
    (hnaming : ∀ j r, s.pc j ≠ .exWait r) : Queues t := by
  have hsame : (s.pc i).shParked = 0 ∧ (s.pc i).exParked = 0 ∧ (∀ n, (s.pc i).owesReader n = 0) ∧
      ∀ n, (s.pc i).owesWriter n = 0 := by
    rcases hold with hold | ⟨old, hold⟩ <;> simp [hold]
  obtain ⟨hsh, hex, hreader, hwriter⟩ := hsame
  refine ⟨fun n => ?_, fun n => ?_, hnamed, fun j r hj => ?_⟩
  · have heq := h.reader n
    rw [place_stay hpc Pc.shParked (by rw [hsh]; rfl), hreaders, hpc, tally_move, hreader]
    simp only [Pc.owesReader, List.count_nil]
    omega
  · have heq := h.writer n
    have hsum := hwriters n
    rw [place_stay hpc Pc.exParked (by rw [hex]; rfl), hpc, tally_stay (by simp [hwriter])]
    omega
  · rw [hpc] at hj
    by_cases hji : j = i
    · simp [hji] at hj
    · rw [Function.update_of_ne hji] at hj
      exact absurd hj (hnaming j r)

/-- Nobody announces itself while another request is in the section. -/
theorem Inv.sole_naming (h : Inv cfg s) (hpc : s.pc i = p) (hinside : p.inside = 1)
    (hfirst : p.first = 0) : ∀ j r, s.pc j ≠ .exWait r := by
  intro j r hj
  have hsole := h.sole_inside hpc hinside (w := Pc.first) fun q hq => by cases q <;> simp at hq ⊢
  have hle := le_tally_of Pc.first hj
  rw [hsole, hfirst] at hle
  exact absurd hle (by simp)

/-- The passes of the last writer: one for every reader on its way. -/
theorem Inv.passReaders (h : Inv cfg s) (hpc : s.pc i = .slowSection) (hq : s.writers = []) :
    passReaders { s with state := sub64 s.state kWriter } s.state =
      { s with
        state := sub64 s.state kWriter
        readersPass := s.readersPass + (s.state % kWriter - s.readersSize) } := by
  have howner : 0 < (ledger s).owner := le_tally_of Pc.owner hpc
  obtain ⟨-, -, -, -, -, hahead⟩ := h.ok.owned howner
  have hhigh : s.state / kWriter = s.writers.length + 1 := h.ok.owner_high howner
  have hlow : s.state % kWriter = (ledger s).transit + s.readers.length := h.ok.owner_low howner
  have hsize : s.readersSize = s.readers.length := h.ok.size_eq
  have hpass : s.readersPass = 0 := Nat.eq_zero_of_add_eq_zero_left hahead
  have hlt := h.low_lt
  have hr : u32 (s.state % kWriter) = s.state % kWriter := u32_of_lt hlt
  have hsub : sub32 (s.state % kWriter) s.readersSize = s.state % kWriter - s.readersSize :=
    sub32_of_le hlt (by omega)
  have hadd : add32 s.readersPass (s.state % kWriter - s.readersSize) =
      s.readersPass + (s.state % kWriter - s.readersSize) := add32_of_lt (by omega)
  have hle : s.readersSize ≤ s.state % kWriter := by omega
  rw [hq] at hhigh
  simp [SharedMutex.passReaders, hr, hsub, hadd, hhigh, hle, check_true]

theorem Inv.slowUnlock (h : Inv cfg s) (hpc : s.pc i = .slowSection)
    (hfew : (slowUnlock cfg s i).Few) : Inv cfg (slowUnlock cfg s i) := by
  have howner : 0 < (ledger s).owner := le_tally_of Pc.owner hpc
  have hhigh : s.state / kWriter = s.writers.length + 1 := h.ok.owner_high howner
  have hle : s.writersPrio ≤ s.writers.length := h.ok.prio_le
  have hsub := sub_writer (n := s.state) (by omega) h.high_lt
  have hhigh' : u32 (s.state / kWriter) = s.state / kWriter := u32_of_lt h.high_lt
  have hempty : s.writers = [] ↔ s.writers.length = 0 := List.length_eq_zero_iff.symm
  by_cases hprio : cfg.fifo = true ∧ s.writersPrio ≠ 0
  · have hmany : 1 < s.state / kWriter := by omega
    have heq : SharedMutex.slowUnlock cfg s i =
        SharedMutex.runWriter cfg { s with state := sub64 s.state kWriter } i := by
      simp only [SharedMutex.slowUnlock, if_pos hprio, hmany, decide_true, check_true]
    rw [heq] at hfew ⊢
    exact h.runWriter hpc (hempty.not.mpr (by omega)) (fun _ => hprio.2) hfew
  by_cases hr : s.readers = []
  · by_cases hlifo : ¬ cfg.fifo = true ∧ s.state / kWriter ≠ 1
    · have heq : SharedMutex.slowUnlock cfg s i =
          SharedMutex.runWriter cfg { s with state := sub64 s.state kWriter } i := by
        simp only [SharedMutex.slowUnlock, if_neg hprio, hr, ne_eq, not_true, if_false,
          if_pos hlifo]
      rw [heq] at hfew ⊢
      exact h.runWriter hpc (hempty.not.mpr (by omega)) (fun hfifo => absurd hfifo hlifo.1) hfew
    · -- the last writer, and nobody queued: only passes are left to give
      have hlast : s.writers = [] := by
        rw [hempty]
        by_cases hfifo : cfg.fifo = true
        · have hall : s.writersPrio = s.writers.length :=
            h.ok.prio_fifo hfifo (by simp [ledger, hr])
          rw [← hall]
          exact not_not.mp fun hne => hprio ⟨hfifo, hne⟩
        · have hone := not_not.mp fun hne => hlifo ⟨hfifo, hne⟩
          omega
      have heq : SharedMutex.slowUnlock cfg s i = { s with
          state := sub64 s.state kWriter
          readersPass := s.readersPass + (s.state % kWriter - s.readersSize) }.goto i
            (.unlocking .idle) := by
        rw [← h.passReaders hpc hlast, SharedMutex.slowUnlock]
        simp only [if_neg hprio, hr, ne_eq, not_true, if_false, if_neg hlifo]
      rw [heq] at hfew ⊢
      have hsize : s.readersSize = 0 := h.ok.size_eq.trans (by simp [ledger, hr])
      have hok : (ledger ({ s with
          state := sub64 s.state kWriter
          readersPass := s.readersPass + (s.state % kWriter - s.readersSize) }.goto i
            (.unlocking .idle))).Ok cfg.fifo := by
        simpa [ledger, Ledger.lastOut, State.goto, tally_move, hpc, hsub, hr, hsize] using
          h.ok.lastOut howner (by simp [ledger, hlast])
      exact h.goto rfl hok (h.queues.goto rfl (by simp [hpc]) rfl rfl rfl
        (firstParked_congr rfl (tally_stay (by simp [hpc])) (tally_stay (by simp [hpc]))
        (tally_stay (by simp [hpc]))))
        hfew (by simp [hpc, State.goto]) rfl rfl (by simp) h.asserts_eq
  · by_cases hone : s.state / kWriter = 1
    · have hlast : s.writers = [] := hempty.mpr (by omega)
      have hpass := h.passReaders hpc hlast
      have heq : SharedMutex.slowUnlock cfg s i = { s with
          state := sub64 s.state kWriter
          readersPass := s.readersPass + (s.state % kWriter - s.readersSize)
          readers := []
          readersSize := 0 }.goto i (.unlocking (.submitAll s.readers)) := by
        have hu : u32 (s.state / kWriter) = 1 := hhigh'.trans hone
        simp only [SharedMutex.slowUnlock, if_neg hprio, ne_eq, hr, not_false_iff, if_true,
          SharedMutex.runReaders, hu, not_true, if_false, hpass, takeReaders]
      rw [heq] at hfew ⊢
      have hok : (ledger ({ s with
          state := sub64 s.state kWriter
          readersPass := s.readersPass + (s.state % kWriter - s.readersSize)
          readers := []
          readersSize := 0 }.goto i (.unlocking (.submitAll s.readers)))).Ok cfg.fifo := by
        simpa [ledger, Ledger.lastOut, State.goto, tally_move, hpc, hsub] using
          h.ok.lastOut howner (by simp [ledger, hlast])
      have hparked := firstParked_congr (s := s) (t := { s with
          state := sub64 s.state kWriter
          readersPass := s.readersPass + (s.state % kWriter - s.readersSize)
          readers := []
          readersSize := 0 }.goto i (.unlocking (.submitAll s.readers))) rfl
          (tally_stay (by simp [hpc])) (tally_stay (by simp [hpc])) (tally_stay (by simp [hpc]))
      exact h.goto rfl hok (h.queues.take (.inl hpc) rfl rfl
        (fun n => congrArg (s.writers.count n + ·) (firstIs_congr (by rfl) hparked n))
        (fun hpos => h.queues.named (hparked ▸ hpos)) (h.sole_naming hpc rfl rfl))
        hfew (by simp [hpc, State.goto]) rfl rfl (by simp) h.asserts_eq
    · have heq : SharedMutex.slowUnlock cfg s i =
          { s with state := sub64 s.state kWriter }.goto i (.runReaders s.state) := by
        simp only [SharedMutex.slowUnlock, if_neg hprio, ne_eq, hr, not_false_iff, if_true,
          SharedMutex.runReaders, hhigh', hone]
      rw [heq] at hfew ⊢
      have hhanded : (ledger s).handed = 0 :=
        h.sole_inside hpc rfl (w := Pc.handed) fun q hq => by cases q <;> simp at hq ⊢
      have hstored : (ledger s).stored = 0 :=
        h.sole_inside hpc rfl (w := Pc.stored) fun q hq => by cases q <;> simp at hq ⊢
      have hok : (ledger ({ s with state := sub64 s.state kWriter }.goto i
          (.runReaders s.state))).Ok cfg.fifo := by
        have hqueued : 0 < (ledger s).queuedR := List.length_pos_iff.mpr hr
        have hmany : 0 < (ledger s).queuedW := by
          simp only [ledger]
          omega
        simpa [ledger, Ledger.handOver, State.goto, tally_move, hpc, hsub] using
          h.ok.handOver howner hhanded hstored hqueued hmany
      have hparked := h.firstParked_goto hok rfl rfl (by
        simp [hpc, State.goto, hsub]
        omega)
      exact h.goto rfl hok (h.queues.goto rfl (by simp [hpc]) rfl rfl rfl hparked)
        hfew (by simp [hpc, State.goto]) rfl rfl (by simp) h.asserts_eq

theorem Inv.runReadersStore (h : Inv cfg s) {old : Nat} (hpc : s.pc i = .runReaders old)
    (hfew : (runReadersStore s i old).Few) : Inv cfg (runReadersStore s i old) := by
  have hhand : 0 < (ledger s).handing := le_tally_of Pc.handing hpc
  have hhanded : 0 < tally Pc.handing s.pc := hhand
  have hkeep : tally Pc.handed s.pc - old / kWriter + old / kWriter = tally Pc.handed s.pc :=
    Nat.sub_add_cancel (le_tally_of Pc.handed hpc)
  have hkeep' : tally Pc.handing s.pc - 1 + 1 = tally Pc.handing s.pc :=
    Nat.sub_add_cancel hhanded
  have hok : (ledger (SharedMutex.runReadersStore s i old)).Ok cfg.fifo := by
    simpa [SharedMutex.runReadersStore, ledger, Ledger.storeWait, State.goto, tally_move, hpc,
      hkeep, hkeep'] using h.ok.storeWait hhand
  have hparked := h.firstParked_goto hok rfl rfl
    (by simp [hpc, SharedMutex.runReadersStore, State.goto])
  exact h.goto rfl hok (h.queues.goto rfl (by simp [hpc]) rfl rfl rfl hparked) hfew
    (by simp [hpc, SharedMutex.runReadersStore, State.goto]) rfl rfl (by simp) h.asserts_eq

theorem Inv.nextWriter (h : Inv cfg s) {old : Nat} (hpc : s.pc i = .nextWriter old)
    (hfew : (nextWriter cfg s i old).Few) : Inv cfg (nextWriter cfg s i old) := by
  have hhand : 0 < (ledger s).handing := le_tally_of Pc.handing hpc
  have hstored : (ledger s).stored ≠ 0 := Nat.ne_of_gt (le_tally_of Pc.stored hpc)
  obtain ⟨h1, h2, h3, h4, h5, h6, h7, h8, h9⟩ := h.ok.handing hhand
  have hhanded : tally Pc.handed s.pc = old / kWriter :=
    h.sole_inside hpc rfl fun q hq => by cases q <;> simp at hq ⊢
  obtain ⟨n, ns, hns⟩ := List.exists_cons_of_ne_nil (List.length_pos_iff.mp h9)
  have hprio : sub32 (u32 (old / kWriter)) 2 = old / kWriter - 2 := by
    have hold : old / kWriter = s.writers.length + 1 := hhanded.symm.trans h7
    have hqueued : s.writers.length ≤ (ledger s).writers := Nat.le_add_left _ _
    have hlt := h.queues.writers_le.trans_lt h.few.writing_lt
    have hpos : 0 < s.writers.length := h9
    rw [u32_of_lt (by omega), sub32_of_le (by omega) (by omega)]
  obtain ⟨t, ht⟩ : ∃ t, t = SharedMutex.nextWriter cfg s i old := ⟨_, rfl⟩
  rw [← ht] at hfew ⊢
  simp only [SharedMutex.nextWriter, hns, hprio, takeReaders] at ht
  have hok : (ledger t).Ok cfg.fifo := by
    simpa [ledger, Ledger.admitReaders, ht, State.goto, tally_move, hpc, hhanded, hns] using
      h.ok.admitReaders h.fits hhand hstored
  have hparked₀ : (ledger s).parked = 0 := Ledger.parked_of_handing (Nat.ne_of_gt hhand)
  have hs : s.firstParked = 0 := by
    have hwakes : tally Pc.wakes s.pc ≤ tally Pc.owner s.pc :=
      tally_mono fun j => (s.pc j).wakes_le_owner
    have howner : tally Pc.owner s.pc = 0 := h1
    rw [State.firstParked, hparked₀]
    omega
  have hpc' : t.pc = Function.update s.pc i (.unlocking (.submitAll s.readers)) := by
    rw [ht]
    rfl
  have hwriters : t.writers = ns := by rw [ht]; rfl
  have hfirst : t.writersFirst = some n := by rw [ht]; rfl
  have hparked : t.firstParked = 1 := by
    have hadd := firstParked_add h.ok
    have hadd' := firstParked_add hok
    have hstate : t.state = s.state := by rw [ht]; rfl
    rw [hpc', tally_stay (by simp [hpc]), tally_stay (by simp [hpc]), tally_stay (by simp [hpc]),
      hstate, hwriters] at hadd'
    rw [hns, List.length_cons] at hadd
    omega
  refine h.goto hpc' hok (h.queues.take (.inr ⟨old, hpc⟩) hpc' (by rw [ht]; rfl) (fun m => ?_)
    (fun _ => ⟨n, hfirst⟩) (h.sole_naming hpc rfl rfl)) hfew (by simp [hpc, ht, State.goto]) rfl
    (by rw [ht]; rfl) (by simp) (by rw [ht]; exact h.asserts_eq)
  rw [firstIs_zero hs, hwriters, hns, State.firstIs, hfirst, hparked, List.count_cons]
  simp

/-- `Run(_writers_first)`: the last reader ahead of the first writer left. -/
theorem Inv.wake (h : Inv cfg s) (hpc : s.pc i = .shWake)
    (hfew : (s.run i s.writersFirst).Few) : Inv cfg (s.run i s.writersFirst) := by
  have howner : 0 < (ledger s).owner := le_tally_of Pc.owner hpc
  obtain ⟨h1, h2, -, -, h5, -⟩ := h.ok.owned howner
  have hwakes : tally Pc.wakes s.pc = 1 := by
    have hle : tally Pc.wakes s.pc ≤ tally Pc.owner s.pc :=
      tally_mono fun j => (s.pc j).wakes_le_owner
    have heq : tally Pc.owner s.pc = 1 := h1
    have hpos := le_tally_of Pc.wakes hpc
    simp only [Pc.wakes] at hpos
    omega
  have hone : s.firstParked = 1 := by
    rw [State.firstParked, Ledger.parked_of_wait h5, hwakes]
  obtain ⟨n, hfirst⟩ := h.queues.named (by omega)
  rw [hfirst] at hfew ⊢
  have hledger : ledger (s.run i (some n)) = ledger s := ledger_stay (by simp [hpc])
  have hzero : (s.run i (some n)).firstParked = 0 := by
    rw [State.firstParked, hledger, Ledger.parked_of_wait h5]
    simp [State.run, State.goto, tally_move, hpc, hwakes]
  have hqueues : Queues (s.run i (some n)) := by
    refine ⟨fun m => ?_, fun m => ?_, fun hpos => ⟨n, hfirst⟩,
      h.queues.naming_goto rfl (by simp) rfl⟩
    · have hreader := h.queues.reader m
      rwa [← tally_stay (f := s.pc) (i := i) (a := .submitOne n) (by simp [hpc]),
        ← place_stay (t := s.run i (some n)) rfl Pc.shParked (by simp [hpc])] at hreader
    · have hwriter := h.queues.writer m
      have hmove := tally_update (Pc.owesWriter m) s.pc i (.submitOne n)
      have hplace := place_stay (t := s.run i (some n)) rfl Pc.exParked (by simp [hpc]) m
      rw [firstIs_zero hzero, hplace]
      simp only [State.firstIs, hfirst, hone, Option.some.injEq] at hwriter
      simp only [hpc, Pc.owesWriter] at hmove
      simp only [State.run, State.goto]
      omega
  exact h.goto rfl (hledger ▸ h.ok) hqueues hfew (by simp [hpc, State.run, State.goto]) rfl rfl
    (by simp) h.asserts_eq

end Yaclib.SharedMutex
