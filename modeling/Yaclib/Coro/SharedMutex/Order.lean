import Yaclib.Coro.SharedMutex.Exclusion
import Yaclib.Coro.SharedMutex.FairQueue

/-!
The order in which the shared mutex serves its requests, read off the log of a
run. With `FIFO` every log is one of the fair queue.
-/

namespace Yaclib.SharedMutex

open Concurrency

variable {ι : Type}

/-- The writers in the order of their `fetch_add` in `AwaitLock`. -/
def queued (log : List (Entry ι)) : List ι :=
  log.filterMap fun
    | .queueWriter i => some i
    | _ => none

/-- The writers of `AwaitLock` in the order in which they acquired the mutex. -/
def acquired (log : List (Entry ι)) : List ι :=
  log.filterMap fun
    | .acquire i => some i
    | _ => none

theorem queued_append (l₁ l₂ : List (Entry ι)) : queued (l₁ ++ l₂) = queued l₁ ++ queued l₂ :=
  List.filterMap_append

theorem acquired_append (l₁ l₂ : List (Entry ι)) :
    acquired (l₁ ++ l₂) = acquired l₁ ++ acquired l₂ :=
  List.filterMap_append

variable [DecidableEq ι]

namespace Entry

/-- The end of `RunReaders`, if the step led to the place `p`. -/
def taken : Pc ι → List (Entry ι)
  | .unlocking (.submitAll ns) => [.runReaders ns]
  | _ => []

/-- What is written down about a step of request `i` from the place in `s`. -/
def ofStep (s t : State ι) (i : ι) : List (Entry ι) :=
  match s.pc i with
  | .shSection => if s.readersPass = 0 then [.queueReader i] else []
  | .exSection => [.queueWriter i]
  | .exHeld => if s.state = kWriter then [.unlock i s.readers] else []
  | .slowSection => .unlock i s.readers :: taken (t.pc i)
  | .nextWriter _ => taken (t.pc i)
  | .unlocking .exHeld => [.acquire i]
  | .submitOne n => [.acquire n]
  | .submitAll (n :: _) => [.submit i n]
  | _ => []

def record (s : State ι) (e : Event ι) (t : State ι) (log : List (Entry ι)) : List (Entry ι) :=
  match e with
  | .advance i _ => log ++ ofStep s t i
  | _ => log

end Entry

/-- The shared mutex with the log of its run. -/
def recorded (cfg : Config) (ι : Type) [DecidableEq ι] :
    System (State ι × List (Entry ι)) (Event ι) :=
  (system cfg ι).recorded [] Entry.record

/-- The readers that the unlock of `i` has still to submit. -/
def State.due (s : State ι) (i : ι) : List ι :=
  match s.pc i with
  | .runReaders _ | .nextWriter _ => s.readers
  | .unlocking (.submitAll ns) | .submitAll ns => ns
  | _ => []

namespace Pc

/-- A writer between its `fetch_add` in `AwaitLock` and its acquisition. -/
@[simp] def lining : Pc ι → Nat
  | exFirst _ | exWait _ | exWaiting | unlocking exHeld => 1
  | _ => 0

/-- The part of these writers that is not suspended. -/
@[simp] def entering : Pc ι → Nat
  | exFirst _ | exWait _ | unlocking exHeld => 1
  | _ => 0

/-- An owner that was told so. -/
@[simp] def holding : Pc ι → Nat
  | exHeld | exResumed | slowEnter | slowSection => 1
  | _ => 0

end Pc

variable {cfg : Config} {s t : State ι} {i n : ι} {p : Pc ι} {log : List (Entry ι)} {cs : List ι}

theorem submit_place (w : Pc ι → Nat) (m : ι) :
    w (((s.submit n).goto i p).pc m) =
      if i = m then w p else if n = m then w (s.pc n).resumed else w (s.pc m) := by
  simp only [State.goto, State.submit, at_update w]

theorem runWriter_pc (cfg : Config) (i : ι) (v : State ι) :
    ∃ p, (runWriter cfg v i).pc = Function.update v.pc i p ∧ Entry.taken p = [] := by
  cases hwriters : v.writers with
  | nil =>
    refine ⟨.idle, ?_, rfl⟩
    cases hfifo : cfg.fifo <;> simp [runWriter, hwriters, hfifo, State.goto, State.check]
  | cons n ns =>
    refine ⟨.unlocking (.submitOne n), ?_, rfl⟩
    cases hfifo : cfg.fifo <;> simp [runWriter, hwriters, hfifo, State.goto, State.check]

variable [Fintype ι]

/-- The fair queue that belongs to a state in which the writers `cs` are the
next to acquire. -/
structure Fair (s : State ι) (cs : List ι) (q : FairQueue ι) : Prop where
  writers : q.ahead ++ q.behind = cs ++ s.writers
  ahead : q.ahead.length = cs.length + s.writersPrio
  readers : q.readers.Perm s.readers
  owed : ∀ n, q.owed.count n = tally (Pc.owesReader n) s.pc

/-- The writers that were queued have acquired, in their order, but for the next
one and the chain; and with `FIFO` the log is one of the fair queue. -/
structure Ordered (cfg : Config) (s : State ι) (log : List (Entry ι)) (cs : List ι) : Prop where
  queued_eq : queued log = acquired log ++ (cs ++ s.writers)
  count : ∀ n, (cs ++ s.writers).count n = (s.pc n).lining
  fair : cfg.fifo = true → ∃ q, FairQueue.system.run {} log = some q ∧ Fair s cs q
  /-- no queued writer is ahead of the readers that an unlock is about to take -/
  handing : cfg.fifo = true → ∀ j, (s.pc j).handing = 1 → s.writersPrio = 0

/-! Who is next. -/

/-- Who is the next owner is in the place of one, and every writer in such a place is among
the next. -/
theorem Inv.count_next (h : Inv cfg s) (ho : Ordered cfg s log cs) (n : ι) :
    cs.count n = tally (Pc.owesWriter n) s.pc + s.firstIs n + (s.pc n).entering := by
  have hwriter := h.queues.writer n
  have hcount := ho.count n
  have hlining : (s.pc n).lining = (s.pc n).exParked + (s.pc n).entering := by
    cases s.pc n with
    | unlocking k => cases k <;> rfl
    | _ => rfl
  rw [List.count_append] at hcount
  omega

theorem Pc.next_le (p : Pc ι) :
    ∑ n, p.owesWriter n + p.wakes + p.entering + p.holding ≤ p.owner + p.first := by
  induction p with
  | unlocking k ih =>
    cases k <;> simp at ih ⊢
    all_goals omega
  | _ => simp

/-- Nobody is next but the writer that `_state` counts before the chain. -/
theorem Inv.length_next (h : Inv cfg s) (ho : Ordered cfg s log cs) :
    cs.length + tally Pc.holding s.pc ≤ (ledger s).owner + (ledger s).first + (ledger s).parked := by
  have hfirst : ∑ n, s.firstIs n ≤ s.firstParked := by
    cases hw : s.writersFirst with
    | none => simp [State.firstIs, hw]
    | some n => simp [State.firstIs, hw]
  have hsum : cs.length = ∑ j, ∑ n, (s.pc j).owesWriter n + ∑ n, s.firstIs n +
      ∑ n, (s.pc n).entering := by
    rw [Finset.sum_comm, ← sum_count cs, ← Finset.sum_add_distrib, ← Finset.sum_add_distrib]
    exact Finset.sum_congr rfl fun n _ => h.count_next ho n
  have hle := Finset.sum_le_sum fun j (_ : j ∈ Finset.univ) => (s.pc j).next_le
  simp only [Finset.sum_add_distrib] at hle
  simp only [State.firstParked, tally] at hfirst
  simp only [ledger, tally] at hfirst ⊢
  omega

/-- At most one writer is chosen or owns the mutex. -/
theorem Inv.length_next_le (h : Inv cfg s) (ho : Ordered cfg s log cs) :
    cs.length + tally Pc.holding s.pc ≤ 1 := by
  have hle := h.length_next ho
  have hparked := (ledger s).parked_cases
  cases h.ok.phase <;> omega

/-- Without writers in `_state` nobody is the next. -/
theorem Inv.next_nil_of_high (h : Inv cfg s) (ho : Ordered cfg s log cs)
    (hhigh : s.state / kWriter = 0) : cs = [] := by
  have hle := h.length_next ho
  have heq : (ledger s).writers = 0 := h.ok.high_eq.symm.trans hhigh
  simp only [Ledger.writers] at heq
  exact List.length_eq_zero_iff.mp (by omega)

theorem Inv.next_nil_of_holding (h : Inv cfg s) (ho : Ordered cfg s log cs)
    (hpc : (s.pc i).holding = 1) : cs = [] := by
  have hle := h.length_next_le ho
  have hone := le_tally Pc.holding s.pc i
  exact List.length_eq_zero_iff.mp (by omega)

theorem Inv.next_nil_of_handing (h : Inv cfg s) (ho : Ordered cfg s log cs)
    (hpc : (s.pc i).handing = 1) : cs = [] := by
  have hle := h.length_next ho
  have hpos : 0 < (ledger s).handing := by
    have hone := le_tally Pc.handing s.pc i
    simp only [ledger]
    omega
  obtain ⟨howner, hfirst, -⟩ := h.ok.handing hpos
  rw [howner, hfirst, Ledger.parked_of_handing (Nat.pos_iff_ne_zero.mp hpos)] at hle
  exact List.length_eq_zero_iff.mp (by omega)

/-- The next writer is alone. -/
theorem Inv.next_eq (h : Inv cfg s) (ho : Ordered cfg s log cs) (hn : 0 < cs.count n) :
    cs = [n] := by
  have hle := h.length_next_le ho
  cases cs with
  | nil => simp at hn
  | cons m cs =>
    rw [List.length_cons] at hle
    obtain rfl := List.length_eq_zero_iff.mp (show cs.length = 0 by omega)
    rw [List.mem_singleton.mp (List.count_pos_iff.mp hn)]

/-! The log. -/

/-- Entries of readers and of unlocks. -/
theorem Ordered.queued_snoc (ho : Ordered cfg s log cs) {e : Entry ι} (hqueued : queued [e] = [])
    (hacquired : acquired [e] = []) (hwriters : t.writers = s.writers) :
    queued (log ++ [e]) = acquired (log ++ [e]) ++ (cs ++ t.writers) := by
  rw [queued_append, acquired_append, hqueued, hacquired, hwriters, List.append_nil,
    List.append_nil]
  exact ho.queued_eq

/-- The log does not depend on more of the state. -/
theorem Ordered.congr (ho : Ordered cfg s log cs) (hpc : t.pc = s.pc)
    (hwriters : t.writers = s.writers) (hreaders : t.readers = s.readers)
    (hprio : t.writersPrio = s.writersPrio) : Ordered cfg t log cs := by
  refine ⟨hwriters ▸ ho.queued_eq, fun n => ?_, fun hfifo => ?_, fun hfifo j hj => ?_⟩
  · rw [hwriters, hpc]
    exact ho.count n
  · obtain ⟨q, hrun, hq⟩ := ho.fair hfifo
    exact ⟨q, hrun, ⟨hwriters ▸ hq.writers, hprio ▸ hq.ahead, hreaders ▸ hq.readers, hpc ▸ hq.owed⟩⟩
  · rw [hprio]
    exact ho.handing hfifo j (hpc ▸ hj)

/-- Only one request is in the section, so no other one hands over. -/
theorem Inv.not_handing (h : Inv cfg s) (hinside : (s.pc i).inside = 1)
    (hhanding : p.handing = 0) (j : ι) : ((Function.update s.pc i p) j).handing ≠ 1 := by
  intro hj
  by_cases hji : j = i
  · rw [hji, Function.update_self, hhanding] at hj
    contradiction
  · rw [Function.update_of_ne hji] at hj
    have hzero : tally Pc.handing s.pc = (s.pc i).handing :=
      h.sole_inside rfl hinside handing_of_inside
    have hsum := add_le_tally Pc.handing s.pc hji
    omega

/-- A move between two places that the log does not tell apart. -/
theorem Ordered.goto (ho : Ordered cfg s log cs) (hlining : p.lining = (s.pc i).lining)
    (howes : ∀ n, p.owesReader n = (s.pc i).owesReader n)
    (hhanding : p.handing = (s.pc i).handing ∨ (cfg.fifo = true → s.writersPrio = 0)) :
    Ordered cfg (s.goto i p) log cs := by
  refine ⟨ho.queued_eq, fun n => ?_, fun hfifo => ?_, fun hfifo j hj => ?_⟩
  · rw [place_stay (t := s.goto i p) rfl Pc.lining hlining]
    exact ho.count n
  · obtain ⟨q, hrun, hq⟩ := ho.fair hfifo
    refine ⟨q, hrun, hq.writers, hq.ahead, hq.readers, fun n => ?_⟩
    simp only [State.goto, tally_stay (howes n)]
    exact hq.owed n
  · rcases hhanding with hstay | hprio
    · rw [place_stay (t := s.goto i p) rfl Pc.handing hstay] at hj
      exact ho.handing hfifo j hj
    · exact hprio hfifo

/-- Such a move, with changes that the log does not depend on. -/
theorem Ordered.move (ho : Ordered cfg s log cs) (p : Pc ι)
    (hpc : t.pc = Function.update s.pc i p) (hlists : t.writers = s.writers ∧ t.readers = s.readers)
    (hprio : t.writersPrio = s.writersPrio) (hlining : p.lining = (s.pc i).lining)
    (howes : ∀ n, p.owesReader n = (s.pc i).owesReader n) (hhanding : p.handing = (s.pc i).handing) :
    Ordered cfg t log cs :=
  (ho.goto hlining howes (.inl hhanding)).congr hpc hlists.1 hlists.2 hprio

theorem Ordered.unlock (ho : Ordered cfg s log cs) (rs : List ι) :
    Ordered cfg s (log ++ [.unlock i rs]) cs := by
  refine ⟨ho.queued_snoc rfl rfl rfl, ho.count, fun hfifo => ?_, ho.handing⟩
  · obtain ⟨q, hrun, hq⟩ := ho.fair hfifo
    exact ⟨q, FairQueue.run_snoc hrun rfl, hq⟩

/-! The readers. -/

theorem Ordered.awaitLockShared (h : Inv cfg s) (ho : Ordered cfg s log cs)
    (hpc : s.pc i = .shSection) :
    Ordered cfg (awaitLockShared cfg s i)
      (log ++ Entry.ofStep s (awaitLockShared cfg s i) i) cs := by
  have hcount : ∀ n p, p.lining = 0 →
      ((Function.update s.pc i p) n).lining = (s.pc n).lining := by
    intro n p hp
    exact place_stay (t := s.goto i p) rfl Pc.lining (by rw [hp, hpc]; rfl) n
  simp only [Entry.ofStep, hpc]
  unfold SharedMutex.awaitLockShared
  by_cases hpass : s.readersPass = 0
  · rw [if_pos hpass, if_neg (not_not.mpr hpass)]
    refine ⟨ho.queued_snoc rfl rfl rfl, fun n => ?_, fun hfifo => ?_, fun _ j hj => ?_⟩
    · simp only [State.goto, State.check, hcount n .shWaiting rfl]
      exact ho.count n
    · obtain ⟨q, hrun, hq⟩ := ho.fair hfifo
      refine ⟨_, FairQueue.run_snoc hrun rfl, hq.writers, hq.ahead, ?_, fun n => ?_⟩
      · apply List.perm_iff_count.mpr
        intro n
        have hn := List.perm_iff_count.mp hq.readers n
        simp only [State.goto, State.check, count_pushBack, List.count_cons, hn, beq_iff_eq]
      · simp only [State.goto, State.check]
        rw [tally_stay (by simp [hpc])]
        exact hq.owed n
    · exact absurd hj (h.not_handing (by simp [hpc]) rfl j)
  · rw [if_neg hpass, if_pos hpass, List.append_nil]
    have ho' : Ordered cfg { s with readersPass := sub32 s.readersPass 1 } log cs :=
      ho.congr rfl rfl rfl rfl
    exact ho'.goto (by simp [hpc]) (by simp [hpc]) (.inl (by simp [hpc]))

/-- One round of the loop of `RunReaders`. -/
theorem Ordered.submitAll (h : Inv cfg s) (ho : Ordered cfg s log cs) {ns : List ι}
    (hpc : s.pc i = .submitAll (n :: ns)) :
    Ordered cfg ((s.submit n).goto i (.submitAll ns)) (log ++ [.submit i n]) cs := by
  have hle := le_tally_of (Pc.owesReader n) hpc
  have hn : s.pc n = .shWaiting := by
    have heq := h.queues.reader n
    simp only [Pc.owesReader, List.count_cons_self] at hle
    exact Pc.eq_shWaiting (by omega)
  have hne : n ≠ i := by
    rintro rfl
    rw [hpc] at hn
    contradiction
  have hplace : ∀ (w : Pc ι → Nat) m, w .shResumed = w .shWaiting →
      w (.submitAll ns) = w (.submitAll (n :: ns)) →
      w (((s.submit n).goto i (.submitAll ns)).pc m) = w (s.pc m) := by
    intro w m hresumed hall
    rw [submit_place w, hn, Pc.resumed]
    by_cases him : i = m
    · subst him
      rw [if_pos rfl, hpc, hall]
    · by_cases hnm : n = m
      · subst hnm
        rw [if_neg him, if_pos rfl, hn, hresumed]
      · rw [if_neg him, if_neg hnm]
  refine ⟨ho.queued_snoc rfl rfl rfl, fun m => ?_, fun hfifo => ?_, fun hfifo j hj => ?_⟩
  · rw [hplace Pc.lining m rfl rfl]
    exact ho.count m
  · obtain ⟨q, hrun, hq⟩ := ho.fair hfifo
    have howed : n ∈ q.owed := by
      apply List.count_pos_iff.mp
      rw [hq.owed]
      simp only [Pc.owesReader, List.count_cons_self] at hle
      omega
    refine ⟨_, FairQueue.run_snoc hrun (if_pos howed), hq.writers, hq.ahead, hq.readers,
      fun m => ?_⟩
    have hmove := tally_move₂ (p := .submitAll ns) (Pc.owesReader m) (f := s.pc) hne
      (s.pc n).resumed
    have hm := hq.owed m
    simp only [hn, hpc, Pc.resumed, Pc.owesReader, List.count_cons, beq_iff_eq] at hmove
    simp only [State.goto, State.submit, hn, Pc.resumed, List.count_erase, beq_iff_eq]
    split at hmove
    · next hnm =>
      rw [if_pos hnm]
      omega
    · next hnm =>
      rw [if_neg hnm]
      omega
  · rw [hplace Pc.handing j rfl rfl] at hj
    exact ho.handing hfifo j hj

/-! The writers. -/

/-- A writer is queued behind the queued readers, if there are any. -/
theorem Fair.queueWriter {q : FairQueue ι} (hq : Fair s cs q) (hfresh : i ∉ cs ++ s.writers)
    (hprio : s.readers = [] → s.writersPrio = s.writers.length) :
    ∃ q', q.step (.queueWriter i) = some q' ∧ q'.ahead ++ q'.behind = cs ++ s.writers ++ [i] ∧
      q'.ahead.length = cs.length + s.writersPrio + (if s.readers.isEmpty then 1 else 0) ∧
      q'.readers = q.readers ∧ q'.owed = q.owed := by
  have hwriters := hq.writers
  have hahead := hq.ahead
  have hperm := hq.readers
  rw [← hwriters] at hfresh
  cases hreaders : s.readers with
  | nil =>
    rw [hreaders] at hperm
    have hbehind : q.behind = [] := by
      have hlength := congrArg List.length hwriters
      have hall := hprio hreaders
      simp only [List.length_append] at hlength
      exact List.length_eq_zero_iff.mp (by omega)
    rw [hbehind, List.append_nil] at hwriters
    refine ⟨{ q with ahead := q.ahead ++ [i] }, ?_, ?_, ?_, rfl, rfl⟩
    · simp only [FairQueue.step, if_neg hfresh, if_pos hperm.eq_nil]
    · simp [hbehind, hwriters]
    · simp [hahead]
  | cons r rs =>
    have hne : q.readers ≠ [] := by
      intro hnil
      rw [hnil, hreaders] at hperm
      exact absurd hperm.nil_eq.symm (List.cons_ne_nil _ _)
    refine ⟨{ q with behind := q.behind ++ [i] }, ?_, ?_, ?_, rfl, rfl⟩
    · simp only [FairQueue.step, if_neg hfresh, if_neg hne]
    · rw [← List.append_assoc, hwriters]
    · simp [hahead]

/-- A writer enters the queue with its `fetch_add`, under `_lock`. -/
theorem Ordered.awaitLock (h : Inv cfg s) (ht : Inv cfg (awaitLock cfg s i))
    (ho : Ordered cfg s log cs) (hpc : s.pc i = .exSection) :
    ∃ cs', Ordered cfg (awaitLock cfg s i) (log ++ [.queueWriter i]) cs' := by
  have hfresh : i ∉ cs ++ s.writers := by
    apply List.count_eq_zero.mp
    rw [ho.count i, hpc]
    rfl
  have hcount : ∀ p n, p.lining = 1 →
      (cs ++ s.writers ++ [i]).count n = ((Function.update s.pc i p) n).lining := by
    intro p n hp
    rw [List.count_append, ho.count, List.count_singleton, at_update Pc.lining]
    by_cases hin : i = n
    · subst hin
      rw [if_pos rfl, hp, hpc]
      simp
    · simp [hin]
  have hstay : ∀ p j, p.handing = 0 → ((Function.update s.pc i p) j).handing ≠ 1 :=
    fun p j hp => h.not_handing (by simp [hpc]) hp j
  have howed : ∀ p n, p.owesReader n = 0 →
      tally (Pc.owesReader n) (Function.update s.pc i p) = tally (Pc.owesReader n) s.pc :=
    fun p n hp => tally_stay (by rw [hp, hpc]; rfl)
  have hqueued : queued (log ++ [.queueWriter i]) =
      acquired (log ++ [.queueWriter i]) ++ (cs ++ s.writers ++ [i]) := by
    rw [queued_append, acquired_append, ho.queued_eq]
    simp [queued, acquired]
  have hle : s.writersPrio ≤ s.writers.length := h.ok.prio_le
  by_cases hhigh : s.state / kWriter = 0
  · obtain rfl := h.next_nil_of_high ho hhigh
    obtain ⟨-, -, -, -, -, hreaders, hwriters, -⟩ := h.ok.readersOnly hhigh
    have hreaders : s.readers = [] := List.length_eq_zero_iff.mp hreaders
    have hwriters : s.writers = [] := List.length_eq_zero_iff.mp hwriters
    rw [hwriters] at hqueued hcount hle
    simp only [SharedMutex.awaitLock, if_pos hhigh]
    refine ⟨[i], ?_, fun n => ?_, fun hfifo => ?_, fun _ j hj => absurd hj (hstay _ j rfl)⟩
    · simpa [State.goto, hwriters] using hqueued
    · simp only [State.goto, hwriters]
      exact hcount (.exFirst _) n rfl
    · obtain ⟨q, hrun, hq⟩ := ho.fair hfifo
      obtain ⟨q', hstep, hline, hahead, hsame⟩ := hq.queueWriter hfresh
        (fun _ => Nat.le_antisymm (hwriters ▸ hle) (by simp [hwriters]))
      refine ⟨q', FairQueue.run_snoc hrun hstep, ?_, ?_, hsame.1 ▸ hq.readers, fun n => ?_⟩
      · simpa [State.goto, hwriters] using hline
      · simp only [hreaders, List.isEmpty_nil, if_true, List.length_nil] at hahead
        simp only [State.goto, List.length_singleton]
        omega
      · simp only [State.goto, howed (.exFirst _) n rfl, hsame.2]
        exact hq.owed n
  · have hlt : s.writers.length + 1 < 2 ^ 32 := by
      have hle : (SharedMutex.awaitLock cfg s i).writers.length ≤
        (ledger (SharedMutex.awaitLock cfg s i)).writers := Nat.le_add_left _ _
      have hfits := ht.fits.writers_lt
      have hlength : (SharedMutex.awaitLock cfg s i).writers.length = s.writers.length + 1 := by
        simp only [SharedMutex.awaitLock, if_neg hhigh, State.goto, List.length_append,
          List.length_singleton]
      omega
    simp only [SharedMutex.awaitLock, if_neg hhigh]
    rw [List.append_assoc] at hqueued
    refine ⟨cs, hqueued, fun n => ?_, fun hfifo => ?_, fun _ j hj => absurd hj (hstay _ j rfl)⟩
    · simp only [State.goto, ← List.append_assoc]
      exact hcount .exWaiting n rfl
    · obtain ⟨q, hrun, hq⟩ := ho.fair hfifo
      obtain ⟨q', hstep, hline, hahead, hsame⟩ := hq.queueWriter hfresh
        (fun hreaders => h.ok.prio_fifo hfifo (by simp [ledger, hreaders]))
      refine ⟨q', FairQueue.run_snoc hrun hstep, ?_, ?_, hsame.1 ▸ hq.readers, fun n => ?_⟩
      · rw [hline, List.append_assoc]
        rfl
      · have hbit : (if s.readers.isEmpty then 1 else 0) ≤ 1 := by split <;> omega
        simp only [State.goto, hfifo, if_true]
        rw [add32_of_lt (by omega), hahead, Nat.add_assoc]
      · simp only [State.goto, howed .exWaiting n rfl, hsame.2]
        exact hq.owed n

/-- While a writer owns the mutex every reader that was taken is submitted. -/
theorem Inv.owed_nil (h : Inv cfg s) {q : FairQueue ι} (hq : Fair s cs q)
    (howner : 0 < (ledger s).owner) : q.owed = [] := by
  obtain ⟨-, -, -, -, -, hahead⟩ := h.ok.owned howner
  have hactive : tally Pc.active s.pc = 0 := by
    simp only [Ledger.ahead, ledger] at hahead
    omega
  apply List.eq_nil_iff_forall_not_mem.mpr
  intro n hn
  have hpos := List.count_pos_iff.mpr hn
  have hmono : tally (Pc.owesReader n) s.pc ≤ tally Pc.active s.pc := by
    apply tally_mono
    intro j
    induction s.pc j with
    | submitAll ns => exact List.count_le_length
    | unlocking k ih => exact ih
    | _ => exact Nat.zero_le _
  rw [hq.owed] at hpos
  omega

/-- The next writer acquires. -/
theorem Fair.acquire {q : FairQueue ι} (hq : Fair s [n] q) (howed : q.owed = []) :
    ∃ q', q.step (.acquire n) = some q' ∧ q'.ahead ++ q'.behind = s.writers ∧
      q'.ahead.length = s.writersPrio ∧ q'.readers = q.readers ∧ q'.owed = q.owed := by
  have hwriters := hq.writers
  have hahead := hq.ahead
  cases hqueue : q.ahead with
  | nil =>
    rw [hqueue, List.length_nil, List.length_singleton] at hahead
    omega
  | cons m ws =>
    rw [hqueue] at hwriters hahead
    obtain ⟨rfl, hws⟩ := List.cons.inj hwriters
    refine ⟨{ q with ahead := ws }, ?_, hws, ?_, rfl, rfl⟩
    · simp [FairQueue.step, hqueue, howed]
    · rw [List.length_cons, List.length_singleton, Nat.add_comm] at hahead
      exact Nat.add_left_cancel hahead

/-- The entry of an acquisition, and the state after it. -/
theorem Ordered.acquire (h : Inv cfg s) (ho : Ordered cfg s log [n])
    (howner : 0 < (ledger s).owner) (hwriters : t.writers = s.writers)
    (hreaders : t.readers = s.readers) (hprio : t.writersPrio = s.writersPrio)
    (hlining : ∀ m, (t.pc m).lining + (if n = m then 1 else 0) = (s.pc m).lining)
    (howes : ∀ m, tally (Pc.owesReader m) t.pc = tally (Pc.owesReader m) s.pc)
    (hhanding : ∀ j, (t.pc j).handing = (s.pc j).handing) :
    Ordered cfg t (log ++ [.acquire n]) [] := by
  refine ⟨?_, fun m => ?_, fun hfifo => ?_, fun hfifo j hj => ?_⟩
  · rw [queued_append, acquired_append, ho.queued_eq, hwriters]
    simp [queued, acquired]
  · have hm := ho.count m
    have hplace := hlining m
    rw [List.count_append, List.count_singleton] at hm
    simp only [beq_iff_eq] at hm
    rw [List.nil_append, hwriters]
    omega
  · obtain ⟨q, hrun, hq⟩ := ho.fair hfifo
    obtain ⟨q', hstep, hline, hahead, hsame⟩ := hq.acquire (h.owed_nil hq howner)
    refine ⟨q', FairQueue.run_snoc hrun hstep, ?_, ?_, ?_, fun m => ?_⟩
    · rw [hline, hwriters]
      rfl
    · rw [hahead, hprio, List.length_nil, Nat.zero_add]
    · rw [hsame.1, hreaders]
      exact hq.readers
    · rw [hsame.2, howes]
      exact hq.owed m
  · rw [hhanding] at hj
    rw [hprio]
    exact ho.handing hfifo j hj

/-- `AwaitLock` returns false. -/
theorem Ordered.acquireHere (h : Inv cfg s) (ho : Ordered cfg s log cs)
    (hpc : s.pc i = .unlocking .exHeld) :
    Ordered cfg ({ s with lock := .free }.goto i .exHeld) (log ++ [.acquire i]) [] := by
  have hcount := h.count_next ho i
  rw [hpc, Pc.entering] at hcount
  obtain rfl := h.next_eq ho (n := i) (by omega)
  have howner : 0 < (ledger s).owner := le_tally_of Pc.owner hpc
  refine ho.acquire h howner rfl rfl rfl (fun m => ?_) (fun m => ?_) (fun j => ?_)
  · simp only [State.goto, at_update Pc.lining]
    by_cases him : i = m
    · subst him
      rw [if_pos rfl, if_pos rfl, hpc]
      rfl
    · rw [if_neg him, if_neg him, Nat.add_zero]
  · exact tally_stay (by simp [hpc])
  · exact place_stay (t := s.goto i .exHeld) rfl Pc.handing (by simp [hpc]) j

/-- `Run(node)` of a writer. -/
theorem Ordered.submitOne (h : Inv cfg s) (ho : Ordered cfg s log cs)
    (hpc : s.pc i = .submitOne n) :
    Ordered cfg ((s.submit n).goto i .idle) (log ++ [.acquire n]) [] := by
  have hle := le_tally_of (Pc.owesWriter n) hpc
  simp only [Pc.owesWriter, if_true] at hle
  have hn : s.pc n = .exWaiting := by
    have heq := h.queues.writer n
    exact Pc.eq_exWaiting (by omega)
  have hne : n ≠ i := by
    rintro rfl
    rw [hpc] at hn
    contradiction
  have hcount := h.count_next ho n
  obtain rfl := h.next_eq ho (n := n) (by omega)
  have howner : 0 < (ledger s).owner := le_tally_of Pc.owner hpc
  refine ho.acquire h howner rfl rfl rfl (fun m => ?_) (fun m => ?_) (fun j => ?_)
  · rw [submit_place Pc.lining, hn]
    by_cases him : i = m
    · subst him
      rw [if_pos rfl, if_neg hne, hpc]
      rfl
    · by_cases hnm : n = m
      · subst hnm
        rw [if_neg him, if_pos rfl, if_pos rfl, hn]
        rfl
      · rw [if_neg him, if_neg hnm, if_neg hnm, Nat.add_zero]
  · have hmove := tally_move₂ (p := .idle) (Pc.owesReader m) (f := s.pc) hne (s.pc n).resumed
    simp only [hn, hpc, Pc.resumed, Pc.owesReader] at hmove
    simp only [State.goto, State.submit, hn, Pc.resumed]
    omega
  · rw [submit_place Pc.handing, hn]
    by_cases hij : i = j
    · subst hij
      rw [if_pos rfl, hpc]
      rfl
    · by_cases hnj : n = j
      · subst hnj
        rw [if_neg hij, if_pos rfl, hn]
        rfl
      · rw [if_neg hij, if_neg hnj]

/-! The unlock. -/

theorem Ordered.runWriter (h : Inv cfg s) (ho : Ordered cfg s log []) (hpc : s.pc i = .slowSection)
    (hwriters : s.writers ≠ []) (hprio : cfg.fifo = true → s.writersPrio ≠ 0) {v : State ι}
    (hv : v.pc = s.pc ∧ v.writers = s.writers ∧ v.readers = s.readers ∧
      v.writersPrio = s.writersPrio) : ∃ cs', Ordered cfg (runWriter cfg v i) log cs' := by
  obtain ⟨n, ns, hns⟩ := List.exists_cons_of_ne_nil hwriters
  have hle : s.writersPrio ≤ s.writers.length := h.ok.prio_le
  have hlt : s.writers.length < 2 ^ 32 := by
    have hlength : s.writers.length ≤ (ledger s).writers := Nat.le_add_left _ _
    exact hlength.trans_lt h.fits.writers_lt
  obtain ⟨hvpc, hvwriters, hvreaders, hvprio⟩ := hv
  obtain ⟨t, ht⟩ : ∃ t, t = SharedMutex.runWriter cfg v i := ⟨_, rfl⟩
  have hfields : t.pc = Function.update s.pc i (.unlocking (.submitOne n)) ∧ t.writers = ns ∧
      t.readers = s.readers ∧
      (cfg.fifo = true → t.writersPrio = sub32 s.writersPrio 1) := by
    rw [ht]
    cases hfifo : cfg.fifo <;>
    simp [SharedMutex.runWriter, hfifo, State.check, State.goto, hvwriters, hns, hvpc, hvreaders,
      hvprio]
  obtain ⟨htpc, htwriters, htreaders, htprio⟩ := hfields
  rw [← ht]
  refine ⟨[n], ?_, fun m => ?_, fun hfifo => ?_, fun _ j hj => ?_⟩
  · rw [ho.queued_eq, htwriters, hns]
    rfl
  · rw [place_stay htpc Pc.lining (by simp [hpc]), htwriters, ← ho.count m, hns]
    rfl
  · obtain ⟨q, hrun, hq⟩ := ho.fair hfifo
    have hpos := hprio hfifo
    have hsub := sub32_of_le (show s.writersPrio < 2 ^ 32 by omega) (show 1 ≤ s.writersPrio by omega)
    refine ⟨q, hrun, ?_, ?_, htreaders ▸ hq.readers, fun m => ?_⟩
    · rw [hq.writers, htwriters, hns]
      rfl
    · rw [hq.ahead, htprio hfifo, hsub, List.length_nil, List.length_singleton]
      omega
    · rw [htpc, tally_stay (by simp [hpc])]
      exact hq.owed m
  · rw [htpc] at hj
    exact absurd hj (h.not_handing (by simp [hpc]) rfl j)

/-- `RunReaders` takes the readers, and names the next writer, if there is one. -/
theorem Ordered.take (h : Inv cfg s) (ho : Ordered cfg s log []) (cs : List ι)
    (hinside : (s.pc i).inside = 1) (hplace : (s.pc i).lining = 0 ∧ ∀ n, (s.pc i).owesReader n = 0)
    (hprio : cfg.fifo = true → s.writersPrio = 0)
    (hpc : t.pc = Function.update s.pc i (.unlocking (.submitAll s.readers)))
    (hwriters : cs ++ t.writers = s.writers) (hreaders : t.readers = [])
    (hnext : cfg.fifo = true → cs.length + t.writersPrio = s.writers.length) :
    Ordered cfg t (log ++ [.runReaders s.readers]) cs := by
  refine ⟨?_, fun m => ?_, fun hfifo => ?_, fun _ j hj => ?_⟩
  · rw [queued_append, acquired_append, ho.queued_eq, hwriters]
    simp [queued, acquired]
  · rw [place_stay hpc Pc.lining hplace.1.symm, hwriters]
    exact ho.count m
  · obtain ⟨q, hrun, hq⟩ := ho.fair hfifo
    have hahead : q.ahead = [] := by
      have hlength := hq.ahead
      rw [hprio hfifo, List.length_nil] at hlength
      exact List.length_eq_zero_iff.mp hlength
    have hbehind : q.behind = s.writers := by
      have hline := hq.writers
      rwa [hahead] at hline
    have hstep : q.step (.runReaders s.readers) = some
        { ahead := q.behind, readers := [], behind := [], owed := q.owed ++ s.readers } := by
      simp only [FairQueue.step]
      exact if_pos ⟨hahead, hq.readers.symm⟩
    refine ⟨_, FairQueue.run_snoc hrun hstep, ?_, ?_, ?_, fun m => ?_⟩
    · rw [List.append_nil, hbehind, hwriters]
    · rw [hbehind, hnext hfifo]
    · rw [hreaders]
    · have hupdate := tally_update (Pc.owesReader m) s.pc i (.unlocking (.submitAll s.readers))
      rw [hplace.2] at hupdate
      simp only [Pc.owesReader] at hupdate
      rw [List.count_append, hq.owed m, hpc]
      omega
  · rw [hpc] at hj
    exact absurd hj (h.not_handing hinside rfl j)

theorem Ordered.slowUnlock (h : Inv cfg s) (ho : Ordered cfg s log cs)
    (hpc : s.pc i = .slowSection) :
    ∃ cs', Ordered cfg (slowUnlock cfg s i)
      (log ++ .unlock i s.readers :: Entry.taken ((slowUnlock cfg s i).pc i)) cs' := by
  obtain rfl := h.next_nil_of_holding ho (i := i) (by simp [hpc])
  have howner : 0 < (ledger s).owner := le_tally_of Pc.owner hpc
  have hhigh : s.state / kWriter = s.writers.length + 1 := h.ok.owner_high howner
  have hle : s.writersPrio ≤ s.writers.length := h.ok.prio_le
  have hu : u32 (s.state / kWriter) = s.state / kWriter := u32_of_lt h.high_lt
  have hempty : s.writers = [] ↔ s.writers.length = 0 := List.length_eq_zero_iff.symm
  have ho' := ho.unlock (i := i) s.readers
  have hrunWriter : ∀ v : State ι, v.pc = s.pc ∧ v.writers = s.writers ∧ v.readers = s.readers ∧
      v.writersPrio = s.writersPrio → s.writers ≠ [] →
      (cfg.fifo = true → s.writersPrio ≠ 0) → ∃ cs', Ordered cfg (SharedMutex.runWriter cfg v i)
        (log ++ .unlock i s.readers :: Entry.taken ((SharedMutex.runWriter cfg v i).pc i)) cs' := by
    intro v hv hwriters hprio
    obtain ⟨p, hp, htaken⟩ := runWriter_pc cfg i v
    rw [hp, Function.update_self, htaken]
    exact ho'.runWriter h hpc hwriters hprio hv
  unfold SharedMutex.slowUnlock
  by_cases hprio : cfg.fifo = true ∧ s.writersPrio ≠ 0
  · simp only [if_pos hprio]
    exact hrunWriter _ ⟨rfl, rfl, rfl, rfl⟩ (hempty.not.mpr (by omega)) fun _ => hprio.2
  have hzero : cfg.fifo = true → s.writersPrio = 0 := fun hfifo =>
    not_not.mp fun hne => hprio ⟨hfifo, hne⟩
  simp only [if_neg hprio]
  by_cases hreaders : s.readers = []
  · simp only [hreaders, ne_eq, not_true, if_false]
    by_cases hlifo : ¬ cfg.fifo = true ∧ s.state / kWriter ≠ 1
    · have hrun := hrunWriter { s with state := sub64 s.state kWriter } ⟨rfl, rfl, rfl, rfl⟩
        (hempty.not.mpr (by omega)) fun hfifo => absurd hfifo hlifo.1
      rw [hreaders] at hrun
      simp only [if_pos hlifo]
      exact hrun
    · simp only [if_neg hlifo]
      have hcongr : Ordered cfg (passReaders { s with state := sub64 s.state kWriter } s.state)
          (log ++ [.unlock i s.readers]) [] := ho'.congr rfl rfl rfl rfl
      have hgoto := hcongr.goto (i := i) (p := .unlocking .idle)
        (by simp [passReaders, State.check, hpc]) (by simp [passReaders, State.check, hpc])
        (.inl (by simp [passReaders, State.check, hpc]))
      refine ⟨[], ?_⟩
      rw [hreaders] at hgoto
      simpa [State.goto, Entry.taken] using hgoto
  · simp only [ne_eq, hreaders, not_false_iff, if_true]
    unfold SharedMutex.runReaders
    rw [hu]
    by_cases hone : s.state / kWriter = 1
    · have hlast : s.writers = [] := hempty.mpr (by omega)
      rw [if_neg (not_not.mpr hone)]
      refine ⟨[], ?_⟩
      have htake := ho'.take h [] (i := i) (t := takeReaders
        (passReaders { s with state := sub64 s.state kWriter } s.state) i)
        (by simp [hpc]) (by simp [hpc]) hzero rfl (List.nil_append _) rfl fun hfifo => by
          have hnone := hzero hfifo
          simp [takeReaders, passReaders, State.check, State.goto, hlast, hnone]
      simpa [takeReaders, passReaders, State.goto, State.check, Entry.taken] using htake
    · rw [if_pos hone]
      have hcongr : Ordered cfg { s with state := sub64 s.state kWriter }
          (log ++ [.unlock i s.readers]) [] := ho'.congr rfl rfl rfl rfl
      have hgoto := hcongr.goto (i := i) (p := .runReaders s.state) (by simp [hpc]) (by simp [hpc])
        (.inr hzero)
      refine ⟨[], ?_⟩
      simpa [State.goto, Entry.taken] using hgoto

theorem Ordered.nextWriter (h : Inv cfg s) (ho : Ordered cfg s log cs) {old : Nat}
    (hpc : s.pc i = .nextWriter old) :
    ∃ cs', Ordered cfg (nextWriter cfg s i old)
      (log ++ Entry.taken ((nextWriter cfg s i old).pc i)) cs' := by
  obtain rfl := h.next_nil_of_handing ho (i := i) (by simp [hpc])
  have hhand : 0 < (ledger s).handing := le_tally_of Pc.handing hpc
  obtain ⟨-, -, -, -, -, -, hhanded, -, hqueued⟩ := h.ok.handing hhand
  have hsole : tally Pc.handed s.pc = old / kWriter :=
    h.sole_inside hpc rfl fun q hq => by cases q <;> simp at hq ⊢
  obtain ⟨n, ns, hns⟩ := List.exists_cons_of_ne_nil (List.length_pos_iff.mp hqueued)
  have hold : old / kWriter = ns.length + 2 := by
    have hlength : (ledger s).queuedW = ns.length + 1 := congrArg List.length hns
    have heq : tally Pc.handed s.pc = (ledger s).queuedW + 1 := hhanded
    omega
  have hlt : ns.length + 2 < 2 ^ 32 := by
    have hle := h.queues.writers_le.trans_lt h.few.writing_lt
    have hlength : s.writers.length ≤ (ledger s).writers := Nat.le_add_left _ _
    rw [hns, List.length_cons] at hlength
    omega
  have hprio : sub32 (u32 (old / kWriter)) 2 = ns.length := by
    rw [hold, u32_of_lt hlt, sub32_of_le hlt (by omega), Nat.add_sub_cancel]
  refine ⟨[n], ?_⟩
  simp only [SharedMutex.nextWriter, hns]
  have htake := ho.take h [n] (i := i) (t := takeReaders { s with
      writers := ns
      writersFirst := some n
      writersPrio := if cfg.fifo then sub32 (u32 (old / kWriter)) 2 else s.writersPrio } i)
    (by simp [hpc]) (by simp [hpc]) (fun hfifo => ho.handing hfifo i (by simp [hpc])) rfl hns.symm
    rfl fun hfifo => by
      simp [takeReaders, State.goto, hfifo, hprio, hns, Nat.add_comm]
  simpa [takeReaders, State.goto, Entry.taken] using htake

/-! Every step. -/

theorem Ordered.acquireLock (ho : Ordered cfg s log cs) (hstep : s.acquire i p = some t)
    (hlining : p.lining = (s.pc i).lining) (howes : ∀ n, p.owesReader n = (s.pc i).owesReader n)
    (hhanding : p.handing = (s.pc i).handing) : Ordered cfg t log cs := by
  unfold State.acquire at hstep
  split at hstep
  · cases hstep
    exact ho.move p rfl ⟨rfl, rfl⟩ rfl hlining howes hhanding
  · contradiction

/-- Every step of a request keeps the order, with what it writes down. -/
theorem Ordered.advance (h : Inv cfg s) (ht : Inv cfg t) (ho : Ordered cfg s log cs) {weak : Bool}
    (hstep : advance cfg s i weak = some t) :
    ∃ cs', Ordered cfg t (log ++ Entry.ofStep s t i) cs' := by
  unfold SharedMutex.advance at hstep
  cases hpc : s.pc i with
  | idle | shWaiting | exWaiting => simp [hpc] at hstep
  | shEnter | exEnter | slowEnter =>
    simp only [hpc] at hstep
    rw [Entry.ofStep, hpc, List.append_nil]
    exact ⟨cs, ho.acquireLock hstep (by simp [hpc]) (by simp [hpc]) (by simp [hpc])⟩
  | shResumed | exResumed =>
    simp only [hpc, Option.some.injEq] at hstep
    subst hstep
    rw [Entry.ofStep, hpc, List.append_nil]
    exact ⟨cs, ho.goto (by simp [hpc]) (by simp [hpc]) (.inl (by simp [hpc]))⟩
  | shSection =>
    simp only [hpc, Option.some.injEq] at hstep
    subst hstep
    exact ⟨cs, ho.awaitLockShared h hpc⟩
  | shHeld =>
    simp only [hpc, Option.some.injEq] at hstep
    subst hstep
    rw [Entry.ofStep, hpc, List.append_nil]
    refine ⟨cs, ho.move _ rfl ⟨rfl, rfl⟩ rfl ?_ ?_ ?_⟩ <;> split <;> simp [hpc]
  | tryShared expected =>
    simp only [hpc, Option.some.injEq] at hstep
    subst hstep
    rw [Entry.ofStep, hpc, List.append_nil]
    unfold tryLockSharedSwap
    split
    · exact ⟨cs, ho.move .shHeld rfl ⟨rfl, rfl⟩ rfl (by simp [hpc]) (by simp [hpc]) (by simp [hpc])⟩
    · refine ⟨cs, ho.goto ?_ ?_ (.inl ?_)⟩ <;> split <;> simp [hpc]
  | shLeave =>
    simp only [hpc, Option.some.injEq] at hstep
    subst hstep
    rw [Entry.ofStep, hpc, List.append_nil]
    refine ⟨cs, ho.move _ rfl ⟨rfl, rfl⟩ rfl ?_ ?_ ?_⟩ <;> split <;> simp [hpc]
  | shWake =>
    simp only [hpc, Option.some.injEq] at hstep
    subst hstep
    rw [Entry.ofStep, hpc, List.append_nil]
    cases hfirst : s.writersFirst with
    | none =>
      exact ⟨cs, ho.move .idle rfl ⟨rfl, rfl⟩ rfl (by simp [hpc]) (by simp [hpc]) (by simp [hpc])⟩
    | some n =>
      exact ⟨cs, ho.move (.submitOne n) rfl ⟨rfl, rfl⟩ rfl (by simp [hpc]) (by simp [hpc])
        (by simp [hpc])⟩
  | tryLock await =>
    simp only [hpc, Option.some.injEq] at hstep
    subst hstep
    rw [Entry.ofStep, hpc, List.append_nil]
    unfold tryLockAwaitSwap
    split
    · exact ⟨cs, ho.move .exHeld rfl ⟨rfl, rfl⟩ rfl (by simp [hpc]) (by simp [hpc]) (by simp [hpc])⟩
    · refine ⟨cs, ho.goto ?_ ?_ (.inl ?_)⟩ <;> cases await <;> simp [hpc, lockFailed]
  | exSection =>
    simp only [hpc, Option.some.injEq] at hstep
    subst hstep
    rw [Entry.ofStep, hpc]
    exact ho.awaitLock h ht hpc
  | exFirst r =>
    simp only [hpc, Option.some.injEq] at hstep
    subst hstep
    rw [Entry.ofStep, hpc, List.append_nil]
    refine ⟨cs, ho.move _ rfl ⟨rfl, rfl⟩ rfl ?_ ?_ ?_⟩ <;> split <;> simp [hpc]
  | exWait r =>
    simp only [hpc, Option.some.injEq] at hstep
    subst hstep
    rw [Entry.ofStep, hpc, List.append_nil]
    unfold awaitLockWait
    split
    · exact ⟨cs, ho.move (.unlocking .exHeld) rfl ⟨rfl, rfl⟩ rfl (by simp [hpc]) (by simp [hpc])
        (by simp [hpc])⟩
    · exact ⟨cs, ho.move .exWaiting rfl ⟨rfl, rfl⟩ rfl (by simp [hpc]) (by simp [hpc])
        (by simp [hpc])⟩
  | exHeld =>
    simp only [hpc, Option.some.injEq] at hstep
    subst hstep
    rw [Entry.ofStep, hpc]
    unfold unlockHere
    by_cases hfast : s.state = kWriter
    · simp only [if_pos hfast]
      have ho' := ho.unlock (i := i) s.readers
      exact ⟨cs, ho'.move .idle rfl ⟨rfl, rfl⟩ rfl (by simp [hpc]) (by simp [hpc]) (by simp [hpc])⟩
    · simp only [if_neg hfast, List.append_nil]
      exact ⟨cs, ho.goto (by simp [hpc]) (by simp [hpc]) (.inl (by simp [hpc]))⟩
  | slowSection =>
    simp only [hpc, Option.some.injEq] at hstep
    subst hstep
    rw [Entry.ofStep, hpc]
    exact ho.slowUnlock h hpc
  | runReaders old =>
    simp only [hpc, Option.some.injEq] at hstep
    subst hstep
    rw [Entry.ofStep, hpc, List.append_nil]
    exact ⟨cs, ho.move (.nextWriter old) rfl ⟨rfl, rfl⟩ rfl (by simp [hpc]) (by simp [hpc])
      (by simp [hpc])⟩
  | nextWriter old =>
    simp only [hpc, Option.some.injEq] at hstep
    subst hstep
    rw [Entry.ofStep, hpc]
    exact ho.nextWriter h hpc
  | unlocking k =>
    simp only [hpc, Option.some.injEq] at hstep
    subst hstep
    have hwrong := tally_eq_zero.mp h.wrong_eq i
    rw [hpc] at hwrong
    rw [Entry.ofStep, hpc]
    cases k with
    | exHeld => exact ⟨[], ho.acquireHere h hpc⟩
    | idle | shHeld | submitOne | submitAll =>
      simp only [List.append_nil]
      exact ⟨cs, ho.move _ rfl ⟨rfl, rfl⟩ rfl (by simp [hpc]) (by simp [hpc]) (by simp [hpc])⟩
    | _ => contradiction
  | submitOne n =>
    simp only [hpc, Option.some.injEq] at hstep
    subst hstep
    rw [Entry.ofStep, hpc]
    exact ⟨[], ho.submitOne h hpc⟩
  | submitAll ns =>
    cases ns with
    | nil =>
      simp only [hpc, Option.some.injEq] at hstep
      subst hstep
      rw [Entry.ofStep, hpc, List.append_nil]
      exact ⟨cs, ho.goto (by simp [hpc]) (by simp [hpc]) (.inl (by simp [hpc]))⟩
    | cons n ns =>
      simp only [hpc, Option.some.injEq] at hstep
      subst hstep
      rw [Entry.ofStep, hpc]
      exact ⟨cs, ho.submitAll h hpc⟩

theorem Ordered.call (ho : Ordered cfg s log cs) {op : Op} (hpc : s.pc i = .idle) :
    Ordered cfg (call s i op) log cs := by
  cases op with
  | lock | tryLock | tryLockShared =>
    refine ho.move _ rfl ⟨rfl, rfl⟩ rfl ?_ ?_ ?_ <;> split <;> simp [hpc, lockFailed]
  | lockShared => refine ho.move _ rfl ⟨rfl, rfl⟩ rfl ?_ ?_ ?_ <;> split <;> simp [hpc]

end Yaclib.SharedMutex
