import Yaclib.Coro.SharedMutex.Places

/-!
The invariant of the shared mutex, and that every step of every request keeps
it.
-/

namespace Yaclib.SharedMutex

open Concurrency

variable {ι : Type} [DecidableEq ι]

variable {cfg : Config} {s t : State ι} {i : ι} {p : Pc ι}

theorem at_update (w : Pc ι → Nat) (f : ι → Pc ι) (i n : ι) (p : Pc ι) :
    w (Function.update f i p n) = if i = n then w p else w (f n) := by
  by_cases hin : i = n
  · simp [hin]
  · simp [hin, Function.update_of_ne (Ne.symm hin)]

theorem place_stay (hpc : t.pc = Function.update s.pc i p) (w : Pc ι → Nat)
    (hw : w p = w (s.pc i)) (n : ι) : w (t.pc n) = w (s.pc n) := by
  rw [hpc, at_update w]
  split
  · next hin => rw [hw, hin]
  · rfl

variable [Fintype ι]

/-- 1 while the first writer is suspended and not submitted. -/
def State.firstParked (s : State ι) : Nat :=
  (ledger s).parked + tally Pc.wakes s.pc

def State.firstIs (s : State ι) (n : ι) : Nat :=
  if s.writersFirst = some n then s.firstParked else 0

/-- Every suspended request is owed exactly one submission: by a queue, by a
thread that is about to submit it, or by the readers the first writer waits
for. -/
structure Queues (s : State ι) : Prop where
  reader : ∀ n, s.readers.count n + tally (Pc.owesReader n) s.pc = (s.pc n).shParked
  writer : ∀ n, s.writers.count n + tally (Pc.owesWriter n) s.pc + s.firstIs n =
    (s.pc n).exParked
  named : 0 < s.firstParked → ∃ n, s.writersFirst = some n
  naming : ∀ i r, s.pc i = .exWait r → s.writersFirst = some i

/-- With less than `2 ^ 32` readers and writers, the counters account for all requests
(`Ledger.Ok`), every suspended request is owed its submission once, and one section of
`_lock` is open at a time. A request is submitted once at most between its call and its
unlock. -/
structure Inv (cfg : Config) (s : State ι) : Prop where
  few : s.Few
  ok : (ledger s).Ok cfg.fifo
  queues : Queues s
  inside_eq : tally Pc.inside s.pc = s.lock.inside
  wrong_eq : tally Pc.wrong s.pc = 0
  submits_le : ∀ n, s.submits n ≤ 1
  asking : ∀ n, (s.pc n).asking = true → s.submits n = 0
  asserts_eq : s.asserts = true

/-! Both halves of `_state` stay in range while there are few requests. -/

theorem sum_count (ns : List ι) : ∑ n, ns.count n = ns.length := by
  induction ns with
  | nil => simp
  | cons a ns ih => simp [List.count_cons, Finset.sum_add_distrib, ih]

theorem Pc.reader_le (p : Pc ι) :
    p.active + p.transit + p.shParked ≤ p.reading + ∑ n, p.owesReader n := by
  induction p with
  | submitAll ns => simp [sum_count]
  | unlocking k ih =>
    simp only [Pc.active, Pc.transit, Pc.shParked, Pc.reading, Pc.owesReader]
    omega
  | _ => simp

theorem Pc.writer_le (p : Pc ι) :
    p.owner + p.first + p.handing + p.exParked ≤ p.writing + p.wakes + ∑ n, p.owesWriter n := by
  induction p with
  | unlocking k ih =>
    simp only [Pc.owner, Pc.first, Pc.handing, Pc.exParked, Pc.writing, Pc.wakes, Pc.owesWriter]
    omega
  | _ => simp

theorem Queues.readers_le (h : Queues s) : (ledger s).readers ≤ tally Pc.reading s.pc := by
  have hsum : ∑ n, (s.pc n).shParked = s.readers.length + ∑ j, ∑ n, (s.pc j).owesReader n := by
    rw [Finset.sum_comm, ← sum_count s.readers, ← Finset.sum_add_distrib]
    exact Finset.sum_congr rfl fun n _ => (h.reader n).symm
  have hle := Finset.sum_le_sum fun j (_ : j ∈ Finset.univ) => (s.pc j).reader_le
  simp only [Finset.sum_add_distrib] at hle
  simp only [Ledger.readers, ledger, tally]
  omega

/-- A writer that hands over is not counted in `_state` any more. -/
theorem Queues.writers_le (h : Queues s) :
    (ledger s).writers + (ledger s).handing ≤ tally Pc.writing s.pc := by
  have hfirst : s.firstParked ≤ ∑ n, s.firstIs n := by
    cases hw : s.writersFirst with
    | none =>
      have hnone : ¬ 0 < s.firstParked := fun hpos => by simpa [hw] using h.named hpos
      omega
    | some n => simp [State.firstIs, hw]
  have hsum : ∑ n, (s.pc n).exParked =
      s.writers.length + ∑ j, ∑ n, (s.pc j).owesWriter n + ∑ n, s.firstIs n := by
    rw [Finset.sum_comm, ← sum_count s.writers, ← Finset.sum_add_distrib, ← Finset.sum_add_distrib]
    exact Finset.sum_congr rfl fun n _ => (h.writer n).symm
  have hle := Finset.sum_le_sum fun j (_ : j ∈ Finset.univ) => (s.pc j).writer_le
  simp only [Finset.sum_add_distrib] at hle
  simp only [State.firstParked, tally] at hfirst
  simp only [Ledger.writers, ledger, tally] at hfirst ⊢
  omega

theorem Queues.fits (h : Queues s) (hfew : s.Few) : (ledger s).Fits :=
  ⟨h.readers_le.trans_lt hfew.reading_lt,
    (Nat.le_of_add_right_le h.writers_le).trans_lt hfew.writing_lt⟩

theorem Inv.fits (h : Inv cfg s) : (ledger s).Fits :=
  h.queues.fits h.few

theorem Inv.high_lt (h : Inv cfg s) : s.state / kWriter < 2 ^ 32 :=
  h.ok.high_eq.trans_lt h.fits.writers_lt

theorem Inv.low_lt (h : Inv cfg s) : s.state % kWriter < 2 ^ 32 :=
  h.ok.low_eq.trans_lt h.fits.readers_lt

theorem Inv.held (h : Inv cfg s) (hpc : s.pc i = p) (hinside : 0 < p.inside) :
    s.lock = .held := by
  have hle := le_tally_of Pc.inside hpc
  have heq := h.inside_eq
  cases hlock : s.lock with
  | held => rfl
  | _ =>
    simp only [hlock, Lock.inside] at heq
    omega

/-! What a step that moves one request has to show. -/

theorem Inv.goto (h : Inv cfg s) (hpc : t.pc = Function.update s.pc i p)
    (hok : (ledger t).Ok cfg.fifo) (hqueues : Queues t) (hfew : t.Few)
    (hinside : p.inside + s.lock.inside = (s.pc i).inside + t.lock.inside)
    (hwrong : p.wrong = 0) (hsubmits : t.submits = s.submits)
    (hasking : p.asking = true → s.submits i = 0) (hasserts : t.asserts = true) : Inv cfg t := by
  refine ⟨hfew, hok, hqueues, ?_, ?_, fun n => ?_, fun n hn => ?_, hasserts⟩
  · have hupdate := tally_update Pc.inside s.pc i p
    have heq := h.inside_eq
    rw [← hpc] at hupdate
    omega
  · have hupdate := tally_update Pc.wrong s.pc i p
    have heq := h.wrong_eq
    rw [← hpc] at hupdate
    omega
  · rw [hsubmits]
    exact h.submits_le n
  · rw [hpc] at hn
    rw [hsubmits]
    by_cases hni : n = i
    · subst hni
      rw [Function.update_self] at hn
      exact hasking hn
    · rw [Function.update_of_ne hni] at hn
      exact h.asking n hn

theorem firstIs_congr (hfirst : t.writersFirst = s.writersFirst)
    (hparked : t.firstParked = s.firstParked) (n : ι) : t.firstIs n = s.firstIs n := by
  rw [State.firstIs, State.firstIs, hfirst, hparked]

/-- A waiting first writer is announced, as long as nobody else announces. -/
theorem Queues.naming_goto (h : Queues s) (hpc : t.pc = Function.update s.pc i p)
    (hwait : ∀ r, p ≠ .exWait r) (hfirst : t.writersFirst = s.writersFirst) :
    ∀ j r, t.pc j = .exWait r → t.writersFirst = some j := by
  intro j r hj
  rw [hpc] at hj
  rw [hfirst]
  by_cases hji : j = i
  · rw [hji, Function.update_self] at hj
    exact absurd hj (hwait r)
  · rw [Function.update_of_ne hji] at hj
    exact h.naming j r hj

/-- Two places that the queues do not tell apart. -/
@[simp] def Pc.SameOwed (p q : Pc ι) : Prop :=
  (∀ n, p.owesReader n = q.owesReader n) ∧ (∀ n, p.owesWriter n = q.owesWriter n) ∧
  p.shParked = q.shParked ∧ p.exParked = q.exParked ∧ ∀ r, p ≠ .exWait r

/-- A move between two such places that does not change the queues. -/
theorem Queues.goto (h : Queues s) (hpc : t.pc = Function.update s.pc i p)
    (hsame : p.SameOwed (s.pc i)) (hreaders : t.readers = s.readers)
    (hwriters : t.writers = s.writers) (hfirst : t.writersFirst = s.writersFirst)
    (hparked : t.firstParked = s.firstParked) : Queues t := by
  obtain ⟨hreader, hwriter, hsh, hex, hwait⟩ := hsame
  refine ⟨fun n => ?_, fun n => ?_, fun hpos => ?_, h.naming_goto hpc hwait hfirst⟩
  · have := h.reader n
    rwa [place_stay hpc Pc.shParked hsh, hreaders, hpc, tally_stay (hreader n)]
  · have := h.writer n
    rwa [place_stay hpc Pc.exParked hex, hwriters, hpc, tally_stay (hwriter n),
      firstIs_congr hfirst hparked]
  · rw [hparked] at hpos
    rw [hfirst]
    exact h.named hpos

end Yaclib.SharedMutex
