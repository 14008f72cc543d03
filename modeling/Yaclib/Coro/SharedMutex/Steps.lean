import Yaclib.Coro.SharedMutex.Invariant

/-!
What the steps of the shared mutex have in common. Each of them is a move of
the ledger, and leaves every suspended request owed to exactly one place.
-/

namespace Yaclib.SharedMutex

open Concurrency

variable {ι : Type}
variable {cfg : Config} {s t : State ι} {i : ι} {p : Pc ι}

theorem handing_of_inside (q : Pc ι) (hq : q.inside = 0) : q.handing = 0 := by
  cases q <;> simp at hq ⊢

theorem check_true (s : State ι) : s.check true = s := by
  simp [State.check]

variable [Fintype ι]

theorem firstParked_congr (hwait : t.readersWait = s.readersWait)
    (hfirst : tally Pc.first t.pc = tally Pc.first s.pc)
    (hhanding : tally Pc.handing t.pc = tally Pc.handing s.pc)
    (hwakes : tally Pc.wakes t.pc = tally Pc.wakes s.pc) : t.firstParked = s.firstParked := by
  have hparked : (ledger t).parked = (ledger s).parked := Ledger.parked_congr hfirst hhanding hwait
  rw [State.firstParked, State.firstParked, hparked, hwakes]

/-- Of the writers in `_state`, the first one is parked if it is none of the
others. -/
theorem firstParked_add (h : (ledger s).Ok cfg.fifo) :
    s.firstParked + (tally Pc.owner s.pc + tally Pc.first s.pc + s.writers.length) =
      s.state / kWriter + tally Pc.wakes s.pc := by
  have hhigh := h.high_of rfl
  simp only [ledger, State.firstParked] at hhigh ⊢
  omega

variable [DecidableEq ι]

/-- Two places that the ledger does not tell apart. -/
@[simp] def Pc.SameCount (p q : Pc ι) : Prop :=
  p.active = q.active ∧ p.transit = q.transit ∧ p.leaving = q.leaving ∧ p.owner = q.owner ∧
    p.first = q.first ∧ p.announced = q.announced ∧ p.handing = q.handing ∧
    p.handed = q.handed ∧ p.stored = q.stored

theorem ledger_stay (hsame : p.SameCount (s.pc i)) : ledger (s.goto i p) = ledger s := by
  obtain ⟨h1, h2, h3, h4, h5, h6, h7, h8, h9⟩ := hsame
  simp only [ledger, State.goto, tally_stay h1, tally_stay h2, tally_stay h3, tally_stay h4,
    tally_stay h5, tally_stay h6, tally_stay h7, tally_stay h8, tally_stay h9]

/-- A step between two places that neither the ledger nor the queues tell
apart. -/
theorem Inv.plain (h : Inv cfg s) (l : Lock) (hcount : p.SameCount (s.pc i))
    (howed : p.SameOwed (s.pc i)) (hwakes : p.wakes = (s.pc i).wakes)
    (hinside : p.inside + s.lock.inside = (s.pc i).inside + l.inside)
    (hwrong : p.wrong = 0) (hasking : p.asking = true → s.submits i = 0)
    (hfew : ({ s with lock := l }.goto i p).Few) :
    Inv cfg ({ s with lock := l }.goto i p) := by
  have hledger : ledger ({ s with lock := l }.goto i p) = ledger s := ledger_stay hcount
  have hparked : ({ s with lock := l }.goto i p).firstParked = s.firstParked := by
    simp only [State.firstParked, hledger]
    simp only [State.goto, tally_stay hwakes]
  exact h.goto rfl (hledger ▸ h.ok) (h.queues.goto rfl howed rfl rfl rfl hparked)
    hfew hinside hwrong rfl hasking h.asserts_eq

/-- A new call forgets how often the last one was submitted. -/
theorem Inv.reset (h : Inv cfg s) (i : ι) :
    Inv cfg { s with submits := Function.update s.submits i 0 } := by
  refine { h with
    few := ⟨h.few.reading_lt, h.few.writing_lt⟩
    submits_le := fun n => ?_
    asking := fun n hn => ?_
    queues := ?_ }
  · exact ⟨h.queues.reader, h.queues.writer, h.queues.named, h.queues.naming⟩
  · by_cases hni : n = i
    · simp [hni]
    · simpa [hni] using h.submits_le n
  · by_cases hni : n = i
    · simp [hni]
    · simpa [hni] using h.asking n hn

theorem Inv.firstParked_goto (h : Inv cfg s) (hok : (ledger t).Ok cfg.fifo)
    (hpc : t.pc = Function.update s.pc i p) (hwriters : t.writers = s.writers)
    (hhigh : t.state / kWriter + (s.pc i).owner + (s.pc i).first + p.wakes =
      s.state / kWriter + p.owner + p.first + (s.pc i).wakes) :
    t.firstParked = s.firstParked := by
  have hs := firstParked_add h.ok
  have ht := firstParked_add hok
  have howner := tally_update Pc.owner s.pc i p
  have hfirst := tally_update Pc.first s.pc i p
  have hwakes := tally_update Pc.wakes s.pc i p
  rw [hpc, hwriters] at ht
  omega

/-- Only one request is in the section. -/
theorem Inv.sole_inside (h : Inv cfg s) (hpc : s.pc i = p) (hinside : p.inside = 1)
    {w : Pc ι → Nat} (hw : ∀ q, q.inside = 0 → w q = 0) : tally w s.pc = w p := by
  have hlock := h.held hpc (by omega)
  have hle : tally Pc.inside s.pc ≤ (s.pc i).inside := by
    rw [h.inside_eq, hlock, hpc, hinside, Lock.inside]
  rw [tally_eq_of_sole hle hw, hpc]

theorem firstIs_zero (h : s.firstParked = 0) (n : ι) : s.firstIs n = 0 := by
  rw [State.firstIs, h, ite_self]

end Yaclib.SharedMutex
