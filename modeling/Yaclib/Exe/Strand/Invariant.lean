import Yaclib.Concurrency.Tally
import Yaclib.Exe.Strand.Model

/-!
The invariant of the strand. While `_jobs` is not `Mark`, exactly one place is
in charge of the strand: a `Submit`, the queue of the underlying executor, or a
thread that runs it.
-/

namespace Yaclib.Strand

open Concurrency

variable {ι κ : Type} [DecidableEq ι]

namespace Pc

/-- 1 while the strand holds the job. -/
@[simp] def parked : Pc ι → Nat
  | incRef | submit | queued => 1
  | _ => 0

@[simp] def token : Pc ι → Nat
  | incRef | submit => 1
  | _ => 0

@[simp] def holds : Pc ι → Nat
  | submit => 1
  | _ => 0

end Pc

namespace Run

@[simp] def holds : Run ι → Nat
  | idle => 0
  | _ => 1

/-- In charge of a strand with a job on its stack. -/
@[simp] def asks : Run ι → Nat
  | call | drop | resubmit => 1
  | _ => 0

@[simp] def calls : Run ι → Bool
  | batch _ | calling _ _ => true
  | _ => false

/-- The first job that the loop has left. -/
@[simp] def rest : Run ι → Option ι
  | batch i | dropBatch i => some i
  | calling _ p | dropping _ p => p
  | _ => none

end Run

def State.callBatches (s : State ι κ) : List ι :=
  ((s.taken.filter Prod.fst).map Prod.snd).flatten

variable [Fintype κ]

/-- What each thread has left of its batch, and what is left of the batch of
`Call`. -/
structure Batches (s : State ι κ) (todo : κ → List ι) (left : List ι) : Prop where
  chain : ∀ k, Chain s.next (s.worker k).rest (todo k)
  queued : ∀ k, ∀ i ∈ todo k, s.pc i = .queued
  count : ∀ i, s.current.count i + tally (fun xs => xs.count i) todo = (s.pc i).parked
  left_eq : ∀ k, (s.worker k).calls = true → todo k = left
  left_nil : (∀ k, (s.worker k).calls = false) → left = []
  called : s.called ++ left = s.callBatches

variable {s t : State ι κ} {i : ι} {k : κ} {p : Pc ι} {u : Run ι} {todo : κ → List ι}
variable {left xs : List ι}

/-- A job that the strand does not hold is in no chain. -/
theorem Batches.fresh (hb : Batches s todo left) (hpc : (s.pc i).parked = 0) :
    i ∉ s.current ∧ ∀ k, i ∉ todo k := by
  have hcount := hb.count i
  rw [hpc] at hcount
  refine ⟨List.count_eq_zero.mp (by omega), fun k hk => ?_⟩
  have hle := le_tally (fun xs : List ι => xs.count i) todo k
  have hpos := List.count_pos_iff.mpr hk
  omega

theorem Batches.nodup (hb : Batches s todo left) : s.current.Nodup := by
  apply List.nodup_iff_count_le_one.mpr
  intro i
  have hcount := hb.count i
  have hle : (s.pc i).parked ≤ 1 := by cases s.pc i <;> simp
  omega

variable [Fintype ι]

namespace State

def tokens (s : State ι κ) : Nat :=
  tally Pc.token s.pc + s.executor + tally Run.token s.worker

def holders (s : State ι κ) : Nat :=
  tally Pc.holds s.pc + s.executor + tally Run.holds s.worker

/-- Those in charge before the next exchange. -/
def asking (s : State ι κ) : Nat :=
  tally Pc.token s.pc + s.executor + tally Run.asks s.worker

end State

/-- While `_jobs` is not `Mark` there is one token of the strand, with a `Submit`, the queue
of the executor or a thread, and who asks for jobs finds one. Each job that was pushed was
called or dropped, or is parked in the stack or in the batch of a thread. The strand has one
reference for each who holds it. -/
structure Inv (s : State ι κ) : Prop where
  tokens_eq : s.tokens = if s.jobs = .mark then 0 else 1
  asking_full : 0 < s.asking → ∃ i, s.jobs = .ptr (some i)
  stack : Chain s.next s.jobs.toPtr s.current.reverse
  batches : ∃ todo left, Batches s todo left
  pushes_eq : ∀ i, s.pushes.count i = s.called.count i + s.dropped.count i + (s.pc i).parked
  refs_eq : s.incRefs = s.decRefs + s.holders
  derefs_eq : s.derefs = true

theorem Inv.init (next : ι → Option ι) : Inv ({ next := next } : State ι κ) := by
  refine ⟨?_, fun hpos => ?_, .nil, ⟨fun _ => [], [], ?_⟩, fun i => rfl, ?_, rfl⟩
  · simp [State.tokens, tally_const]
  · simp [State.asking, tally_const] at hpos
  · refine ⟨fun k => .nil, fun k i hi => ?_, fun i => ?_, fun k hk => rfl, fun _ => rfl, rfl⟩
    · exact absurd hi List.not_mem_nil
    · simp [tally_const]
  · simp [State.holders, tally_const]

theorem Inv.tokens_le (h : Inv s) : s.tokens ≤ 1 := by
  rw [h.tokens_eq]
  split <;> omega

/-- Every other thread than the one in charge is out of `Call`. -/
theorem Inv.sole (h : Inv s) (hk : (s.worker k).token = 1) :
    s.jobs ≠ .mark ∧ tally Pc.token s.pc = 0 ∧ s.executor = 0 ∧
      ∀ l, l ≠ k → (s.worker l).token = 0 := by
  have hle := h.tokens_le
  have htokens := h.tokens_eq
  have hpos := le_tally Run.token s.worker k
  simp only [State.tokens] at hle htokens
  refine ⟨fun hmark => ?_, by omega, by omega, fun l hl => ?_⟩
  · rw [if_pos hmark] at htokens
    omega
  · have hsum := add_le_tally Run.token s.worker hl
    omega

end Yaclib.Strand
