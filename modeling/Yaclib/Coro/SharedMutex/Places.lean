import Yaclib.Concurrency.Tally
import Yaclib.Coro.SharedMutex.Ledger

/-!
From the state of the mutex to its ledger: every place of the program has a
weight for each column, and the ledger adds the weights of all requests.
-/

namespace Yaclib.SharedMutex

open Concurrency

variable {ι : Type}

namespace Pc

@[simp] def owner : Pc ι → Nat
  | exHeld | exResumed | slowEnter | slowSection | submitOne _ | shWake => 1
  | unlocking k => k.owner
  | _ => 0

@[simp] def first : Pc ι → Nat
  | exFirst _ | exWait _ => 1
  | _ => 0

/-- About to submit the first writer, which has no reader ahead of it any more. -/
@[simp] def wakes : Pc ι → Nat
  | shWake => 1
  | unlocking k => k.wakes
  | _ => 0

theorem wakes_le_owner (p : Pc ι) : p.wakes ≤ p.owner := by
  induction p with
  | unlocking k ih => exact ih
  | _ => simp

end Pc

variable [DecidableEq ι]

/-! The columns of the ledger. A reader or a writer that another thread is
about to submit is counted at the place of that thread. -/

namespace Pc

@[simp] def active : Pc ι → Nat
  | shResumed | shHeld => 1
  | submitAll ns => ns.length
  | unlocking k => k.active
  | _ => 0

@[simp] def transit : Pc ι → Nat
  | shEnter | shSection => 1
  | _ => 0

@[simp] def leaving : Pc ι → Nat
  | shLeave => 1
  | _ => 0

@[simp] def announced : Pc ι → Nat
  | exFirst r | exWait r => r
  | _ => 0

@[simp] def handing : Pc ι → Nat
  | runReaders _ | nextWriter _ => 1
  | _ => 0

@[simp] def handed : Pc ι → Nat
  | runReaders old | nextWriter old => old / kWriter
  | _ => 0

@[simp] def stored : Pc ι → Nat
  | nextWriter _ => 1
  | _ => 0

@[simp] def inside : Pc ι → Nat
  | shSection | exSection | exFirst _ | exWait _ | slowSection | runReaders _ | nextWriter _ => 1
  | unlocking _ => 1
  | _ => 0

/-- How often `n` is among the readers that are about to be submitted here. -/
@[simp] def owesReader (n : ι) : Pc ι → Nat
  | submitAll ns => ns.count n
  | unlocking k => k.owesReader n
  | _ => 0

@[simp] def owesWriter (n : ι) : Pc ι → Nat
  | submitOne m => if m = n then 1 else 0
  | unlocking k => k.owesWriter n
  | _ => 0

/-- 0 where the program can be: `TryLockShared` only tries to change a `_state`
without writers, and a section that does not suspend ends with one of the places
below. -/
@[simp] def wrong : Pc ι → Nat
  | tryShared expected => expected / kWriter
  | unlocking idle | unlocking shHeld | unlocking exHeld => 0
  | unlocking (submitOne _) | unlocking (submitAll _) => 0
  | unlocking _ => 1
  | _ => 0

@[simp] def shParked : Pc ι → Nat
  | shWaiting => 1
  | _ => 0

@[simp] def exParked : Pc ι → Nat
  | exWaiting => 1
  | _ => 0

@[simp] def reading : Pc ι → Nat
  | shEnter | shSection | shWaiting | shResumed | shHeld | tryShared _ | shLeave | shWake => 1
  | unlocking k => k.reading
  | _ => 0

/-- A writer in flight, up to the end of its section. -/
@[simp] def writing : Pc ι → Nat
  | tryLock _ | exEnter | exSection | exFirst _ | exWait _ | exWaiting | exResumed | exHeld => 1
  | slowEnter | slowSection | runReaders _ | nextWriter _ => 1
  | unlocking k => k.writing
  | _ => 0

/-- The request has called the mutex and was not submitted yet. -/
@[simp] def asking : Pc ι → Bool
  | shEnter | shSection | shWaiting | tryShared _ | tryLock _ | exEnter | exSection | exFirst _
  | exWait _ | exWaiting => true
  | _ => false

end Pc

@[simp] def Lock.inside : Lock → Nat
  | .held => 1
  | _ => 0

variable [Fintype ι]

/-- Fewer than `2 ^ 32` readers and fewer than `2 ^ 32` writers are in flight. -/
structure State.Few (s : State ι) : Prop where
  reading_lt : tally Pc.reading s.pc < 2 ^ 32
  writing_lt : tally Pc.writing s.pc < 2 ^ 32

def ledger (s : State ι) : Ledger where
  high := s.state / kWriter
  low := s.state % kWriter
  wait := s.readersWait
  size := s.readersSize
  pass := s.readersPass
  prio := s.writersPrio
  queuedR := s.readers.length
  queuedW := s.writers.length
  active := tally Pc.active s.pc
  transit := tally Pc.transit s.pc
  leaving := tally Pc.leaving s.pc
  owner := tally Pc.owner s.pc
  first := tally Pc.first s.pc
  announced := tally Pc.announced s.pc
  handing := tally Pc.handing s.pc
  handed := tally Pc.handed s.pc
  stored := tally Pc.stored s.pc

/-! Arithmetic of the two halves of `_state`. -/

theorem add_reader {n : Nat} (hlow : n % kWriter + 1 < 2 ^ 32) (hhigh : n / kWriter < 2 ^ 32) :
    add64 n kReader / kWriter = n / kWriter ∧ add64 n kReader % kWriter = n % kWriter + 1 := by
  simp only [add64, u64, kReader, kWriter_eq] at *
  omega

theorem sub_reader {n : Nat} (hlow : 0 < n % kWriter) (hhigh : n / kWriter < 2 ^ 32) :
    sub64 n kReader / kWriter = n / kWriter ∧ sub64 n kReader % kWriter = n % kWriter - 1 := by
  simp only [sub64, u64, kReader, kWriter_eq] at *
  omega

theorem add_writer {n : Nat} (hhigh : n / kWriter + 1 < 2 ^ 32) :
    add64 n kWriter / kWriter = n / kWriter + 1 ∧ add64 n kWriter % kWriter = n % kWriter := by
  simp only [add64, u64, kWriter_eq] at *
  omega

theorem sub_writer {n : Nat} (hpos : 0 < n / kWriter) (hhigh : n / kWriter < 2 ^ 32) :
    sub64 n kWriter / kWriter = n / kWriter - 1 ∧ sub64 n kWriter % kWriter = n % kWriter := by
  simp only [sub64, u64, kWriter_eq] at *
  omega

theorem eq_zero_of_halves {n : Nat} (hhigh : n / kWriter = 0) (hlow : n % kWriter = 0) : n = 0 := by
  rw [kWriter_eq] at *
  omega

theorem sub32_of_le {a b : Nat} (ha : a < 2 ^ 32) (hb : b ≤ a) : sub32 a b = a - b := by
  simp only [sub32, u32]
  omega

theorem u32_of_lt {a : Nat} (ha : a < 2 ^ 32) : u32 a = a :=
  Nat.mod_eq_of_lt ha

theorem add32_of_lt {a b : Nat} (h : a + b < 2 ^ 32) : add32 a b = a + b := by
  rw [add32, Nat.add_comm, u32_of_lt h]

/-- `_readers_wait` was `-r`. -/
theorem add32_eq_zero_iff {a r : Nat} (ha : a < 2 ^ 32) :
    add32 a r = 0 ↔ a = sub32 0 r := by
  simp only [add32, sub32, u32]
  omega

end Yaclib.SharedMutex
