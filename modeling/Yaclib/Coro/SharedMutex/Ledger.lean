import Mathlib.Order.Basic
import Yaclib.Coro.SharedMutex.Model

/-!
The arithmetic of the shared mutex. A ledger keeps the counters of the mutex
next to the number of requests at each kind of place; `Ledger.Ok` is the
invariant that relates them. Every atomic step of the code changes the ledger
by one of the moves below, so the invariant is proved here once, without queues
and without coroutines.
-/

namespace Yaclib.SharedMutex

/-- The counters of the mutex, the lengths of its two queues, and how many
requests are at each kind of place. -/
structure Ledger where
  /-- the writers' half of `_state` -/
  high : Nat
  /-- the readers' half of `_state` -/
  low : Nat
  wait : Nat
  size : Nat
  pass : Nat
  prio : Nat
  queuedR : Nat
  queuedW : Nat
  /-- readers admitted and not yet leaving -/
  active : Nat
  /-- readers counted in `_state`, neither admitted nor queued -/
  transit : Nat
  /-- readers out of `_state` that still have to decrement `_readers_wait` -/
  leaving : Nat
  /-- the writer that owns the mutex, or is about to be resumed as its owner -/
  owner : Nat
  /-- a writer between its `_state.fetch_add` and its `_readers_wait.fetch_add` -/
  first : Nat
  /-- the readers that writer saw -/
  announced : Nat
  /-- an unlocking writer that names the next one -/
  handing : Nat
  /-- the writers that one saw -/
  handed : Nat
  /-- whether it is past its `_readers_wait.store` -/
  stored : Nat

namespace Ledger

/-- The first writer is suspended until `_readers_wait` is 0. -/
def parked (l : Ledger) : Nat :=
  if l.first = 0 ∧ l.handing = 0 ∧ l.wait ≠ 0 then 1 else 0

def writers (l : Ledger) : Nat :=
  l.owner + l.first + l.parked + l.queuedW

def readers (l : Ledger) : Nat :=
  l.active + l.transit + l.queuedR

/-- The readers the first writer has to wait for. -/
def ahead (l : Ledger) : Nat :=
  l.active + l.leaving + l.pass

/-- Both halves of `_state` are below `2 ^ 32`. -/
structure Fits (l : Ledger) : Prop where
  readers_lt : l.readers < 2 ^ 32
  writers_lt : l.writers < 2 ^ 32

/-- Who is served. -/
inductive Phase (l : Ledger) : Prop
  /-- No writer: readers come and go, and every reader on its way has a pass. -/
  | readersOnly (owner : l.owner = 0) (first : l.first = 0) (handing : l.handing = 0)
      (announced : l.announced = 0) (wait : l.wait = 0) (queuedR : l.queuedR = 0)
      (queuedW : l.queuedW = 0) (leaving : l.leaving = 0) (pass : l.pass = l.transit)
  /-- The first writer is counted in `_state` but has not added the readers it
  saw; those that left since then have made `_readers_wait` negative. -/
  | announcing (owner : l.owner = 0) (first : l.first = 1) (handing : l.handing = 0)
      (wait_lt : l.wait < 2 ^ 32) (announced_lt : l.announced < 2 ^ 32)
      (ahead_le : l.ahead ≤ l.announced) (wait : u32 (l.wait + l.announced) = l.ahead)
  /-- The first writer is suspended until the readers ahead of it left. -/
  | waiting (owner : l.owner = 0) (first : l.first = 0) (handing : l.handing = 0)
      (announced : l.announced = 0) (wait_pos : 0 < l.wait) (wait : l.wait = l.ahead)
      (wait_lt : l.wait < 2 ^ 32)
  /-- A writer owns the mutex, and no reader does. -/
  | owned (owner : l.owner = 1) (first : l.first = 0) (handing : l.handing = 0)
      (announced : l.announced = 0) (wait : l.wait = 0) (ahead : l.ahead = 0)
  /-- The owner is about to admit the queued readers and name the next writer. -/
  | handingOver (owner : l.owner = 0) (first : l.first = 0) (handing : l.handing = 1)
      (announced : l.announced = 0) (wait : l.stored = 0 ∧ l.wait = 0 ∨ l.wait = l.queuedR)
      (ahead : l.ahead = 0) (handed : l.handed = l.queuedW + 1) (queuedR : 0 < l.queuedR)
      (queuedW : 0 < l.queuedW)

/-- How the counters of the mutex account for the requests: the halves of `_state` count the
writers and the readers, every pass is for a reader on its way to the section, and the phase
says who is served. -/
structure Ok (fifo : Bool) (l : Ledger) : Prop where
  high_eq : l.high = l.writers
  low_eq : l.low = l.readers
  size_eq : l.size = l.queuedR
  pass_le : l.pass ≤ l.transit
  /-- `_writers_prio`: the writers queued before the oldest queued reader -/
  prio_le : l.prio ≤ l.queuedW
  prio_fifo : fifo = true → l.queuedR = 0 → l.prio = l.queuedW
  prio_lifo : fifo = false → l.prio = 0
  phase : l.Phase

theorem parked_cases (l : Ledger) :
    l.first = 0 ∧ l.handing = 0 ∧ l.wait ≠ 0 ∧ l.parked = 1 ∨
      (l.first ≠ 0 ∨ l.handing ≠ 0 ∨ l.wait = 0) ∧ l.parked = 0 := by
  unfold parked
  split <;> omega

theorem parked_congr {l l' : Ledger} (hfirst : l'.first = l.first)
    (hhanding : l'.handing = l.handing) (hwait : l'.wait = l.wait) : l'.parked = l.parked := by
  simp [parked, hfirst, hhanding, hwait]

variable {fifo : Bool} {l : Ledger}

theorem parked_of_wait (h : l.wait = 0) : l.parked = 0 := by
  simp [parked, h]

theorem parked_of_first (h : l.first ≠ 0) : l.parked = 0 := by
  simp [parked, h]

theorem parked_of_handing (h : l.handing ≠ 0) : l.parked = 0 := by
  simp [parked, h]

theorem parked_of_pos (h : l.first = 0) (hh : l.handing = 0) (hw : 0 < l.wait) :
    l.parked = 1 := by
  simp [parked, h, hh]
  omega

/-- The writers' half, in a phase with `k` parked writers. -/
theorem Ok.high_of (h : l.Ok fifo) {k : Nat} (hk : l.parked = k) :
    l.high = l.owner + l.first + k + l.queuedW := by
  rw [h.high_eq, writers, hk]

theorem high_eq_of {k : Nat} (hk : l.parked = k)
    (hw : l.high = l.owner + l.first + k + l.queuedW) : l.high = l.writers := by
  rw [writers, hk, hw]

theorem Ok.low_sum (h : l.Ok fifo) : l.low = l.active + l.transit + l.queuedR :=
  h.low_eq

/-- The phase when the writers' half of `_state` is 0. -/
theorem Ok.readersOnly (h : l.Ok fifo) (hw : l.high = 0) :
    l.owner = 0 ∧ l.first = 0 ∧ l.handing = 0 ∧ l.announced = 0 ∧ l.wait = 0 ∧ l.queuedR = 0 ∧
      l.queuedW = 0 ∧ l.leaving = 0 ∧ l.pass = l.transit := by
  have hp := l.parked_cases
  have hhigh := h.high_of rfl
  cases h.phase <;> refine ⟨?_, ?_, ?_, ?_, ?_, ?_, ?_, ?_, ?_⟩ <;> omega

/-- Some writer is served when that half is not 0. -/
theorem Ok.not_readersOnly (h : l.Ok fifo) (hw : l.high ≠ 0) :
    ¬ (l.owner = 0 ∧ l.first = 0 ∧ l.queuedW = 0 ∧ l.wait = 0) := by
  rintro ⟨h1, h2, h3, h4⟩
  have hhigh := h.high_of (parked_of_wait h4)
  omega

/-! The moves of the readers. -/

/-- A reader that sees no writer is admitted at once. -/
def arriveOpen (l : Ledger) : Ledger :=
  { l with low := l.low + 1, active := l.active + 1 }

theorem Ok.arriveOpen (h : l.Ok fifo) (hw : l.high = 0) : l.arriveOpen.Ok fifo := by
  obtain ⟨h1, h2, h3, h4, h5, h6, h7, h8, h9⟩ := h.readersOnly hw
  have hlow := h.low_sum
  refine { h with
    high_eq := high_eq_of (parked_congr rfl rfl rfl) (h.high_of rfl)
    low_eq := ?_
    phase := .readersOnly h1 h2 h3 h4 h5 h6 h7 h8 h9 }
  simp only [Ledger.arriveOpen, readers]
  omega

/-- A reader that sees a writer is on its way to the section. -/
def arriveBusy (l : Ledger) : Ledger :=
  { l with low := l.low + 1, transit := l.transit + 1 }

theorem Ok.arriveBusy (h : l.Ok fifo) (hw : l.high ≠ 0) : l.arriveBusy.Ok fifo := by
  have hlow := h.low_sum
  have hbusy := h.not_readersOnly hw
  refine { h with
    high_eq := high_eq_of (parked_congr rfl rfl rfl) (h.high_of rfl)
    low_eq := ?_
    pass_le := Nat.le_succ_of_le h.pass_le
    phase := ?_ }
  · simp only [Ledger.arriveBusy, readers]
    omega
  · cases h.phase with
    | readersOnly h1 h2 h3 h4 h5 h6 h7 => exact absurd ⟨h1, h2, h7, h5⟩ hbusy
    | announcing h1 h2 h3 h4 h5 h6 h7 => exact .announcing h1 h2 h3 h4 h5 h6 h7
    | waiting h1 h2 h3 h4 h5 h6 h7 => exact .waiting h1 h2 h3 h4 h5 h6 h7
    | owned h1 h2 h3 h4 h5 h6 => exact .owned h1 h2 h3 h4 h5 h6
    | handingOver h1 h2 h3 h4 h5 h6 h7 h8 h9 => exact .handingOver h1 h2 h3 h4 h5 h6 h7 h8 h9

/-- A reader in the section takes a pass, its own or another reader's. -/
def takePass (l : Ledger) : Ledger :=
  { l with pass := l.pass - 1, transit := l.transit - 1, active := l.active + 1 }

theorem Ok.takePass (h : l.Ok fifo) (hpass : l.pass ≠ 0) : l.takePass.Ok fifo := by
  have hlow := h.low_sum
  have hle := h.pass_le
  have hahead : l.takePass.ahead = l.ahead := by
    simp only [ahead, Ledger.takePass]
    omega
  refine { h with
    high_eq := high_eq_of (parked_congr rfl rfl rfl) (h.high_of rfl)
    low_eq := ?_
    pass_le := Nat.sub_le_sub_right hle 1
    phase := ?_ }
  · simp only [Ledger.takePass, readers]
    omega
  · cases h.phase with
    | readersOnly h1 h2 h3 h4 h5 h6 h7 h8 h9 =>
      exact .readersOnly h1 h2 h3 h4 h5 h6 h7 h8 (congrArg (· - 1) h9)
    | announcing h1 h2 h3 h4 h5 h6 h7 =>
      exact .announcing h1 h2 h3 h4 h5 (hahead ▸ h6) (hahead ▸ h7)
    | waiting h1 h2 h3 h4 h5 h6 h7 => exact .waiting h1 h2 h3 h4 h5 (hahead ▸ h6) h7
    | owned h1 h2 h3 h4 h5 h6 => exact .owned h1 h2 h3 h4 h5 (hahead ▸ h6)
    | handingOver h1 h2 h3 h4 h5 h6 h7 h8 h9 =>
      exact .handingOver h1 h2 h3 h4 h5 (hahead ▸ h6) h7 h8 h9

/-- Without a pass there is a writer: the assertion of `AwaitLockShared`. -/
theorem Ok.writer_of_transit (h : l.Ok fifo) (hpass : l.pass = 0) (ht : 0 < l.transit) :
    l.high ≠ 0 := by
  intro hw
  have := h.readersOnly hw
  omega

def queueReader (l : Ledger) : Ledger :=
  { l with size := l.size + 1, transit := l.transit - 1, queuedR := l.queuedR + 1 }

theorem Ok.queueReader (h : l.Ok fifo) (hpass : l.pass = 0) (ht : 0 < l.transit)
    (hhand : l.handing = 0) : l.queueReader.Ok fifo := by
  have hlow := h.low_sum
  refine { h with
    high_eq := high_eq_of (parked_congr rfl rfl rfl) (h.high_of rfl)
    low_eq := ?_
    size_eq := congrArg (· + 1) h.size_eq
    pass_le := hpass.trans_le (Nat.zero_le _)
    prio_fifo := fun _ hq => absurd hq (Nat.succ_ne_zero _)
    phase := ?_ }
  · simp only [Ledger.queueReader, readers]
    omega
  · cases h.phase with
    | readersOnly h1 h2 h3 h4 h5 h6 h7 h8 h9 => omega
    | announcing h1 h2 h3 h4 h5 h6 h7 => exact .announcing h1 h2 h3 h4 h5 h6 h7
    | waiting h1 h2 h3 h4 h5 h6 h7 => exact .waiting h1 h2 h3 h4 h5 h6 h7
    | owned h1 h2 h3 h4 h5 h6 => exact .owned h1 h2 h3 h4 h5 h6
    | handingOver h1 h2 h3 h4 h5 h6 h7 h8 h9 => omega

def leaveOpen (l : Ledger) : Ledger :=
  { l with low := l.low - 1, active := l.active - 1 }

theorem Ok.leaveOpen (h : l.Ok fifo) (ha : 0 < l.active) (hw : l.high = 0) :
    l.leaveOpen.Ok fifo := by
  obtain ⟨h1, h2, h3, h4, h5, h6, h7, h8, h9⟩ := h.readersOnly hw
  have hlow := h.low_sum
  refine { h with
    high_eq := high_eq_of (parked_congr rfl rfl rfl) (h.high_of rfl)
    low_eq := ?_
    phase := .readersOnly h1 h2 h3 h4 h5 h6 h7 h8 h9 }
  simp only [Ledger.leaveOpen, readers]
  omega

/-- A reader leaves and sees a writer: it still has to count itself down. -/
def leaveBusy (l : Ledger) : Ledger :=
  { l with low := l.low - 1, active := l.active - 1, leaving := l.leaving + 1 }

theorem Ok.leaveBusy (h : l.Ok fifo) (ha : 0 < l.active) (hw : l.high ≠ 0) :
    l.leaveBusy.Ok fifo := by
  have hlow := h.low_sum
  have hbusy := h.not_readersOnly hw
  have hahead : l.leaveBusy.ahead = l.ahead := by
    simp only [ahead, Ledger.leaveBusy]
    omega
  refine { h with
    high_eq := high_eq_of (parked_congr rfl rfl rfl) (h.high_of rfl)
    low_eq := ?_
    phase := ?_ }
  · simp only [Ledger.leaveBusy, readers]
    omega
  · cases h.phase with
    | readersOnly h1 h2 h3 h4 h5 h6 h7 h8 h9 => exact absurd ⟨h1, h2, h7, h5⟩ hbusy
    | announcing h1 h2 h3 h4 h5 h6 h7 =>
      exact .announcing h1 h2 h3 h4 h5 (hahead ▸ h6) (hahead ▸ h7)
    | waiting h1 h2 h3 h4 h5 h6 h7 => exact .waiting h1 h2 h3 h4 h5 (hahead ▸ h6) h7
    | owned h1 h2 h3 h4 h5 h6 => exact .owned h1 h2 h3 h4 h5 (hahead ▸ h6)
    | handingOver h1 h2 h3 h4 h5 h6 h7 h8 h9 =>
      exact .handingOver h1 h2 h3 h4 h5 (hahead ▸ h6) h7 h8 h9

/-- A leaving reader decrements `_readers_wait` to `w`. -/
def countDown (l : Ledger) (w : Nat) : Ledger :=
  { l with wait := w, leaving := l.leaving - 1 }

theorem Ok.countDown (h : l.Ok fifo) (hl : 0 < l.leaving) (hw : l.wait ≠ 1) {w : Nat}
    (hsub : w = sub32 l.wait 1) : (l.countDown w).Ok fifo := by
  have hahead : (l.countDown w).ahead + 1 = l.ahead := by
    simp only [ahead, Ledger.countDown]
    omega
  simp only [sub32, u32] at hsub
  cases h.phase with
  | readersOnly h1 h2 h3 h4 h5 h6 h7 h8 h9 => omega
  | announcing h1 h2 h3 h4 h5 h6 h7 =>
    have hfirst : l.first ≠ 0 := by omega
    have hp : (l.countDown w).parked = 0 := parked_of_first hfirst
    have hlt : w < 2 ^ 32 := by omega
    have hle : (l.countDown w).ahead ≤ l.announced := by omega
    -- both sums stay below `2 ^ 32`, so a wrap of `w` cancels
    have hsum : u32 (w + l.announced) = (l.countDown w).ahead := by
      simp only [u32] at h7 ⊢
      omega
    exact { h with
      high_eq := high_eq_of hp (h.high_of (parked_of_first hfirst))
      phase := .announcing h1 h2 h3 hlt h5 hle hsum }
  | waiting h1 h2 h3 h4 h5 h6 h7 =>
    have hpos : 0 < w := by omega
    have hlt : w < 2 ^ 32 := by omega
    have hwait : w = (l.countDown w).ahead := by omega
    have hp : (l.countDown w).parked = 1 := parked_of_pos h2 h3 hpos
    exact { h with
      high_eq := high_eq_of hp (h.high_of (parked_of_pos h2 h3 h5))
      phase := .waiting h1 h2 h3 h4 hpos hwait hlt }
  | owned h1 h2 h3 h4 h5 h6 => omega
  | handingOver h1 h2 h3 h4 h5 h6 h7 h8 h9 => omega

/-- The last reader the first writer waited for: that writer is the owner now. -/
def countLast (l : Ledger) : Ledger :=
  { l with wait := 0, leaving := l.leaving - 1, owner := l.owner + 1 }

theorem Ok.countLast (h : l.Ok fifo) (hl : 0 < l.leaving) (hw : l.wait = 1) :
    l.countLast.Ok fifo := by
  have hahead : l.countLast.ahead + 1 = l.ahead := by
    simp only [ahead, Ledger.countLast]
    omega
  cases h.phase with
  | announcing h1 h2 h3 h4 h5 h6 h7 =>
    -- `_readers_wait` is 0 or negative until the writer has added the readers
    simp only [u32] at h7
    omega
  | waiting h1 h2 h3 h4 h5 h6 h7 =>
    have hhigh := h.high_of (parked_of_pos h2 h3 h5)
    refine { h with
      high_eq := high_eq_of (parked_of_wait rfl) ?_
      phase := .owned (congrArg (· + 1) h1) h2 h3 h4 rfl (by omega) }
    simp only [Ledger.countLast]
    omega
  | _ => omega

/-! The moves of the writers. -/

/-- `TryLockAwait` finds `_state` at 0. -/
def lockOpen (l : Ledger) : Ledger :=
  { l with high := l.high + 1, owner := l.owner + 1 }

theorem Ok.lockOpen (h : l.Ok fifo) (hhigh : l.high = 0) (hlow : l.low = 0) :
    l.lockOpen.Ok fifo := by
  obtain ⟨h1, h2, h3, h4, h5, h6, h7, h8, h9⟩ := h.readersOnly hhigh
  have hsum := h.low_sum
  have hp : l.lockOpen.parked = 0 := parked_of_wait h5
  refine { h with
    high_eq := high_eq_of hp ?_
    phase := .owned (congrArg (· + 1) h1) h2 h3 h4 h5 ?_ }
  · simp only [Ledger.lockOpen]
    omega
  · simp only [Ledger.lockOpen, ahead]
    omega

/-- `AwaitLock` sees no writer and `r` readers. -/
def announce (l : Ledger) (r : Nat) : Ledger :=
  { l with high := l.high + 1, first := l.first + 1, announced := l.announced + r }

theorem Ok.announce (h : l.Ok fifo) (hf : l.Fits) (hw : l.high = 0) {r : Nat}
    (hr : r = l.low) : (l.announce r).Ok fifo := by
  obtain ⟨h1, h2, h3, h4, h5, h6, h7, h8, h9⟩ := h.readersOnly hw
  have hlow := h.low_sum
  have hlt : l.active + l.transit + l.queuedR < 2 ^ 32 := hf.readers_lt
  have hp : (l.announce r).parked = 0 := parked_of_first (Nat.succ_ne_zero _)
  refine { h with
    high_eq := high_eq_of hp ?_
    phase := .announcing h1 (congrArg (· + 1) h2) h3 ?_ ?_ ?_ ?_ }
  all_goals
    simp only [Ledger.announce, ahead, u32]
    omega

/-- `AwaitLock` sees a writer: the new one is queued behind it. -/
def queueWriter (fifo : Bool) (l : Ledger) : Ledger :=
  { l with
    high := l.high + 1
    queuedW := l.queuedW + 1
    prio := if fifo then l.prio + (if l.queuedR = 0 then 1 else 0) else l.prio }

theorem Ok.queueWriter (h : l.Ok fifo) (hw : l.high ≠ 0) (hhand : l.handing = 0) :
    (l.queueWriter fifo).Ok fifo := by
  have hhigh := h.high_of rfl
  have hbusy := h.not_readersOnly hw
  have hle := h.prio_le
  have hp : (l.queueWriter fifo).parked = l.parked := parked_congr rfl rfl rfl
  refine { h with
    high_eq := high_eq_of hp ?_
    prio_le := ?_
    prio_fifo := fun hfifo hq => ?_
    prio_lifo := fun hlifo => ?_
    phase := ?_ }
  · simp only [Ledger.queueWriter]
    omega
  · simp only [Ledger.queueWriter]
    split
    · split <;> omega
    · omega
  · have hq' : l.queuedR = 0 := hq
    simp [Ledger.queueWriter, hfifo, hq', h.prio_fifo hfifo hq']
  · simp [Ledger.queueWriter, hlifo, h.prio_lifo hlifo]
  · cases h.phase with
    | readersOnly h1 h2 h3 h4 h5 h6 h7 h8 h9 => exact absurd ⟨h1, h2, h7, h5⟩ hbusy
    | announcing h1 h2 h3 h4 h5 h6 h7 => exact .announcing h1 h2 h3 h4 h5 h6 h7
    | waiting h1 h2 h3 h4 h5 h6 h7 => exact .waiting h1 h2 h3 h4 h5 h6 h7
    | owned h1 h2 h3 h4 h5 h6 => exact .owned h1 h2 h3 h4 h5 h6
    | handingOver h1 h2 h3 h4 h5 h6 h7 h8 h9 => omega

theorem Ok.announcing (h : l.Ok fifo) (hfirst : 0 < l.first) :
    l.owner = 0 ∧ l.first = 1 ∧ l.wait < 2 ^ 32 := by
  cases h.phase with
  | announcing h1 h2 h3 h4 h5 h6 h7 => exact ⟨h1, h2, h4⟩
  | _ => omega

/-- A writer that saw no readers has none ahead of it. -/
theorem Ok.announced_zero (h : l.Ok fifo) (hfirst : 0 < l.first) (hr : l.announced = 0) :
    l.wait = 0 := by
  cases h.phase with
  | announcing h1 h2 h3 h4 h5 h6 h7 =>
    rw [hr] at h6 h7
    simp only [u32] at h7
    omega
  | _ => omega

/-- The first writer finds that no reader is ahead of it. -/
def ownFirst (l : Ledger) : Ledger :=
  { l with wait := 0, first := l.first - 1, announced := 0, owner := l.owner + 1 }

theorem Ok.ownFirst (h : l.Ok fifo) (hfirst : 0 < l.first)
    (hwait : u32 (l.wait + l.announced) = 0) : l.ownFirst.Ok fifo := by
  cases h.phase with
  | announcing h1 h2 h3 h4 h5 h6 h7 =>
    have hhigh := h.high_of (parked_of_first (Nat.ne_of_gt hfirst))
    refine { h with
      high_eq := high_eq_of (parked_of_wait rfl) ?_
      phase := .owned (congrArg (· + 1) h1) (congrArg (· - 1) h2) h3 rfl rfl
        (h7.symm.trans hwait) }
    simp only [Ledger.ownFirst]
    omega
  | _ => omega

/-- The first writer adds the readers it saw to `_readers_wait`, which becomes
`w`, and is suspended. -/
def parkFirst (l : Ledger) (w : Nat) : Ledger :=
  { l with wait := w, first := l.first - 1, announced := 0 }

theorem Ok.parkFirst (h : l.Ok fifo) (hfirst : 0 < l.first) {w : Nat}
    (hw : w = u32 (l.wait + l.announced)) (hpos : 0 < w) : (l.parkFirst w).Ok fifo := by
  cases h.phase with
  | announcing h1 h2 h3 h4 h5 h6 h7 =>
    have hhigh := h.high_of (parked_of_first (Nat.ne_of_gt hfirst))
    have hp : (l.parkFirst w).parked = 1 := parked_of_pos (congrArg (· - 1) h2) h3 hpos
    have hlt : w < 2 ^ 32 := by
      rw [hw, u32]
      exact Nat.mod_lt _ (by decide)
    refine { h with
      high_eq := high_eq_of hp ?_
      phase := .waiting h1 (congrArg (· - 1) h2) h3 rfl hpos (hw.trans h7) hlt }
    simp only [Ledger.parkFirst]
    omega
  | _ => omega

/-- The phase of an owner. -/
theorem Ok.owned (h : l.Ok fifo) (howner : 0 < l.owner) :
    l.owner = 1 ∧ l.first = 0 ∧ l.handing = 0 ∧ l.announced = 0 ∧ l.wait = 0 ∧ l.ahead = 0 := by
  cases h.phase with
  | owned h1 h2 h3 h4 h5 h6 => exact ⟨h1, h2, h3, h4, h5, h6⟩
  | _ => omega

/-- An owner reads the number of writers in `_state`: itself and the queue. -/
theorem Ok.owner_high (h : l.Ok fifo) (howner : 0 < l.owner) : l.high = l.queuedW + 1 := by
  obtain ⟨h1, h2, h3, h4, h5, h6⟩ := h.owned howner
  have hhigh := h.high_of (parked_of_wait h5)
  omega

theorem Ok.owner_low (h : l.Ok fifo) (howner : 0 < l.owner) : l.low = l.transit + l.queuedR := by
  obtain ⟨h1, h2, h3, h4, h5, h6⟩ := h.owned howner
  have hlow := h.low_sum
  rw [ahead] at h6
  omega

/-- `UnlockHere` finds nobody else. -/
def unlockFast (l : Ledger) : Ledger :=
  { l with high := l.high - 1, owner := l.owner - 1 }

theorem Ok.unlockFast (h : l.Ok fifo) (howner : 0 < l.owner) (hhigh : l.high = 1)
    (hlow : l.low = 0) : l.unlockFast.Ok fifo := by
  obtain ⟨h1, h2, h3, h4, h5, h6⟩ := h.owned howner
  have hhigh' := h.owner_high howner
  have hlow' := h.owner_low howner
  have hle := h.pass_le
  have hp : l.unlockFast.parked = 0 := parked_of_wait h5
  rw [ahead] at h6
  refine { h with
    high_eq := high_eq_of hp ?_
    phase := .readersOnly (congrArg (· - 1) h1) h2 h3 h4 h5 ?_ ?_ ?_ ?_ }
  all_goals
    simp only [Ledger.unlockFast]
    omega

/-- `RunWriter`: the oldest queued writer is the owner now. -/
def runWriter (fifo : Bool) (l : Ledger) : Ledger :=
  { l with
    high := l.high - 1
    queuedW := l.queuedW - 1
    prio := if fifo then l.prio - 1 else l.prio }

theorem Ok.runWriter (h : l.Ok fifo) (howner : 0 < l.owner) (hq : 0 < l.queuedW)
    (hprio : fifo = true → l.prio ≠ 0) : (l.runWriter fifo).Ok fifo := by
  obtain ⟨h1, h2, h3, h4, h5, h6⟩ := h.owned howner
  have hhigh := h.owner_high howner
  have hle := h.prio_le
  have hp : (l.runWriter fifo).parked = 0 := parked_of_wait h5
  refine { h with
    high_eq := high_eq_of hp ?_
    prio_le := ?_
    prio_fifo := fun hfifo hq' => ?_
    prio_lifo := fun hlifo => ?_
    phase := .owned h1 h2 h3 h4 h5 h6 }
  · simp only [Ledger.runWriter]
    omega
  · cases fifo with
    | true => exact Nat.sub_le_sub_right hle 1
    | false => exact (h.prio_lifo rfl).trans_le (Nat.zero_le _)
  · simp [Ledger.runWriter, hfifo, h.prio_fifo hfifo hq']
  · simp [Ledger.runWriter, hlifo, h.prio_lifo hlifo]

/-- `RunReaders` with a next writer, before its store. -/
def handOver (l : Ledger) : Ledger :=
  { l with
    high := l.high - 1
    owner := l.owner - 1
    handing := l.handing + 1
    handed := l.handed + l.high }

theorem Ok.handOver (h : l.Ok fifo) (howner : 0 < l.owner) (hhanded : l.handed = 0)
    (hstored : l.stored = 0) (hr : 0 < l.queuedR) (hq : 0 < l.queuedW) : l.handOver.Ok fifo := by
  obtain ⟨h1, h2, h3, h4, h5, h6⟩ := h.owned howner
  have hhigh := h.owner_high howner
  have hp : l.handOver.parked = 0 := parked_of_wait h5
  refine { h with
    high_eq := high_eq_of hp ?_
    phase := .handingOver (congrArg (· - 1) h1) h2 (congrArg (· + 1) h3) h4 (.inl ⟨hstored, h5⟩)
      h6 ?_ hr hq }
  all_goals
    simp only [Ledger.handOver]
    omega

theorem Ok.handing (h : l.Ok fifo) (hhand : 0 < l.handing) :
    l.owner = 0 ∧ l.first = 0 ∧ l.handing = 1 ∧ l.announced = 0 ∧
      (l.stored = 0 ∧ l.wait = 0 ∨ l.wait = l.queuedR) ∧ l.ahead = 0 ∧
      l.handed = l.queuedW + 1 ∧ 0 < l.queuedR ∧ 0 < l.queuedW := by
  cases h.phase with
  | handingOver h1 h2 h3 h4 h5 h6 h7 h8 h9 => exact ⟨h1, h2, h3, h4, h5, h6, h7, h8, h9⟩
  | _ => omega

/-- The store of `RunReaders`: the next writer will wait for the queued readers. -/
def storeWait (l : Ledger) : Ledger :=
  { l with wait := l.size, stored := l.stored + 1 }

theorem Ok.storeWait (h : l.Ok fifo) (hhand : 0 < l.handing) : l.storeWait.Ok fifo := by
  obtain ⟨h1, h2, h3, h4, h5, h6, h7, h8, h9⟩ := h.handing hhand
  have hne : l.handing ≠ 0 := Nat.ne_of_gt hhand
  have hp : l.storeWait.parked = 0 := parked_of_handing hne
  exact { h with
    high_eq := high_eq_of hp (h.high_of (parked_of_handing hne))
    phase := .handingOver h1 h2 h3 h4 (.inr h.size_eq) h6 h7 h8 h9 }

/-- After the store the queued readers are admitted, and the next writer is the
first one. -/
def admitReaders (fifo : Bool) (l : Ledger) : Ledger :=
  { l with
    size := 0
    prio := if fifo then l.handed - 2 else l.prio
    queuedR := 0
    queuedW := l.queuedW - 1
    active := l.active + l.queuedR
    handing := l.handing - 1
    handed := 0
    stored := l.stored - 1 }

theorem Ok.admitReaders (h : l.Ok fifo) (hf : l.Fits) (hhand : 0 < l.handing)
    (hstored : l.stored ≠ 0) : (l.admitReaders fifo).Ok fifo := by
  obtain ⟨h1, h2, h3, h4, h5, h6, h7, h8, h9⟩ := h.handing hhand
  have hhigh := h.high_of (parked_of_handing (Nat.ne_of_gt hhand))
  have hlow := h.low_sum
  have hlt : l.active + l.transit + l.queuedR < 2 ^ 32 := hf.readers_lt
  have hwait : l.wait = l.queuedR := h5.resolve_left fun hzero => hstored hzero.1
  have hpos : 0 < l.wait := hwait ▸ h8
  have hhand' : (l.admitReaders fifo).handing = 0 := congrArg (· - 1) h3
  have hp : (l.admitReaders fifo).parked = 1 := parked_of_pos h2 hhand' hpos
  rw [ahead] at h6
  refine { h with
    high_eq := high_eq_of hp ?_
    low_eq := ?_
    size_eq := rfl
    prio_le := ?_
    prio_fifo := fun hfifo _ => ?_
    prio_lifo := fun hlifo => ?_
    phase := .waiting h1 h2 hhand' h4 hpos ?_ ?_ }
  · simp only [Ledger.admitReaders]
    omega
  · simp only [Ledger.admitReaders, readers]
    omega
  · cases fifo with
    | true =>
      simp only [Ledger.admitReaders, if_true]
      omega
    | false => exact (h.prio_lifo rfl).trans_le (Nat.zero_le _)
  · simp only [Ledger.admitReaders, hfifo, if_true]
    omega
  · simp [Ledger.admitReaders, hlifo, h.prio_lifo hlifo]
  · simp only [Ledger.admitReaders, ahead]
    omega
  · simp only [Ledger.admitReaders]
    omega

/-- The last writer leaves: the queued readers are admitted, and every reader
on its way gets a pass. -/
def lastOut (l : Ledger) : Ledger :=
  { l with
    high := l.high - 1
    size := 0
    pass := l.pass + (l.low - l.size)
    queuedR := 0
    active := l.active + l.queuedR
    owner := l.owner - 1 }

theorem Ok.lastOut (h : l.Ok fifo) (howner : 0 < l.owner) (hq : l.queuedW = 0) :
    l.lastOut.Ok fifo := by
  obtain ⟨h1, h2, h3, h4, h5, h6⟩ := h.owned howner
  have hhigh := h.owner_high howner
  have hlow := h.owner_low howner
  have hsize := h.size_eq
  have hle := h.prio_le
  have hp : l.lastOut.parked = 0 := parked_of_wait h5
  rw [ahead] at h6
  have hpass : l.lastOut.pass = l.transit := by
    simp only [Ledger.lastOut]
    omega
  have hleaving : l.lastOut.leaving = 0 := by
    simp only [Ledger.lastOut]
    omega
  have hprio : l.lastOut.prio = l.lastOut.queuedW := by
    simp only [Ledger.lastOut]
    omega
  refine { h with
    high_eq := high_eq_of hp ?_
    low_eq := ?_
    size_eq := rfl
    pass_le := Nat.le_of_eq hpass
    prio_fifo := fun _ _ => hprio
    phase := .readersOnly (congrArg (· - 1) h1) h2 h3 h4 h5 rfl hq hleaving hpass }
  · simp only [Ledger.lastOut]
    omega
  · simp only [Ledger.lastOut, readers]
    omega

end Ledger

end Yaclib.SharedMutex
