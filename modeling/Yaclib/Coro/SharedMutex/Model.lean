import Mathlib.Algebra.Group.Nat.Defs
import Yaclib.Concurrency.System

/-!
`detail::SharedMutexImpl<FIFO, ReadersFIFO>` of `coro/shared_mutex.hpp`, with
the awaiters of `coro/detail/mutex_awaiter.hpp` that drive it.

One step of the model is one atomic operation, or one stretch of plain
operations under `_lock`; a section of `_lock` that also touches a free-running
atomic is cut at each of them. `ι` indexes the lock requests in flight: a
coroutine that holds several shared locks counts once for each of them.

Left out are the spinning at `_lock`, which blocks while it is taken, on which executors the
coroutines go on, and coroutines that their executors drop.
-/

namespace Yaclib.SharedMutex

open Concurrency

structure Config where
  fifo : Bool
  readersFifo : Bool

def kReader : Nat := 1

/-- The high half of `_state` counts writers, the low half readers. -/
def kWriter : Nat := kReader * 2 ^ 32

theorem kWriter_eq : kWriter = 2 ^ 32 := rfl

def u32 (n : Nat) : Nat := n % 2 ^ 32

def u64 (n : Nat) : Nat := n % 2 ^ 64

/-! Unsigned addition and subtraction. The second operand comes first in the
sum: it is often a constant, and `x + 2 ^ 32` unfolds to as many successors. -/

def add32 (a b : Nat) : Nat := u32 (b + a)

def add64 (a b : Nat) : Nat := u64 (b + a)

def sub32 (a b : Nat) : Nat := u32 (2 ^ 32 - u32 b + a)

def sub64 (a b : Nat) : Nat := u64 (2 ^ 64 - u64 b + a)

/-- Where a request is. A name that starts with `sh` belongs to a reader, one
that starts with `ex` to a writer. -/
inductive Pc (ι : Type) where
  | idle
  /-- `LockShared`: `await_ready` was false, `AwaitLockShared` wants `_lock`. -/
  | shEnter
  | shSection
  /-- suspended by `AwaitLockShared` -/
  | shWaiting
  /-- submitted by `Run`, not yet called by its executor -/
  | shResumed
  | shHeld
  /-- the loop of `TryLockShared`, with its `s` -/
  | tryShared (s : Nat)
  /-- `UnlockHereShared` saw a writer; `_readers_wait.fetch_sub` is next -/
  | shLeave
  /-- the last reader the first writer waited for; `Run(_writers_first)` is next -/
  | shWake
  /-- `TryLockAwait` read 0; its compare-and-swap is next -/
  | tryLock (await : Bool)
  | exEnter
  | exSection
  /-- `AwaitLock` saw no writer and `r` readers; `_writers_first = &curr` is next -/
  | exFirst (r : Nat)
  /-- `_readers_wait.fetch_add(r)` is next -/
  | exWait (r : Nat)
  | exWaiting
  | exResumed
  | exHeld
  /-- `SlowUnlock` wants `_lock` -/
  | slowEnter
  | slowSection
  /-- `RunReaders(s)` with a next writer; `_readers_wait.store` is next -/
  | runReaders (s : Nat)
  /-- `_writers_first = node` is next -/
  | nextWriter (s : Nat)
  /-- the end of a section that does not suspend: `_lock.unlock()` is next -/
  | unlocking (k : Pc ι)
  /-- `Run(node)` of a writer -/
  | submitOne (n : ι)
  /-- the loop of `RunReaders` over the readers it took -/
  | submitAll (ns : List ι)
  deriving DecidableEq

/-- A suspended coroutine becomes runnable when it is submitted. -/
def Pc.resumed {ι : Type} : Pc ι → Pc ι
  | .shWaiting => .shResumed
  | .exWaiting => .exResumed
  | p => p

/-- `_lock`. `releasing`: the section of a coroutine that has just been
suspended is over, and its `lock_guard` still has to store 0. -/
inductive Lock where
  | free
  | held
  | releasing
  deriving DecidableEq

/-- The fields of the mutex, under the names of the source, the place of every
request, and two ghosts: how often the current request of each coroutine was
submitted, and whether every `YACLIB_ASSERT` reached so far held. -/
structure State (ι : Type) where
  state : Nat := 0
  /-- `_readers`, next to be popped first -/
  readers : List ι := []
  writersFirst : Option ι := none
  /-- the chain from `_writers_head.next` to `_writers_tail` -/
  writers : List ι := []
  writersPrio : Nat := 0
  readersWait : Nat := 0
  readersSize : Nat := 0
  readersPass : Nat := 0
  lock : Lock := .free
  pc : ι → Pc ι := fun _ => .idle
  submits : ι → Nat := fun _ => 0
  asserts : Bool := true

variable {ι : Type} [DecidableEq ι]

namespace State

def goto (s : State ι) (i : ι) (p : Pc ι) : State ι :=
  { s with pc := Function.update s.pc i p }

/-- `YACLIB_ASSERT(b)` -/
def check (s : State ι) (b : Bool) : State ι :=
  { s with asserts := s.asserts && b }

def submit (s : State ι) (n : ι) : State ι :=
  { s with
    pc := Function.update s.pc n (s.pc n).resumed
    submits := Function.update s.submits n (s.submits n + 1) }

/-- `Run(node)` by request `i`, up to its submission. -/
def run (s : State ι) (i : ι) : Option ι → State ι
  | none => (s.check false).goto i .idle
  | some n => s.goto i (.submitOne n)

/-- `_lock.lock()`: the exchange that reads 0. -/
def acquire (s : State ι) (i : ι) (p : Pc ι) : Option (State ι) :=
  if s.lock = .free then some ({ s with lock := .held }.goto i p) else none

end State

/-- `_readers.PushBack`: `List` appends, `Stack` pushes in front. -/
def pushBack (cfg : Config) (rs : List ι) (i : ι) : List ι :=
  if cfg.readersFifo then rs ++ [i] else i :: rs

def tryLockSharedAwait (s : State ι) (i : ι) : State ι :=
  { s with state := add64 s.state kReader }.goto i
    (if s.state / kWriter = 0 then .shHeld else .shEnter)

/-- Where a failed `TryLockAwait` leads: to `AwaitLock`, or out of `TryLock`. -/
def lockFailed : Bool → Pc ι
  | true => .exEnter
  | false => .idle

/-- The relaxed load of `TryLockAwait`. -/
def tryLockAwait (s : State ι) (i : ι) (await : Bool) : State ι :=
  s.goto i (if s.state = 0 then .tryLock await else lockFailed await)

/-- The compare-and-swap of `TryLockAwait`. -/
def tryLockAwaitSwap (s : State ι) (i : ι) (await : Bool) : State ι :=
  if s.state = 0 then { s with state := add64 0 kWriter }.goto i .exHeld
  else s.goto i (lockFailed await)

def awaitLockShared (cfg : Config) (s : State ι) (i : ι) : State ι :=
  if s.readersPass ≠ 0 then
    { s with readersPass := sub32 s.readersPass 1 }.goto i (.unlocking .shHeld)
  else
    ({ s with
      readers := pushBack cfg s.readers i
      readersSize := add32 s.readersSize 1
      lock := .releasing }.check (s.state / kWriter ≠ 0)).goto i .shWaiting

/-- `AwaitLock` up to the writer's place: announced as the first one, or at the
end of the chain. -/
def awaitLock (cfg : Config) (s : State ι) (i : ι) : State ι :=
  if s.state / kWriter = 0 then
    { s with state := add64 s.state kWriter }.goto i (.exFirst (u32 (s.state % kWriter)))
  else
    { s with
      state := add64 s.state kWriter
      writers := s.writers ++ [i]
      writersPrio :=
        if cfg.fifo then add32 s.writersPrio (if s.readers.isEmpty then 1 else 0)
        else s.writersPrio
      lock := .releasing }.goto i .exWaiting

def awaitLockFirst (s : State ι) (i : ι) (r : Nat) : State ι :=
  { s with writersFirst := some i }.goto i (if r = 0 then .unlocking .exHeld else .exWait r)

/-- `_readers_wait.fetch_add(r) != -r`: suspend, unless all `r` readers left. -/
def awaitLockWait (s : State ι) (i : ι) (r : Nat) : State ι :=
  if s.readersWait = sub32 0 r then
    { s with readersWait := add32 s.readersWait r }.goto i (.unlocking .exHeld)
  else
    { s with readersWait := add32 s.readersWait r, lock := .releasing }.goto i .exWaiting

/-- The test of the loop of `TryLockShared` on a freshly read `_state`. -/
def tryLockShared (s : State ι) (i : ι) : State ι :=
  s.goto i (if s.state / kWriter ≠ 0 then .idle else .tryShared s.state)

/-- `compare_exchange_weak` of `TryLockShared`; `weak`: it fails spuriously. -/
def tryLockSharedSwap (s : State ι) (i : ι) (expected : Nat) (weak : Bool) : State ι :=
  if s.state = expected ∧ weak = false then
    { s with state := add64 s.state kReader }.goto i .shHeld
  else tryLockShared s i

def unlockHereShared (s : State ι) (i : ι) : State ι :=
  { s with state := sub64 s.state kReader }.goto i (if kWriter ≤ s.state then .shLeave else .idle)

def unlockHereSharedWait (s : State ι) (i : ι) : State ι :=
  { s with readersWait := sub32 s.readersWait 1 }.goto i
    (if s.readersWait = 1 then .shWake else .idle)

def unlockHere (s : State ι) (i : ι) : State ι :=
  if s.state = kWriter then { s with state := 0 }.goto i .idle else s.goto i .slowEnter

/-- `RunWriter`. Its `node->next` reads through `_writers_head.next`, so an
empty chain would be a null dereference; `check false` records it. -/
def runWriter (cfg : Config) (s : State ι) (i : ι) : State ι :=
  let s := if cfg.fifo then
      { s.check (s.writersPrio ≠ 0) with writersPrio := sub32 s.writersPrio 1 } else s
  match s.writers with
  | [] => (s.check false).goto i .idle
  | n :: ns => { s with writers := ns }.goto i (.unlocking (.submitOne n))

def passReaders (s : State ι) (old : Nat) : State ι :=
  let r := u32 (old % kWriter)
  let s := s.check (old / kWriter = 1 && s.readersSize ≤ r)
  { s with readersPass := add32 s.readersPass (sub32 r s.readersSize) }

/-- The end of `RunReaders`: the queue moves to the loop that submits it. -/
def takeReaders (s : State ι) (i : ι) : State ι :=
  { s with readers := [], readersSize := 0 }.goto i (.unlocking (.submitAll s.readers))

/-- `RunReaders` up to its store to `_readers_wait`. -/
def runReaders (s : State ι) (i : ι) (old : Nat) : State ι :=
  if u32 (old / kWriter) ≠ 1 then s.goto i (.runReaders old)
  else takeReaders (passReaders s old) i

/-- The store of `RunReaders`: the readers admitted here are those the next
writer waits for. -/
def runReadersStore (s : State ι) (i : ι) (old : Nat) : State ι :=
  { s with readersWait := s.readersSize }.goto i (.nextWriter old)

/-- `RunReaders` after its store. -/
def nextWriter (cfg : Config) (s : State ι) (i : ι) (old : Nat) : State ι :=
  match s.writers with
  | [] => (s.check false).goto i .idle
  | n :: ns =>
    takeReaders { s with
      writers := ns
      writersFirst := some n
      writersPrio := if cfg.fifo then sub32 (u32 (old / kWriter)) 2 else s.writersPrio } i

def slowUnlock (cfg : Config) (s : State ι) (i : ι) : State ι :=
  let old := s.state
  let s := { s with state := sub64 old kWriter }
  if cfg.fifo ∧ s.writersPrio ≠ 0 then
    runWriter cfg (s.check (1 < old / kWriter)) i
  else if s.readers ≠ [] then runReaders s i old
  else if ¬ cfg.fifo ∧ old / kWriter ≠ 1 then runWriter cfg s i
  else (passReaders s old).goto i (.unlocking .idle)

inductive Op where
  | lock
  | lockShared
  | tryLock
  | tryLockShared

/-- What the scheduler chooses: an operation for an idle request, the next
step of a request (`weak` fails a weak compare-and-swap), or the end of the
section of a suspended one. -/
inductive Event (ι : Type) where
  | call (i : ι) (op : Op)
  | advance (i : ι) (weak : Bool)
  | release

def call (s : State ι) (i : ι) (op : Op) : State ι :=
  let s := { s with submits := Function.update s.submits i 0 }
  match op with
  | .lock => tryLockAwait s i true
  | .lockShared => tryLockSharedAwait s i
  | .tryLock => tryLockAwait s i false
  | .tryLockShared => tryLockShared s i

/-- The next step of request `i`. A holder's next step is its unlock: a request
unlocks only what it holds. -/
def advance (cfg : Config) (s : State ι) (i : ι) (weak : Bool) : Option (State ι) :=
  match s.pc i with
  | .idle | .shWaiting | .exWaiting => none
  | .shEnter => s.acquire i .shSection
  | .shSection => some (awaitLockShared cfg s i)
  | .shResumed => some (s.goto i .shHeld)
  | .shHeld => some (unlockHereShared s i)
  | .tryShared expected => some (tryLockSharedSwap s i expected weak)
  | .shLeave => some (unlockHereSharedWait s i)
  | .shWake => some (s.run i s.writersFirst)
  | .tryLock await => some (tryLockAwaitSwap s i await)
  | .exEnter => s.acquire i .exSection
  | .exSection => some (awaitLock cfg s i)
  | .exFirst r => some (awaitLockFirst s i r)
  | .exWait r => some (awaitLockWait s i r)
  | .exResumed => some (s.goto i .exHeld)
  | .exHeld => some (unlockHere s i)
  | .slowEnter => s.acquire i .slowSection
  | .slowSection => some (slowUnlock cfg s i)
  | .runReaders old => some (runReadersStore s i old)
  | .nextWriter old => some (nextWriter cfg s i old)
  | .unlocking k => some ({ s with lock := .free }.goto i k)
  | .submitOne n => some ((s.submit n).goto i .idle)
  | .submitAll [] => some (s.goto i .idle)
  | .submitAll (n :: ns) => some ((s.submit n).goto i (.submitAll ns))

def step (cfg : Config) (s : State ι) : Event ι → Option (State ι)
  | .call i op => if s.pc i = .idle then some (call s i op) else none
  | .advance i weak => advance cfg s i weak
  | .release => if s.lock = .releasing then some { s with lock := .free } else none

def system (cfg : Config) (ι : Type) [DecidableEq ι] : System (State ι) (Event ι) where
  Init s := s = {}
  step := step cfg

/-- Request `i` holds the lock exclusively: its call returned, or the mutex
submitted it, and its unlock has not begun. -/
def HoldsExclusive (s : State ι) (i : ι) : Prop :=
  s.pc i = .exHeld ∨ s.pc i = .exResumed

def HoldsShared (s : State ι) (i : ι) : Prop :=
  s.pc i = .shHeld ∨ s.pc i = .shResumed

/-- No operation is in progress, nobody holds the lock and no resumption is
outstanding: every request is idle or suspended. -/
def Quiescent (s : State ι) : Prop :=
  s.lock = .free ∧ ∀ i, s.pc i = .idle ∨ s.pc i = .shWaiting ∨ s.pc i = .exWaiting

end Yaclib.SharedMutex
