import Mathlib.Data.Fintype.Card
import Yaclib.Concurrency.Chain
import Yaclib.Concurrency.System

/-!
`detail::MutexImpl<FIFO, Batching>` of `coro/mutex.hpp`, with `LockAwaiter`,
`UnlockAwaiter` and `UnlockOnAwaiter`, that drive it.

One step of the model is one atomic operation together with the plain
operations up to the next one. These touch `_receiver`, which only the owner
uses, and nodes that its unlock took out of `_sender`. `ι` are the coroutines
and `E` the executors. An unlock that has submitted its own coroutine goes on
without it: such an unlock is listed in `detached`.

Executors run what they are given, at any time; that they may drop it is in `Cancel`, and who
keeps them alive in `Executors`. The guards are left to `Sticky` and `Coro.Guard`.
-/

namespace Yaclib.Mutex

open Concurrency

structure Config where
  fifo : Bool
  batching : Bool

inductive Word (ι : Type) where
  | kNotLocked
  /-- `reinterpret_cast` of a `BaseCore*` -/
  | ptr (p : Option ι)
  deriving DecidableEq

/-- The word 0 is the null pointer. -/
def kLockedNoWaiters {ι : Type} : Word ι := .ptr none

/-- Which function unlocks: `UnlockHere`, `UnlockAwaiter` or `AwaitUnlockOn`,
with its `curr_executor`. -/
inductive Kind (E : Type) where
  | here
  | await
  | on (executor : E)
  deriving DecidableEq

/-- What an unlock does next. -/
inductive Unlock (ι E : Type) where
  /-- the assertion of `TryUnlockAwait`, and its test of `_receiver` -/
  | tryUnlock (k : Kind E)
  | load (k : Kind E)
  | swap (k : Kind E)
  /-- `TryUnlockAwait` was false -/
  | slow (k : Kind E)
  /-- `next._executor->Submit(next)` -/
  | submit (next : ι)
  /-- `YACLIB_TRANSFER(next.Curr())` -/
  | transfer (next : ι)
  deriving DecidableEq

inductive Pc (ι E : Type) where
  | running
  /-- `TryLockAwait` read `kNotLocked`; its compare-and-swap is next -/
  | tryLock (await : Bool)
  | awaitLock
  /-- the loop of `AwaitLock`, with its `expected` -/
  | awaitLoop (expected : Word ι)
  /-- suspended: `AwaitLock` returned true -/
  | waiting
  /-- submitted as the next owner, not yet called -/
  | resumed
  | held
  | unlock (u : Unlock ι E)
  /-- submitted by its own unlock, not yet called -/
  | ready
  deriving DecidableEq

/-- The fields of the mutex and of the coroutines, where each coroutine is, and
four ghosts: how often `AwaitLock` suspended a coroutine, how often it was
resumed as the owner, whether every assertion held, and whether every pointer
that was dereferenced led to a node. -/
structure State (ι E : Type) where
  sender : Word ι := .kNotLocked
  receiver : Option ι := none
  next : ι → Option ι
  executor : ι → E
  pc : ι → Pc ι E := fun _ => .running
  detached : List (Unlock ι E) := []
  parks : ι → Nat := fun _ => 0
  wakes : ι → Nat := fun _ => 0
  asserts : Bool := true
  derefs : Bool := true

variable {ι E : Type} [DecidableEq ι]

/-- Who executes an unlock: the coroutine itself, or a thread that is done with
the coroutine. -/
inductive Actor (ι : Type) where
  | coroutine (i : ι)
  | detached (k : Nat)

namespace State

def goto (s : State ι E) (i : ι) (p : Pc ι E) : State ι E :=
  { s with pc := Function.update s.pc i p }

/-- `YACLIB_ASSERT(b)` -/
def check (s : State ι E) (b : Bool) : State ι E :=
  { s with asserts := s.asserts && b }

def unlockAt (s : State ι E) : Actor ι → Option (Unlock ι E)
  | .coroutine i =>
    match s.pc i with
    | .unlock u => some u
    | _ => none
  | .detached k => s.detached[k]?

/-- The unlock at `a` goes on with `u`, or it ends. -/
def put (s : State ι E) : Actor ι → Option (Unlock ι E) → State ι E
  | .coroutine i, some u => s.goto i (.unlock u)
  | .coroutine i, none => s.goto i .running
  | .detached k, some u => { s with detached := s.detached.set k u }
  | .detached k, none => { s with detached := s.detached.eraseIdx k }

/-- The suspended coroutine `n` becomes the owner. -/
def resume (s : State ι E) (n : ι) (p : Pc ι E) : State ι E :=
  { s with
    pc := Function.update s.pc n p
    wakes := Function.update s.wakes n (s.wakes n + 1) }

end State

/-- Where a failed `TryLockAwait` leads: to `AwaitLock`, or out of `TryLock`. -/
def lockFailed : Bool → Pc ι E
  | true => .awaitLock
  | false => .running

/-- The relaxed load of `TryLockAwait`. -/
def tryLockAwait (s : State ι E) (i : ι) (await : Bool) : State ι E :=
  s.goto i (if s.sender = .kNotLocked then .tryLock await else lockFailed await)

/-- The compare-and-swap of `TryLockAwait`. -/
def tryLockAwaitSwap (s : State ι E) (i : ι) (await : Bool) : State ι E :=
  if s.sender = .kNotLocked then { s with sender := kLockedNoWaiters }.goto i .held
  else s.goto i (lockFailed await)

/-- A round of the loop of `AwaitLock`; `weak`: the swap fails spuriously. -/
def awaitLock (s : State ι E) (i : ι) (expected : Word ι) (weak : Bool) : State ι E :=
  match expected with
  | .kNotLocked =>
    if s.sender = expected ∧ weak = false then
      { s with sender := kLockedNoWaiters }.goto i .held
    else s.goto i (.awaitLoop s.sender)
  | .ptr p =>
    let s := { s with next := Function.update s.next i p }
    if s.sender = expected ∧ weak = false then
      { s with
        sender := .ptr (some i)
        parks := Function.update s.parks i (s.parks i + 1) }.goto i .waiting
    else s.goto i (.awaitLoop s.sender)

/-- `GetHead`: the next owner. `none`: a pointer is dereferenced that is not one
of a node. A chain without a cycle has at most one node for each coroutine. -/
def getHead [Fintype ι] (cfg : Config) (s : State ι E) : Option (ι × State ι E) :=
  match s.receiver with
  | some n => some (n, s)
  | none =>
    let expected := s.sender
    let s := { s with sender := kLockedNoWaiters }
    match expected with
    | .ptr (some node) =>
      if cfg.fifo then
        match reverseLoop s.next (Fintype.card ι) node none with
        | some (next, prev) => some (prev, { s with next := next })
        | none => none
      else some (node, s)
    | _ => none

/-- What follows a `TryUnlockAwait` that was false in `UnlockHere` and in
`AwaitUnlockOn`. -/
def unlockSlow [Fintype ι] (cfg : Config) (s : State ι E) (a : Actor ι) (k : Kind E) : State ι E :=
  match getHead cfg s with
  | none => { s with derefs := false }.put a none
  | some (n, s) =>
    let rest := s.next n
    match k with
    | .on executor =>
      if cfg.batching ∧ s.receiver ≠ none then
        { s with
          receiver := rest
          executor := Function.update s.executor n executor }.put a (some (.transfer n))
      else { s with receiver := rest }.put a (some (.submit n))
    | _ => { s with receiver := rest }.put a (some (.submit n))

/-- `AwaitUnlock`, up to the submission of its own coroutine. -/
def awaitUnlock (s : State ι E) (i : ι) : State ι E :=
  match s.receiver with
  | none => (s.check false).goto i .running
  | some n =>
    { s with
      receiver := s.next n
      executor := Function.update (Function.update s.executor i (s.executor n)) n (s.executor i)
      detached := s.detached ++ [Unlock.transfer n] }.goto i .ready

/-- `AwaitUnlockOn`, up to the submission of its own coroutine. -/
def awaitUnlockOn (s : State ι E) (i : ι) (executor : E) : State ι E :=
  { s with
    executor := Function.update s.executor i executor
    detached := s.detached ++ [Unlock.tryUnlock (.on (s.executor i))] }.goto i .ready

def unlockStep [Fintype ι] (cfg : Config) (s : State ι E) (a : Actor ι) :
    Unlock ι E → State ι E
  | .tryUnlock k =>
    (s.check (s.sender ≠ .kNotLocked)).put a (some (if s.receiver ≠ none then .slow k else .load k))
  | .load k => s.put a (some (if s.sender = kLockedNoWaiters then .swap k else .slow k))
  | .swap k =>
    if s.sender = kLockedNoWaiters then { s with sender := .kNotLocked }.put a none
    else s.put a (some (.slow k))
  | .slow k =>
    match a, k with
    | .coroutine i, .await =>
      -- `BatchingPossible`
      if cfg.batching ∧ s.receiver ≠ none then awaitUnlock s i else unlockSlow cfg s a k
    | _, _ => unlockSlow cfg s a k
  | .submit n => (s.put a none).resume n .resumed
  | .transfer n => (s.put a none).resume n .held

inductive Op (E : Type) where
  | lock
  | tryLock
  | unlockHere
  | unlock
  | unlockOn (executor : E)

/-- What the scheduler chooses: an operation of a coroutine that runs, its next
step (`weak` fails a weak compare-and-swap), the next step of an unlock that
goes on without its coroutine, or another use of the `next` field of a
coroutine that is not suspended here, by the queue of an executor. -/
inductive Event (ι E : Type) where
  | call (i : ι) (op : Op E)
  | advance (i : ι) (weak : Bool)
  | detached (k : Nat)
  | relink (i : ι) (p : Option ι)

/-- Only the owner unlocks. -/
def call (s : State ι E) (i : ι) (op : Op E) : Option (State ι E) :=
  match s.pc i, op with
  | .running, .lock => some (tryLockAwait s i true)
  | .running, .tryLock => some (tryLockAwait s i false)
  | .held, .unlockHere => some (s.goto i (.unlock (.tryUnlock .here)))
  | .held, .unlock => some (s.goto i (.unlock (.tryUnlock .await)))
  | .held, .unlockOn executor => some (awaitUnlockOn s i executor)
  | _, _ => none

def advance [Fintype ι] (cfg : Config) (s : State ι E) (i : ι) (weak : Bool) :
    Option (State ι E) :=
  match s.pc i with
  | .running | .waiting | .held => none
  | .tryLock await => some (tryLockAwaitSwap s i await)
  | .awaitLock => some (s.goto i (.awaitLoop s.sender))
  | .awaitLoop expected => some (awaitLock s i expected weak)
  | .resumed => some (s.goto i .held)
  | .ready => some (s.goto i .running)
  | .unlock u => some (unlockStep cfg s (.coroutine i) u)

def step [Fintype ι] (cfg : Config) (s : State ι E) : Event ι E → Option (State ι E)
  | .call i op => call s i op
  | .advance i weak => advance cfg s i weak
  | .detached k => (s.detached[k]?).map (unlockStep cfg s (.detached k))
  | .relink i p =>
    match s.pc i with
    | .waiting => none
    | _ => some { s with next := Function.update s.next i p }

def system [Fintype ι] (cfg : Config) : System (State ι E) (Event ι E) where
  Init s := ∃ next executor, s = { next := next, executor := executor }
  step := step cfg

/-- Coroutine `i` owns the mutex: its lock call returned without suspending or
it was resumed, and its unlock has neither ended nor gone on without it. -/
def Owns (s : State ι E) (i : ι) : Prop :=
  s.pc i = .resumed ∨ s.pc i = .held ∨ ∃ u, s.pc i = .unlock u

/-- An unlock chose `n` as the next owner and is about to resume it. -/
def HandedTo (s : State ι E) (n : ι) : Prop :=
  ∃ a, s.unlockAt a = some (.submit n) ∨ s.unlockAt a = some (.transfer n)

def Waits (s : State ι E) (i : ι) : Prop :=
  s.pc i = .waiting ∧ ¬ HandedTo s i

/-- No owner, no pending hand-off, and no operation in progress. -/
def Quiescent (s : State ι E) : Prop :=
  s.detached = [] ∧ ∀ i, s.pc i = .running ∨ s.pc i = .waiting ∨ s.pc i = .ready

end Yaclib.Mutex
