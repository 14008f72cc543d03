import Yaclib.Async.Wait.Model
import Yaclib.Concurrency.Tally

/-!
The invariant of a wait. The counter is what the waiting thread has not
subtracted yet (`own`) plus one for every callback of it that a core still
holds (`pending`), and `Set` is called once both are gone.
-/

namespace Yaclib.Wait

open Concurrency

variable {κ : Type}

namespace Waiter

def waitCount : Waiter → Nat
  | attach _ wc | attachSwap _ wc | attachLoop _ wc _ | make wc | check _ wc _ | asleep _ wc _
  | reset _ wc _ | resetSwap _ wc _ _ => wc
  | done _ => 0

def resetCount : Waiter → Nat
  | check _ _ rc | asleep _ _ rc | reset _ _ rc | resetSwap _ _ rc _ => rc
  | attach _ _ | attachSwap _ _ | attachLoop _ _ _ | make _ | done _ => 0

/-- How many handles `SetCallback` is done for, out of `n`. -/
def passed (n : Nat) : Waiter → Nat
  | attach k _ | attachSwap k _ | attachLoop k _ _ => k
  | _ => n

/-- The part of the counter that the waiting thread still has to subtract, or may
subtract after a reset. -/
def own (w : Call κ) : Waiter → Nat
  | attach _ wc | attachSwap _ wc | attachLoop _ wc _ => w.count + w.atomic.toNat - wc
  | reset _ _ rc | resetSwap _ _ rc _ => rc
  | _ => 0

def holding : Waiter → Nat
  | check _ _ _ | reset _ _ _ | resetSwap _ _ _ _ => 1
  | _ => 0

/-- The thread is where only a call with a timeout leads. -/
def Timed : Waiter → Prop
  | check last _ rc | asleep last _ rc => last = false ∨ 0 < rc
  | reset _ _ _ | resetSwap _ _ _ _ => True
  | done r => r = false
  | _ => False

/-- The kind of the core decides how `SetCallback` goes on, and `Reset` has seen
the event. -/
def Expects (w : Call κ) : Waiter → Prop
  | attachSwap k _ => ∃ c, w.handles[k]? = some c ∧ w.shared c = false
  | attachLoop k _ _ => ∃ c, w.handles[k]? = some c ∧ w.shared c = true
  | resetSwap k _ _ expected => k < w.count ∧ expected = some .event
  | _ => True

/-- What is known of the handle `j`: nothing before its `SetCallback`, and later
how many resets could have succeeded for it. -/
def credit (j : Nat) : Waiter → Option Nat
  | attach k _ | attachSwap k _ | attachLoop k _ _ => if j < k then some 0 else none
  | make _ => some 0
  | check last _ rc | asleep last _ rc => some (if last then rc else 0)
  | reset k _ rc | resetSwap k _ rc _ => some (if j < k then rc else 0)
  | done r => some (if r then 0 else 1)

end Waiter

namespace Producer

/-- `_is_ready` will be set by this producer. -/
def setting : Producer → Nat
  | lock _ | setReady _ => 1
  | _ => 0

/-- The producer has set `_is_ready` and is still in `Set`. -/
def leaving : Producer → Nat
  | notify _ | unlock _ => 1
  | _ => 0

def holding : Producer → Nat
  | setReady _ | notify _ | unlock _ => 1
  | _ => 0

end Producer

namespace State

/-- How many callbacks of the waiting thread the cores hold. -/
def pending [Fintype κ] (s : State κ) : Nat := tallyP Node.ours s.held

def setting [Fintype κ] (s : State κ) : Nat := tally Producer.setting s.producer

def leaving [Fintype κ] (s : State κ) : Nat := tally Producer.leaving s.producer

def holding [Fintype κ] (s : State κ) : Nat := tally Producer.holding s.producer

end State

/-- The handle `j` of the core `c` has its result, is still to be called back, or
was reset. -/
def Settled (w : Call κ) (s : State κ) (j : Nat) (c : κ) (r : Nat) : Prop :=
  s.callback c = .kResult ∨ w.node j c ∈ s.held c ∨
    (s.callback c = .kEmpty ∧ w.shared c = false ∧ 0 < r)

/-- One core: the list that hangs on it is linked, and it is made of callbacks of
other threads and of those that the first `n` handles attached. -/
structure CoreInv (w : Call κ) (s : State κ) (n : Nat) (c : κ) : Prop where
  linked : ∃ xs, s.held c = (s.producer c).inHand ++ xs ∧
    Chain (s.links w c) ((s.producer c).head (s.callback c)) xs
  result : s.callback c = .kResult ↔ s.producer c ≠ .before
  foreigns : ∀ m, .foreign m ∈ s.held c → m < s.foreigns
  unique : w.shared c = false →
    (∀ m ∈ s.held c, m = .event) ∧ (s.producer c).head .kEmpty = none
  placed : w.shared c = true → ∀ m ∈ s.held c, m.ours = true →
    ∃ j < n, w.handles[j]? = some c ∧ w.node j c = m

/-- The counter is what the waiting thread has to subtract (`own`) plus the callbacks that
the cores hold (`pending`); the event is set, or about to be, once both are gone. A handle
that `SetCallback` is done for has its result, is to be called back or was reset, and the
callbacks held and reset are no more than those attached (`budget`). Nobody uses the stack of
the call after its return. -/
structure Inv [Fintype κ] (w : Call κ) (s : State κ) : Prop where
  core : ∀ c, CoreInv w s (s.waiter.passed w.count) c
  settled : ∀ j c, w.handles[j]? = some c → ∀ r ∈ s.waiter.credit j, Settled w s j c r
  count_eq : w.atomic = true → s.returned = false → s.count = s.waiter.own w + s.pending
  count_nonneg : 0 ≤ s.count
  budget : s.pending + s.waiter.resetCount ≤ s.waiter.waitCount
  waitCount_le : s.waiter.waitCount ≤ s.waiter.passed w.count
  passed_le : s.waiter.passed w.count ≤ w.count
  set_once : s.returned = false →
    s.setting + s.isReady.toNat = once (s.waiter.own w + s.pending)
  ready : 0 < s.leaving → s.isReady = true
  locked_eq : s.locked.toNat = s.holding + s.waiter.holding
  quiet : s.returned = true → s.setting + s.leaving = 0
  timed : s.waiter.Timed → w.timed = true
  expects : s.waiter.Expects w
  notified : ∀ last wc rc, s.waiter = .asleep last wc rc → s.isReady = true →
    s.notified = true ∨ ∃ c next, s.producer c = .notify next
  dangling : s.dangling = false

end Yaclib.Wait
