import Mathlib.Data.Fintype.Card
import Yaclib.Algo.BaseCore
import Yaclib.Concurrency.Chain
import Yaclib.Concurrency.System

/-!
`detail::WaitRange` of `async/detail/wait_impl.hpp`, behind `Wait`, `WaitFor` and
`WaitUntil`: a `MultiEvent` of `CallCallback` on the stack of the waiting thread,
over a `MutexEvent`, and the `SetResult` of the producers.

One step of the model is one atomic operation on a `_callback` or on `count`,
one acquisition or release of the mutex of the event, or one access to what the
mutex protects. `κ` are the cores. A core can be shared with other threads,
which then attach callbacks of their own to it.

Left out are the results, the executors, and the clock: a wait with a timeout may give up at
any time. A call with no handle returns before the model begins.
-/

namespace Yaclib.Wait

open Concurrency

/-- The `InlineCore` objects a core can hold: the `CallCallback` of the event, the
element `i` of its array `callbacks`, and the callbacks of other threads. -/
inductive Node where
  | event
  | callback (i : Nat)
  | foreign (m : Nat)
  deriving DecidableEq

/-- The object lives on the stack of the waiting thread. -/
def Node.ours : Node → Bool
  | foreign _ => false
  | _ => true

/-- The arguments of the call: the handles, which of the cores are shared, and
whether there is a timeout. -/
structure Call (κ : Type) where
  handles : List κ
  shared : κ → Bool
  timed : Bool
  /-- `WaitIterator` returns before for an empty range -/
  nonempty : handles ≠ []
  /-- each unique core belongs to one future -/
  distinct : ∀ (j k : Nat) (c : κ), handles[j]? = some c → handles[k]? = some c →
    shared c = false → j = k
  /-- `is_waitable_with_timeout_v` -/
  unique_of_timed : timed = true → ∀ c ∈ handles, shared c = false

namespace Call

variable {κ : Type} (w : Call κ)

def count : Nat := w.handles.length

def sharedCount : Nat := w.handles.countP w.shared

/-- `CoreEvent` counts with an `AtomicCounter`, and with `OneCounter` for one handle. -/
def atomic : Bool := w.count ≠ 1

/-- How many elements of `callbacks` the handles before `k` took. -/
def callbackCount (k : Nat) : Nat := (w.handles.take k).countP w.shared

/-- The callback for the handle `k`, of the core `c`: only an event for more than
one shared handle has an array `callbacks`. -/
def node (k : Nat) (c : κ) : Node :=
  if w.shared c ∧ 1 < w.sharedCount then .callback (w.callbackCount k) else .event

end Call

/-- Where the producer of a core is, in `SetResult`. -/
inductive Producer where
  /-- its `exchange` is next -/
  | before
  /-- `while (auto* next = head->next)` -/
  | visit (head : Node)
  /-- `Loop(this, head)` -/
  | call (head : Node) (next : Option Node)
  /-- `Set` of the event: the four operations of `MutexEvent::Set` -/
  | lock (next : Option Node)
  | setReady (next : Option Node)
  | notify (next : Option Node)
  | unlock (next : Option Node)
  | finished
  deriving DecidableEq

/-- Where the waiting thread is. `wc` is `wait_count`, `rc` is `reset_count`. -/
inductive Waiter where
  /-- `SetCallback` of the handle `k`: its load; after the last handle, the first `SubEqual` -/
  | attach (k wc : Nat)
  /-- the compare-and-swap of `SetCallbackImpl<false>` -/
  | attachSwap (k wc : Nat)
  /-- the loop of `SetCallbackImpl<true>`, with its `next` -/
  | attachLoop (k wc : Nat) (expected : Option Node)
  /-- `event.Make()` -/
  | make (wc : Nat)
  /-- the test of `_is_ready`; `last`: in the `Wait` without a timeout -/
  | check (last : Bool) (wc rc : Nat)
  /-- in `_cv.wait`, without the mutex -/
  | asleep (last : Bool) (wc rc : Nat)
  /-- `Reset` of the handle `k`: its load; after the last handle, the second `SubEqual` -/
  | reset (k wc rc : Nat)
  /-- the compare-and-swap of `ResetImpl` -/
  | resetSwap (k wc rc : Nat) (expected : Option Node)
  | done (result : Bool)
  deriving DecidableEq

/-- The fields of the cores and of the event, where each thread is, and two
ghosts: the callbacks that a core or its producer still holds, and whether a
producer used an object of the waiting thread after the return. -/
structure State (κ : Type) where
  callback : κ → Callback Node := fun _ => .kEmpty
  next : Node → Option Node := fun _ => none
  /-- the callbacks of other threads so far -/
  foreigns : Nat := 0
  count : Int
  isReady : Bool := false
  locked : Bool := false
  notified : Bool := false
  producer : κ → Producer := fun _ => .before
  waiter : Waiter := .attach 0 0
  held : κ → List Node := fun _ => []
  dangling : Bool := false

variable {κ : Type} [DecidableEq κ]

namespace State

def goto (s : State κ) (p : Waiter) : State κ :=
  { s with waiter := p }

/-- `return result`, after the mutex is released. -/
def ret (s : State κ) (result : Bool) : State κ :=
  { s with locked := false, waiter := .done result }

def returned (s : State κ) : Bool :=
  match s.waiter with
  | .done _ => true
  | _ => false

def move (s : State κ) (c : κ) (p : Producer) : State κ :=
  { s with producer := Function.update s.producer c p }

/-- A thread other than the waiting one uses an object of the waiting thread. -/
def touch (s : State κ) : State κ :=
  { s with dangling := s.dangling || s.returned }

def put (s : State κ) (c : κ) (callback : Callback Node) (held : List Node) : State κ :=
  { s with
    callback := Function.update s.callback c callback
    held := Function.update s.held c held }

def link (s : State κ) (m : Node) (p : Option Node) : State κ :=
  { s with next := Function.update s.next m p }

/-- `SubEqual(n)` returns true. -/
def subEqual (w : Call κ) (s : State κ) (n : Nat) : Bool :=
  w.atomic && (s.count = n)

/-- The effect of `SubEqual(n)`. -/
def fetchSub (w : Call κ) (s : State κ) (n : Nat) : State κ :=
  if w.atomic then { s with count := s.count - n } else s

end State

/-- `wait_count == 0 || event.SubEqual(count - wait_count + 1)` -/
def join (w : Call κ) (s : State κ) (wc : Nat) : State κ :=
  if wc = 0 then s.goto (.done true)
  else
    (s.fetchSub w (w.count - wc + 1)).goto
      (if s.subEqual w (w.count - wc + 1) then .done true else .make wc)

/-- The load of `SetCallbackImpl`. -/
def setCallback (w : Call κ) (s : State κ) (k wc : Nat) (c : κ) : State κ :=
  if w.shared c then
    match s.callback c with
    | .kResult => s.goto (.attach (k + 1) wc)
    | .ptr p => s.goto (.attachLoop k wc p)
  else s.goto (if s.callback c = .kEmpty then .attachSwap k wc else .attach (k + 1) wc)

/-- The compare-and-swap of `SetCallbackImpl<false>`. -/
def setCallbackSwap (w : Call κ) (s : State κ) (k wc : Nat) (c : κ) : State κ :=
  if s.callback c = .kEmpty then
    (s.put c (.ptr (some (w.node k c))) [w.node k c]).goto (.attach (k + 1) (wc + 1))
  else s.goto (.attach (k + 1) wc)

/-- A round of the loop of `SetCallbackImpl<true>`. -/
def setCallbackLoop (w : Call κ) (s : State κ) (k wc : Nat) (c : κ) (expected : Option Node)
    (weak : Bool) : State κ :=
  let s := s.link (w.node k c) expected
  match (s.callback c).round expected weak with
  | .attached =>
    (s.put c (.ptr (some (w.node k c))) (w.node k c :: s.held c)).goto (.attach (k + 1) (wc + 1))
  | .refused => s.goto (.attach (k + 1) wc)
  | .again p => s.goto (.attachLoop k wc p)

/-- The load of `ResetImpl`. -/
def reset (s : State κ) (k wc rc : Nat) (c : κ) : State κ :=
  match s.callback c with
  | .kResult => s.goto (.reset (k + 1) wc rc)
  | .ptr p => s.goto (.resetSwap k wc rc p)

/-- The compare-and-swap of `ResetImpl`. -/
def resetSwap (s : State κ) (k wc rc : Nat) (c : κ) (expected : Option Node) : State κ :=
  if s.callback c = .ptr expected then
    (s.put c .kEmpty []).goto (.reset (k + 1) wc (rc + 1))
  else s.goto (.reset (k + 1) wc rc)

/-- `reset_count != 0 && (reset_count == wait_count || event.SubEqual(reset_count))` -/
def resetDone (w : Call κ) (s : State κ) (wc rc : Nat) : State κ :=
  if rc = 0 then s.goto (.check true wc rc)
  else if rc = wc then s.ret false
  else if s.subEqual w rc then (s.fetchSub w rc).ret false
  else (s.fetchSub w rc).goto (.check true wc rc)

/-- One step of the waiting thread. It is blocked while another thread has the
mutex, and asleep until a notification. -/
def advance (w : Call κ) (s : State κ) (weak : Bool) : Option (State κ) :=
  match s.waiter with
  | .attach k wc =>
    match w.handles[k]? with
    | some c => some (setCallback w s k wc c)
    | none => some (join w s wc)
  | .attachSwap k wc => (w.handles[k]?).map (setCallbackSwap w s k wc)
  | .attachLoop k wc expected =>
    (w.handles[k]?).map fun c => setCallbackLoop w s k wc c expected weak
  | .make wc =>
    if s.locked then none else some ({ s with locked := true }.goto (.check (!w.timed) wc 0))
  | .check last wc rc =>
    if s.isReady then some (s.ret (!last || rc = 0))
    else some ({ s with locked := false, notified := false }.goto (.asleep last wc rc))
  | .asleep last wc rc =>
    if s.locked || !s.notified then none
    else some ({ s with locked := true }.goto (.check last wc rc))
  | .reset k wc rc =>
    match w.handles[k]? with
    | some c => some (reset s k wc rc c)
    | none => some (resetDone w s wc rc)
  | .resetSwap k wc rc expected => (w.handles[k]?).map fun c => resetSwap s k wc rc c expected
  | .done _ => none

/-- `_cv` wakes up by itself, or the timed wait gives up. Then it tests
`_is_ready` a last time, and the handles are reset. -/
def wakeUp (s : State κ) (giveUp : Bool) : Option (State κ) :=
  match s.waiter with
  | .asleep last wc rc =>
    if s.locked then none
    else if giveUp && !last then
      if s.isReady then some (s.ret true)
      else some ({ s with locked := true }.goto (.reset 0 wc 0))
    else some ({ s with locked := true }.goto (.check last wc rc))
  | _ => none

/-- After a callback: the next one of the list. -/
def Producer.rest : Option Node → Producer
  | none => .finished
  | some m => .visit m

def setResult (w : Call κ) (s : State κ) (c : κ) : State κ :=
  { s with callback := Function.update s.callback c .kResult }.move c
    (match s.callback c with
    | .kResult | .ptr none => .finished
    | .ptr (some head) => if w.shared c then .visit head else .call head none)

/-- `Loop(this, head)`: of a callback of the waiting thread, `Sub(1)`, that calls
`Set` after the last decrement, and always in `OneCounter`. -/
def callCallback (w : Call κ) (s : State κ) (c : κ) (head : Node) (next : Option Node) : State κ :=
  let s := { s with held := Function.update s.held c (s.held c).tail }
  if head.ours then
    (s.touch.fetchSub w 1).move c
      (if !w.atomic || s.subEqual w 1 then .lock next else .rest next)
  else s.move c (.rest next)

def producerStep (w : Call κ) (s : State κ) (c : κ) : Option (State κ) :=
  match s.producer c with
  | .before => some (setResult w s c)
  | .visit head => some ((if head.ours then s.touch else s).move c (.call head (s.next head)))
  | .call head next => some (callCallback w s c head next)
  | .lock next =>
    if s.locked then none else some ({ s.touch with locked := true }.move c (.setReady next))
  | .setReady next => some ({ s.touch with isReady := true }.move c (.notify next))
  | .notify next => some ({ s.touch with notified := true }.move c (.unlock next))
  | .unlock next => some ({ s.touch with locked := false }.move c (.rest next))
  | .finished => none

/-- Another thread attaches a callback to a shared core: the compare-and-swap
that ends its `SetCallbackImpl<true>`. -/
def foreign (w : Call κ) (s : State κ) (c : κ) : Option (State κ) :=
  match w.shared c, s.callback c with
  | true, .ptr p =>
    some { s.link (.foreign s.foreigns) p with
      foreigns := s.foreigns + 1
      callback := Function.update s.callback c (.ptr (some (.foreign s.foreigns)))
      held := Function.update s.held c (.foreign s.foreigns :: s.held c) }
  | _, _ => none

/-- What the scheduler chooses: the next step of the waiting thread (`weak` fails
a weak compare-and-swap), a wake-up without a notification or at the timeout,
the next step of a producer, or a callback of another thread. -/
inductive Event (κ : Type) where
  | advance (weak : Bool)
  | wakeUp (giveUp : Bool)
  | producer (c : κ)
  | foreign (c : κ)

def step (w : Call κ) (s : State κ) : Event κ → Option (State κ)
  | .advance weak => advance w s weak
  | .wakeUp giveUp => wakeUp s giveUp
  | .producer c => producerStep w s c
  | .foreign c => foreign w s c

/-- No core has a callback or a result before the first step. Results and
callbacks of other threads that are there at the call come before the first
step of the waiting thread. -/
def system (w : Call κ) : System (State κ) (Event κ) where
  Init s := s = { count := w.count + 1 }
  step := step w

def HasResult (s : State κ) (c : κ) : Prop := s.callback c = .kResult

namespace Producer

def inHand : Producer → List Node
  | call head _ => [head]
  | _ => []

def head : Producer → Callback Node → Option Node
  | before, callback => callback.toPtr
  | visit m, _ => some m
  | call _ next, _ | lock next, _ | setReady next, _ | notify next, _ | unlock next, _ => next
  | finished, _ => none

end Producer

/-- The links that the producer of the core follows. That of a unique core
follows none. -/
def State.links (w : Call κ) (s : State κ) (c : κ) : Node → Option Node :=
  if w.shared c then s.next else fun _ => none

/-- A pointer to an object of the waiting thread hangs on the core: in its word, in
the list that the word leads to, or in the rest of the list that its producer
goes through. -/
def HoldsOurs (w : Call κ) (s : State κ) (c : κ) : Prop :=
  ∃ xs, Chain (s.links w c) ((s.producer c).head (s.callback c)) xs ∧ ∃ m ∈ xs, m.ours = true

/-- The producer of the core is in `Sub` or `Set` of the event, or on the way. -/
def UsesEvent (s : State κ) (c : κ) : Prop :=
  match s.producer c with
  | .visit head | .call head _ => head.ours = true
  | .lock _ | .setReady _ | .notify _ | .unlock _ => True
  | .before | .finished => False

end Yaclib.Wait
