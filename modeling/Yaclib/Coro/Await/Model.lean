import Yaclib.Algo.Callbacks
import Yaclib.Concurrency.System

/-!
`co_await` of several futures: `MultiAwaitAwaiter` of `coro/detail/await_awaiter.hpp`
and `MultiAwaitOnAwaiter` of `coro/detail/await_on_awaiter.hpp`, with the events of
`algo/detail/shared_event.hpp` and the `SetResult` of the producers.

One step of the model is one atomic operation on a `_callback` or on `count`, or one
use of the pointer to the coroutine. `κ` are the cores. A shared core can be shared
with other threads, which then attach callbacks of their own to it.

Left out are `Await` of a single future or task, `co_await` of a future, which is in
`Algo.Core` and `Algo.SharedCore`, and on which executor the coroutine goes on.
-/

namespace Yaclib.Await

/-- The `InlineCore` objects: the event of the awaiter, the element `i` of its
`callbacks`, the promise of the coroutine, and the callbacks of other threads. -/
inductive Node where
  | event
  | callback (i : Nat)
  | promise
  | foreign (m : Nat)
  deriving DecidableEq

/-- The object lives in the frame of the coroutine. -/
def Node.ours : Node → Bool
  | foreign _ => false
  | _ => true

/-- The event of the awaiter: `AwaitEvent<Sticky>` of `MultiAwaitAwaiter`, or
`AwaitOnEvent<false>` of `MultiAwaitOnAwaiter`. -/
inductive EventType where
  | awaitEvent (sticky : Bool)
  | awaitOnEvent
  deriving DecidableEq

/-- The arguments of the call: the handles, in the order in which `SetCallback` is
called for them, which of the cores are shared, and whether the handles come from a
range. -/
structure Call (κ : Type) where
  handles : List κ
  shared : κ → Bool
  event : EventType
  dynamic : Bool
  /-- the `static_assert` of `SetCallbacksStatic` -/
  two_le : dynamic = false → 2 ≤ handles.length
  /-- a range has elements of one type -/
  same : dynamic = true → ∃ b, ∀ c ∈ handles, shared c = b

namespace Call

variable {κ : Type} (w : Call κ)

def count : Nat := w.handles.length

def callbackCount (k : Nat) : Nat := (w.handles.take k).countP w.shared

/-- The callback for the handle `k`, of the core `c`. -/
def node (k : Nat) (c : κ) : Node :=
  if w.shared c then .callback (if w.dynamic then k else w.callbackCount k) else .event

end Call

/-- Where the coroutine is. `wc` is `wait_count`. -/
inductive Place where
  /-- `SetCallback` of the handle `k`: its load; after the last handle, the `fetch_sub` -/
  | attach (k wc : Nat)
  /-- the compare-and-swap of `SetCallbackImpl<false>` -/
  | attachSwap (k wc : Nat)
  /-- the loop of `SetCallbackImpl<true>`, with its `next` -/
  | attachLoop (k wc : Nat) (expected : Option Node)
  /-- `await_ready` -/
  | ready
  /-- `await_suspend`: the write of `next`, or of `job` -/
  | store
  /-- its `SubEqual(1)` -/
  | sub
  /-- `_executor.Submit(core)` -/
  | submit
  | suspended
  /-- `await_resume`, and what the coroutine does after it -/
  | continued
  deriving DecidableEq

/-- The `SubEqual(1)` of `await_suspend` is still to come. -/
def Place.early : Place → Bool
  | submit | suspended | continued => false
  | _ => true

/-- The fields of the cores and of the event, where each thread is, how often the
coroutine was submitted and not executed yet, and how often it went on. Two ghosts:
whether a producer used the awaiter after that, and whether one read the pointer to
the coroutine before it was written. -/
structure State (κ : Type) where
  cores : Callbacks κ Node := {}
  /-- the callbacks of other threads so far -/
  foreigns : Nat := 0
  count : Int
  job : Option Node := none
  place : Place := .attach 0 0
  /-- `SubEqual(1)` of the event was true for the producer of this core -/
  resuming : κ → Bool := fun _ => false
  submitted : Nat := 0
  resumes : Nat := 0
  dangling : Bool := false
  unset : Bool := false

variable {κ : Type} [DecidableEq κ]

namespace State

def goto (s : State κ) (p : Place) : State κ :=
  { s with place := p }

def setCores (s : State κ) (cores : Callbacks κ Node) : State κ :=
  { s with cores := cores }

/-- The coroutine goes on in its own thread. -/
def goOn (s : State κ) : State κ :=
  { s with resumes := s.resumes + 1, place := .continued }

/-- Another thread resumes the coroutine. If it was not suspended, it also stays
where it is. -/
def resume (s : State κ) : State κ :=
  { s with
    resumes := s.resumes + 1
    place := if s.place = .suspended then .continued else s.place }

def submit (s : State κ) : State κ :=
  { s with submitted := s.submitted + 1 }

/-- A producer uses the awaiter. -/
def touch (s : State κ) : State κ :=
  { s with dangling := s.dangling || decide (0 < s.resumes) }

def fetchSub (s : State κ) (n : Nat) : State κ :=
  { s with count := s.count - n }

/-- The pointer that the event follows after the last decrement. -/
def continuation (w : Call κ) (s : State κ) : Option Node :=
  match w.event with
  | .awaitEvent _ => s.cores.next .event
  | .awaitOnEvent => s.job

end State

/-- The load of `SetCallbackImpl`. -/
def setCallback (w : Call κ) (s : State κ) (k wc : Nat) (c : κ) : State κ :=
  if w.shared c then
    match s.cores.callback c with
    | .kResult => s.goto (.attach (k + 1) wc)
    | .ptr p => s.goto (.attachLoop k wc p)
  else s.goto (if s.cores.callback c = .kEmpty then .attachSwap k wc else .attach (k + 1) wc)

/-- The compare-and-swap of `SetCallbackImpl<false>`. -/
def setCallbackSwap (w : Call κ) (s : State κ) (k wc : Nat) (c : κ) : State κ :=
  if s.cores.callback c = .kEmpty then
    (s.setCores (s.cores.attach c (w.node k c))).goto (.attach (k + 1) (wc + 1))
  else s.goto (.attach (k + 1) wc)

/-- A round of the loop of `SetCallbackImpl<true>`. -/
def setCallbackLoop (w : Call κ) (s : State κ) (k wc : Nat) (c : κ) (expected : Option Node)
    (weak : Bool) : State κ :=
  let s := s.setCores (s.cores.link (w.node k c) expected)
  match (s.cores.callback c).round expected weak with
  | .attached => (s.setCores (s.cores.attach c (w.node k c))).goto (.attach (k + 1) (wc + 1))
  | .refused => s.goto (.attach (k + 1) wc)
  | .again p => s.goto (.attachLoop k wc p)

def awaitReady (w : Call κ) (s : State κ) : State κ :=
  match w.event with
  | .awaitEvent _ => if s.count = 1 then s.goOn else s.goto .store
  | .awaitOnEvent => s.goto .store

/-- The first statement of `await_suspend`. -/
def setContinuation (w : Call κ) (s : State κ) : State κ :=
  match w.event with
  | .awaitEvent _ => s.setCores (s.cores.link .event (some .promise))
  | .awaitOnEvent => { s with job := some .promise }

/-- `SubEqual(1)` of `await_suspend`, and what follows from it. -/
def subEqual (w : Call κ) (s : State κ) : State κ :=
  if s.count = 1 then
    match w.event with
    | .awaitEvent _ => (s.fetchSub 1).goOn
    | .awaitOnEvent => (s.fetchSub 1).goto .submit
  else (s.fetchSub 1).goto .suspended

def advance (w : Call κ) (s : State κ) (weak : Bool) : Option (State κ) :=
  match s.place with
  | .attach k wc =>
    match w.handles[k]? with
    | some c => some (setCallback w s k wc c)
    | none => some ((s.fetchSub (w.count - wc)).goto .ready)
  | .attachSwap k wc => (w.handles[k]?).map (setCallbackSwap w s k wc)
  | .attachLoop k wc expected =>
    (w.handles[k]?).map fun c => setCallbackLoop w s k wc c expected weak
  | .ready => some (awaitReady w s)
  | .store => some ((setContinuation w s).goto .sub)
  | .sub => some (subEqual w s)
  | .submit => some (s.submit.goto .suspended)
  | .suspended | .continued => none

/-- `Loop(this, head)`: of a callback in the frame of the coroutine, the `SubEqual(1)` of
`Impl`. -/
def callCallback (s : State κ) (c : κ) (head : Node) (next : Option Node) : State κ :=
  if head.ours then
    { (s.touch.setCores (s.cores.pop c next)).fetchSub 1 with
      resuming := Function.update s.resuming c (decide (s.count = 1)) }
  else s.setCores (s.cores.pop c next)

/-- The rest of `Impl`, after the last decrement. -/
def impl (w : Call κ) (s : State κ) (c : κ) : State κ :=
  let s := { s.touch with
    unset := s.unset || decide (s.continuation w ≠ some Node.promise)
    resuming := Function.update s.resuming c false }
  match w.event with
  | .awaitEvent false => s.resume
  | .awaitEvent true | .awaitOnEvent => s.submit

def producerStep (w : Call κ) (s : State κ) (c : κ) : Option (State κ) :=
  if s.resuming c then some (impl w s c)
  else
    match s.cores.walk c with
    | .before => some (s.setCores (s.cores.setResult w.shared c))
    | .visit head =>
      some ((if head.ours then s.touch else s).setCores (s.cores.visit c head))
    | .call head next => some (callCallback s c head next)
    | .finished => none

/-- Another thread attaches a callback to a shared core: the compare-and-swap
that ends its `SetCallbackImpl<true>`. -/
def foreign (w : Call κ) (s : State κ) (c : κ) : Option (State κ) :=
  match w.shared c, s.cores.callback c with
  | true, .ptr p =>
    some { s with
      cores := (s.cores.link (.foreign s.foreigns) p).attach c (.foreign s.foreigns)
      foreigns := s.foreigns + 1 }
  | _, _ => none

def execute (s : State κ) : Option (State κ) :=
  if 0 < s.submitted then some { s.resume with submitted := s.submitted - 1 } else none

/-- What the scheduler chooses: the next step of the coroutine (`weak` fails a weak
compare-and-swap), the next step of a producer, a callback of another thread, or a job
of the executor. -/
inductive Event (κ : Type) where
  | advance (weak : Bool)
  | producer (c : κ)
  | foreign (c : κ)
  | execute

def step (w : Call κ) (s : State κ) : Event κ → Option (State κ)
  | .advance weak => advance w s weak
  | .producer c => producerStep w s c
  | .foreign c => foreign w s c
  | .execute => execute s

/-- No core has a callback or a result before the first step. Results and
callbacks of other threads that are there at the call come before the first
step of the coroutine. -/
def system (w : Call κ) : Concurrency.System (State κ) (Event κ) where
  Init s := s = { count := w.count + 1 }
  step := step w

def HasResult (s : State κ) (c : κ) : Prop := s.cores.callback c = .kResult

end Yaclib.Await
