import Yaclib.Algo.BaseCore
import Yaclib.Algo.OneShotEvent
import Yaclib.Concurrency.System

/-!
`WaitGroup<OneShotEvent>` of `algo/wait_group.hpp`: a `MultiEvent` of an
`AtomicCounter`, of `CallCallback` and of `DropCallback`, over a `OneShotEvent`.

One step of the model is one atomic operation on a `_callback`, on `count` or on
`_head`, together with the plain operations that follow. `κ` are the cores of the
futures, `ι` those who wait, and `χ` the threads that count, attach and consume
futures, and fulfil or drop promises.

Left out are `Reset`, for which nobody may use the group, the results of the futures, the
executors that the coroutines are submitted to, and waits with a timeout: a timed waiter is
in `Algo.OneShotEvent.Jobs`.
-/

namespace Yaclib.WaitGroup

open Concurrency

/-- The callback objects of the group: `GetCall()` and `GetDrop()`. -/
inductive Hook where
  | call
  | drop
  deriving DecidableEq

inductive Place (ι κ : Type) where
  | idle
  /-- `InsertRange`: the load of `SetCallback` of the next core; after the last
  one, `Done(count - wait_count)`. `move` is `NeedMove` -/
  | insert (move : Bool) (cores : List κ) (waitCount count : Nat)
  /-- the compare-and-swap of `SetCallback` -/
  | insertSwap (move : Bool) (core : κ) (cores : List κ) (waitCount count : Nat)
  /-- the exchange of `SetResult`, after `Store` -/
  | setResult (core : κ)
  /-- `Here` of the callback that was attached to the core -/
  | here (core : κ) (callback : Hook)
  /-- the exchange of `OneShotEvent::Set` -/
  | set
  /-- the loop of `OneShotEvent::Set`, at its `job` -/
  | loop (job : ι)
  deriving DecidableEq

/-- The counter, the event, the words of the cores, the promises that are not
fulfilled, and the places of the threads. The rest are ghosts: how many
operations were added and not done, whether any was, whether a core belongs to a
future, and how often it was released. -/
structure State (ι κ χ : Type) where
  count : Nat
  event : OneShotEvent ι
  callback : κ → Callback Hook := fun _ => .kEmpty
  promise : κ → Bool := fun _ => true
  place : χ → Place ι κ := fun _ => .idle
  adds : Nat
  raised : Bool
  owned : κ → Bool := fun _ => true
  released : κ → Nat := fun _ => 0

/-- `count.fetch_add(delta)`, in the width of `std::size_t`. -/
def fetchAdd (count delta : Nat) : Nat := (count + delta) % 2 ^ 64

def fetchSub (count delta : Nat) : Nat := (count + (2 ^ 64 - delta)) % 2 ^ 64

variable {ι κ χ : Type} [DecidableEq ι] [DecidableEq κ] [DecidableEq χ]

namespace State

def goto (s : State ι κ χ) (c : χ) (p : Place ι κ) : State ι κ χ :=
  { s with place := Function.update s.place c p }

/-- `Sub(delta)`: the last one goes on to `Set`. -/
def sub (s : State ι κ χ) (c : χ) (delta : Nat) : State ι κ χ :=
  { s with count := fetchSub s.count delta }.goto c (if s.count = delta then .set else .idle)

def decRef (s : State ι κ χ) (k : κ) : State ι κ χ :=
  { s with released := Function.update s.released k (s.released k + 1) }

end State

/-- The callback for `InsertRange<NeedMove>`. -/
def hook (move : Bool) : Hook := if move then .drop else .call

/-- `SetCallback` returned false. -/
def refuse (s : State ι κ χ) (c : χ) (move : Bool) (core : κ) (cores : List κ)
    (waitCount count : Nat) : State ι κ χ :=
  (if move then s.decRef core else s).goto c (.insert move cores waitCount count)

def setResult (s : State ι κ χ) (c : χ) (core : κ) : State ι κ χ :=
  { s with callback := Function.update s.callback core .kResult }.goto c
    (match (s.callback core).toPtr with
    | none => .idle
    | some callback => .here core callback)

/-- After an exchange or a `Call` in `Set`. -/
def Place.next : Option ι → Place ι κ
  | none => idle
  | some job => loop job

def advance (s : State ι κ χ) (c : χ) : Option (State ι κ χ) :=
  match s.place c with
  | .idle => none
  | .insert move (core :: cores) waitCount count =>
    some (if s.callback core = .kEmpty then s.goto c (.insertSwap move core cores waitCount count)
      else refuse s c move core cores waitCount count)
  | .insert _ [] waitCount count =>
    some (if count = waitCount then s.goto c .idle else s.sub c (count - waitCount))
  | .insertSwap move core cores waitCount count =>
    some (if s.callback core = .kEmpty then
      { s with callback := Function.update s.callback core (.ptr (some (hook move))) }.goto c
        (.insert move cores (waitCount + 1) count)
      else refuse s c move core cores waitCount count)
  | .setResult core => some (setResult s c core)
  | .here _ .call => some (s.sub c 1)
  | .here core .drop => some ((s.decRef core).sub c 1)
  | .set =>
    let (event, job) := s.event.setImpl .kAllDone
    some ({ s with event := event }.goto c (.next job))
  | .loop job =>
    let (event, job) := s.event.callJob job
    some ({ s with event := event }.goto c (.next job))

/-- The cores that the thread has not attached yet. -/
def Place.cores : Place ι κ → List κ
  | insert _ cores _ _ => cores
  | insertSwap _ core cores _ _ => core :: cores
  | _ => []

/-- The counter may be raised: it was not yet, or it is not zero, as documented.
It does not overflow. -/
def State.canAdd (s : State ι κ χ) (delta : Nat) : Prop :=
  (delta = 0 ∨ s.raised = false ∨ s.count ≠ 0) ∧ s.count + delta < 2 ^ 64

instance (s : State ι κ χ) (delta : Nat) : Decidable (s.canAdd delta) :=
  inferInstanceAs (Decidable (_ ∧ _))

/-- The futures can be passed to `Attach` and to `Consume`: they are different
ones, each is there, and has no callback. -/
def State.canInsert [Fintype χ] (s : State ι κ χ) (cores : List κ) : Prop :=
  cores ≠ [] ∧ cores.Nodup ∧ ∀ k ∈ cores, s.owned k = true ∧
    (s.callback k = .kEmpty ∨ s.callback k = .kResult) ∧ ∀ c, k ∉ (s.place c).cores

instance [Fintype χ] (s : State ι κ χ) (cores : List κ) : Decidable (s.canInsert cores) :=
  inferInstanceAs (Decidable (_ ∧ _ ∧ _))

/-- `Attach` and `Consume` up to the first `SetCallback`. Without `NeedAdd` they
take over operations that were added before. -/
def insertRange (s : State ι κ χ) (c : χ) (move needAdd : Bool) (cores : List κ) : State ι κ χ :=
  { s with
    count := if needAdd then fetchAdd s.count cores.length else s.count
    raised := s.raised || needAdd
    adds := if needAdd then s.adds else s.adds - cores.length
    owned := fun k => s.owned k && !(move && decide (k ∈ cores)) }.goto c
      (.insert move cores 0 cores.length)

/-- What the scheduler chooses: `Add`, `Done`, `Attach` or `Consume` by a thread,
the first step of a promise that is fulfilled or dropped, the next step of a
thread; the start of a wait (`ready`: it tests `Ready` first, as two of the
awaiters do), its next step (`weak` fails a weak compare-and-swap), and another
use of the link of a job that does not wait. -/
inductive Event (ι κ χ : Type) where
  | add (delta : Nat)
  | done (c : χ) (delta : Nat)
  | insertRange (c : χ) (move needAdd : Bool) (cores : List κ)
  | promise (c : χ) (core : κ)
  | advance (c : χ)
  | wait (i : ι) (ready : Bool)
  | tryAdd (i : ι) (weak : Bool)
  | relink (i : ι) (p : Option ι)

/-- `Done` is for operations that were added, and that are not done. -/
def step [Fintype χ] (s : State ι κ χ) : Event ι κ χ → Option (State ι κ χ)
  | .add delta =>
    if s.canAdd delta then
      some { s with
        count := fetchAdd s.count delta
        raised := s.raised || decide (0 < delta)
        adds := s.adds + delta }
    else none
  | .done c delta =>
    if s.place c = .idle ∧ delta ≤ s.adds ∧ s.count ≠ 0 then
      some ({ s with adds := s.adds - delta }.sub c delta)
    else none
  | .insertRange c move needAdd cores =>
    if s.place c = .idle ∧ s.canInsert cores ∧
        (if needAdd then s.canAdd cores.length else cores.length ≤ s.adds) then
      some (insertRange s c move needAdd cores)
    else none
  | .promise c core =>
    if s.place c = .idle ∧ s.promise core = true then
      some ({ s with promise := Function.update s.promise core false }.goto c (.setResult core))
    else none
  | .advance c => advance s c
  | .wait i ready =>
    if s.event.pc i = .idle then
      some { s with event := s.event.goto i (if ready then .ready else .load) }
    else none
  | .tryAdd i weak => (s.event.tryAdd i weak).map fun event => { s with event := event }
  | .relink i p =>
    if s.event.pc i = .idle then
      some { s with event := { s.event with next := Function.update s.event.next i p } }
    else none

/-- A group with its first operations added by the constructor, if any. -/
def system (ι κ χ : Type) [DecidableEq ι] [DecidableEq κ] [DecidableEq χ] [Fintype χ] :
    System (State ι κ χ) (Event ι κ χ) where
  Init s := ∃ next count, count < 2 ^ 64 ∧
    s = { count := count, adds := count, raised := decide (0 < count), event := { next := next } }
  step := step

/-- No thread is in a call of the group, nor in `SetResult`, except for the loop
that calls the waiters. -/
def Between (s : State ι κ χ) : Prop :=
  ∀ c, s.place c = .idle ∨ s.place c = .set ∨ ∃ job, s.place c = .loop job

end Yaclib.WaitGroup
