import Mathlib.Data.List.Sort
import Yaclib.Concurrency.System
import Yaclib.Fault.Fiber.Queue
import Yaclib.Util.IntrusiveList

/-!
`Scheduler` of `fault/detail/fiber/scheduler.hpp` with the `FiberQueue`s, down to the pointers
of the two nodes of every fiber. What a fiber does is the sequence of its calls; each of them
up to a suspension is one step, and so is what the loop does between two fibers.

`φ` are the fibers and `κ` the wait queues.

Left out are the stacks and the switch of contexts, what the fibers compute between their
calls, and where the random numbers come from.
-/

namespace Yaclib.Fault.Fiber.Scheduler

open Concurrency Intrusive

/-- The heads of the lists (`_queue`, the entries of `_sleep_list`, the wait queues, and the
local list of `NotifyAll`) and the two nodes of a fiber. -/
inductive Node (φ κ : Type) where
  | queue
  | sleep (ns : UInt64)
  | wait (k : κ)
  | all
  | scheduler (f : φ)
  | waitQueue (f : φ)
  deriving DecidableEq

inductive FiberState where
  | Running
  | Suspended
  | Waiting
  | Completed
  deriving DecidableEq

/-- Where the code of a fiber is; `deadline` is `ns` with the random delay of
`SleepPreemptive`. -/
inductive Place (κ : Type) where
  | fresh
  | client
  | suspended
  | sleep (ns : UInt64)
  | wait (k : κ)
  | timedWait (k : κ) (ns deadline : UInt64)
  | exited
  deriving DecidableEq

/-- Who runs: code that is no fiber, `RunLoop` before its condition or before `GetNext`, or
`sCurrent`. -/
inductive Control (φ : Type) where
  | outside
  | loop
  | next
  | fiber (f : φ)
  deriving DecidableEq

/-- `sleep_list` are the keys of `_sleep_list` in order. `removed` is true of a fiber if its
last `Wait` found its end by a notification, and `status` is what its last timed wait
returned. -/
structure State (φ κ : Type) where
  heap : Heap (Node φ κ) := ⟨some, some⟩
  sleep_list : List UInt64 := []
  time : UInt64 := 0
  control : Control φ := .outside
  state : φ → FiberState := fun _ => .Suspended
  place : φ → Place κ := fun _ => .fresh
  removed : φ → Bool := fun _ => false
  status : φ → Option WaitStatus := fun _ => none

variable {φ κ : Type} [DecidableEq φ] [DecidableEq κ]

namespace State

/-- `FiberBase::Suspend`, back into `RunLoop`. -/
def suspend (s : State φ κ) (f : φ) : State φ κ :=
  { s with state := Function.update s.state f .Suspended, control := .loop }

def goto (s : State φ κ) (f : φ) (p : Place κ) : State φ κ :=
  { s with place := Function.update s.place f p }

def schedule (s : State φ κ) (f : φ) : Option (State φ κ) :=
  (s.heap.pushBack .queue (.scheduler f)).map fun heap =>
    { s with heap := heap, state := Function.update s.state f .Waiting }

def advanceTime (s : State φ κ) : State φ κ :=
  match s.sleep_list with
  | [] => s
  | first :: _ => if first ≥ s.time then { s with time := s.time + (first - s.time) } else s

/-- The loop of `WakeUpNeeded`: what is left of the keys. -/
def wakeUp (time : UInt64) :
    List UInt64 → Heap (Node φ κ) → Option (List UInt64 × Heap (Node φ κ))
  | [], heap => some ([], heap)
  | ns :: rest, heap =>
    if ns > time then some (ns :: rest, heap)
    else (heap.pushAll .queue (.sleep ns)).bind (wakeUp time rest)

def wakeUpNeeded (s : State φ κ) : Option (State φ κ) :=
  (wakeUp s.time s.sleep_list s.heap).map fun (keys, heap) =>
    { s with heap := heap, sleep_list := keys }

/-- `RunLoop` from its condition to `GetNext`. -/
def iterate (s : State φ κ) : Option (State φ κ) :=
  if s.heap.empty .queue = true ∧ s.sleep_list = [] then some { s with control := .outside }
  else
    let s := if s.heap.empty .queue then s.advanceTime else s
    s.wakeUpNeeded.map fun s => { s with control := .next }

/-- `GetNext`, `TickTime` and `Resume`. -/
def next (s : State φ κ) (tick : UInt64) (ind : Nat) (reversed : Bool) : Option (State φ κ) :=
  match s.heap.getElement .queue ind reversed with
  | some (.scheduler f) =>
    some { s with
      heap := (s.heap.erase (.scheduler f)).1
      time := s.time + tick
      state := Function.update s.state f .Running
      control := .fiber f }
  | _ => none

def rescheduleCurrent (s : State φ κ) (f : φ) : Option (State φ κ) :=
  (s.heap.pushBack .queue (.scheduler f)).map fun heap => { s with heap := heap }.suspend f

/-- `_sleep_list[ns]` -/
def entry (s : State φ κ) (ns : UInt64) : State φ κ :=
  if ns ∈ s.sleep_list then s
  else
    { s with
      heap := s.heap.construct (.sleep ns)
      sleep_list := s.sleep_list.orderedInsert (· ≤ ·) ns }

/-- `Sleep` up to its suspension; a fiber that does suspend is then at `p`. -/
def sleep (s : State φ κ) (f : φ) (ns : UInt64) (p : Place κ) : Option (State φ κ) :=
  if ns ≤ s.time then some s
  else
    let s := s.entry ns
    (s.heap.pushBack (.sleep ns) (.scheduler f)).map fun heap =>
      ({ s with heap := heap }.suspend f).goto f p

/-- `SleepPreemptive` after `Sleep`; `none` if `find` gives the end of the map. -/
def afterSleep (s : State φ κ) (ns : UInt64) : Option (State φ κ) :=
  if s.time ≤ ns then
    if ns ∈ s.sleep_list then
      if s.heap.empty (.sleep ns) then some { s with sleep_list := s.sleep_list.erase ns }
      else some s
    else none
  else some s

/-- `Wait` up to its suspension -/
def wait (s : State φ κ) (f : φ) (k : κ) : Option (State φ κ) :=
  (s.heap.pushBack (.wait k) (.waitQueue f)).map fun heap =>
    ({ s with heap := heap, removed := Function.update s.removed f false }.suspend f).goto f
      (.wait k)

/-- `Wait` with a time point up to the suspension, if there is one. -/
def timedWait (s : State φ κ) (f : φ) (k : κ) (ns rand : UInt64) : Option (State φ κ) :=
  (s.heap.pushBack (.wait k) (.waitQueue f)).bind fun heap =>
    let s := { s with heap := heap, removed := Function.update s.removed f false }.goto f
      (.timedWait k ns (ns + rand))
    s.sleep f (ns + rand) (.timedWait k ns (ns + rand))

/-- The rest of the call a resumed fiber is in. -/
def finish (s : State φ κ) (f : φ) : Option (State φ κ) :=
  match s.place f with
  | .sleep _ | .wait _ => some (s.goto f .client)
  | .timedWait _ _ deadline =>
    (s.afterSleep deadline).map fun s =>
      let (heap, res) := s.heap.erase (.waitQueue f)
      { s.goto f .client with
        heap := heap
        status := Function.update s.status f (some (if res then .Timeout else .Ready)) }
  | _ => none

def scheduleAndRemove (s : State φ κ) (f : φ) : Option (State φ κ) :=
  if s.state f ≠ .Waiting then
    { s with heap := (s.heap.erase (.scheduler f)).1 }.schedule f
  else some s

/-- A fiber whose wait node was taken from its queue. -/
def remove (s : State φ κ) (n : Node φ κ) : Option (State φ κ) :=
  match n with
  | .waitQueue f =>
    { s with removed := Function.update s.removed f true }.scheduleAndRemove f
  | _ => none

def notifyOne (s : State φ κ) (k : κ) (ind : Nat) (reversed : Bool) : Option (State φ κ) :=
  if s.heap.empty (.wait k) then some s
  else
    (s.heap.getElement (.wait k) ind reversed).bind fun n =>
      { s with heap := (s.heap.erase n).1 }.remove n

/-- The loop of `NotifyAll`, of at most `fuel` iterations. -/
def drain (s : State φ κ) : Nat → Option (State φ κ)
  | 0 => if s.heap.empty .all then some s else none
  | fuel + 1 =>
    if s.heap.empty .all then some s
    else
      (s.heap.popBack .all).bind fun (heap, n) =>
        ({ s with heap := heap }.remove n).bind fun s => s.drain fuel

/-- `NotifyAll`: the nodes are moved to a local list first. -/
def notifyAll (s : State φ κ) (k : κ) (fuel : Nat) : Option (State φ κ) :=
  let heap := s.heap.construct .all
  let moved := if heap.empty (.wait k) then some heap else heap.assign .all (.wait k)
  moved.bind fun heap => { s with heap := heap.construct (.wait k) }.drain fuel

def exit (s : State φ κ) (f : φ) : State φ κ :=
  { s with state := Function.update s.state f .Completed, control := .loop }.goto f .exited

end State

/-- What a fiber may call. `schedule` is the start of a fiber, or wakes one that has called
`suspend`, as the fiber that `join`s does; `finish` returns from the call it is in. -/
inductive Op (φ κ : Type) where
  | schedule (g : φ)
  | suspend
  | rescheduleCurrent
  | sleep (ns : UInt64)
  | wait (k : κ)
  | timedWait (k : κ) (ns rand : UInt64)
  | finish
  | notifyOne (k : κ) (ind : Nat) (reversed : Bool)
  | notifyAll (k : κ) (fuel : Nat)
  | exit
  deriving DecidableEq

inductive Event (φ κ : Type) where
  | start (g : φ)
  | iterate
  | next (ind : Nat) (reversed : Bool)
  | run (op : Op φ κ)
  deriving DecidableEq

def exec (s : State φ κ) (f : φ) (op : Op φ κ) : Option (State φ κ) :=
  match op, s.place f with
  | .schedule g, .client =>
    match s.place g with
    | .fresh | .suspended => (s.schedule g).map fun s => s.goto g .client
    | _ => none
  | .suspend, .client => some ((s.suspend f).goto f .suspended)
  | .rescheduleCurrent, .client => s.rescheduleCurrent f
  | .sleep ns, .client => s.sleep f ns (.sleep ns)
  | .wait k, .client => s.wait f k
  | .timedWait k ns rand, .client => s.timedWait f k ns rand
  | .finish, _ => s.finish f
  | .notifyOne k ind reversed, .client => s.notifyOne k ind reversed
  | .notifyAll k fuel, .client => s.notifyAll k fuel
  | .exit, .client => some (s.exit f)
  | _, _ => none

/-- `tick` is `sTickLength`. -/
def step (tick : UInt64) (s : State φ κ) (e : Event φ κ) : Option (State φ κ) :=
  match e, s.control with
  | .start g, .outside =>
    match s.place g with
    | .fresh => (s.schedule g).map fun s => { s.goto g .client with control := .loop }
    | _ => none
  | .iterate, .loop => s.iterate
  | .next ind reversed, .next => s.next tick ind reversed
  | .run op, .fiber f => exec s f op
  | _, _ => none

def system (tick : UInt64) : System (State φ κ) (Event φ κ) where
  Init s := s = {}
  step := step tick

end Yaclib.Fault.Fiber.Scheduler
