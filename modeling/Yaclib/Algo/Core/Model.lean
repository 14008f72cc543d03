import Mathlib.Logic.Function.Basic
import Yaclib.Concurrency.System

/-!
The pipelines of `algo/detail/core.hpp`: the cores that `Run`, `Schedule`, the
contracts, `MakeFuture`, `MakeTask` and the coroutines start from, and the steps that
`Then`, `ThenInline` and `Detach` attach. The program says what each core is; a run says
in which order the cores are made, attached, started, called or dropped by their
executors, and completed by their producers.

`ν` are the cores, `ι` the executors, `α` the values (`void` has one of them) and `ε` the
errors of the trait. A step of the machine is a stretch of code up to an exchange of
`_callback`; a callback that an exchange or a failed `SetCallback` hands over is run by a
step of its own, through `Here` or, with symmetric transfer, `Next`.

A coroutine awaits unique futures and tasks, which it takes over. Left out are `co_await` of a
`SharedFuture`, whose `await_ready` may hold before the result is there and which leaves the
executor of the coroutine in a core that others can reach, and `Await` of an lvalue, which
does the latter; the first is in `Algo.SharedCore`. The list of the callbacks of a core is
exchanged at once here, and its compare-and-swap steps are those of `Algo.Callbacks`; no
theorem relates the two. Values are copied and moved alike.
-/

namespace Yaclib.Core

open Concurrency

structure CoreType where
  run : Bool := false
  detach : Bool := false
  fromUnique : Bool := false
  fromShared : Bool := false
  toUnique : Bool := false
  toShared : Bool := false
  call : Bool := false
  lazy : Bool := false
  deriving DecidableEq

/-- The combinations of flags that `MakeCore` is used with. -/
inductive Instantiable : CoreType → Prop
  /-- `Run` and `Schedule` -/
  | run : Instantiable { run := true, call := true, toUnique := true }
  | runShared : Instantiable { run := true, call := true, toShared := true }
  /-- `Then` and `ThenInline` of the futures -/
  | attached (fromShared call : Bool) :
      Instantiable { toUnique := true, call, fromUnique := !fromShared, fromShared }
  /-- `Then` and `ThenInline` of `Task` -/
  | attachedLazy (call : Bool) :
      Instantiable { toUnique := true, lazy := true, fromUnique := true, call }
  /-- `Detach` and `DetachInline` -/
  | detach (fromShared call : Bool) :
      Instantiable { detach := true, call, fromUnique := !fromShared, fromShared }

inductive AsyncType where
  | none
  | unique
  | shared
  deriving DecidableEq

/-- What a callback can be invoked with. -/
inductive Param where
  | result
  | value
  | error
  deriving DecidableEq

/-- The type that a callback returns: a value, `void` or a `Result`, or an async one. -/
inductive Returns where
  | plain
  | future
  | sharedFuture
  | task
  deriving DecidableEq

/-- The `kAsync` of `MakeCore`. -/
def Returns.async : Returns → AsyncType
  | plain => .none
  | future | task => .unique
  | sharedFuture => .shared

/-- A step of a pipeline, as `MakeCore` and `SetCallback` make it. -/
structure Step (ν ι ε α : Type) where
  type : CoreType
  /-- the executor that the attaching call passes; `nullptr` inherits -/
  executor : Option ι
  /-- the core that it is attached to -/
  previous : Option ν
  param : Param
  returns : Returns
  /-- the callback: what it throws, or what it returns -/
  func : Except ε α → Except ε (Except ε α ⊕ ν)
  instantiable : Instantiable type
  run_iff : type.run = true ↔ previous = none
  run_executor : type.run = true → executor ≠ none
  inline_executor : type.call = false → executor = none
  /-- the `static_assert` of `Core` -/
  detach_plain : type.detach = true → returns = .plain
  typed : ∀ r x, func r = .ok x → (x.isRight = true ↔ returns ≠ .plain)

/-- What a contract or a coroutine gives out: a `Future`, a `SharedFuture` or a `Task`. -/
inductive Kind where
  | unique
  | shared
  | lazy
  deriving DecidableEq

/-- The core classes and the calls that make them. -/
inductive Node (ν ι ε α : Type) where
  /-- `MakeContract`, `MakeContractOn` and their shared forms -/
  | contract (shared : Bool) (executor : Option ι)
  /-- `MakeFuture` -/
  | ready (r : Except ε α)
  /-- `MakeTask` -/
  | readyCore (r : Except ε α)
  /-- `AsyncContract`, `AsyncSharedContract`, and `LazyContract` -/
  | promiseCore (kind : Kind) (executor : ι)
  /-- a coroutine -/
  | promiseType (kind : Kind)
  /-- `Run` and `RunShared`, `Schedule`, or an attached step -/
  | core (scheduled : Bool) (step : Step ν ι ε α)

variable {ν ι ε α : Type}

def Node.shared : Node ν ι ε α → Bool
  | contract shared _ => shared
  | promiseCore kind _ | promiseType kind => kind = .shared
  | ready _ | readyCore _ => false
  | core _ step => step.type.toShared

/-- The result that a core is made with. -/
def Node.stored : Node ν ι ε α → Option (Except ε α)
  | ready r | readyCore r => some r
  | _ => none

/-- The program: what each core is, the `StopTag` error, `Unit` and `MakeInline()`. -/
structure Config (ν ι ε α : Type) where
  prog : ν → Node ν ι ε α
  stopTag : ε
  unit : α
  inline : ι

structure Callback (ν : Type) where
  caller : Option ν := none
  unwrapping : Bool := false
  deriving DecidableEq

/-- The union of `ResultCore`. -/
inductive Slot (ν ε α : Type) where
  | self (callback : Callback ν)
  | result (r : Except ε α)

/-- The object that a unique core is reached by. -/
inductive Handle where
  | future
  | task
  deriving DecidableEq

/-- How far a core is. -/
inductive Phase (ν : Type) where
  /-- a head that is not started -/
  | idle
  /-- a callback in the list of `c` -/
  | waiting (c : ν)
  /-- handed over: its `Here` is called with `c` next -/
  | here (c : ν)
  /-- in the queue of an executor -/
  | submitted
  /-- the callback, the coroutine or the owner of the promise is at work -/
  | running
  | done
  deriving DecidableEq

/-- A core: its fields, and what is recorded about it. -/
@[ext]
structure CoreState (ν ι ε α : Type) where
  made : Bool := false
  /-- the callbacks stored in `_callback`; `none` is `kResult` -/
  callback : Option (List ν) := some []
  slot : Slot ν ε α := .self {}
  executor : Option ι := none
  /-- the cores that following `next` visits, for a chain of tasks -/
  next : List ν := []
  handle : Option Handle := none
  phase : Phase ν := .idle
  /-- the core that took over the future or the task -/
  taken : Option ν := none
  /-- the executor it came to work on -/
  on : Option ι := none
  /-- the executors it was submitted to -/
  submits : List ι := []
  /-- how often the callback was invoked, or the coroutine resumed -/
  runs : Nat := 0
  dropped : Bool := false
  /-- the cores whose reference counts it raised, and lowered -/
  acquired : List ν := []
  released : List ν := []
  /-- how often the functor was destroyed -/
  destroyed : Nat := 0
  /-- the core that the callback returned, or that the coroutine awaits -/
  inner : Option ν := none
  /-- the head of that core's chain, where it is a task -/
  head : Option ν := none
  /-- the end of the chain of tasks that it is the head of -/
  last : Option ν := none

/-- What only undefined behaviour does. -/
inductive Fault where
  /-- a null `_self.caller` is dereferenced -/
  | nullCaller
  /-- `_self` is read after `Store` -/
  | staleCaller
  /-- `_result` is read before `Store` -/
  | noResult
  /-- `Submit` through a null executor -/
  | noExecutor
  /-- a destroyed functor is invoked -/
  | noFunctor
  /-- the callback returns a future that it does not own -/
  | foreign
  deriving DecidableEq

structure State (ν ι ε α : Type) where
  cores : ν → CoreState ν ι ε α := fun _ => {}

def CoreState.result (c : CoreState ν ι ε α) : Option (Except ε α) :=
  match c.slot with
  | .self _ => none
  | .result r => some r

/-- `MoveOrConst`. -/
def CoreState.get (c : CoreState ν ι ε α) : Except Fault (Except ε α) :=
  match c.slot with
  | .self _ => .error .noResult
  | .result r => .ok r

def CoreState.self (c : CoreState ν ι ε α) : Except Fault (Callback ν) :=
  match c.slot with
  | .self callback => .ok callback
  | .result _ => .error .staleCaller

def deref : Option ν → Except Fault ν
  | none => .error .nullCaller
  | some p => .ok p

variable [DecidableEq ν]

def State.put (s : State ν ι ε α) (n : ν) (c : CoreState ν ι ε α) : State ν ι ε α :=
  { s with cores := Function.update s.cores n c }

def State.modify (s : State ν ι ε α) (n : ν) (f : CoreState ν ι ε α → CoreState ν ι ε α) :
    State ν ι ε α :=
  s.put n (f (s.cores n))

/-- `DecRef` of the core behind a pointer, by the step `n`. -/
def decRef (s : State ν ι ε α) (n : ν) (caller : Option ν) : Except Fault (State ν ι ε α) := do
  let p ← deref caller
  return s.modify n fun c => { c with released := c.released ++ [p] }

def destroyFunctor (c : CoreState ν ι ε α) : CoreState ν ι ε α :=
  { c with destroyed := c.destroyed + 1 }

/-- `SetResult`: the exchange of `_callback` hands the callbacks over. -/
def setResult (s : State ν ι ε α) (n : ν) : State ν ι ε α :=
  match (s.cores n).callback with
  | none => s
  | some cs =>
    { s with
      cores := fun j =>
        if j = n then { s.cores j with callback := none, phase := .done }
        else if j ∈ cs then { s.cores j with phase := .here n }
        else s.cores j }

def setInline (s : State ν ι ε α) (shared : Bool) (m n : ν) : State ν ι ε α :=
  match (s.cores m).callback with
  | none => s.modify n fun c => { c with phase := .here m }
  | some cs =>
    if shared = true ∨ cs = [] then
      (s.modify m fun c => { c with callback := some (n :: cs) }).modify n
        fun c => { c with phase := .waiting m }
    else s.modify n fun c => { c with phase := .here m }

def storeCallback (s : State ν ι ε α) (m n : ν) : State ν ι ε α :=
  (s.modify m fun c => { c with callback := some [n] }).modify n
    fun c => { c with phase := .waiting m }

/-- Where `MoveToCaller` ends. -/
def CoreState.headOf (c : CoreState ν ι ε α) (m : ν) : ν :=
  c.next.getLastD m

/-- `n` takes over the future or the task of a unique core. -/
def take (s : State ν ι ε α) (m n : ν) : State ν ι ε α :=
  s.modify m fun c => { c with handle := none, taken := some n }

def submit (s : State ν ι ε α) (n : ν) : Except Fault (State ν ι ε α) :=
  match (s.cores n).executor with
  | none => .error .noExecutor
  | some e => .ok (s.modify n fun c =>
      { c with phase := .submitted, submits := c.submits ++ [e], on := some e })

/-- `TransferExecutorTo`: copied from a shared core, moved out of a unique one. -/
def transferExecutorTo (s : State ν ι ε α) (shared : Bool) (caller n : ν) : State ν ι ε α :=
  match (s.cores n).executor with
  | some _ => s
  | none =>
    let e := (s.cores caller).executor
    let s := s.modify n fun c => { c with executor := e }
    if shared then s else s.modify caller fun c => { c with executor := none }

namespace Step

variable (step : Step ν ι ε α)

/-- The condition of `Impl` for taking a reference on the previous core. -/
def acquires : Bool :=
  step.type.fromShared && (step.type.call || step.returns.async ≠ .none)

/-- The condition of `Done` and `CallResolveAsync` for releasing the previous core. -/
def releases : Bool :=
  !step.type.run && (step.type.fromUnique || step.type.call || step.returns.async ≠ .none)

/-- `Store`; the one of `NoResultCore` does nothing. -/
def store (r : Except ε α) (c : CoreState ν ι ε α) : CoreState ν ι ε α :=
  if step.type.detach then c else { c with slot := .result r }

end Step

def done (s : State ν ι ε α) (n : ν) (step : Step ν ι ε α) (isAsync : Bool) (r : Except ε α) :
    Except Fault (State ν ι ε α) := do
  let self ← (s.cores n).self
  let s := s.modify n (step.store r)
  let s ← if step.releases || isAsync then decRef s n self.caller else pure s
  let s := if isAsync then s else s.modify n destroyFunctor
  return setResult s n

/-- The callback can return the core `m`: it is the future or the task of a core that
nobody took yet, or a shared future. -/
def holds (cfg : Config ν ι ε α) (s : State ν ι ε α) (m : ν) : Returns → Bool
  | .plain => false
  | .future => (s.cores m).handle = some .future
  | .sharedFuture => (s.cores m).made && (cfg.prog m).shared
  | .task => (s.cores m).handle = some .task

/-- `n` becomes the callback of the core `m`; a task is entered at its head. -/
def follow (s : State ν ι ε α) (n m : ν) : Returns → State ν ι ε α
  | .task =>
    let h := (s.cores m).headOf m
    let s := storeCallback (take s m n) m n
    let s := (s.modify m fun c => { c with next := [] }).modify n fun c => { c with head := some h }
    s.modify h fun c => { c with phase := .here n }
  | .sharedFuture => setInline s true m n
  | .future | .plain => setInline (take s m n) false m n

/-- The part of `CallResolveAsync` for a callback that returned the core `m`. -/
def unwrap (cfg : Config ν ι ε α) (s : State ν ι ε α) (n : ν) (step : Step ν ι ε α) (m : ν) :
    Except Fault (State ν ι ε α) := do
  if !holds cfg s m step.returns then throw .foreign
  let self ← (s.cores n).self
  let s ← if step.type.run then pure s else decRef s n self.caller
  let self := { caller := some m, unwrapping := self.unwrapping || !step.type.run }
  let s := s.modify n fun c => destroyFunctor { c with slot := .self self, inner := some m }
  return follow s n m step.returns

/-- `CallResolveAsync`: invoke the callback; what it throws is caught in `CallImpl`. -/
def callResolveAsync (cfg : Config ν ι ε α) (s : State ν ι ε α) (n : ν) (step : Step ν ι ε α)
    (r : Except ε α) : Except Fault (State ν ι ε α) := do
  if (s.cores n).destroyed ≠ 0 then throw .noFunctor
  let s := s.modify n fun c => { c with runs := c.runs + 1 }
  match step.func r with
  | .error e => done s n step false (.error e)
  | .ok (.inl x) => done s n step false x
  | .ok (.inr m) => unwrap cfg s n step m

def callImpl (cfg : Config ν ι ε α) (s : State ν ι ε α) (n : ν) (step : Step ν ι ε α)
    (r : Except ε α) : Except Fault (State ν ι ε α) :=
  match step.param, r with
  | .result, r => callResolveAsync cfg s n step r
  | .value, .ok v => callResolveAsync cfg s n step (.ok v)
  | .value, .error e => done s n step false (.error e)
  | .error, .ok v => done s n step false (.ok v)
  | .error, .error e => callResolveAsync cfg s n step (.error e)

def asyncDone (s : State ν ι ε α) (n : ν) (step : Step ν ι ε α) : Except Fault (State ν ι ε α) := do
  let self ← (s.cores n).self
  let m ← deref self.caller
  let r ← (s.cores m).get
  done s n step true r

def impl (cfg : Config ν ι ε α) (s : State ν ι ε α) (n : ν) (step : Step ν ι ε α) (caller : ν) :
    Except Fault (State ν ι ε α) := do
  if step.type.run then asyncDone s n step
  else
    let self ← (s.cores n).self
    if step.returns.async ≠ .none ∧ self.unwrapping = true then asyncDone s n step
    else
      let s := s.modify n fun c => { c with slot := .self { self with caller := some caller } }
      let s := transferExecutorTo s step.type.fromShared caller n
      let s := if step.acquires then
          s.modify n fun c => { c with acquired := c.acquired ++ [caller] }
        else s
      if step.type.call then submit s n
      else
        let s := s.modify n fun c => { c with phase := .running, on := c.executor }
        let r ← (s.cores caller).get
        callImpl cfg s n step r

def call (cfg : Config ν ι ε α) (s : State ν ι ε α) (n : ν) (step : Step ν ι ε α) :
    Except Fault (State ν ι ε α) := do
  if step.type.run then callImpl cfg s n step (.ok cfg.unit)
  else
    let self ← (s.cores n).self
    let p ← deref self.caller
    let r ← (s.cores p).get
    callImpl cfg s n step r

def drop (cfg : Config ν ι ε α) (s : State ν ι ε α) (n : ν) (step : Step ν ι ε α) :
    Except Fault (State ν ι ε α) :=
  callImpl cfg (s.modify n fun c => { c with dropped := true }) n step (.error cfg.stopTag)

/-- `Store` and `SetResult` of a core that is no step. -/
def produce (s : State ν ι ε α) (n : ν) (r : Except ε α) : State ν ι ε α :=
  setResult (s.modify n fun c => { c with slot := .result r }) n

/-- `PromiseType::Impl`, a swap of the executors, and the coroutine is resumed. -/
def resumeFrom (s : State ν ι ε α) (n caller : ν) : State ν ι ε α :=
  let e := (s.cores caller).executor
  let old := (s.cores n).executor
  (s.modify caller fun c => { c with executor := old }).modify n
    fun c => { c with executor := e, on := e, phase := .running, runs := c.runs + 1 }

/-- `Here` and `Next` of each class; a `PromiseCore` has those of `UniqueCore` and
`SharedCore`, which take the caller for a core of their own type. -/
def here (cfg : Config ν ι ε α) (s : State ν ι ε α) (n caller : ν) :
    Except Fault (State ν ι ε α) :=
  match cfg.prog n with
  | .core _ step => impl cfg s n step caller
  | .readyCore _ => .ok (setResult s n)
  | .promiseType _ => .ok (resumeFrom s n caller)
  | .promiseCore _ _ | .contract _ _ | .ready _ => do
    let r ← (s.cores caller).get
    return produce s n r

/-- `Job::Call` of each class; a contract is no job. -/
def callJob (cfg : Config ν ι ε α) (s : State ν ι ε α) (n : ν) :
    Except Fault (State ν ι ε α) :=
  match cfg.prog n with
  | .core _ step => call cfg s n step
  | .readyCore _ => .ok (setResult s n)
  | .promiseType _ => .ok (s.modify n fun c => { c with phase := .running, runs := c.runs + 1 })
  | .promiseCore _ _ | .contract _ _ | .ready _ =>
    .ok (s.modify n fun c => destroyFunctor { c with phase := .running, runs := c.runs + 1 })

/-- `Job::Drop` of each class. -/
def dropJob (cfg : Config ν ι ε α) (s : State ν ι ε α) (n : ν) :
    Except Fault (State ν ι ε α) :=
  match cfg.prog n with
  | .core _ step => drop cfg s n step
  | .readyCore _ | .promiseType _ =>
    .ok (produce (s.modify n fun c => { c with dropped := true }) n (.error cfg.stopTag))
  | .promiseCore _ _ | .contract _ _ | .ready _ =>
    .ok (produce (s.modify n fun c => destroyFunctor { c with dropped := true }) n
      (.error cfg.stopTag))

/-- A new core; a unique one is reached by the handle that the call returns. -/
def fresh (shared : Bool) (handle : Handle) (executor : Option ι) : CoreState ν ι ε α :=
  { made := true, executor, on := executor, handle := if shared then none else some handle }

/-- The head of a chain of tasks that has only itself. -/
def freshTask (n : ν) (executor : Option ι) : CoreState ν ι ε α :=
  { fresh false .task executor with last := some n }

def freshReady (handle : Handle) (executor : ι) (r : Except ε α) : CoreState ν ι ε α :=
  { made := true, executor := some executor, on := some executor, handle := some handle
    slot := .result r }

def make (cfg : Config ν ι ε α) (s : State ν ι ε α) (n : ν) :
    Option (Except Fault (State ν ι ε α)) :=
  if (s.cores n).made then none
  else match cfg.prog n with
  | .contract shared executor =>
    some (.ok (s.put n
      { fresh shared .future (some (executor.getD cfg.inline)) with phase := .running }))
  | .ready r =>
    some (.ok (s.put n { freshReady .future cfg.inline r with callback := none, phase := .done }))
  | .readyCore r =>
    some (.ok (s.put n { freshReady .task cfg.inline r with last := some n }))
  | .promiseCore .lazy executor => some (.ok (s.put n (freshTask n (some executor))))
  | .promiseCore kind executor =>
    some (submit (s.put n (fresh (kind = .shared) .future (some executor))) n)
  | .promiseType .lazy => some (.ok (s.put n (freshTask n (some cfg.inline))))
  | .promiseType kind =>
    some (.ok (s.put n
      { fresh (kind = .shared) .future (some cfg.inline) with phase := .running, runs := 1 }))
  | .core scheduled step =>
    if step.previous ≠ none then none
    else if scheduled then
      -- `Schedule` makes a unique core
      if step.type.toShared then none else some (.ok (s.put n (freshTask n step.executor)))
    else some (submit (s.put n (fresh step.type.toShared .future step.executor)) n)

/-- `SetCallback` of `core.hpp`: attach the step `n` to `p`. -/
def attach (cfg : Config ν ι ε α) (s : State ν ι ε α) (n : ν) : Option (State ν ι ε α) :=
  if (s.cores n).made then none
  else match cfg.prog n with
  | .core _ step =>
    match step.previous with
    | none => none
    | some p =>
      let core : CoreState ν ι ε α :=
        { made := true, executor := step.executor,
          handle := if step.type.detach then none
            else some (if step.type.lazy then .task else .future) }
      if step.type.fromShared then
        if (s.cores p).made = true ∧ (cfg.prog p).shared = true then
          some (setInline (s.put n core) true p n)
        else none
      else if step.type.lazy then
        if (s.cores p).handle = some .task then
          let h := (s.cores p).headOf p
          let s := s.put n { core with next := p :: (s.cores p).next }
          let s := storeCallback (take s p n) p n
          some (s.modify h fun c => { c with last := some n })
        else none
      else if (s.cores p).handle = some .future then
        some (setInline (take (s.put n core) p n) false p n)
      else none
  | _ => none

/-- `Start` of the task `m`, by `ToFuture`, `Get`, `Detach` or `Cancel`. -/
def start (s : State ν ι ε α) (m : ν) (executor : Option ι) (isDetach : Bool) :
    Option (Except Fault (State ν ι ε α)) :=
  if (s.cores m).handle = some .task then
    let h := (s.cores m).headOf m
    let s := s.modify m fun c =>
      { c with next := [], handle := if isDetach then none else some .future }
    let s := s.modify h fun c => { c with executor := executor.or c.executor }
    some (submit s h)
  else none

/-- `co_await` of a unique future or a task by the coroutine `c`, which takes it over. -/
def await (cfg : Config ν ι ε α) (s : State ν ι ε α) (c m : ν) : Option (State ν ι ε α) :=
  match cfg.prog c, (s.cores c).phase, (s.cores m).handle with
  | .promiseType _, .running, some .future =>
    let t := s.modify c fun core => { core with inner := some m, head := none }
    -- a future that is ready does not suspend the coroutine
    some (if (s.cores m).callback = none then take t m c else follow t c m .future)
  | .promiseType _, .running, some .task =>
    some (follow (s.modify c fun core => { core with inner := some m }) c m .task)
  | _, _, _ => none

/-- What the producers, the executors and the owners of the handles choose. -/
inductive Event (ν ι ε α : Type) where
  | make (n : ν)
  | attach (n : ν)
  | start (m : ν) (executor : Option ι) (isDetach : Bool)
  | await (c m : ν)
  | call (n : ν)
  | drop (n : ν)
  | here (n : ν)
  /-- `Promise::Set`, or the end of the coroutine -/
  | set (n : ν) (r : Except ε α)

/-- A core whose result comes from outside. -/
def Node.isProducer : Node ν ι ε α → Bool
  | contract _ _ | promiseCore _ _ | promiseType _ => true
  | ready _ | readyCore _ | core _ _ => false

def exec (cfg : Config ν ι ε α) (s : State ν ι ε α) :
    Event ν ι ε α → Option (Except Fault (State ν ι ε α))
  | .make n => make cfg s n
  | .attach n => (attach cfg s n).map .ok
  | .start m executor isDetach => start s m executor isDetach
  | .await c m => (await cfg s c m).map .ok
  | .call n => if (s.cores n).phase = .submitted then some (callJob cfg s n) else none
  | .drop n => if (s.cores n).phase = .submitted then some (dropJob cfg s n) else none
  | .here n =>
    match (s.cores n).phase with
    | .here caller => some (here cfg s n caller)
    | _ => none
  | .set n r =>
    if (s.cores n).phase = .running ∧ (cfg.prog n).isProducer = true then
      some (.ok (produce s n r))
    else none

/-- The cores, and the undefined behaviour that ended the run. -/
structure Machine (ν ι ε α : Type) where
  state : State ν ι ε α := {}
  fault : Option Fault := none

/-- Undefined behaviour ends the run. A callback owns what it returns, so `foreign` is none
of the code's faults but a run that does not exist. -/
def settle (s : State ν ι ε α) : Except Fault (State ν ι ε α) → Option (Machine ν ι ε α)
  | .ok t => some { state := t }
  | .error .foreign => none
  | .error f => some { state := s, fault := some f }

def step (cfg : Config ν ι ε α) (m : Machine ν ι ε α) (e : Event ν ι ε α) :
    Option (Machine ν ι ε α) :=
  if m.fault.isSome then none else (exec cfg m.state e).bind (settle m.state)

def system (cfg : Config ν ι ε α) : System (Machine ν ι ε α) (Event ν ι ε α) where
  Init m := m = {}
  step := step cfg

end Yaclib.Core
