import Yaclib.Algo.BaseCore
import Yaclib.Async.When.Strategy
import Yaclib.Concurrency.Chain
import Yaclib.Util.TypeTraits

/-!
The combinators of `async/when/when.hpp`: `SingleCombinator`, `StaticCombinator` and
`DynamicCombinator` over any strategy, as `When` chooses between them.

One step of the model is `SetCallback` (the compare-and-swap that ends it, or its load
of `kResult`), the `exchange` of `SetResult`, one `DecRef`, one read of a core, one
callback on the way through a list of them, or one operation of the strategy. The
inputs are `Fin n`, and `κ` are their cores: an input can be a future that other
threads have copies of, and several inputs can be copies of one future.

Left out are the empty range, for which `When` makes no combinator, the executors, and what
becomes of the output after its promise is set.
-/

namespace Yaclib.When

open Concurrency

inductive ConsumePolicy where
  | None
  | Unordered
  | Static
  | Dynamic
  deriving DecidableEq

inductive CorePolicy where
  | Owned
  | Managed
  deriving DecidableEq

def ConsumePolicy.kIsOrdered : ConsumePolicy → Bool
  | Static | Dynamic => true
  | None | Unordered => false

/-- The members of a strategy. `Consume` is a sequence of atomic steps, from one place
to the next; it gets the index, if the policy is an ordered one, and the result: that
of `Retire`, or what it reads in the core. The input is for ghosts only. -/
structure StrategyClass (n : Nat) (R : Type) where
  kConsumePolicy : ConsumePolicy
  kCorePolicy : CorePolicy
  Fields : Type
  Place : Type
  start : Place
  consume : Fin n → Option Nat → R → Fields → Place → Fields × Option Place
  /-- the destructor of an `Owned` strategy calls `Retire` of its `_cores`, not `DecRef` -/
  retires : Fields → Bool
  /-- the rest of the destructor, with the results of the `Retire` calls -/
  destroy : List R → Fields → Fields

/-- `detail::UniqueCore<V, T>` and `detail::SharedCore<V, T>`, for `V` and `T` in `τ`. -/
inductive CoreType (τ : Type) where
  | unique (t : τ)
  | shared (t : τ)
  deriving DecidableEq

def IsUniqueCore {τ : Type} : CoreType τ → Bool
  | .unique _ => true
  | .shared _ => false

def IsSharedCore {τ : Type} : CoreType τ → Bool
  | .unique _ => false
  | .shared _ => true

/-- The arguments of `When`, with what their producers store (`result`) and what a move
leaves behind. -/
structure Futures (n : Nat) (κ τ R : Type) where
  core : Fin n → κ
  type : κ → CoreType τ
  /-- the overload for `begin` and `count` -/
  iterator : Bool
  result : κ → R
  movedFrom : R → R
  nonempty : 0 < n
  covers : ∀ c, ∃ i, core i = c
  /-- each unique core belongs to one future -/
  distinct : ∀ i j, core i = core j → IsSharedCore (type (core i)) = false → i = j
  /-- all elements of a range have one type -/
  sameCore : iterator = true → ∀ i j, type (core i) = type (core j)

/-- The callback objects: the combinator itself, an element of `callbacks`, of
`unique_tuple` or of `shared_tuple`, and what other threads attach. -/
inductive Node where
  | self
  | callbacks (i : Nat)
  | uniqueTuple (k : Option Nat)
  | sharedTuple (k : Option Nat)
  | foreign (m : Nat)
  deriving DecidableEq

namespace Node

def ours : Node → Bool
  | foreign _ => false
  | _ => true

/-- The index in the `Impl` of the callback: `Consume<0>`, and that of the element. -/
def index : Node → Nat
  | callbacks i => i
  | _ => 0

end Node

/-- `FinalCombinator` -/
inductive Kind where
  | single
  | static
  | dynamic
  deriving DecidableEq

namespace Futures

variable {n : Nat} {κ τ R : Type} [DecidableEq τ] (F : Futures n κ τ R)

def shared (c : κ) : Bool := IsSharedCore (F.type c)

/-- `std::tuple<Cores...>` -/
def types : List (CoreType τ) := List.ofFn fun i => F.type (F.core i)

def UniqueUniqueCores : List (CoreType τ) := Unique (Filter IsUniqueCore F.types)

def SharedCores : List (CoreType τ) := Filter IsSharedCore F.types

def kTotalCount : Nat := F.UniqueUniqueCores.length + F.SharedCores.length

def head : CoreType τ := F.type (F.core ⟨0, F.nonempty⟩)

/-- Which combinator `When` makes. -/
def kind (P : ConsumePolicy) : Kind :=
  if F.iterator then if !P.kIsOrdered && IsUniqueCore F.head then .single else .dynamic
  else if F.kTotalCount = 1 && !P.kIsOrdered then .single
  else .static

/-- The callback object that `Set` gives to the core of the input: `*this`,
`callbacks[i]`, or that of `GetCallbackHelper`. -/
def node (P : ConsumePolicy) (i : Fin n) : Node :=
  match F.kind P with
  | .single => .self
  | .dynamic => .callbacks i
  | .static =>
    if P.kIsOrdered then .callbacks i
    else if F.shared (F.core i) then .sharedTuple (translateIndex i F.types F.SharedCores)
    else .uniqueTuple (indexOf (F.type (F.core i)) F.UniqueUniqueCores)

/-- The index that `Set` gives to `Consume` after a `SetCallback` that failed. -/
def setIndex (P : ConsumePolicy) (i : Fin n) : Nat :=
  if F.kind P = .single ∧ F.iterator = false then 0 else i

def results : List R := List.ofFn fun i => F.result (F.core i)

/-- The input that a core and a callback object belong to. -/
def inputOf [DecidableEq κ] (P : ConsumePolicy) (c : κ) (m : Node) : Option (Fin n) :=
  (List.finRange n).find? fun i => F.core i = c && F.node P i = m

end Futures

namespace StrategyClass

variable {n : Nat} {R : Type} (S : StrategyClass n R)

def Owned : Prop := S.kCorePolicy = .Owned

instance : Decidable S.Owned := inferInstanceAs (Decidable (_ = _))

/-- What `Strategy::Consume` gets of the index. -/
def argument (index : Nat) : Option Nat := if S.kConsumePolicy.kIsOrdered then some index else none

end StrategyClass

namespace Combinator

/-- Where the callback of an input is. `index` and `r` are the arguments of
`Strategy::Consume`; `r` is `none` where it gets the core. -/
inductive Body (κ P R : Type) where
  /-- `Retire`: `GetRef`, and the result is moved or copied -/
  | retire (index : Option Nat)
  /-- the `DecRef` of `Retire` -/
  | retireDecRef (index : Option Nat) (r : R)
  /-- `core.DecRef()`, for `ConsumePolicy::None` -/
  | decRefCore
  | inside (index : Option Nat) (r : Option R) (p : P)
  /-- `_self->DecRef()` -/
  | decRef
  /-- the destructor of the strategy, at `_cores[j]` -/
  | destroy (retires : Bool) (j : Nat) (output : List R)
  | destroyDecRef (j : Nat) (core : κ) (output : List R)

/-- The callback of an input: not attached yet, attached, running on the thread that
sets it (`inline`) or on the producer, or through. -/
inductive Stage (κ P R : Type) where
  | unset
  | attached
  | running (inline : Bool) (b : Body κ P R)
  | done

inductive Setter (n : Nat) where
  /-- `st.Register(i, core)` -/
  | register (i : Fin n)
  | setCallback (i : Fin n)
  /-- `Consume` and `DecRef`, after `SetCallback` failed -/
  | inside (i : Fin n)
  | done
  deriving DecidableEq

/-- Where the producer of a core is, in `SetResult`. -/
inductive Producer (n : Nat) where
  /-- its `exchange` is next -/
  | before
  /-- `head->next` -/
  | visit (head : Node)
  /-- the `DecRef` before the last callback of a shared core -/
  | lastDecRef (head : Node)
  /-- `Loop(this, head)` -/
  | call (head : Node) (next : Option Node)
  /-- in the callback of an input -/
  | inside (i : Fin n) (next : Option Node)
  /-- the `DecRef` calls after the loop, and how many follow -/
  | decRef (more : Nat)
  | finished
  deriving DecidableEq

/-- The cores, the combinator with its strategy, and where each thread is. `cores` is
the `_cores` of an `Owned` strategy, `kept` counts the references of other threads.
Ghosts: the callbacks that a core or its producer still holds, the arguments of the
`Consume` calls of an input, how often its reference was given back, and whether a
thread used something that is not there. -/
structure State {n : Nat} {R : Type} (κ : Type) (S : StrategyClass n R) where
  callback : κ → Callback Node := fun _ => .kEmpty
  next : Node → Option Node := fun _ => none
  foreigns : Nat := 0
  producer : κ → Producer n := fun _ => .before
  setter : Setter n
  call : Fin n → Stage κ S.Place R := fun _ => .unset
  fields : S.Fields
  cores : Fin n → Option κ := fun _ => none
  count : Nat
  destroyed : Nat := 0
  refs : κ → Nat
  kept : κ → Nat
  content : κ → R
  held : κ → List Node := fun _ => []
  calls : Fin n → List (Option Nat) := fun _ => []
  released : Fin n → Nat := fun _ => 0
  dangling : Bool := false

namespace State

variable {n : Nat} {κ τ R : Type} [DecidableEq κ] [DecidableEq τ] {S : StrategyClass n R}

/-- A thread uses the combinator or a callback object of it. -/
def touch (s : State κ S) : State κ S :=
  { s with dangling := s.dangling || decide (s.count = 0) }

def touchCore (s : State κ S) (c : κ) : State κ S :=
  { s with dangling := s.dangling || decide (s.refs c = 0) }

def read (s : State κ S) (c : κ) : State κ S :=
  { s with dangling := s.dangling || decide (s.refs c = 0 ∨ s.callback c ≠ .kResult) }

def decRef (s : State κ S) (c : κ) : State κ S :=
  { s.touchCore c with refs := Function.update s.refs c (s.refs c - 1) }

def release (s : State κ S) (i : Fin n) (c : κ) : State κ S :=
  { s.decRef c with released := Function.update s.released i (s.released i + 1) }

def putContent (s : State κ S) (c : κ) (r : R) : State κ S :=
  { s with content := Function.update s.content c r }

/-- `Retire` up to its `DecRef`: a shared core is only moved from under `GetRef() == 1`. -/
def retire (F : Futures n κ τ R) (s : State κ S) (c : κ) : State κ S :=
  if F.shared c ∧ s.refs c ≠ 1 then s.read c
  else (s.read c).putContent c (F.movedFrom (s.content c))

def goto (s : State κ S) (p : Setter n) : State κ S :=
  { s with setter := p }

def move (s : State κ S) (c : κ) (p : Producer n) : State κ S :=
  { s with producer := Function.update s.producer c p }

def put (s : State κ S) (i : Fin n) (stage : Stage κ S.Place R) : State κ S :=
  { s with call := Function.update s.call i stage }

end State

variable {n : Nat} {κ τ R : Type} [DecidableEq κ] [DecidableEq τ] (F : Futures n κ τ R)
variable (S : StrategyClass n R)

/-- `Consume` and `ConsumeImpl`: where they start. -/
def entry (index : Option Nat) : Body κ S.Place R :=
  match S.kConsumePolicy, S.kCorePolicy with
  | .None, .Managed => .decRefCore
  | .None, .Owned => .decRef
  | _, .Managed => .retire index
  | _, .Owned => .inside index none S.start

variable {S}

/-- `Consume(st, core, index)` -/
def beginConsume (s : State κ S) (i : Fin n) (inline : Bool) (index : Nat) : State κ S :=
  { s.put i (.running inline (entry S (S.argument index))) with
    calls := Function.update s.calls i (s.calls i ++ [S.argument index]) }

def consumeStep (s : State κ S) (i : Fin n) (index : Option Nat) (r : Option R) (p : S.Place) :
    State κ S × Option (Body κ S.Place R) :=
  let q := S.consume i index (r.getD (s.content (F.core i))) s.fields p
  let t := if r.isNone then s.read (F.core i) else s
  ({ t.touch with fields := q.1 }, some (q.2.elim .decRef (.inside index r)))

/-- `DecRef` of the combinator. The destructor of an `Owned` strategy goes through
its `_cores`. -/
def decRefStep (s : State κ S) : State κ S × Option (Body κ S.Place R) :=
  ({ s.touch with count := s.count - 1 },
    if s.count = 1 then some (.destroy (S.retires s.fields) (if S.Owned then 0 else n) [])
    else none)

/-- The destructor at `_cores[j]`. -/
def destroyStep (s : State κ S) (retires : Bool) (j : Nat) (output : List R) :
    State κ S × Option (Body κ S.Place R) :=
  if h : j < n then
    match s.cores ⟨j, h⟩, retires with
    | some c, true => (s.retire F c, some (.destroyDecRef j c (output ++ [s.content c])))
    | some c, false => (s.release ⟨j, h⟩ c, some (.destroy false (j + 1) output))
    | none, _ => ({ s with dangling := true }, some (.destroy retires (j + 1) output))
  else
    ({ s with fields := S.destroy output s.fields, destroyed := s.destroyed + 1 }, none)

/-- One step of the callback of an input, and where it is after that; `none` is the
return. -/
def bodyStep (s : State κ S) (i : Fin n) : Body κ S.Place R → State κ S × Option (Body κ S.Place R)
  | .retire index =>
    (s.retire F (F.core i), some (.retireDecRef index (s.content (F.core i))))
  | .retireDecRef index r => (s.release i (F.core i), some (.inside index (some r) S.start))
  | .decRefCore => (s.release i (F.core i), some .decRef)
  | .inside index r p => consumeStep F s i index r p
  | .decRef => decRefStep s
  | .destroy retires j output => destroyStep F s retires j output
  | .destroyDecRef j c output =>
    if h : j < n then (s.release ⟨j, h⟩ c, some (.destroy true (j + 1) output))
    else ({ s with dangling := true }, none)

/-- The thread that runs the callback of an input goes on, and at the return it moves
to the place that `leave` says. -/
def advance (s : State κ S) (i : Fin n) (leave : State κ S → State κ S) : Option (State κ S) :=
  match s.call i with
  | .running inline b =>
    match bodyStep F s i b with
    | (t, some b') => some (t.put i (.running inline b'))
    | (t, none) => some (leave (t.put i .done))
  | _ => none

/-! ### Set -/

/-- The start of `SetCore` of the input `j`, if there is one. -/
def Setter.from (S : StrategyClass n R) (j : Nat) : Setter n :=
  if h : j < n then if S.Owned then .register ⟨j, h⟩ else .setCallback ⟨j, h⟩ else .done

/-- `SetCallback` succeeds: only that of a shared core uses the `next` of the callback. -/
def attach (s : State κ S) (i : Fin n) (p : Option Node) : State κ S :=
  let c := F.core i
  let m := F.node S.kConsumePolicy i
  { s.put i .attached with
    next := if F.shared c then Function.update s.next m p else s.next
    callback := Function.update s.callback c (.ptr (some m))
    held := Function.update s.held c (m :: s.held c) }

/-- `SetCallback`, and `Consume` if it fails. -/
def setCallback (s : State κ S) (i : Fin n) : State κ S :=
  let s := (s.touch).touchCore (F.core i)
  match F.shared (F.core i), s.callback (F.core i) with
  | true, .ptr p => (attach F s i p).goto (.from S (i + 1))
  | false, .ptr none => (attach F s i none).goto (.from S (i + 1))
  | _, _ => (beginConsume s i true (F.setIndex S.kConsumePolicy i)).goto (.inside i)

def setStep (s : State κ S) : Option (State κ S) :=
  match s.setter with
  | .register i =>
    some { s.touch.goto (.setCallback i) with
      cores := Function.update s.cores i (some (F.core i)) }
  | .setCallback i => some (setCallback F s i)
  | .inside i => advance F s i fun t => t.goto (.from S (i + 1))
  | .done => none

/-! ### The producers -/

def setResult (s : State κ S) (c : κ) : State κ S :=
  { s.touchCore c with callback := Function.update s.callback c .kResult }.move c
    (match s.callback c, F.shared c with
    | .kResult, _ | .ptr none, false => .finished
    | .ptr none, true => .decRef 2
    | .ptr (some head), true => .visit head
    | .ptr (some head), false => .call head none)

/-- After a callback: the next one of the list, or the last two `DecRef` calls of a
shared core. -/
def Producer.rest (shared : Bool) : Option Node → Producer n
  | some m => .visit m
  | none => if shared then .decRef 1 else .finished

/-- What a callback of another thread does with the core: it leaves it or copies the
result, it moves the result under `GetRef() < 3`, or it takes a reference. -/
inductive Use where
  | copy
  | moveOrCopy
  | incRef
  deriving DecidableEq

def callForeign (s : State κ S) (c : κ) (use : Use) : State κ S :=
  match use with
  | .copy => s.read c
  | .moveOrCopy =>
    if s.refs c < 3 then (s.read c).putContent c (F.movedFrom (s.content c)) else s.read c
  | .incRef =>
    { s.read c with
      refs := Function.update s.refs c (s.refs c + 1)
      kept := Function.update s.kept c (s.kept c + 1) }

/-- `Loop(this, head)`, up to the start of `Consume`. -/
def callCallback (s : State κ S) (c : κ) (head : Node) (next : Option Node) (use : Use) :
    State κ S :=
  let s := { s with held := Function.update s.held c (s.held c).tail }
  match F.inputOf S.kConsumePolicy c head with
  | some i => (beginConsume s.touch i false head.index).move c (.inside i next)
  | none => (callForeign F s c use).move c (.rest (F.shared c) next)

def producerStep (s : State κ S) (c : κ) (use : Use) : Option (State κ S) :=
  match s.producer c with
  | .before => some (setResult F s c)
  | .visit head =>
    some ((if head.ours then s.touch else s).move c
      (match s.next head with
      | none => .lastDecRef head
      | some m => .call head (some m)))
  | .lastDecRef head => some ((s.decRef c).move c (.call head none))
  | .call head next => some (callCallback F s c head next use)
  | .inside i next => advance F s i fun t => t.move c (.rest (F.shared c) next)
  | .decRef 0 => some ((s.decRef c).move c .finished)
  | .decRef (more + 1) => some ((s.decRef c).move c (.decRef more))
  | .finished => none

/-! ### Other threads -/

def foreignAttach (s : State κ S) (c : κ) : Option (State κ S) :=
  match F.shared c, s.callback c with
  | true, .ptr p =>
    some { s with
      next := Function.update s.next (.foreign s.foreigns) p
      foreigns := s.foreigns + 1
      callback := Function.update s.callback c (.ptr (some (.foreign s.foreigns)))
      held := Function.update s.held c (.foreign s.foreigns :: s.held c) }
  | _, _ => none

def foreignCopy (s : State κ S) (c : κ) : Option (State κ S) :=
  if s.kept c = 0 then none
  else
    some { s with
      refs := Function.update s.refs c (s.refs c + 1)
      kept := Function.update s.kept c (s.kept c + 1) }

/-- A future that another thread keeps is destroyed, after a `Retire` of a core with a
result or without. -/
def foreignDrop (s : State κ S) (c : κ) (retires : Bool) : Option (State κ S) :=
  if s.kept c = 0 ∨ retires = true ∧ s.callback c ≠ .kResult then none
  else
    some { (if retires then s.retire F c else s) with
      refs := Function.update s.refs c (s.refs c - 1)
      kept := Function.update s.kept c (s.kept c - 1) }

inductive Event (κ : Type) where
  | set
  | producer (c : κ) (use : Use)
  | attach (c : κ)
  | copy (c : κ)
  | drop (c : κ) (retires : Bool)

def step (s : State κ S) : Event κ → Option (State κ S)
  | .set => setStep F s
  | .producer c use => producerStep F s c use
  | .attach c => foreignAttach F s c
  | .copy c => foreignCopy s c
  | .drop c retires => foreignDrop F s c retires

/-- The state before `Set`. A shared core has the references of its promise, one for
each input that is a future of it, and those that other threads keep. -/
def init (fields : S.Fields) (kept : κ → Nat) : State κ S where
  setter := .from S 0
  fields := fields
  count := n
  refs c := (List.finRange n).countP (fun i => F.core i = c) + if F.shared c then 3 + kept c else 0
  kept := kept
  content := F.result

/-- `MakeShared<FinalCombinator>(n, n, std::move(p))` with `fields` of the constructor of
the strategy, and `Set`. Results and callbacks that are there before come first. -/
def system (S : StrategyClass n R) (fields : S.Fields) : System (State κ S) (Event κ) where
  Init s := ∃ kept, (∀ c, F.shared c = false → kept c = 0) ∧ s = init F fields kept
  step := step F

end Combinator

end Yaclib.When
