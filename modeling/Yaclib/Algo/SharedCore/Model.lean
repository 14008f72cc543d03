import Yaclib.Algo.Callbacks
import Yaclib.Concurrency.System

/-!
The reference counts of `SharedCore` and who reads, moves and releases its result: the
copies of a `SharedFuture`, the callbacks attached to it, `Retire`, `Connect`, `Share` and
`Split`, of `algo/detail/shared_core.hpp`, `algo/detail/result_core.hpp`,
`async/shared_future.hpp`, `async/connect.hpp` and `src/algo/base_core.cpp`. Unique cores are
here as well, since `Connect` mixes them.

`κ` are the cores, `φ` the futures, `ν` the calls that do something with a result: the
callbacks that are attached, and the calls that read it at once. What a call does with the
core is a script of its accesses, one step each. The loop of `SetCallbackImpl` is one step,
its last compare-and-swap.

Left out are the executors and the functors of the steps, which are in `Algo.Core`, and the
executors that `co_await` swaps.
-/

namespace Yaclib.SharedCore

open Concurrency

inductive Kind (κ : Type) where
  /-- a step on a `SharedFuture` that runs where it is called back -/
  | inline
  /-- a step on a `SharedFuture` that is submitted, or that returns an async result -/
  | owning
  /-- `Wait` and `Await`: the waiting thread or coroutine is woken up -/
  | event
  /-- `co_await` -/
  | await
  /-- `Retire`, by a combinator or by a step on a unique future -/
  | retire
  /-- `DecRef` only: a future that is dropped, or `ConsumePolicy::None` -/
  | release
  /-- `Get() &&` and `Touch() &&` -/
  | get
  /-- `Connect`, where `d` is the core of the promise -/
  | connect (d : κ)
  deriving DecidableEq

/-- Whether a read moves the value out, by the reference count loaded before. -/
inductive Mode where
  | copy
  | move
  /-- `GetRef() == 1` -/
  | one
  /-- not `ref >= 3` -/
  | last
  deriving DecidableEq

def Mode.moves : Mode → Nat → Bool
  | copy, _ => false
  | move, _ => true
  | one, n => n == 1
  | last, n => !(3 ≤ n)

inductive Act (κ : Type) where
  | getRef
  | read (mode : Mode)
  | incRef
  | decRef
  /-- `if (ref == 1)` -/
  | decRefIfOne
  /-- `Store` in the core `d` -/
  | store (d : κ)
  /-- `SetResult` of the core `d` -/
  | setResult (d : κ)
  /-- `SetResult` of the core `d` returns -/
  | finish (d : κ)
  /-- the callback returns, or the call that attached it -/
  | ret
  deriving DecidableEq

section Scripts

variable {κ : Type}

/-- `Here` of each kind of callback, and what it does later. -/
def here (shared : Bool) : Kind κ → List (Act κ)
  | .inline => [.read .copy, .ret]
  | .owning => [.incRef, .ret, .read .copy, .decRef]
  | .event => [.ret]
  | .await => if shared then [.ret, .read .copy, .decRef] else [.ret, .read .move, .decRef]
  | .retire =>
    if shared then [.ret, .getRef, .read .one, .decRef] else [.ret, .read .move, .decRef]
  | .release => [.decRef, .ret]
  | .get => if shared then [.getRef, .read .one, .decRef] else [.read .move, .decRef]
  | .connect d =>
    [.getRef, .read .last, .store d, .decRefIfOne, .setResult d, .finish d, .ret]

/-- What the caller does where `SetCallback` failed: `Here`, but `Set` and `Touch` in
`Connect`. -/
def refused (shared : Bool) : Kind κ → List (Act κ)
  | .connect d =>
    if shared then [.read .copy, .store d, .setResult d, .finish d, .ret]
    else [.read .move, .decRef, .store d, .setResult d, .finish d, .ret]
  | k => here shared k

/-- The kinds of callbacks that are attached to such a core. -/
def attachable (shared : Bool) : Kind κ → Bool
  | .inline | .owning | .event => shared
  | .await | .retire | .release | .connect _ => true
  | .get => false

/-- The call takes over the reference of the future. -/
def consumes (shared : Bool) : Kind κ → Bool
  | .inline | .owning | .event => false
  | .await | .retire | .release | .get => true
  | .connect _ => !shared

/-- The core whose promise the call takes. -/
def Kind.target : Kind κ → Option κ
  | connect d => some d
  | _ => none

end Scripts

/-- Which cores are shared, and what the calls do. -/
structure Config (κ ν : Type) where
  shared : κ → Bool
  kind : ν → Kind κ

inductive Promise where
  /-- there is no such core yet -/
  | none
  | held
  /-- taken by `Connect` -/
  | connected
  /-- the result is stored, and the `exchange` of `SetResultImpl` is next -/
  | stored
  | given
  deriving DecidableEq

inductive Slot (ρ : Type) where
  | empty
  | full (r : ρ)
  | moved
  deriving DecidableEq

inductive Caller (φ : Type) where
  /-- the producer of the core -/
  | producer
  /-- a thread that uses the future `f` for it -/
  | user (f : φ)
  | self
  deriving DecidableEq

inductive Call (κ φ ρ : Type) where
  | idle
  /-- in the list of the core -/
  | listed (c : κ)
  /-- what is left to do, the reference count and the result that it read -/
  | running (c : κ) (caller : Caller φ) (script : List (Act κ)) (ref : Nat) (value : Option ρ)

structure State (κ φ ν ρ : Type) where
  cores : Callbacks κ ν := {}
  promise : κ → Promise := fun _ => .none
  count : κ → Nat := fun _ => 0
  slot : κ → Slot ρ := fun _ => .empty
  /-- how many of its references the producer gave back -/
  given : κ → Nat := fun _ => 0
  future : φ → Option κ := fun _ => none
  /-- the calls that use a future at the moment -/
  users : φ → List ν := fun _ => []
  call : ν → Call κ φ ρ := fun _ => .idle
  /-- the result that was stored -/
  stored : κ → Option ρ := fun _ => none
  /-- the core that it is connected to -/
  source : κ → Option κ := fun _ => none
  /-- how often the core was deleted -/
  deleted : κ → Nat := fun _ => 0
  /-- how often the call was run -/
  runs : ν → Nat := fun _ => 0

/-- What only undefined behaviour does. -/
inductive Fault where
  /-- a core is used after it was deleted -/
  | deleted
  /-- a result is read that is not stored yet -/
  | noResult
  /-- a result is read that was moved out -/
  | moved
  deriving DecidableEq

variable {κ φ ν ρ : Type} [DecidableEq κ] [DecidableEq φ] [DecidableEq ν]

def check (s : State κ φ ν ρ) (c : κ) : Except Fault Unit :=
  if s.count c = 0 then .error .deleted else .ok ()

def setCall (s : State κ φ ν ρ) (m : ν) (call : Call κ φ ρ) : State κ φ ν ρ :=
  { s with call := Function.update s.call m call }

def setFuture (s : State κ φ ν ρ) (f : φ) (p : Option κ) : State κ φ ν ρ :=
  { s with future := Function.update s.future f p }

def setPromise (s : State κ φ ν ρ) (c : κ) (p : Promise) : State κ φ ν ρ :=
  { s with promise := Function.update s.promise c p }

def incRef (s : State κ φ ν ρ) (c : κ) : Except Fault (State κ φ ν ρ) := do
  check s c
  return { s with count := Function.update s.count c (s.count c + 1) }

/-- `DecRef`: the last one deletes the core. -/
def decRef (s : State κ φ ν ρ) (c : κ) : Except Fault (State κ φ ν ρ) := do
  check s c
  return { s with
    count := Function.update s.count c (s.count c - 1)
    deleted := Function.update s.deleted c (s.deleted c + if s.count c = 1 then 1 else 0) }

def store (s : State κ φ ν ρ) (c : κ) (r : ρ) : Except Fault (State κ φ ν ρ) := do
  check s c
  return { s with
    slot := Function.update s.slot c (.full r)
    stored := Function.update s.stored c (some r) }

def read (s : State κ φ ν ρ) (c : κ) (moves : Bool) : Except Fault (ρ × State κ φ ν ρ) := do
  check s c
  match s.slot c with
  | .empty => throw .noResult
  | .moved => throw .moved
  | .full r =>
    return (r, if moves then { s with slot := Function.update s.slot c .moved } else s)

/-- `kSharedRefWithFuture`; a unique core has one owner. -/
def refWithFuture (shared : Bool) : Nat := if shared then 4 else 1

def kSharedRefNoFuture : Nat := 3

/-- `!Empty()` -/
def ready (s : State κ φ ν ρ) (c : κ) : Bool := s.cores.callback c ≠ .kEmpty

/-- `MakeContract` and `MakeSharedContract` -/
def make (cfg : Config κ ν) (s : State κ φ ν ρ) (c : κ) (f : φ) : Option (State κ φ ν ρ) :=
  if s.promise c = .none ∧ s.future f = none then
    some <| setFuture (setPromise { s with
      count := Function.update s.count c (refWithFuture (cfg.shared c)) } c .held) f (some c)
  else none

def makePromise (cfg : Config κ ν) (s : State κ φ ν ρ) (c : κ) : Option (State κ φ ν ρ) :=
  if s.promise c = .none ∧ cfg.shared c = true then
    some (setPromise { s with count := Function.update s.count c kSharedRefNoFuture } c .held)
  else none

def copy (cfg : Config κ ν) (s : State κ φ ν ρ) (f g : φ) :
    Option (Except Fault (State κ φ ν ρ)) :=
  match s.future f with
  | none => none
  | some c =>
    if cfg.shared c = true ∧ s.future g = none then
      some ((incRef s c).map fun t => setFuture t g (some c))
    else none

def split (cfg : Config κ ν) (s : State κ φ ν ρ) (c : κ) (g : φ) :
    Option (Except Fault (State κ φ ν ρ)) :=
  if cfg.shared c = true ∧ s.promise c = .held ∧ s.future g = none then
    some ((incRef s c).map fun t => setFuture t g (some c))
  else none

def drop (cfg : Config κ ν) (s : State κ φ ν ρ) (f : φ) : Option (Except Fault (State κ φ ν ρ)) :=
  match s.future f with
  | none => none
  | some c =>
    if cfg.shared c = true ∧ s.users f = [] then
      some ((decRef s c).map fun t => setFuture t f none)
    else none

/-- The user may read: `Get` has waited, `Touch` and `co_await` go by `Ready`. -/
def mayRead (s : State κ φ ν ρ) (c : κ) (byReady : Bool) : Bool :=
  if byReady then ready s c else s.cores.callback c = .kResult

/-- `Get() const&` and `Touch() const&` -/
def look (s : State κ φ ν ρ) (f : φ) (byReady : Bool) : Option (Except Fault (State κ φ ν ρ)) :=
  match s.future f with
  | none => none
  | some c =>
    if mayRead s c byReady then some ((read s c false).map Prod.snd) else none

/-- A call of a kind that connects takes the promise of its target. -/
def connect (s : State κ φ ν ρ) (c : κ) : Option κ → State κ φ ν ρ
  | none => s
  | some d => setPromise { s with source := Function.update s.source d (some c) } d .connected

/-- The call is run by the thread that made it. -/
def serve (cfg : Config κ ν) (s : State κ φ ν ρ) (m : ν) (f : φ) (c : κ)
    (script : List (Act κ)) : State κ φ ν ρ :=
  let s := { s with runs := Function.update s.runs m (s.runs m + 1) }
  if consumes (cfg.shared c) (cfg.kind m) then
    setCall (setFuture s f none) m (.running c .self script 0 none)
  else
    setCall { s with users := Function.update s.users f (m :: s.users f) } m
      (.running c (.user f) script 0 none)

/-- `SetCallback`: the callback is put in front of the list. -/
def enlist (s : State κ φ ν ρ) (m : ν) (c : κ) : State κ φ ν ρ :=
  setCall { s with cores := (s.cores.link m (s.cores.callback c).toPtr).attach c m } m (.listed c)

/-- `SetCallback` of a unique core fails as well if there is a callback already. -/
def accepts (shared : Bool) (word : Callback ν) : Bool :=
  match word with
  | .kResult => false
  | .ptr p => shared || p.isNone

def attach (cfg : Config κ ν) (s : State κ φ ν ρ) (m : ν) (f : φ) :
    Option (Except Fault (State κ φ ν ρ)) :=
  match s.call m, s.future f with
  | .idle, some c =>
    let k := cfg.kind m
    if attachable (cfg.shared c) k = true ∧ (∀ d ∈ k.target, s.promise d = .held ∧ c ≠ d) ∧
        (consumes (cfg.shared c) k = true → s.users f = []) then
      some do
        check s c
        let s := connect s c k.target
        if accepts (cfg.shared c) (s.cores.callback c) then
          return enlist (if consumes (cfg.shared c) k then setFuture s f none else s) m c
        else
          return serve cfg s m f c (refused (cfg.shared c) k)
    else none
  | _, _ => none

/-- `Connect` to a `SharedPromise`, which is not set yet -/
def subsume (cfg : Config κ ν) (s : State κ φ ν ρ) (m : ν) (c : κ) :
    Option (Except Fault (State κ φ ν ρ)) :=
  match s.call m, cfg.kind m with
  | .idle, .connect d =>
    if cfg.shared c = true ∧ s.promise c = .held ∧ s.promise d = .held ∧ c ≠ d then
      some do
        check s c
        return enlist (connect s c (some d)) m c
    else none
  | _, _ => none

/-- `Get() &&`, `Touch() &&`, and `co_await` where `await_ready` holds -/
def take (cfg : Config κ ν) (s : State κ φ ν ρ) (m : ν) (f : φ) (byReady : Bool) :
    Option (State κ φ ν ρ) :=
  match s.call m, s.future f with
  | .idle, some c =>
    let k := cfg.kind m
    if (k = .get ∨ k = .await ∧ byReady = true) ∧ s.users f = [] ∧ mayRead s c byReady = true then
      some (serve cfg s m f c (here (cfg.shared c) k))
    else none
  | _, _ => none

/-- `Promise::Set`: the result is stored. -/
def set (s : State κ φ ν ρ) (c : κ) (r : ρ) : Option (Except Fault (State κ φ ν ρ)) :=
  if s.promise c = .held then some ((store s c r).map fun t => setPromise t c .stored) else none

def exchange (cfg : Config κ ν) (s : State κ φ ν ρ) (c : κ) :
    Option (Except Fault (State κ φ ν ρ)) :=
  if s.promise c = .stored then
    some do
      check s c
      return setPromise { s with cores := s.cores.setResult cfg.shared c } c .given
  else none

/-- `head->next` is read. -/
def visit (s : State κ φ ν ρ) (c : κ) : Option (State κ φ ν ρ) :=
  match s.cores.walk c with
  | .visit head => some { s with cores := s.cores.visit c head }
  | _ => none

/-- The callback in the hand of the producer is not called yet. -/
def isListed (s : State κ φ ν ρ) (c : κ) (m : ν) : Bool :=
  match s.call m with
  | .listed d => d = c
  | _ => false

/-- `DecRef` of `SetResultImpl`: one before the last callback, and the others at the end. -/
def release (cfg : Config κ ν) (s : State κ φ ν ρ) (c : κ) :
    Option (Except Fault (State κ φ ν ρ)) :=
  let back := (decRef s c).map fun t => { t with given := Function.update t.given c (t.given c + 1) }
  match s.cores.walk c with
  | .call head none =>
    if cfg.shared c = true ∧ s.given c = 0 ∧ isListed s c head = true then some back else none
  | .finished => if cfg.shared c = true ∧ s.given c < 3 then some back else none
  | _ => none

/-- The callback in the hand of the producer is called. -/
def callHere (cfg : Config κ ν) (s : State κ φ ν ρ) (c : κ) : Option (State κ φ ν ρ) :=
  match s.cores.walk c with
  | .call head next =>
    if isListed s c head = true ∧ (cfg.shared c = true → next = none → s.given c = 1) then
      some <| setCall { s with runs := Function.update s.runs head (s.runs head + 1) } head
        (.running c .producer (here (cfg.shared c) (cfg.kind head)) 0 none)
    else none
  | _ => none

/-- `SetResult` of the core has returned. -/
def finished (cfg : Config κ ν) (s : State κ φ ν ρ) (c : κ) : Bool :=
  s.cores.walk c = .finished ∧ (cfg.shared c = true → s.given c = 3)

/-- The call `m` returns to who called it. -/
def leave (s : State κ φ ν ρ) (m : ν) (c : κ) : Caller φ → Option (State κ φ ν ρ)
  | .producer =>
    match s.cores.walk c with
    | .call _ next => some { s with cores := s.cores.pop c next }
    | _ => none
  | .user f => some { s with users := Function.update s.users f ((s.users f).erase m) }
  | .self => some s

def act (cfg : Config κ ν) (s : State κ φ ν ρ) (m : ν) : Option (Except Fault (State κ φ ν ρ)) :=
  match s.call m with
  | .running c caller (a :: rest) ref value =>
    let goOn (t : State κ φ ν ρ) := setCall t m (.running c caller rest ref value)
    match a with
    | .getRef =>
      some do
        check s c
        return setCall s m (.running c caller rest (s.count c) value)
    | .read mode =>
      some do
        let (r, t) ← read s c (mode.moves ref)
        return setCall t m (.running c caller rest ref (some r))
    | .incRef => some ((incRef s c).map goOn)
    | .decRef => some ((decRef s c).map goOn)
    | .decRefIfOne => some (if ref = 1 then (decRef s c).map goOn else .ok (goOn s))
    | .store d =>
      match value with
      | none => some (.error .noResult)
      | some r => some ((store s d r).map goOn)
    | .setResult d => some (.ok (goOn (setPromise s d .stored)))
    | .finish d => if finished cfg s d then some (.ok (goOn s)) else none
    | .ret =>
      (leave s m c caller).map fun t => .ok (setCall t m (.running c .self rest ref value))
  | _ => none

inductive Event (κ φ ν ρ : Type) where
  | make (c : κ) (f : φ)
  | makePromise (c : κ)
  | copy (f g : φ)
  | split (c : κ) (g : φ)
  | drop (f : φ)
  | look (f : φ) (byReady : Bool)
  | attach (m : ν) (f : φ)
  | subsume (m : ν) (c : κ)
  | take (m : ν) (f : φ) (byReady : Bool)
  | set (c : κ) (r : ρ)
  | exchange (c : κ)
  | visit (c : κ)
  | release (c : κ)
  | call (c : κ)
  | act (m : ν)

def exec (cfg : Config κ ν) (s : State κ φ ν ρ) :
    Event κ φ ν ρ → Option (Except Fault (State κ φ ν ρ))
  | .make c f => (make cfg s c f).map .ok
  | .makePromise c => (makePromise cfg s c).map .ok
  | .copy f g => copy cfg s f g
  | .split c g => split cfg s c g
  | .drop f => drop cfg s f
  | .look f byReady => look s f byReady
  | .attach m f => attach cfg s m f
  | .subsume m c => subsume cfg s m c
  | .take m f byReady => (take cfg s m f byReady).map .ok
  | .set c r => set s c r
  | .exchange c => exchange cfg s c
  | .visit c => (visit s c).map .ok
  | .release c => release cfg s c
  | .call c => (callHere cfg s c).map .ok
  | .act m => act cfg s m

/-- The cores, and the undefined behaviour that ended the run. -/
structure Machine (κ φ ν ρ : Type) where
  state : State κ φ ν ρ := {}
  fault : Option Fault := none

/-- Undefined behaviour ends the run. -/
def settle (s : State κ φ ν ρ) : Except Fault (State κ φ ν ρ) → Machine κ φ ν ρ
  | .ok t => { state := t }
  | .error f => { state := s, fault := some f }

def step (cfg : Config κ ν) (m : Machine κ φ ν ρ) (e : Event κ φ ν ρ) :
    Option (Machine κ φ ν ρ) :=
  if m.fault.isSome then none else (exec cfg m.state e).map (settle m.state)

def system (cfg : Config κ ν) : System (Machine κ φ ν ρ) (Event κ φ ν ρ) where
  Init m := m = {}
  step := step cfg

end Yaclib.SharedCore
