import Yaclib.Async.When.Combinator.Slots

/-!
The invariants of a combinator. `Flow` says where the callback of each input is: its
node hangs on a core, or the producer or the thread in `Set` runs it. `Work` counts
what is left to do for the combinator, and `Heap` counts the references of each core.
-/

namespace Yaclib.When.Combinator

open Concurrency

/-- Where the callback of an input is, without what it does. -/
inductive Phase where
  | unset
  | attached
  | running (inline : Bool)
  | done
  deriving DecidableEq

variable {n : Nat} {κ τ R P : Type}

namespace Stage

def phase : Stage κ P R → Phase
  | unset => .unset
  | attached => .attached
  | running inline _ => .running inline
  | done => .done

end Stage

/-- `Consume` of the input has begun. -/
def Phase.started : Phase → Bool
  | unset | attached => false
  | running _ | done => true

namespace Setter

/-- How many inputs `SetCallback` is done for. -/
def passed : Setter n → Nat
  | register i | setCallback i => i
  | inside i => i + 1
  | done => n

/-- How many inputs are registered, where the strategy is `Owned`. -/
def registered : Setter n → Nat
  | register i => i
  | setCallback i | inside i => i + 1
  | done => n

end Setter

namespace Producer

def inHand : Producer n → List Node
  | lastDecRef head | call head _ => [head]
  | _ => []

def head : Producer n → Callback Node → Option Node
  | before, callback => callback.toPtr
  | visit m, _ => some m
  | call _ next, _ | inside _ next, _ => next
  | lastDecRef _, _ | decRef _, _ | finished, _ => none

/-- The places of a producer of a unique core. -/
def Single : Producer n → Prop
  | before | finished => True
  | call _ next | inside _ next => next = none
  | visit _ | lastDecRef _ | decRef _ => False

/-- How many references to its shared core the producer has. -/
def share : Producer n → Nat
  | before | visit _ | lastDecRef _ => 3
  | call _ next | inside _ next => if next.isSome then 3 else 2
  | decRef more => more + 1
  | finished => 0

/-- The producer is through with all callbacks. -/
def Leaving : Producer n → Prop
  | decRef _ | finished => True
  | _ => False

end Producer

variable [DecidableEq κ] [DecidableEq τ] (F : Futures n κ τ R) {S : StrategyClass n R}

namespace State

/-- The links that the producer of the core follows. That of a unique core follows
none. -/
def links (s : State κ S) (c : κ) : Node → Option Node :=
  if F.shared c then s.next else fun _ => none

def phase (s : State κ S) (i : Fin n) : Phase := (s.call i).phase

end State

/-- The list that hangs on a core is linked and made of callbacks of its inputs, and on
a shared core of other threads. -/
structure CoreInv (s : State κ S) (c : κ) : Prop where
  linked : ∃ xs, s.held c = (s.producer c).inHand ++ xs ∧
    Chain (s.links F c) ((s.producer c).head (s.callback c)) xs
  nodup : (s.held c).Nodup
  result : s.callback c = .kResult ↔ s.producer c ≠ .before
  foreigns : ∀ m, .foreign m ∈ s.held c → m < s.foreigns
  ours : ∀ m ∈ s.held c, m.ours = true → ∃ i, F.core i = c ∧ F.node S.kConsumePolicy i = m
  unique : F.shared c = false → (∀ m ∈ s.held c, m.ours = true) ∧ (s.producer c).Single

/-- The callback of an input is where its `phase` says: attached exactly if its node hangs on
its core, called by the producer exactly if that is inside it, and run by `Set` if
`SetCallback` failed. It has started only if the core has its result. -/
structure Flow (s : State κ S) : Prop where
  core : ∀ c, CoreInv F s c
  unset : ∀ i, s.phase i = .unset ↔ s.setter.passed ≤ i
  attached : ∀ i, s.phase i = .attached ↔ F.node S.kConsumePolicy i ∈ s.held (F.core i)
  called : ∀ i, s.phase i = .running false ↔ ∃ next, s.producer (F.core i) = .inside i next
  inlined : ∀ i, s.phase i = .running true ↔ s.setter = .inside i
  own : ∀ c i next, s.producer c = .inside i next → F.core i = c
  completed : ∀ i, (s.phase i).started = true → s.callback (F.core i) = .kResult

namespace Stage

/-- The reference of the input to the combinator is not given back. -/
def counted : Stage κ P R → Nat
  | running _ (.destroy _ _ _) | running _ (.destroyDecRef _ _ _) | done => 0
  | _ => 1

def destroying : Stage κ P R → Nat
  | running _ (.destroy _ _ _) | running _ (.destroyDecRef _ _ _) => 1
  | _ => 0

/-- How many of `_cores` the destructor is through with. -/
def freed : Stage κ P R → Nat
  | running _ (.destroy _ j _) | running _ (.destroyDecRef j _ _) => j
  | _ => 0

/-- A `Managed` strategy has given back the reference to the core. -/
def released : Stage κ P R → Nat
  | unset | attached | running _ (.retire _) | running _ (.retireDecRef _ _)
  | running _ .decRefCore => 0
  | _ => 1

end Stage

variable (S) in

/-- What a callback knows at each place: the index that it was given, and the result of its
own input. -/
def BodyInv (f : S.Fields) (i : Fin n) : Body κ S.Place R → Prop
  | .retire index => S.kConsumePolicy ≠ .None ∧ ¬S.Owned ∧ index = S.argument i
  | .retireDecRef index r => S.kConsumePolicy ≠ .None ∧ ¬S.Owned ∧ index = S.argument i ∧
      r = F.result (F.core i)
  | .decRefCore => S.kConsumePolicy = .None ∧ ¬S.Owned
  | .inside index r _ => S.kConsumePolicy ≠ .None ∧ index = S.argument i ∧
      r = if S.Owned then none else some (F.result (F.core i))
  | .decRef => True
  | .destroy retires j output => retires = S.retires f ∧ if S.Owned then
      j ≤ n ∧ output = (if retires then F.results.take j else [])
      else j = n ∧ output = []
  | .destroyDecRef j c output => S.Owned ∧ S.retires f = true ∧ (∃ h : j < n, c = F.core ⟨j, h⟩) ∧
      output = F.results.take (j + 1)

namespace State

/-- How many of `_cores` the destructor is through with, or was. -/
def freed (s : State κ S) : Nat := n * s.destroyed + tally Stage.freed s.call

end State

/-- The count of the combinator is the number of inputs whose reference is not given back,
and the destructor runs once, when it is zero. An input is consumed once, with its own index,
and an `Owned` strategy has the cores of the inputs that are registered. -/
structure Work (s : State κ S) : Prop where
  count_eq : s.count = tally Stage.counted s.call
  destroyed_eq : s.destroyed + tally Stage.destroying s.call = if s.count = 0 then 1 else 0
  calls_eq : ∀ i, s.calls i = if (s.phase i).started then [S.argument i] else []
  registered : S.Owned → ∀ i : Fin n, i < s.setter.registered → s.cores i = some (F.core i)
  body : ∀ i inline b, s.call i = .running inline b → BodyInv F S s.fields i b
  released_eq : ∀ i, s.released i =
    if S.Owned then if i < s.freed then 1 else 0 else (s.call i).released

/-- The reference of the input to its core is not given back. -/
def holds (c : κ) (p : κ × Nat) : Nat := if p.1 = c ∧ p.2 = 0 then 1 else 0

namespace State

def holders (s : State κ S) (c : κ) : Nat := tally (holds c) fun i => (F.core i, s.released i)

/-- The callback of an input has read the result for the last time and is about to give
back the reference. -/
def Retiring (s : State κ S) (i : Fin n) : Prop :=
  (∃ inline index r, s.call i = .running inline (.retireDecRef index r)) ∨
    ∃ k inline c output, s.call k = .running inline (.destroyDecRef i c output)

/-- Nobody can read the result of the core any more. -/
structure Spent (s : State κ S) (c : κ) : Prop where
  others : F.shared c = true → s.kept c = 0 ∧ (s.producer c).Leaving
  inputs : ∀ i, F.core i = c → s.released i ≠ 0 ∨ s.Retiring i

end State

/-- A core is referred to by the inputs that have not released it, by its producer and by the
futures that other threads keep. A result that was moved away can be read by nobody any more.
-/
structure Heap (s : State κ S) : Prop where
  refs_eq : ∀ c, s.refs c =
    s.holders F c + if F.shared c then (s.producer c).share + s.kept c else 0
  kept_unique : ∀ c, F.shared c = false → s.kept c = 0
  fresh : ∀ c, s.content c ≠ F.result c → s.Spent F c

/-- The invariant of the combinators, over any strategy: nothing of it depends on what
`Consume` does to the fields. -/
structure Inv (s : State κ S) : Prop where
  flow : Flow F s
  work : Work F s
  heap : Heap F s
  dangling : s.dangling = false

end Yaclib.When.Combinator
