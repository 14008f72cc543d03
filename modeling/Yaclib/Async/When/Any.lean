import Mathlib.Data.BitVec
import Yaclib.Async.When.Strategy

/-!
The strategies of `WhenAny`, `when::Any` of `async/when/any.hpp`, one for each
`FailPolicy`. `Consume` is one step for each atomic operation, and one for what it
does to the promise or to the stored error. `result i` is the `Result` of the
input `i`, as the output has it.

Left out is how a value is converted to the output. That the combinators run these strategies
is in `Async.When.WhenAny`.
-/

namespace Yaclib.When

open Concurrency

def ok {ε α : Type} : Except ε α → Bool
  | .ok _ => true
  | .error _ => false

namespace Any

variable {ι ε α : Type} [DecidableEq ι] (result : ι → Except ε α)

/-! ### FailPolicy::LastFail -/

namespace LastFail

/-- `_state`, what `_p` was set to, and two ghosts: the inputs that did the
exchange and those that did `fetch_sub`, in order. -/
structure Fields (ι ε α : Type) where
  state : BitVec 64
  sets : List (Except ε α) := []
  exchanges : List ι := []
  subs : List ι := []

inductive Place (ε α : Type) where
  | load
  | exchange
  | fetchSub
  /-- `std::move(_p).Set(..)` -/
  | set (r : Except ε α)

def doneImpl (value : BitVec 64) : Bool :=
  value &&& 1 != 0

def consume (i : ι) (f : Fields ι ε α) : Place ε α → Fields ι ε α × Option (Place ε α)
  | .load =>
    (f, if doneImpl f.state then none else some (if ok (result i) then .exchange else .fetchSub))
  | .exchange =>
    ({ f with state := 1, exchanges := f.exchanges ++ [i] },
      if doneImpl f.state then none else some (.set (result i)))
  | .fetchSub =>
    ({ f with state := f.state - 2, subs := f.subs ++ [i] },
      if f.state = 2 then some (.set (result i)) else none)
  | .set r => ({ f with sets := f.sets ++ [r] }, none)

/-- The destructor does nothing. -/
def strategy : Strategy ι where
  Fields := Fields ι ε α
  Place := Place ε α
  start := .load
  consume := consume result
  destroy f := f

/-- `Any(std::size_t count, PromiseType p)` -/
def init (count : Nat) : Fields ι ε α where
  state := BitVec.ofNat 64 (2 * count)

end LastFail

/-! ### FailPolicy::FirstFail -/

namespace FirstFail

/-- `_state`, the union `_error` (`none` is `stub`), what `_p` was set to, and
ghosts: the inputs that did `fetch_or(kValue)` and `fetch_or(kError)`, in order,
how often the error was constructed and destroyed, and whether it was read or
destroyed while it was not there. -/
structure Fields (ι ε α : Type) where
  state : BitVec 8 := 0
  error : Option ε := none
  sets : List (Except ε α) := []
  values : List ι := []
  errors : List ι := []
  constructed : Nat := 0
  destroyed : Nat := 0
  bad : Bool := false

def kEmpty : BitVec 8 := 0
def kValue : BitVec 8 := 1
def kError : BitVec 8 := 2

inductive Place (ε α : Type) where
  | load
  | orValue
  | orError
  | set (r : Except ε α)
  /-- `::new (&_error.error) Error{..}` -/
  | construct (e : ε)

def consume (i : ι) (f : Fields ι ε α) : Place ε α → Fields ι ε α × Option (Place ε α)
  | .load =>
    (f, match result i with
      | .ok _ => if f.state &&& kValue = 0 then some .orValue else none
      | .error _ => if f.state = kEmpty then some .orError else none)
  | .orValue =>
    ({ f with state := f.state ||| kValue, values := f.values ++ [i] },
      if f.state &&& kValue = 0 then some (.set (result i)) else none)
  | .orError =>
    ({ f with state := f.state ||| kError, errors := f.errors ++ [i] },
      match result i with
      | .ok _ => none
      | .error e => if f.state &&& kError = 0 then some (.construct e) else none)
  | .set r => ({ f with sets := f.sets ++ [r] }, none)
  | .construct e => ({ f with error := some e, constructed := f.constructed + 1 }, none)

/-- `std::move(_p).Set(std::move(_error.error))` -/
def setError (f : Fields ι ε α) : Fields ι ε α :=
  match f.error with
  | some e => { f with sets := f.sets ++ [.error e] }
  | none => { f with bad := true }

/-- `_error.error.~Error()` -/
def destroyError (f : Fields ι ε α) : Fields ι ε α :=
  match f.error with
  | some _ => { f with error := none, destroyed := f.destroyed + 1 }
  | none => { f with bad := true }

/-- `~Any()`. The promise is valid until it is set. -/
def destroy (f : Fields ι ε α) : Fields ι ε α :=
  let state := f.state
  let f := if f.sets.isEmpty then setError f else f
  if state &&& kError != 0 then destroyError f else f

def strategy : Strategy ι where
  Fields := Fields ι ε α
  Place := Place ε α
  start := .load
  consume := consume result
  destroy := destroy

end FirstFail

/-! ### FailPolicy::None -/

namespace None

/-- `_done`, what `_p` was set to, and the inputs that did the exchange. -/
structure Fields (ι ε α : Type) where
  done : Bool := false
  sets : List (Except ε α) := []
  exchanges : List ι := []

inductive Place (ε α : Type) where
  | load
  | exchange
  | set (r : Except ε α)

def consume (i : ι) (f : Fields ι ε α) : Place ε α → Fields ι ε α × Option (Place ε α)
  | .load => (f, if f.done then none else some .exchange)
  | .exchange =>
    ({ f with done := true, exchanges := f.exchanges ++ [i] },
      if f.done then none else some (.set (result i)))
  | .set r => ({ f with sets := f.sets ++ [r] }, none)

def strategy : Strategy ι where
  Fields := Fields ι ε α
  Place := Place ε α
  start := .load
  consume := consume result
  destroy f := f

end None

end Any

end Yaclib.When
