import Yaclib.Async.When.Done

/-!
The strategies of `WhenAll` and `Join`: `when::All` of `async/when/all.hpp`, `when::AllTuple`
of `async/when/all_tuple.hpp` and `when::Join` of `async/when/join.hpp`, each with
`FailPolicy::None` and with `FailPolicy::FirstFail`.

All inputs have values of one type here, those of a tuple too, and how a value is converted
to the output is left out.
-/

namespace Yaclib.When

open Concurrency

variable {n : Nat} {κ τ ε α : Type}

/-! ### when::All -/

namespace All

/-- `FailPolicy::None`: the fields are what `_p` was set to. -/
def None.strategyClass : StrategyClass n (Except ε α) where
  kConsumePolicy := .None
  kCorePolicy := .Owned
  Fields := List (Except ε (List (Except ε α)))
  Place := Unit
  start := ()
  consume _ _ _ f _ := (f, none)
  retires _ := true
  destroy output f := f ++ [.ok output]

def values (output : List (Except ε α)) : Option (List α) := output.mapM Except.toOption

/-- `FailPolicy::FirstFail`: with a valid promise the destructor reads the values, else it
only gives back the cores. -/
def FirstFail.strategyClass : StrategyClass n (Except ε α) :=
  When.FirstFail.strategyClass .Unordered .Owned (fun _ _ (own : Unit) => own)
    (When.FirstFail.closing fun output _ => values output)

end All

/-! ### when::AllTuple -/

namespace AllTuple

/-- `std::get<Index>(_tuple) = v`. An element is `none` until then. -/
def put {γ : Type} (index : Option Nat) (v : γ) (tuple : Fin n → Option γ) : Fin n → Option γ :=
  match index with
  | some k => if h : k < n then Function.update tuple ⟨k, h⟩ (some v) else tuple
  | none => tuple

/-- `_tuple`, and what `_p` was set to. -/
structure Fields (n : Nat) (ε α : Type) where
  tuple : Fin n → Option (Except ε α) := fun _ => none
  sets : List (Except ε (Fin n → Option (Except ε α))) := []

def None.strategyClass : StrategyClass n (Except ε α) where
  kConsumePolicy := .Static
  kCorePolicy := .Managed
  Fields := Fields n ε α
  Place := Unit
  start := ()
  consume _ index r f _ := ({ f with tuple := put index r f.tuple }, none)
  retires _ := false
  destroy _ f := { f with sets := f.sets ++ [.ok f.tuple] }

/-- `FailPolicy::FirstFail`, with `_tuple` beside the race. -/
def FirstFail.strategyClass : StrategyClass n (Except ε α) :=
  When.FirstFail.strategyClass .Static .Managed put
    (When.FirstFail.closing fun _ (tuple : Fin n → Option α) => some tuple)

end AllTuple

/-! ### when::Join -/

namespace Join

/-- `FailPolicy::None`: the fields are what `_p` was set to. -/
def None.strategyClass : StrategyClass n (Except ε α) where
  kConsumePolicy := .None
  kCorePolicy := .Managed
  Fields := List (Except ε Unit)
  Place := Unit
  start := ()
  consume _ _ _ f _ := (f, none)
  retires _ := false
  destroy _ f := f ++ [.ok ()]

def FirstFail.strategyClass : StrategyClass n (Except ε α) :=
  When.FirstFail.strategyClass .Unordered .Managed (fun _ _ (own : Unit) => own)
    (When.FirstFail.closing fun _ _ => some ())

end Join

end Yaclib.When
