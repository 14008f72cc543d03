import Mathlib.Logic.Function.Basic

/-!
The word `_callback` of `detail::BaseCore`, of `algo/detail/base_core.hpp`, and the
compare-and-swap with which `SetCallbackImpl<true>` hangs a callback on it.
-/

namespace Yaclib

/-- The values of `_callback`, where `ν` are the `InlineCore` objects. -/
inductive Callback (ν : Type) where
  | kResult
  /-- `reinterpret_cast` of an `InlineCore*` -/
  | ptr (p : Option ν)
  deriving DecidableEq

namespace Callback

variable {ν : Type}

/-- The word 0 is the null pointer. -/
def kEmpty : Callback ν := .ptr none

def toPtr : Callback ν → Option ν
  | kResult => none
  | ptr p => p

@[simp] theorem toPtr_kResult : (kResult : Callback ν).toPtr = none := rfl
@[simp] theorem toPtr_ptr (p : Option ν) : (ptr p).toPtr = p := rfl

/-- How a round of the loop of `SetCallbackImpl<true>` ends: it is over with the callback in
the word, or because of the result, or it starts again from another head of the list. -/
inductive Round (ν : Type) where
  | attached
  | refused
  | again (expected : Option ν)

/-- The weak compare-and-swap of the loop; `weak`: it fails spuriously. -/
def round [DecidableEq ν] (callback : Callback ν) (expected : Option ν) (weak : Bool) : Round ν :=
  if callback = .ptr expected ∧ weak = false then .attached
  else
    match callback with
    | kResult => .refused
    | ptr p => .again p

section Round

variable [DecidableEq ν] {callback : Callback ν} {expected p : Option ν} {weak : Bool}

/-- The swap succeeds on the word that was expected. -/
theorem eq_of_attached (h : callback.round expected weak = .attached) :
    callback = .ptr expected := by
  unfold round at h
  split at h
  · next hswap => exact hswap.1
  · cases callback <;> cases h

/-- `SetCallback` fails only for a result. -/
theorem eq_of_refused (h : callback.round expected weak = .refused) : callback = .kResult := by
  unfold round at h
  split at h
  · cases h
  · cases callback with
    | kResult => rfl
    | ptr q => cases h

end Round

end Callback

end Yaclib
