import Yaclib.Concurrency.Ledger
import Yaclib.Concurrency.Refinement
import Mathlib.Data.BitVec

/-!
`UniqueGuard`, `SharedGuard` and `StickyGuard` of `coro/guard.hpp` and `coro/guard_sticky.hpp`,
over the packed word of `coro/detail/guard_state.hpp`: any number of guards on any number of
mutexes. They refine guards that each hold a mutex and at most one of its acquisitions.

The mutexes are left out: an operation says what they answer. A call of a guard is one step,
from its first statement to the end of its await.
-/

namespace Yaclib.Guard

open Concurrency

/-! ### `GuardState` -/

/-- `std::uintptr_t` -/
abbrev Word := BitVec 64

def kMask : Word := ~~~1#64

/-- Where a mutex is: its alignment leaves the low bit free, and it is not at null. -/
structure Address where
  val : Word
  aligned : val &&& 1#64 = 0#64
  nonnull : val ≠ 0#64
  deriving DecidableEq

namespace GuardState

def make (p : Word) (owns : Bool) : Word := p ||| (if owns then 1#64 else 0#64)

def ptr (state : Word) : Word := state &&& kMask

def owns (state : Word) : Bool := state &&& 1#64 ≠ 0#64

/-- The new word and `Ptr()`. What `YACLIB_DEBUG` finds is only logged. -/
def lockState (state : Word) : Word × Word :=
  let state := state ||| 1#64
  (state, ptr state)

def unlockState (state : Word) : Word × Word :=
  let state := state &&& kMask
  (state, ptr state)

def releaseState (state : Word) : Word × Word := (0#64, ptr state)

/-- The word of a guard on `m`, or on no mutex. -/
def encode (m : Option Address) (owns : Bool) : Word := make (m.elim 0#64 Address.val) owns

section

variable {m : Option Address} {a : Word} {b : Bool}

/-- An aligned address has no low bit. -/
theorem low_bit (h : a &&& 1#64 = 0#64) : a.getLsbD 0 = false := by
  have hbit := congrArg (fun x => x.getLsbD 0) h
  simpa using hbit

theorem and_kMask (h : a &&& 1#64 = 0#64) : a &&& kMask = a := by
  apply BitVec.eq_of_getLsbD_eq
  intro i hi
  rw [kMask, BitVec.getLsbD_and, BitVec.getLsbD_not, BitVec.getLsbD_one]
  by_cases hzero : i = 0
  · subst hzero
    rw [low_bit h, Bool.false_and]
  · simp [hzero, hi]

theorem or_and_kMask (h : a &&& 1#64 = 0#64) : (a ||| 1#64) &&& kMask = a := by
  have hone : 1#64 &&& kMask = 0#64 := by decide
  rw [BitVec.and_comm, BitVec.and_or_distrib_left, BitVec.and_comm kMask a, and_kMask h,
    BitVec.and_comm kMask, hone, BitVec.or_zero]

theorem or_and_one (h : a &&& 1#64 = 0#64) : (a ||| 1#64) &&& 1#64 = 1#64 := by
  rw [BitVec.and_comm, BitVec.and_or_distrib_left, BitVec.and_comm 1#64 a, h, BitVec.and_self,
    BitVec.zero_or]

/-- The pointer in a guard is aligned, or null. -/
theorem elim_aligned (m : Option Address) : m.elim 0#64 Address.val &&& 1#64 = 0#64 := by
  cases m with
  | none => rfl
  | some m => exact m.aligned

theorem encode_true : encode m true = m.elim 0#64 Address.val ||| 1#64 := rfl

theorem encode_false : encode m false = m.elim 0#64 Address.val := BitVec.or_zero

theorem ptr_encode : ptr (encode m b) = m.elim 0#64 Address.val := by
  cases b with
  | false => rw [ptr, encode_false, and_kMask (elim_aligned m)]
  | true => rw [ptr, encode_true, or_and_kMask (elim_aligned m)]

theorem owns_encode : owns (encode m b) = b := by
  cases b with
  | false => simp [owns, encode_false, elim_aligned m]
  | true => simp [owns, encode_true, or_and_one (elim_aligned m)]

theorem lockState_encode :
    lockState (encode m false) = (encode m true, m.elim 0#64 Address.val) := by
  have hword : encode m false ||| 1#64 = encode m true := by rw [encode_false, encode_true]
  simp only [lockState, hword, ptr_encode]

/-- The mask takes the owned bit away. -/
theorem encode_and_kMask : encode m b &&& kMask = encode m false := by
  rw [encode_false]
  exact ptr_encode

theorem unlockState_encode :
    unlockState (encode m true) = (encode m false, m.elim 0#64 Address.val) := by
  simp only [unlockState, encode_and_kMask, ptr_encode]

theorem releaseState_encode :
    releaseState (encode m b) = (encode none false, m.elim 0#64 Address.val) := by
  rw [releaseState, ptr_encode]
  rfl

end

end GuardState

/-! ### The guards -/

inductive Kind where
  | unique
  | shared
  | sticky
  deriving DecidableEq

def Kind.isShared : Kind → Bool
  | .shared => true
  | _ => false

/-- `_state`, and `_executor` of a sticky guard, which is null in the others. -/
structure Object (ε : Type) where
  state : Word
  executor : Option ε

/-- The calls of the mutex at `m`, or of its `Shared` half. -/
inductive Call (ε : Type) where
  | lock (m : Word) (shared : Bool)
  | tryLock (m : Word) (shared ok : Bool)
  | unlock (m : Word) (shared : Bool)
  | unlockOn (m : Word) (shared : Bool) (e : ε)
  | unlockHere (m : Word) (shared : Bool)
  deriving DecidableEq

inductive Output (ε : Type) where
  | none
  | call (c : Call ε)
  | pointer (m : Word)
  | flag (b : Bool)
  deriving DecidableEq

/-- The calls. `ok` is what the mutex answers; `waited` is the executor of the coroutine, when
it had to wait for the lock. `swapBase` is `Swap` of the common base class. -/
inductive Op (γ ε : Type) where
  | construct (g : γ)
  | defer (g : γ) (m : Address)
  | tryTo (g : γ) (m : Address) (ok : Bool)
  | adopt (g : γ) (m : Address)
  | guardSticky (g : γ) (m : Address) (waited : Option ε)
  | moveConstruct (g h : γ)
  | moveAssign (g h : γ)
  | swap (g h : γ)
  | swapBase (g h : γ)
  | release (g : γ)
  | lock (g : γ) (waited : Option ε)
  | tryLock (g : γ) (ok : Bool)
  | unlock (g : γ)
  | unlockOn (g : γ) (e : ε)
  | unlockHere (g : γ)
  | mutex (g : γ)
  | ownsLock (g : γ)
  | destruct (g : γ)

variable {γ ε : Type}

section

variable [DecidableEq γ]

/-- The guards that are constructed; `none` is the one in `GuardStickyAwaiter`. -/
abbrev State (γ ε : Type) := Option γ → Option (Object ε)

namespace State

def put (s : State γ ε) (g : Option γ) (x : Option (Object ε)) : State γ ε :=
  Function.update s g x

/-- `GuardState(GuardState&&)`, and the same of `_executor`. -/
def moveConstruct (s : State γ ε) (g h : Option γ) : Option (State γ ε) := do
  let other ← s h
  let s := s.put g (some other)
  return s.put h (some { other with state := other.state &&& kMask })

/-- `StickyGuard::Swap`; it is `Guard::Swap` where `_executor` is null. -/
def swap (s : State γ ε) (g h : Option γ) : Option (State γ ε) := do
  let this ← s g
  let other ← s h
  return (s.put g (some other)).put h (some this)

def swapBase (s : State γ ε) (g h : Option γ) : Option (State γ ε) := do
  let this ← s g
  let other ← s h
  let s := s.put g (some { this with state := other.state })
  let other ← s h
  return s.put h (some { other with state := this.state })

def deref (m : Word) : Option Word := if m = 0#64 then none else some m

/-- `Lock`, awaited. `LockStickyAwaiter` keeps the executor of a coroutine that has to wait. -/
def lock (kind : Kind) (s : State γ ε) (g : Option γ) (waited : Option ε) :
    Option (State γ ε × Output ε) := do
  let x ← s g
  let (state, p) := GuardState.lockState x.state
  let m ← deref p
  match kind with
  | .sticky => return (s.put g (some ⟨state, waited⟩), .call (.lock m false))
  | _ => return (s.put g (some { x with state := state }), .call (.lock m kind.isShared))

def tryLock (kind : Kind) (s : State γ ε) (g : Option γ) (ok : Bool) :
    Option (State γ ε × Output ε) := do
  let x ← s g
  let (state, p) := GuardState.lockState x.state
  let m ← deref p
  if ok then return (s.put g (some { x with state := state }), .call (.tryLock m kind.isShared ok))
  let (state, _) := GuardState.unlockState state
  return (s.put g (some { x with state := state }), .call (.tryLock m kind.isShared ok))

/-- `UnlockState`, and then `call` of the mutex. -/
def unlockWith (s : State γ ε) (g : Option γ) (call : Object ε → Word → Call ε) :
    Option (State γ ε × Output ε) := do
  let x ← s g
  let (state, p) := GuardState.unlockState x.state
  let m ← deref p
  return (s.put g (some { x with state := state }), .call (call x m))

/-- What `Unlock` calls. `UnlockStickyAwaiter` goes to `_executor`, if there is one. -/
def unlockCall (kind : Kind) (executor : Option ε) (m : Word) : Call ε :=
  match kind, executor with
  | .sticky, none => .unlockHere m false
  | .sticky, some e => .unlockOn m false e
  | _, _ => .unlock m kind.isShared

def unlock (kind : Kind) (s : State γ ε) (g : Option γ) : Option (State γ ε × Output ε) :=
  s.unlockWith g fun x m => unlockCall kind x.executor m

def unlockOn (kind : Kind) (s : State γ ε) (g : Option γ) (e : ε) :
    Option (State γ ε × Output ε) :=
  s.unlockWith g fun _ m => .unlockOn m kind.isShared e

def unlockHere (kind : Kind) (s : State γ ε) (g : Option γ) : Option (State γ ε × Output ε) :=
  s.unlockWith g fun _ m => .unlockHere m kind.isShared

def release (s : State γ ε) (g : Option γ) : Option (State γ ε × Output ε) := do
  let x ← s g
  let (state, m) := GuardState.releaseState x.state
  return (s.put g (some { x with state := state }), .pointer m)

def destruct (kind : Kind) (s : State γ ε) (g : Option γ) : Option (State γ ε × Output ε) := do
  let x ← s g
  if GuardState.owns x.state then
    let (s, o) ← s.unlockHere kind g
    return (s.put g none, o)
  return (s.put g none, .none)

/-- `GuardStickyAwaiter`: its guard owns the lock from the start, and is moved out of it when
the lock is there. -/
def guardSticky (s : State γ ε) (g : Option γ) (m : Address) (waited : Option ε) :
    Option (State γ ε × Output ε) := do
  let s := s.put none (some ⟨GuardState.make m.val true, none⟩)
  let x ← s none
  let locked ← deref (GuardState.ptr x.state)
  let s := s.put none (some { x with executor := waited })
  let s ← s.moveConstruct g none
  let (s, _) ← s.destruct .sticky none
  return (s, .call (.lock locked false))

end State

/-- `kind` is the class of every guard. -/
def exec (kind : γ → Kind) (s : State γ ε) : Op γ ε → Option (State γ ε × Output ε)
  | .construct g => some (s.put (some g) (some ⟨0#64, none⟩), .none)
  | .defer g m => some (s.put (some g) (some ⟨GuardState.make m.val false, none⟩), .none)
  | .tryTo g m ok => some (s.put (some g) (some ⟨GuardState.make m.val ok, none⟩),
      .call (.tryLock m.val (kind g).isShared ok))
  | .adopt g m => some (s.put (some g) (some ⟨GuardState.make m.val true, none⟩), .none)
  | .guardSticky g m waited => s.guardSticky (some g) m waited
  | .moveConstruct g h => (s.moveConstruct (some g) (some h)).map fun s => (s, .none)
  | .moveAssign g h | .swap g h => (s.swap (some g) (some h)).map fun s => (s, .none)
  | .swapBase g h => (s.swapBase (some g) (some h)).map fun s => (s, .none)
  | .release g => s.release (some g)
  | .lock g waited => s.lock (kind g) (some g) waited
  | .tryLock g ok => s.tryLock (kind g) (some g) ok
  | .unlock g => s.unlock (kind g) (some g)
  | .unlockOn g e => s.unlockOn (kind g) (some g) e
  | .unlockHere g => s.unlockHere (kind g) (some g)
  | .mutex g => (s (some g)).map fun x => (s, .pointer (GuardState.ptr x.state))
  | .ownsLock g => (s (some g)).map fun x => (s, .flag (GuardState.owns x.state))
  | .destruct g => s.destruct (kind g) (some g)

/-- An object is made where there is none, and guards of one class are moved and swapped. -/
def wellFormed (kind : γ → Kind) (s : State γ ε) : Op γ ε → Bool
  | .construct g | .defer g _ | .tryTo g _ _ | .adopt g _ => (s (some g)).isNone
  | .guardSticky g _ _ => kind g = .sticky && (s (some g)).isNone
  | .moveConstruct g h => kind g = kind h && (s (some g)).isNone
  | .moveAssign g h | .swap g h => kind g = kind h
  | .swapBase g h => (kind g).isShared = (kind h).isShared
  | _ => true

/-- The checks of `LockState` and `UnlockState`. -/
def debug (s : State γ ε) : Op γ ε → Bool
  | .lock g _ | .tryLock g _ => (s (some g)).all fun x => !GuardState.owns x.state
  | .unlock g | .unlockOn g _ | .unlockHere g => (s (some g)).all fun x => GuardState.owns x.state
  | _ => true

/-! ### What the guards are for -/

/-- The mutex of a guard, if it has one, with the acquisition that it holds, if it does. -/
structure Grip (ε : Type) where
  place : Option (Address × Option Nat)
  executor : Option ε

namespace Grip

variable (x : Grip ε)

def mutex : Option Address := x.place.map Prod.fst

def token : Option Nat := x.place.bind Prod.snd

def object : Object ε := ⟨GuardState.encode x.mutex x.token.isSome, x.executor⟩

end Grip

/-- The acquisitions are numbered; `acquired` says on which mutex each was made, and whether
it is a shared one. `unlocked` are those that were unlocked, with the mutex that was called. -/
structure Grips (γ ε : Type) where
  grip : γ → Option (Grip ε)
  acquired : List (Address × Bool)
  unlocked : List (Nat × Word × Bool)
  handedOut : List Nat

namespace Grips

def start : Grips γ ε := ⟨fun _ => none, [], [], []⟩

def put (A : Grips γ ε) (g : γ) (x : Option (Grip ε)) : Grips γ ε :=
  { A with grip := Function.update A.grip g x }

def acquire (A : Grips γ ε) (g : γ) (m : Address) (shared : Bool) (executor : Option ε) :
    Grips γ ε :=
  { A.put g (some ⟨some (m, some A.acquired.length), executor⟩) with
    acquired := A.acquired ++ [(m, shared)] }

/-- The acquisition `v`, made on `m`, is unlocked, and its guard becomes `x`. -/
def unlock (A : Grips γ ε) (g : γ) (x : Option (Grip ε)) (v : Nat) (m : Address) (shared : Bool) :
    Grips γ ε :=
  { A.put g x with unlocked := A.unlocked ++ [(v, m.val, shared)] }

def release (A : Grips γ ε) (g : γ) (x : Grip ε) : Grips γ ε :=
  { A.put g (some ⟨none, x.executor⟩) with handedOut := A.handedOut ++ x.token.toList }

/-- The acquisition that a guard holds. -/
def token (A : Grips γ ε) (g : γ) : Option Nat := (A.grip g).bind Grip.token

end Grips

/-- What the calls do to the guards, and when they may be made: a guard is locked when it is
on a mutex and holds nothing, and is unlocked when it holds an acquisition. -/
inductive Spec (kind : γ → Kind) (A : Grips γ ε) : Op γ ε → Grips γ ε → Output ε → Prop
  | construct {g : γ} : A.grip g = none →
      Spec kind A (.construct g) (A.put g (some ⟨none, none⟩)) .none
  | defer {g : γ} {m : Address} : A.grip g = none →
      Spec kind A (.defer g m) (A.put g (some ⟨some (m, none), none⟩)) .none
  | tryTo {g : γ} {m : Address} : A.grip g = none →
      Spec kind A (.tryTo g m true) (A.acquire g m (kind g).isShared none)
        (.call (.tryLock m.val (kind g).isShared true))
  | tryTo_failed {g : γ} {m : Address} : A.grip g = none →
      Spec kind A (.tryTo g m false) (A.put g (some ⟨some (m, none), none⟩))
        (.call (.tryLock m.val (kind g).isShared false))
  | adopt {g : γ} {m : Address} : A.grip g = none →
      Spec kind A (.adopt g m) (A.acquire g m (kind g).isShared none) .none
  | guardSticky {g : γ} {m : Address} {waited : Option ε} : kind g = .sticky → A.grip g = none →
      Spec kind A (.guardSticky g m waited) (A.acquire g m false waited)
        (.call (.lock m.val false))
  | moveConstruct {g h : γ} {x : Grip ε} : kind g = kind h → A.grip g = none →
      A.grip h = some x → Spec kind A (.moveConstruct g h)
        ((A.put g (some x)).put h (some ⟨x.mutex.map fun m => (m, none), x.executor⟩)) .none
  | moveAssign {g h : γ} {x y : Grip ε} : kind g = kind h → A.grip g = some x →
      A.grip h = some y →
      Spec kind A (.moveAssign g h) ((A.put g (some y)).put h (some x)) .none
  | swap {g h : γ} {x y : Grip ε} : kind g = kind h → A.grip g = some x → A.grip h = some y →
      Spec kind A (.swap g h) ((A.put g (some y)).put h (some x)) .none
  | swapBase {g h : γ} {x y : Grip ε} : (kind g).isShared = (kind h).isShared →
      A.grip g = some x → A.grip h = some y → Spec kind A (.swapBase g h)
        ((A.put g (some ⟨y.place, x.executor⟩)).put h (some ⟨x.place, y.executor⟩)) .none
  | release {g : γ} {x : Grip ε} : A.grip g = some x →
      Spec kind A (.release g) (A.release g x) (.pointer (x.mutex.elim 0#64 Address.val))
  | lock {g : γ} {m : Address} {e waited : Option ε} : A.grip g = some ⟨some (m, none), e⟩ →
      Spec kind A (.lock g waited)
        (A.acquire g m (kind g).isShared (if kind g = .sticky then waited else e))
        (.call (.lock m.val (kind g).isShared))
  | tryLock {g : γ} {m : Address} {e : Option ε} : A.grip g = some ⟨some (m, none), e⟩ →
      Spec kind A (.tryLock g true) (A.acquire g m (kind g).isShared e)
        (.call (.tryLock m.val (kind g).isShared true))
  | tryLock_failed {g : γ} {m : Address} {e : Option ε} : A.grip g = some ⟨some (m, none), e⟩ →
      Spec kind A (.tryLock g false) A (.call (.tryLock m.val (kind g).isShared false))
  | unlock {g : γ} {m : Address} {v : Nat} {e : Option ε} :
      A.grip g = some ⟨some (m, some v), e⟩ → Spec kind A (.unlock g)
        (A.unlock g (some ⟨some (m, none), e⟩) v m (kind g).isShared)
        (.call (State.unlockCall (kind g) e m.val))
  | unlockOn {g : γ} {m : Address} {v : Nat} {e : Option ε} {e' : ε} :
      A.grip g = some ⟨some (m, some v), e⟩ → Spec kind A (.unlockOn g e')
        (A.unlock g (some ⟨some (m, none), e⟩) v m (kind g).isShared)
        (.call (.unlockOn m.val (kind g).isShared e'))
  | unlockHere {g : γ} {m : Address} {v : Nat} {e : Option ε} :
      A.grip g = some ⟨some (m, some v), e⟩ → Spec kind A (.unlockHere g)
        (A.unlock g (some ⟨some (m, none), e⟩) v m (kind g).isShared)
        (.call (.unlockHere m.val (kind g).isShared))
  | mutex {g : γ} {x : Grip ε} : A.grip g = some x →
      Spec kind A (.mutex g) A (.pointer (x.mutex.elim 0#64 Address.val))
  | ownsLock {g : γ} {x : Grip ε} : A.grip g = some x →
      Spec kind A (.ownsLock g) A (.flag x.token.isSome)
  | destruct {g : γ} {x : Grip ε} : A.grip g = some x → x.token = none →
      Spec kind A (.destruct g) (A.put g none) .none
  | destruct_owner {g : γ} {m : Address} {v : Nat} {e : Option ε} :
      A.grip g = some ⟨some (m, some v), e⟩ → Spec kind A (.destruct g)
        (A.unlock g none v m (kind g).isShared) (.call (.unlockHere m.val (kind g).isShared))

end

/-! ### The words refine the guards -/

/-- The guards that the code has. -/
def objects (f : γ → Option (Grip ε)) : State γ ε
  | none => none
  | some g => (f g).map Grip.object

section

variable {f : γ → Option (Grip ε)} {g h : γ} {x y : Grip ε} {m : Address} {e : Option ε} {v : Nat}
  {kind : γ → Kind}

/-- A guard is encoded in its own object. -/
theorem objects_eq (hg : f g = some x) : objects f (some g) = some x.object := by
  rw [objects, hg, Option.map_some]

theorem free_of_isNone (h : (objects f (some g)).isNone) : f g = none := by
  simpa [objects] using h

theorem exists_grip (h : objects f (some g) ≠ none) : ∃ x, f g = some x := by
  rw [← Option.ne_none_iff_exists']
  intro hnone
  rw [objects, hnone] at h
  exact h rfl

/-- A guard that owns nothing, and is not at null, is on a mutex. -/
theorem exists_idle (hg : f g = some x) (hplace : x.place ≠ none)
    (hdebug : (objects f (some g)).all fun x => !GuardState.owns x.state) :
    ∃ m e, f g = some ⟨some (m, none), e⟩ := by
  obtain ⟨place, e⟩ := x
  cases place with
  | none => exact absurd rfl hplace
  | some p =>
    obtain ⟨m, token⟩ := p
    cases token with
    | none => exact ⟨m, e, hg⟩
    | some v =>
      rw [objects_eq hg, Option.all_some, Grip.object, GuardState.owns_encode] at hdebug
      cases hdebug

/-- A guard that owns holds an acquisition. -/
theorem exists_owner (hg : f g = some x)
    (hdebug : (objects f (some g)).all fun x => GuardState.owns x.state) :
    ∃ m v e, f g = some ⟨some (m, some v), e⟩ := by
  rw [objects_eq hg, Option.all_some, Grip.object, GuardState.owns_encode] at hdebug
  obtain ⟨place, e⟩ := x
  cases place with
  | none => cases hdebug
  | some p =>
    obtain ⟨m, token⟩ := p
    cases token with
    | none => cases hdebug
    | some v => exact ⟨m, v, e, hg⟩

/-- A call of a guard dereferences the guard. -/
theorem grip_of_exec {r : State γ ε × Output ε} {run : Object ε → Option (State γ ε × Output ε)}
    (h : (objects f (some g)).bind run = some r) : ∃ x, f g = some x := by
  apply exists_grip
  intro hnone
  rw [hnone] at h
  cases h

/-- Every acquisition is held by one guard, was unlocked, or was handed out; a guard holds one
of its own mutex and kind, and so were those that were unlocked. -/
structure Conserved (kind : γ → Kind) (A : Grips γ ε) : Prop where
  ledger : Ledger A.token A.acquired.length (A.unlocked.map Prod.fst ++ A.handedOut)
  own : ∀ g m v e, A.grip g = some ⟨some (m, some v), e⟩ →
    A.acquired[v]? = some (m, (kind g).isShared)
  unlocked : ∀ v w shared, (v, w, shared) ∈ A.unlocked →
    ∃ m, A.acquired[v]? = some (m, shared) ∧ w = m.val

namespace Conserved

variable {A : Grips γ ε}

theorem token_eq (hg : A.grip g = some x) : A.token g = x.token := by
  rw [Grips.token, hg, Option.bind_some]

theorem start : Conserved kind (Grips.start : Grips γ ε) := by
  refine ⟨.start, ?_, ?_⟩
  · intro g m v e hg
    cases hg
  · intro v w shared hv
    cases hv

end Conserved

variable [DecidableEq γ]

/-- Changing a guard changes its own object only. -/
theorem put_objects (f : γ → Option (Grip ε)) (g : γ) (x : Option (Grip ε)) :
    (objects f).put (some g) (x.map Grip.object) = objects (Function.update f g x) := by
  funext h
  rw [State.put]
  cases h with
  | none => rfl
  | some h =>
    by_cases hg : h = g
    · subst hg
      rw [Function.update_self, objects, Function.update_self]
    · rw [Function.update_of_ne fun heq => hg (Option.some.inj heq), objects, objects,
        Function.update_of_ne hg]

theorem put_objects_some (f : γ → Option (Grip ε)) (g : γ) (x : Grip ε) :
    (objects f).put (some g) (some x.object) = objects (Function.update f g (some x)) :=
  put_objects f g (some x)

theorem put_objects_none (f : γ → Option (Grip ε)) (g : γ) :
    (objects f).put (some g) none = objects (Function.update f g none) :=
  put_objects f g none

theorem deref_val (m : Address) : State.deref m.val = some m.val :=
  if_neg m.nonnull

/-- A guard on `m` that owns nothing is locked. -/
theorem lock_objects (hg : f g = some ⟨some (m, none), e⟩) (kind : Kind) (waited : Option ε)
    (v : Nat) : (objects f).lock kind (some g) waited = some
      (objects (Function.update f g
        (some ⟨some (m, some v), if kind = .sticky then waited else e⟩)),
        .call (.lock m.val kind.isShared)) := by
  have hobject : objects f (some g) = some ⟨GuardState.encode (some m) false, e⟩ := objects_eq hg
  have hput := put_objects_some f g ⟨some (m, some v), if kind = .sticky then waited else e⟩
  rw [← hput]
  simp only [State.lock, hobject, Option.bind_eq_bind, Option.bind_some,
    GuardState.lockState_encode, Option.elim_some, deref_val]
  cases kind <;> rfl

theorem tryLock_objects (hg : f g = some ⟨some (m, none), e⟩) (kind : Kind) (v : Nat) :
    (objects f).tryLock kind (some g) true = some
      (objects (Function.update f g (some ⟨some (m, some v), e⟩)),
        .call (.tryLock m.val kind.isShared true)) := by
  have hobject : objects f (some g) = some ⟨GuardState.encode (some m) false, e⟩ := objects_eq hg
  rw [← put_objects_some]
  simp only [State.tryLock, hobject, Option.bind_eq_bind, Option.bind_some,
    GuardState.lockState_encode, Option.elim_some, deref_val]
  rfl

/-- The owned bit is set, and cleared again. -/
theorem tryLock_objects_failed (hg : f g = some ⟨some (m, none), e⟩) (kind : Kind) :
    (objects f).tryLock kind (some g) false =
      some (objects f, .call (.tryLock m.val kind.isShared false)) := by
  have hobject : objects f (some g) = some ⟨GuardState.encode (some m) false, e⟩ := objects_eq hg
  have hsame : (objects f).put (some g) (some ⟨GuardState.encode (some m) false, e⟩) =
      objects f := by
    rw [← hobject]
    exact Function.update_eq_self _ _
  simp only [State.tryLock, hobject, Option.bind_eq_bind, Option.bind_some,
    GuardState.lockState_encode, Option.elim_some, deref_val, Bool.false_eq_true, if_false,
    GuardState.unlockState_encode, hsame]
  rfl

/-- A guard that owns an acquisition of `m` is unlocked. -/
theorem unlockWith_objects (hg : f g = some ⟨some (m, some v), e⟩)
    (call : Object ε → Word → Call ε) :
    (objects f).unlockWith (some g) call = some
      (objects (Function.update f g (some ⟨some (m, none), e⟩)),
        .call (call ⟨GuardState.encode (some m) true, e⟩ m.val)) := by
  have hobject : objects f (some g) = some ⟨GuardState.encode (some m) true, e⟩ := objects_eq hg
  rw [← put_objects_some]
  simp only [State.unlockWith, hobject, Option.bind_eq_bind, Option.bind_some,
    GuardState.unlockState_encode, Option.elim_some, deref_val]
  rfl

/-- The new guard has the mutex and the acquisition, and the old one is left on the mutex
without it. -/
theorem moveConstruct_objects (g : γ) (hh : f h = some x) :
    (objects f).moveConstruct (some g) (some h) = some (objects (Function.update
      (Function.update f g (some x)) h (some ⟨x.mutex.map fun m => (m, none), x.executor⟩))) := by
  have hword : x.object.state &&& kMask = GuardState.encode x.mutex false :=
    GuardState.encode_and_kMask
  have hleft : ({ x.object with state := x.object.state &&& kMask } : Object ε) =
      Grip.object ⟨x.mutex.map fun m => (m, none), x.executor⟩ := by
    rw [hword]
    obtain ⟨place, executor⟩ := x
    cases place <;> rfl
  rw [← put_objects_some, ← put_objects_some, ← hleft]
  simp only [State.moveConstruct, objects_eq hh, Option.bind_eq_bind, Option.bind_some]
  rfl

theorem swap_objects (hg : f g = some x) (hh : f h = some y) :
    (objects f).swap (some g) (some h) =
      some (objects (Function.update (Function.update f g (some y)) h (some x))) := by
  rw [← put_objects_some, ← put_objects_some]
  simp only [State.swap, objects_eq hg, objects_eq hh, Option.bind_eq_bind, Option.bind_some]
  rfl

/-- `Guard::Swap` leaves the executors of sticky guards where they were. -/
theorem swapBase_objects (hg : f g = some x) (hh : f h = some y) :
    (objects f).swapBase (some g) (some h) = some (objects (Function.update
      (Function.update f g (some ⟨y.place, x.executor⟩)) h (some ⟨x.place, y.executor⟩))) := by
  have hfirst : (objects f).put (some g) (some { x.object with state := y.object.state }) =
      objects (Function.update f g (some ⟨y.place, x.executor⟩)) :=
    put_objects_some f g ⟨y.place, x.executor⟩
  by_cases hgh : h = g
  · subst hgh
    cases hg.symm.trans hh
    have hsecond := objects_eq (Function.update_self h (some (⟨x.place, x.executor⟩ : Grip ε)) f)
    rw [← put_objects_some (Function.update f h _)]
    simp only [State.swapBase, objects_eq hg, Option.bind_eq_bind, Option.bind_some, hfirst,
      hsecond]
    rfl
  · have hsecond : objects (Function.update f g (some ⟨y.place, x.executor⟩)) (some h) =
        some y.object := objects_eq (by rw [Function.update_of_ne hgh, hh])
    rw [← put_objects_some (Function.update f g _)]
    simp only [State.swapBase, objects_eq hg, objects_eq hh, Option.bind_eq_bind,
      Option.bind_some, hfirst, hsecond]
    rfl

theorem release_objects (hg : f g = some x) : (objects f).release (some g) = some
    (objects (Function.update f g (some ⟨none, x.executor⟩)),
      .pointer (x.mutex.elim 0#64 Address.val)) := by
  have hobject : objects f (some g) =
      some ⟨GuardState.encode x.mutex x.token.isSome, x.executor⟩ := objects_eq hg
  rw [← put_objects_some]
  simp only [State.release, hobject, Option.bind_eq_bind, Option.bind_some,
    GuardState.releaseState_encode]
  rfl

/-- A guard that owns nothing unlocks nothing when it ends. -/
theorem destruct_objects (hg : f g = some x) (hx : x.token = none) (kind : Kind) :
    (objects f).destruct kind (some g) = some (objects (Function.update f g none), .none) := by
  have howns : GuardState.owns x.object.state = false := by
    rw [Grip.object, hx]
    exact GuardState.owns_encode
  simp only [State.destruct, objects_eq hg, Option.bind_eq_bind, Option.bind_some, howns,
    Bool.false_eq_true, if_false, put_objects_none]
  rfl

/-- A guard that owns an acquisition unlocks it when it ends. -/
theorem destruct_objects_owner (hg : f g = some ⟨some (m, some v), e⟩) (kind : Kind) :
    (objects f).destruct kind (some g) = some (objects (Function.update f g none),
      .call (.unlockHere m.val kind.isShared)) := by
  have hobject : objects f (some g) = some ⟨GuardState.encode (some m) true, e⟩ := objects_eq hg
  simp only [State.destruct, hobject, Option.bind_eq_bind, Option.bind_some,
    GuardState.owns_encode, if_true, State.unlockHere, unlockWith_objects hg, put_objects_none,
    Function.update_idem]
  rfl

/-- The guard of the awaiter ends without the lock. -/
theorem guardSticky_objects (f : γ → Option (Grip ε)) (g : γ) (m : Address) (waited : Option ε)
    (v : Nat) : (objects f).guardSticky (some g) m waited = some
      (objects (Function.update f g (some ⟨some (m, some v), waited⟩)),
        .call (.lock m.val false)) := by
  have hptr : GuardState.ptr (GuardState.make m.val true) = m.val :=
    GuardState.ptr_encode (m := some m)
  have hfree : GuardState.owns (GuardState.make m.val true &&& kMask) = false := by
    have hword : GuardState.make m.val true &&& kMask = GuardState.encode (some m) false :=
      GuardState.encode_and_kMask (m := some m)
    rw [hword, GuardState.owns_encode]
  have hend : ∀ x, Function.update (Function.update (objects f) (some g) x) none none =
      Function.update (objects f) (some g) x := by
    intro x
    rw [Function.update_eq_self_iff, Function.update_of_ne (Option.some_ne_none g).symm]
    rfl
  have hne : (none : Option γ) ≠ some g := (Option.some_ne_none g).symm
  rw [← put_objects_some]
  simp only [State.guardSticky, State.moveConstruct, State.destruct, State.put,
    Function.update_self, Function.update_idem, Option.bind_eq_bind, Option.bind_some,
    Option.pure_def, hptr, deref_val, hfree, Bool.false_eq_true, if_false,
    Function.update_comm hne, hend]
  rfl

/-- Every allowed call does to the words what it does to the guards. -/
theorem exec_refines (kind : γ → Kind) :
    Refines (exec kind) (Spec (ε := ε) kind) fun s A => s = objects A.grip := by
  rintro s A op B o rfl hspec
  refine ⟨_, ?_, rfl⟩
  cases hspec with
  | @construct g _ =>
    have hzero : (⟨0#64, none⟩ : Object ε) = Grip.object ⟨none, none⟩ :=
      congrArg (fun state => (⟨state, none⟩ : Object ε)) (GuardState.encode_false (m := none)).symm
    rw [exec, hzero, put_objects_some]
    rfl
  | @defer g m _ =>
    exact congrArg (fun t => some (t, _)) (put_objects_some A.grip g ⟨some (m, none), none⟩)
  | @tryTo g m _ =>
    exact congrArg (fun t => some (t, _))
      (put_objects_some A.grip g ⟨some (m, some A.acquired.length), none⟩)
  | @tryTo_failed g m _ =>
    exact congrArg (fun t => some (t, _)) (put_objects_some A.grip g ⟨some (m, none), none⟩)
  | @adopt g m _ =>
    exact congrArg (fun t => some (t, _))
      (put_objects_some A.grip g ⟨some (m, some A.acquired.length), none⟩)
  | guardSticky _ _ => exact guardSticky_objects A.grip _ _ _ _
  | moveConstruct _ _ hh => exact congrArg (Option.map _) (moveConstruct_objects _ hh)
  | moveAssign _ hg hh => exact congrArg (Option.map _) (swap_objects hg hh)
  | swap _ hg hh => exact congrArg (Option.map _) (swap_objects hg hh)
  | swapBase _ hg hh => exact congrArg (Option.map _) (swapBase_objects hg hh)
  | release hg => exact release_objects hg
  | lock hg => exact lock_objects hg _ _ _
  | tryLock hg => exact tryLock_objects hg _ _
  | tryLock_failed hg => exact tryLock_objects_failed hg _
  | unlock hg => exact unlockWith_objects hg _
  | unlockOn hg => exact unlockWith_objects hg _
  | unlockHere hg => exact unlockWith_objects hg _
  | mutex hg =>
    rw [exec, objects_eq hg, Option.map_some, Grip.object, GuardState.ptr_encode]
  | ownsLock hg =>
    rw [exec, objects_eq hg, Option.map_some, Grip.object, GuardState.owns_encode]
  | destruct hg hx => exact destruct_objects hg hx _
  | destruct_owner hg => exact destruct_objects_owner hg _

/-! Calls that pass the checks are allowed. -/

/-- A lock without a mutex dereferences a null pointer. -/
theorem lock_of_null (hg : f g = some ⟨none, e⟩) (kind : Kind) (waited : Option ε) :
    (objects f).lock kind (some g) waited = none := by
  have hobject : objects f (some g) = some ⟨GuardState.encode none false, e⟩ := objects_eq hg
  simp only [State.lock, hobject, Option.bind_eq_bind, Option.bind_some,
    GuardState.lockState_encode, Option.elim_none]
  rfl

theorem tryLock_of_null (hg : f g = some ⟨none, e⟩) (kind : Kind) (ok : Bool) :
    (objects f).tryLock kind (some g) ok = none := by
  have hobject : objects f (some g) = some ⟨GuardState.encode none false, e⟩ := objects_eq hg
  simp only [State.tryLock, hobject, Option.bind_eq_bind, Option.bind_some,
    GuardState.lockState_encode, Option.elim_none]
  rfl

theorem exists_swapped {t : State γ ε} (ht : (objects f).swap (some g) (some h) = some t) :
    (∃ x, f g = some x) ∧ ∃ y, f h = some y := by
  refine ⟨exists_grip fun hnone => ?_, exists_grip fun hnone => ?_⟩ <;>
    simp [State.swap, hnone] at ht

/-- A well-formed call that passes the checks is allowed. -/
theorem spec_of_exec {A : Grips γ ε} {op : Op γ ε} {r : State γ ε × Output ε}
    (hformed : wellFormed kind (objects A.grip) op) (hdebug : debug (objects A.grip) op)
    (hexec : exec kind (objects A.grip) op = some r) : ∃ B o, Spec kind A op B o := by
  cases op with
  | construct g => exact ⟨_, _, .construct (free_of_isNone hformed)⟩
  | defer g m => exact ⟨_, _, .defer (free_of_isNone hformed)⟩
  | tryTo g m ok =>
    cases ok with
    | true => exact ⟨_, _, .tryTo (free_of_isNone hformed)⟩
    | false => exact ⟨_, _, .tryTo_failed (free_of_isNone hformed)⟩
  | adopt g m => exact ⟨_, _, .adopt (free_of_isNone hformed)⟩
  | guardSticky g m waited =>
    simp only [wellFormed, Bool.and_eq_true, decide_eq_true_eq] at hformed
    exact ⟨_, _, .guardSticky hformed.1 (free_of_isNone hformed.2)⟩
  | moveConstruct g h =>
    simp only [wellFormed, Bool.and_eq_true, decide_eq_true_eq] at hformed
    obtain ⟨s, hs, -⟩ := Option.map_eq_some_iff.mp hexec
    obtain ⟨x, hx⟩ := exists_grip (f := A.grip) (g := h) fun hnone => by
      simp [State.moveConstruct, hnone] at hs
    exact ⟨_, _, .moveConstruct hformed.1 (free_of_isNone hformed.2) hx⟩
  | moveAssign g h =>
    obtain ⟨s, hs, -⟩ := Option.map_eq_some_iff.mp hexec
    obtain ⟨⟨x, hx⟩, y, hy⟩ := exists_swapped hs
    exact ⟨_, _, .moveAssign (of_decide_eq_true hformed) hx hy⟩
  | swap g h =>
    obtain ⟨s, hs, -⟩ := Option.map_eq_some_iff.mp hexec
    obtain ⟨⟨x, hx⟩, y, hy⟩ := exists_swapped hs
    exact ⟨_, _, .swap (of_decide_eq_true hformed) hx hy⟩
  | swapBase g h =>
    obtain ⟨s, hs, -⟩ := Option.map_eq_some_iff.mp hexec
    obtain ⟨x, hx⟩ := exists_grip (f := A.grip) (g := g) fun hnone => by
      simp [State.swapBase, hnone] at hs
    by_cases hgh : h = g
    · subst hgh
      exact ⟨_, _, .swapBase rfl hx hx⟩
    obtain ⟨y, hy⟩ := exists_grip (f := A.grip) (g := h) fun hnone => by
      have hne : (some h : Option γ) ≠ some g := fun heq => hgh (Option.some.inj heq)
      simp [State.swapBase, State.put, Function.update_of_ne hne, hnone] at hs
    exact ⟨_, _, .swapBase (of_decide_eq_true hformed) hx hy⟩
  | release g =>
    obtain ⟨x, hx⟩ := grip_of_exec hexec
    exact ⟨_, _, .release hx⟩
  | lock g waited =>
    obtain ⟨x, hx⟩ := grip_of_exec hexec
    obtain ⟨m, e, hg⟩ := exists_idle hx (fun hplace => by
      obtain ⟨place, e⟩ := x
      cases hplace
      rw [exec, lock_of_null hx] at hexec
      cases hexec) hdebug
    exact ⟨_, _, .lock hg⟩
  | tryLock g ok =>
    obtain ⟨x, hx⟩ := grip_of_exec hexec
    obtain ⟨m, e, hg⟩ := exists_idle hx (fun hplace => by
      obtain ⟨place, e⟩ := x
      cases hplace
      rw [exec, tryLock_of_null hx] at hexec
      cases hexec) hdebug
    cases ok with
    | true => exact ⟨_, _, .tryLock hg⟩
    | false => exact ⟨_, _, .tryLock_failed hg⟩
  | unlock g =>
    obtain ⟨x, hx⟩ := grip_of_exec hexec
    obtain ⟨m, v, e, hg⟩ := exists_owner hx hdebug
    exact ⟨_, _, .unlock hg⟩
  | unlockOn g e' =>
    obtain ⟨x, hx⟩ := grip_of_exec hexec
    obtain ⟨m, v, e, hg⟩ := exists_owner hx hdebug
    exact ⟨_, _, .unlockOn hg⟩
  | unlockHere g =>
    obtain ⟨x, hx⟩ := grip_of_exec hexec
    obtain ⟨m, v, e, hg⟩ := exists_owner hx hdebug
    exact ⟨_, _, .unlockHere hg⟩
  | mutex g =>
    obtain ⟨x, hx⟩ := exists_grip (f := A.grip) (g := g) fun hnone => by simp [exec, hnone] at hexec
    exact ⟨_, _, .mutex hx⟩
  | ownsLock g =>
    obtain ⟨x, hx⟩ := exists_grip (f := A.grip) (g := g) fun hnone => by simp [exec, hnone] at hexec
    exact ⟨_, _, .ownsLock hx⟩
  | destruct g =>
    obtain ⟨x, hx⟩ := grip_of_exec hexec
    cases htoken : x.token with
    | none => exact ⟨_, _, .destruct hx htoken⟩
    | some v =>
      obtain ⟨m, v, e, hg⟩ := exists_owner hx (by
        rw [objects_eq hx, Option.all_some, Grip.object, GuardState.owns_encode, htoken]
        rfl)
      exact ⟨_, _, .destruct_owner hg⟩

/-- Every execution of such a call does to the guards what it does to the words. -/
theorem exec_refinedIf (kind : γ → Kind) :
    RefinedIf (exec kind) (fun s op => wellFormed kind s op && debug s op)
      (Spec (ε := ε) kind) fun s A => s = objects A.grip := by
  rintro s A op t o rfl hpass hexec
  obtain ⟨hformed, hdebug⟩ := (Bool.and_eq_true _ _).mp hpass
  obtain ⟨B, o', hspec⟩ := spec_of_exec hformed hdebug hexec
  obtain ⟨u, hu, rfl⟩ := exec_refines kind _ A op B o' rfl hspec
  cases hexec.symm.trans hu
  exact ⟨B, hspec, rfl⟩

/-! ### Conservation -/

namespace Conserved

variable {A : Grips γ ε}

theorem token_put (A : Grips γ ε) (g : γ) (x : Option (Grip ε)) :
    (A.put g x).token = Function.update A.token g (x.bind Grip.token) := by
  funext h
  by_cases hg : h = g
  · subst hg
    simp only [Grips.token, Grips.put, Function.update_self]
  · simp only [Grips.token, Grips.put, Function.update_of_ne hg]

theorem grip_put_cases {k : γ} {x : Option (Grip ε)} {y : Grip ε}
    (hk : (A.put g x).grip k = some y) : k = g ∧ x = some y ∨ A.grip k = some y := by
  by_cases hkg : k = g
  · subst hkg
    simp only [Grips.put, Function.update_self] at hk
    exact .inl ⟨rfl, hk⟩
  · simp only [Grips.put, Function.update_of_ne hkg] at hk
    exact .inr hk

/-- A guard that holds nothing is constructed, put on a mutex or destroyed. -/
theorem put (h : Conserved kind A) (hg : A.token g = none) {x : Option (Grip ε)}
    (hx : x.bind Grip.token = none) : Conserved kind (A.put g x) := by
  constructor
  · rw [token_put, hx, ← hg, Function.update_eq_self]
    exact h.ledger
  · intro k m v e hk
    rcases grip_put_cases hk with ⟨-, rfl⟩ | hold
    · cases hx
    · exact h.own k m v e hold
  · exact h.unlocked

/-- A new acquisition is held by its guard alone. -/
theorem acquire (h : Conserved kind A) (hg : A.token g = none) (m : Address)
    (executor : Option ε) : Conserved kind (A.acquire g m (kind g).isShared executor) := by
  have hold : ∀ {v : Nat} {y : Address × Bool}, A.acquired[v]? = some y →
      (A.acquired ++ [(m, (kind g).isShared)])[v]? = some y := by
    intro v y hv
    rw [List.getElem?_append_left (List.getElem?_eq_some_iff.mp hv).1, hv]
  have htoken : (A.acquire g m (kind g).isShared executor).token =
      Function.update A.token g (some A.acquired.length) := token_put A g _
  constructor
  · rw [htoken, Grips.acquire, List.length_append]
    exact h.ledger.create hg
  · intro k m' v e hk
    rcases grip_put_cases hk with ⟨rfl, hself⟩ | hk
    · cases hself
      exact List.getElem?_concat_length
    · exact hold (h.own k m' v e hk)
  · intro v w shared hv
    obtain ⟨m', hm', hw⟩ := h.unlocked v w shared hv
    exact ⟨m', hold hm', hw⟩

/-- The owner unlocks, and holds nothing afterwards. -/
theorem unlock (h : Conserved kind A) (hg : A.grip g = some ⟨some (m, some v), e⟩)
    {x : Option (Grip ε)} (hx : x.bind Grip.token = none) :
    Conserved kind (A.unlock g x v m (kind g).isShared) := by
  have htoken : (A.unlock g x v m (kind g).isShared).token = Function.update A.token g none := by
    rw [← hx]
    exact token_put A g x
  constructor
  · rw [htoken]
    refine (h.ledger.retire (token_eq hg)).of_perm ?_
    simp only [Grips.unlock, List.map_append, List.map_cons, List.map_nil, List.append_assoc,
      List.singleton_append]
    exact List.perm_middle
  · intro k m' u e' hk
    rcases grip_put_cases hk with ⟨-, rfl⟩ | hold
    · cases hx
    · exact h.own k m' u e' hold
  · intro u w shared hu
    rcases List.mem_append.mp hu with hu | hu
    · exact h.unlocked u w shared hu
    · cases List.mem_singleton.mp hu
      exact ⟨m, h.own g m v e hg, rfl⟩

/-- The acquisition that a guard gives up is held by nobody afterwards. -/
theorem release (h : Conserved kind A) (hg : A.grip g = some x) :
    Conserved kind (A.release g x) := by
  have htoken : (A.release g x).token = Function.update A.token g none := token_put A g _
  refine ⟨?_, ?_, h.unlocked⟩
  · rw [htoken]
    cases hx : x.token with
    | none =>
      have hnone : A.token g = none := (token_eq hg).trans hx
      rw [← hnone, Function.update_eq_self, Grips.release, hx, Option.toList_none,
        List.append_nil]
      exact h.ledger
    | some v =>
      rw [Grips.release, hx, Option.toList_some, ← List.append_assoc]
      exact (h.ledger.retire ((token_eq hg).trans hx)).of_perm (List.perm_append_singleton v _)
  · intro k m v e hk
    rcases grip_put_cases hk with ⟨-, hself⟩ | hold
    · cases hself
    · exact h.own k m v e hold

/-- Two guards exchange what they hold. -/
theorem exchange (h : Conserved kind A) {k : γ} (hkind : (kind g).isShared = (kind k).isShared)
    (hx : x.place.bind Prod.snd = A.token k) (hy : y.place.bind Prod.snd = A.token g)
    (hxk : ∀ m v, x.place = some (m, some v) → ∃ e, A.grip k = some ⟨some (m, some v), e⟩)
    (hyg : ∀ m v, y.place = some (m, some v) → ∃ e, A.grip g = some ⟨some (m, some v), e⟩) :
    Conserved kind ((A.put g (some x)).put k (some y)) := by
  have htoken : ((A.put g (some x)).put k (some y)).token =
      Function.update (Function.update A.token g (A.token k)) k (A.token g) := by
    rw [token_put, token_put, ← hx, ← hy]
    rfl
  refine ⟨?_, ?_, h.unlocked⟩
  · rw [htoken]
    exact h.ledger.exchange g k
  · intro l m v e hl
    rcases grip_put_cases hl with ⟨rfl, hself⟩ | hl
    · cases hself
      obtain ⟨e', hg⟩ := hyg m v rfl
      rw [← hkind]
      exact h.own g m v e' hg
    · rcases grip_put_cases hl with ⟨rfl, hself⟩ | hl
      · cases hself
        obtain ⟨e', hk⟩ := hxk m v rfl
        rw [hkind]
        exact h.own k m v e' hk
      · exact h.own l m v e hl

/-- Every call conserves the acquisitions. -/
theorem spec (h : Conserved kind A) {op : Op γ ε} {B : Grips γ ε} {o : Output ε}
    (hspec : Spec kind A op B o) : Conserved kind B := by
  have hfree : ∀ {g}, A.grip g = none → A.token g = none := by
    intro g hg
    rw [Grips.token, hg, Option.bind_none]
  have hidle : ∀ {g m e}, A.grip g = some ⟨some (m, none), e⟩ → A.token g = none :=
    fun hg => token_eq hg
  have hplace : ∀ {g} {x y : Grip ε}, A.grip g = some x → x.place = y.place →
      ∀ m v, y.place = some (m, some v) → ∃ e, A.grip g = some ⟨some (m, some v), e⟩ := by
    rintro g ⟨place, e⟩ y hg heq m v hy
    rw [← hy, ← heq]
    exact ⟨e, hg⟩
  cases hspec with
  | construct hg => exact h.put (hfree hg) rfl
  | defer hg => exact h.put (hfree hg) rfl
  | tryTo hg => exact h.acquire (hfree hg) _ _
  | tryTo_failed hg => exact h.put (hfree hg) rfl
  | adopt hg => exact h.acquire (hfree hg) _ _
  | @guardSticky g m waited hkind hg =>
    have hacquire := h.acquire (hfree hg) m waited
    rw [hkind] at hacquire
    exact hacquire
  | @moveConstruct g k x hkind hg hk =>
    refine h.exchange (congrArg Kind.isShared hkind) ?_ ?_ (hplace hk rfl) ?_
    · exact (token_eq hk).symm
    · rw [hfree hg]
      cases x.mutex <;> rfl
    · intro m v hplace
      cases hmutex : x.mutex <;> simp [hmutex] at hplace
  | moveAssign hkind hg hk =>
    exact h.exchange (congrArg Kind.isShared hkind) (token_eq hk).symm (token_eq hg).symm
      (hplace hk rfl) (hplace hg rfl)
  | swap hkind hg hk =>
    exact h.exchange (congrArg Kind.isShared hkind) (token_eq hk).symm (token_eq hg).symm
      (hplace hk rfl) (hplace hg rfl)
  | swapBase hkind hg hk =>
    exact h.exchange hkind (token_eq hk).symm (token_eq hg).symm (hplace hk rfl) (hplace hg rfl)
  | release hg => exact h.release hg
  | lock hg => exact h.acquire (hidle hg) _ _
  | tryLock hg => exact h.acquire (hidle hg) _ _
  | tryLock_failed _ => exact h
  | unlock hg => exact h.unlock hg rfl
  | unlockOn hg => exact h.unlock hg rfl
  | unlockHere hg => exact h.unlock hg rfl
  | mutex _ => exact h
  | ownsLock _ => exact h
  | destruct hg hx => exact h.put ((token_eq hg).trans hx) rfl
  | destruct_owner hg => exact h.unlock hg rfl

end Conserved

/-- The mutex that is unlocked, and whether it is its shared lock. -/
def Output.unlocks : Output ε → Option (Word × Bool)
  | .call (.unlock m shared) | .call (.unlockOn m shared _) | .call (.unlockHere m shared) =>
    .some (m, shared)
  | _ => .none

/-- The acquisition that a guard comes to own, adopted or made by the call. -/
def acquires (kind : γ → Kind) : Op γ ε × Output ε → Option (Word × Bool)
  | (.adopt g m, _) => some (m.val, (kind g).isShared)
  | (_, .call (.lock m shared)) => some (m, shared)
  | (_, .call (.tryLock m shared true)) => some (m, shared)
  | _ => none

theorem unlocks_spec {A B : Grips γ ε} {op : Op γ ε} {o : Output ε} (hspec : Spec kind A op B o) :
    B.unlocked.map Prod.snd = A.unlocked.map Prod.snd ++ o.unlocks.toList := by
  cases hspec
  case unlock g m v e hg =>
    have hcall : Output.unlocks (.call (State.unlockCall (kind g) e m.val)) =
        some (m.val, (kind g).isShared) := by
      cases kind g <;> cases e <;> rfl
    rw [hcall, Grips.unlock, List.map_append]
    rfl
  case unlockOn | unlockHere | destruct_owner =>
    rw [Grips.unlock, List.map_append]
    rfl
  all_goals exact (List.append_nil _).symm

theorem acquires_spec {A B : Grips γ ε} {op : Op γ ε} {o : Output ε}
    (hspec : Spec kind A op B o) : B.acquired.map (fun a => (a.1.val, a.2)) =
      A.acquired.map (fun a => (a.1.val, a.2)) ++ (acquires kind (op, o)).toList := by
  cases hspec
  case tryTo | adopt | guardSticky | lock | tryLock =>
    rw [Grips.acquire, List.map_append]
    rfl
  case unlock g m v e hg =>
    have hnone : acquires kind (.unlock g, .call (State.unlockCall (kind g) e m.val)) = none := by
      cases kind g <;> cases e <;> rfl
    rw [hnone]
    exact (List.append_nil _).symm
  all_goals exact (List.append_nil _).symm

/-- The calls `ops` with the outputs `os` led to the guards `s`: the acquisitions that were
made are held by one guard each, were unlocked once or were handed out; the unlocks that the
mutexes saw are those of the acquisitions, each on its own mutex; and the words own a lock
exactly when the guard holds an acquisition. -/
structure Accounts (kind : γ → Kind) (ops : List (Op γ ε)) (os : List (Output ε)) (s : State γ ε)
    (A : Grips γ ε) : Prop where
  owns : ∀ g, (s (some g)).map (fun x => GuardState.owns x.state) =
    (A.grip g).map fun x => x.token.isSome
  ledger : Ledger A.token A.acquired.length (A.unlocked.map Prod.fst ++ A.handedOut)
  acquired : A.acquired.map (fun a => (a.1.val, a.2)) = (ops.zip os).filterMap (acquires kind)
  unlocked : A.unlocked.map Prod.snd = (ops.zip os).filterMap fun e => e.2.unlocks
  own : ∀ v w shared, (v, w, shared) ∈ A.unlocked →
    ∃ m, A.acquired[v]? = some (m, shared) ∧ w = m.val
  held : ∀ g m v e, A.grip g = some ⟨some (m, some v), e⟩ →
    A.acquired[v]? = some (m, (kind g).isShared)

/-- Whatever is done with the guards, and whatever the mutexes answer: as long as the checks of
`LockState` and `UnlockState` pass, the acquisitions are conserved. -/
theorem acquisitions_conserved {ops : List (Op γ ε)} {os : List (Output ε)} {s : State γ ε}
    (hpass : Meets (exec kind) (fun s op => wellFormed kind s op && debug s op) (fun _ => none) ops)
    (hrun : outputs (exec kind) (fun _ => none) ops = some (s, os)) :
    ∃ A, Runs (Spec kind) .start (ops.zip os) A ∧ Accounts kind ops os s A := by
  have hstart : (fun _ => none : State γ ε) = objects (Grips.start : Grips γ ε).grip := by
    funext g
    cases g <;> rfl
  obtain ⟨A, hruns, rfl⟩ := (exec_refinedIf kind).runs hstart hpass hrun
  have hconserved := hruns.keeps (fun _ _ _ _ h hspec => Conserved.spec h hspec) .start
  refine ⟨A, hruns, ?_, hconserved.ledger, ?_, ?_, hconserved.unlocked, hconserved.own⟩
  · intro g
    rw [objects, Option.map_map]
    refine congrArg (fun f => Option.map f (A.grip g)) ?_
    funext x
    exact GuardState.owns_encode
  · exact hruns.recorded (acquires kind) fun _ _ _ _ hspec => acquires_spec hspec
  · exact hruns.recorded (fun e => e.2.unlocks) fun _ _ _ _ hspec => unlocks_spec hspec

end

/-- Where a mutex may be. -/
def somewhere : Address := ⟨2, by decide, by decide⟩

/-- A guard locks, and is moved from; the other one unlocks when it ends. -/
def movedGuard : List (Op Bool Unit) :=
  [.defer false somewhere, .lock false none, .moveConstruct true false, .destruct true]

theorem acquisitions_conserved_moved : ∃ (A : Grips Bool Unit) (s : State Bool Unit),
    outputs (exec fun _ => .unique) (fun _ => none) movedGuard =
        some (s, [.none, .call (.lock 2 false), .none, .call (.unlockHere 2 false)]) ∧
      A.acquired.map (fun a => (a.1.val, a.2)) = [(2, false)] ∧ A.unlocked = [(0, 2, false)] := by
  have hrun : outputs (exec fun _ => .unique) (fun _ => none) movedGuard =
      some (_, [.none, .call (.lock 2 false), .none, .call (.unlockHere 2 false)]) := rfl
  have hpass : Meets (exec fun _ => .unique)
      (fun s op => wellFormed (fun _ => .unique) s op && debug s op) (fun _ => none)
      movedGuard :=
    ⟨rfl, fun t o ht => by cases ht; exact ⟨rfl, fun t o ht => by cases ht; exact ⟨rfl,
      fun t o ht => by cases ht; exact ⟨rfl, fun _ _ _ => trivial⟩⟩⟩⟩
  obtain ⟨A, -, hA⟩ := acquisitions_conserved hpass hrun
  have hacquired : A.acquired.map (fun a => (a.1.val, a.2)) = [(2, false)] := hA.acquired
  have hunlocked : A.unlocked.map Prod.snd = [(2, false)] := hA.unlocked
  obtain ⟨⟨v, x⟩, rest, hlist, rfl, hrest⟩ := List.map_eq_cons_iff.mp hunlocked
  obtain ⟨m, hm, -⟩ := hA.own v 2 false (by rw [hlist]; exact List.mem_cons_self)
  have hlength : A.acquired.length = 1 := by
    have := congrArg List.length hacquired
    simpa using this
  have hv : v = 0 := by
    have := (List.getElem?_eq_some_iff.mp hm).1
    omega
  refine ⟨A, _, hrun, hacquired, ?_⟩
  rw [hlist, List.map_eq_nil_iff.mp hrest, hv]

/-- `UnlockState` goes on where its check fails: a guard that was made to lock later unlocks a
mutex that it did not lock. -/
theorem unlocks_unowned : ¬ ∀ (ops : List (Op (Fin 1) Unit)) os s,
    Meets (exec fun _ => .unique) (fun s op => wellFormed (fun _ => .unique) s op)
      (fun _ => none) ops →
    outputs (exec fun _ => .unique) (fun _ => none) ops = some (s, os) →
    ∃ A, Accounts (fun _ => .unique) ops os s A := by
  intro h
  obtain ⟨A, hA⟩ := h [.defer 0 somewhere, .unlockHere 0] [.none, .call (.unlockHere 2 false)] _
    ⟨rfl, fun t o ht => by cases ht; exact ⟨rfl, fun _ _ _ => trivial⟩⟩ rfl
  have hacquired : A.acquired = [] := List.map_eq_nil_iff.mp hA.acquired
  have hunlocked : A.unlocked.map Prod.snd = [(2, false)] := hA.unlocked
  obtain ⟨⟨v, x⟩, rest, hlist, rfl, -⟩ := List.map_eq_cons_iff.mp hunlocked
  obtain ⟨m, hm, -⟩ := hA.own v 2 false (by rw [hlist]; exact List.mem_cons_self)
  rw [hacquired] at hm
  cases hm

end Yaclib.Guard
