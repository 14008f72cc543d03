import Mathlib.Data.BitVec

/-!
`fiber::Atomic` of `fault/detail/fiber/atomic.hpp` and the wrapper of
`fault/detail/atomic.hpp` that injects faults, beside `std::atomic`.

An operation takes the stored value to what it returns and to the value it leaves. The
built-in operators of the language, that the fiber backend uses, are undefined where a
signed type overflows; the operations of `std::atomic` wrap around.

Left out are the memory orders, the `volatile` overloads, `wait` and `notify`, `AtomicFlag`,
and when the faults are injected.
-/

namespace Yaclib.Fault.Atomic

/-- What an operation returns; a compare-and-swap also leaves `expected`. -/
inductive Out (T : Type) where
  | none
  | value (v : T)
  | swapped (r : Bool) (expected : T)
  deriving DecidableEq

inductive BaseOp (T : Type) where
  | assign (desired : T)
  | store (desired : T)
  | load
  | exchange (desired : T)
  | compareExchangeWeak (expected desired : T)
  | compareExchangeStrong (expected desired : T)

/-- The operations of numbers and pointers. -/
inductive ArithmeticOp (A : Type) where
  | fetchAdd (arg : A)
  | fetchSub (arg : A)
  | addAssign (arg : A)
  | subAssign (arg : A)
  | preIncrement
  | postIncrement
  | preDecrement
  | postDecrement

/-- The operations of integers only. -/
inductive BitwiseOp (T : Type) where
  | fetchAnd (arg : T)
  | fetchOr (arg : T)
  | fetchXor (arg : T)
  | andAssign (arg : T)
  | orAssign (arg : T)
  | xorAssign (arg : T)

section Operators

variable {T A : Type}

/-- `auto val = _value; _value op= arg; return val;`, and so `_value++` -/
def fetch (op : T → A → Option T) (value : T) (arg : A) : Option (Out T × T) :=
  (op value arg).map fun v => (.value value, v)

/-- `return _value op= arg;`, and so `++_value` -/
def assign (op : T → A → Option T) (value : T) (arg : A) : Option (Out T × T) :=
  (op value arg).map fun v => (.value v, v)

end Operators

/-! ### The types -/

/-- An integral type other than `bool`. -/
structure IntegralType where
  width : Nat
  signed : Bool
  pos : 0 < width

/-- A pointer to objects of `size` bytes. -/
structure PointerType where
  width : Nat
  size : Nat
  pos : 0 < size
  lt : size < 2 ^ width

namespace IntegralType

variable (I : IntegralType)

abbrev Value : Type := BitVec I.width

def kIntWidth : Nat := 32

/-- Smaller types are promoted to `int` and do not overflow. -/
def overflows (op : BitVec I.width → BitVec I.width → Bool) (value arg : I.Value) : Bool :=
  I.signed && decide (kIntWidth ≤ I.width) && op value arg

/-- `value += arg` -/
def plus (value arg : I.Value) : Option I.Value :=
  if I.overflows BitVec.saddOverflow value arg then none else some (value + arg)

/-- `value -= arg` -/
def minus (value arg : I.Value) : Option I.Value :=
  if I.overflows BitVec.ssubOverflow value arg then none else some (value - arg)

end IntegralType

namespace PointerType

variable (U : PointerType)

abbrev Value : Type := BitVec U.width

/-- `std::ptrdiff_t` -/
abbrev Difference : Type := BitVec U.width

def plus (value : U.Value) (arg : U.Difference) : Option U.Value :=
  some (value + BitVec.ofNat U.width U.size * arg)

def minus (value : U.Value) (arg : U.Difference) : Option U.Value :=
  some (value - BitVec.ofNat U.width U.size * arg)

end PointerType

/-! ### The fiber backend -/

namespace Fiber

variable {T A : Type} [DecidableEq T]

def compareExchangeHelper (value expected desired : T) : Out T × T :=
  if value = expected then (.swapped true expected, desired) else (.swapped false value, value)

/-- `AtomicWait` and `AtomicBase` -/
def base (value : T) : BaseOp T → Out T × T
  | .assign desired => (.value desired, desired)
  | .store desired => (.none, desired)
  | .load => (.value value, value)
  | .exchange desired => (.value value, desired)
  | .compareExchangeWeak expected desired => compareExchangeHelper value expected desired
  | .compareExchangeStrong expected desired => compareExchangeHelper value expected desired

/-- `AtomicFloatingBase<T, true>` and the steps of `AtomicIntegralBase<T, true>`; those of
`Atomic<U*>` are the same text. `plus` and `minus` are the operators of the type. -/
def arithmetic (plus minus : T → A → Option T) (one : A) (value : T) :
    ArithmeticOp A → Option (Out T × T)
  | .fetchAdd arg => fetch plus value arg
  | .fetchSub arg => fetch minus value arg
  | .addAssign arg => assign plus value arg
  | .subAssign arg => assign minus value arg
  -- `return _value++` in `operator++()`, `return ++_value` in `operator++(int)`
  | .preIncrement => fetch plus value one
  | .postIncrement => assign plus value one
  | .preDecrement => fetch minus value one
  | .postDecrement => assign minus value one

/-- `AtomicIntegralBase<T, true>` -/
def bitwise (I : IntegralType) (value : I.Value) : BitwiseOp I.Value → Option (Out I.Value × I.Value)
  -- `_value += arg`
  | .fetchAnd arg => fetch I.plus value arg
  | .fetchOr arg => fetch (fun v a => some (v ||| a)) value arg
  | .fetchXor arg => fetch (fun v a => some (v ^^^ a)) value arg
  | .andAssign arg => assign (fun v a => some (v &&& a)) value arg
  | .orAssign arg => assign (fun v a => some (v ||| a)) value arg
  | .xorAssign arg => assign (fun v a => some (v ^^^ a)) value arg

end Fiber

/-! ### std::atomic -/

namespace Std

variable {T A : Type} [DecidableEq T]

/-- A weak compare-and-swap may fail spuriously. -/
def compareExchange (spurious : Bool) (value expected desired : T) : Out T × T :=
  if value = expected ∧ spurious = false then (.swapped true expected, desired)
  else (.swapped false value, value)

def base (spurious : Bool) (value : T) : BaseOp T → Out T × T
  | .assign desired => (.value desired, desired)
  | .store desired => (.none, desired)
  | .load => (.value value, value)
  | .exchange desired => (.value value, desired)
  | .compareExchangeWeak expected desired => compareExchange spurious value expected desired
  | .compareExchangeStrong expected desired => compareExchange false value expected desired

/-- `fetch_add` returns the value before, `+=` and `++v` the value after. -/
def arithmetic (plus minus : T → A → T) (one : A) (value : T) : ArithmeticOp A → Out T × T
  | .fetchAdd arg => (.value value, plus value arg)
  | .fetchSub arg => (.value value, minus value arg)
  | .addAssign arg => (.value (plus value arg), plus value arg)
  | .subAssign arg => (.value (minus value arg), minus value arg)
  | .preIncrement => (.value (plus value one), plus value one)
  | .postIncrement => (.value value, plus value one)
  | .preDecrement => (.value (minus value one), minus value one)
  | .postDecrement => (.value value, minus value one)

def bitwise {w : Nat} (value : BitVec w) : BitwiseOp (BitVec w) → Out (BitVec w) × BitVec w
  | .fetchAnd arg => (.value value, value &&& arg)
  | .fetchOr arg => (.value value, value ||| arg)
  | .fetchXor arg => (.value value, value ^^^ arg)
  | .andAssign arg => (.value (value &&& arg), value &&& arg)
  | .orAssign arg => (.value (value ||| arg), value ||| arg)
  | .xorAssign arg => (.value (value ^^^ arg), value ^^^ arg)

end Std

/-! ### The operations of a type -/

inductive IntegralOp (T : Type) where
  | base (op : BaseOp T)
  | arithmetic (op : ArithmeticOp T)
  | bitwise (op : BitwiseOp T)

inductive PointerOp (T : Type) where
  | base (op : BaseOp T)
  | arithmetic (op : ArithmeticOp T)

/-- `fiber::Atomic<T>` for an integral `T` -/
def Fiber.integral (I : IntegralType) (value : I.Value) :
    IntegralOp I.Value → Option (Out I.Value × I.Value)
  | .base op => some (Fiber.base value op)
  | .arithmetic op => Fiber.arithmetic I.plus I.minus 1 value op
  | .bitwise op => Fiber.bitwise I value op

def Fiber.pointer (U : PointerType) (value : U.Value) :
    PointerOp U.Value → Option (Out U.Value × U.Value)
  | .base op => some (Fiber.base value op)
  | .arithmetic op => Fiber.arithmetic U.plus U.minus 1 value op

def Std.integral {w : Nat} (spurious : Bool) (value : BitVec w) :
    IntegralOp (BitVec w) → Out (BitVec w) × BitVec w
  | .base op => Std.base spurious value op
  | .arithmetic op => Std.arithmetic (· + ·) (· - ·) 1 value op
  | .bitwise op => Std.bitwise value op

def Std.pointer (U : PointerType) (spurious : Bool) (value : U.Value) :
    PointerOp U.Value → Out U.Value × U.Value
  | .base op => Std.base spurious value op
  | .arithmetic op =>
    Std.arithmetic (fun v a => v + BitVec.ofNat U.width U.size * a)
      (fun v a => v - BitVec.ofNat U.width U.size * a) 1 value op

/-! ### The wrapper -/

/-- `ShouldFailAtomicWeak`, with what `GetRandNumber` draws from. -/
def shouldFailAtomicWeak (sAtomicFailFrequency random : Nat) : Bool :=
  sAtomicFailFrequency != 0 && random % sAtomicFailFrequency == 0

/-- Every method of the wrapper calls that of `Impl` between two `InjectFault`;
`compare_exchange_weak` first asks `ShouldFailAtomicWeak`. -/
def Wrapper.base {T : Type} [DecidableEq T] (fails : Bool) (value : T) : BaseOp T → Out T × T
  | .compareExchangeWeak expected desired =>
    if fails then (.swapped false value, value)
    else Fiber.base value (.compareExchangeWeak expected desired)
  | op => Fiber.base value op

def Wrapper.integral (I : IntegralType) (fails : Bool) (value : I.Value) :
    IntegralOp I.Value → Option (Out I.Value × I.Value)
  | .base op => some (Wrapper.base fails value op)
  | op => Fiber.integral I value op

def Wrapper.pointer (U : PointerType) (fails : Bool) (value : U.Value) :
    PointerOp U.Value → Option (Out U.Value × U.Value)
  | .base op => some (Wrapper.base fails value op)
  | op => Fiber.pointer U value op

/-! ### Sequences of operations

The trace of a sequence is what each operation returns and leaves stored. -/

section Trace

variable {T P : Type} {step : T → P → Option (Out T × T)} {std : T → P → Out T × T}
variable {Meets : T → P → Prop} {value : T} {ops : List P}

def trace (step : T → P → Option (Out T × T)) : T → List P → Option (List (Out T × T))
  | _, [] => some []
  | value, op :: ops => do
    let r ← step value op
    let rest ← trace step r.2 ops
    some (r :: rest)

def stdTrace (std : T → P → Out T × T) : T → List P → List (Out T × T)
  | _, [] => []
  | value, op :: ops => std value op :: stdTrace std (std value op).2 ops

/-- Every operation meets a condition on it and on the value that `std::atomic` has
stored by then. -/
def Along (std : T → P → Out T × T) (Meets : T → P → Prop) : T → List P → Prop
  | _, [] => True
  | value, op :: ops => Meets value op ∧ Along std Meets (std value op).2 ops

/-- Two implementations that agree on an operation exactly under a condition agree on a
sequence exactly if each of its operations meets that. -/
theorem trace_eq_iff (h : ∀ value op, step value op = some (std value op) ↔ Meets value op) :
    trace step value ops = some (stdTrace std value ops) ↔ Along std Meets value ops := by
  induction ops generalizing value with
  | nil => exact iff_of_true rfl trivial
  | cons op ops ih =>
    simp only [trace, stdTrace, Along, ← h, ← ih, Option.bind_eq_bind, Option.bind_eq_some_iff,
      Option.some.injEq, List.cons.injEq]
    constructor
    · rintro ⟨r, hr, rest, hrest, rfl, rfl⟩
      exact ⟨hr, hrest⟩
    · rintro ⟨hr, hrest⟩
      exact ⟨_, hr, _, hrest, rfl, rfl⟩

theorem along_of_forall (h : ∀ value op, Meets value op) : Along std Meets value ops := by
  induction ops generalizing value with
  | nil => trivial
  | cons op ops ih => exact ⟨h value op, ih⟩

/-- Steps that agree with `std::atomic` on every value have its trace. -/
theorem trace_eq (h : ∀ value op, step value op = some (std value op)) :
    trace step value ops = some (stdTrace std value ops) :=
  (trace_eq_iff fun _ _ => Iff.rfl).mpr (along_of_forall h)

end Trace

/-! ### Where the operations agree -/

section Agree

variable {T : Type} [DecidableEq T]

theorem Fiber.base_eq (value : T) (op : BaseOp T) :
    Fiber.base value op = Std.base false value op := by
  cases op <;> simp [Fiber.base, Std.base, Fiber.compareExchangeHelper, Std.compareExchange]

theorem Wrapper.base_eq (fails : Bool) (value : T) (op : BaseOp T) :
    Wrapper.base fails value op = Std.base fails value op := by
  cases op with
  | compareExchangeWeak expected desired =>
    cases fails with
    | true => simp [Wrapper.base, Std.base, Std.compareExchange]
    | false => exact Fiber.base_eq value (.compareExchangeWeak expected desired)
  | assign _ | store _ | load | exchange _ => rfl
  | compareExchangeStrong expected desired =>
    exact Fiber.base_eq value (.compareExchangeStrong expected desired)

/-- The sum is what the two have in common besides what either of them has. -/
theorem add_eq_or_add_and {w : Nat} (x y : BitVec w) : x + y = (x ||| y) + (x &&& y) := by
  have hsplit : y = (y &&& ~~~x) + (x &&& y) := by
    rw [BitVec.add_eq_or_of_and_eq_zero]
    · ext i hi
      simp only [BitVec.getElem_or, BitVec.getElem_and, BitVec.getElem_not]
      cases x[i] <;> cases y[i] <;> rfl
    · ext i hi
      simp only [BitVec.getElem_and, BitVec.getElem_not, BitVec.getElem_zero]
      cases x[i] <;> cases y[i] <;> rfl
  have hor : x ||| y = x + (y &&& ~~~x) := by
    rw [BitVec.add_eq_or_of_and_eq_zero]
    · ext i hi
      simp only [BitVec.getElem_or, BitVec.getElem_and, BitVec.getElem_not]
      cases x[i] <;> cases y[i] <;> rfl
    · ext i hi
      simp only [BitVec.getElem_and, BitVec.getElem_not, BitVec.getElem_zero]
      cases x[i] <;> cases y[i] <;> rfl
  calc x + y = x + ((y &&& ~~~x) + (x &&& y)) := by rw [← hsplit]
    _ = x + (y &&& ~~~x) + (x &&& y) := (BitVec.add_assoc _ _ _).symm
    _ = (x ||| y) + (x &&& y) := by rw [hor]

/-- A sum is the bitwise and only of zeros. -/
theorem add_eq_and_iff {w : Nat} {x y : BitVec w} : x + y = x &&& y ↔ x = 0#w ∧ y = 0#w := by
  constructor
  · intro h
    have hzero : x ||| y = 0#w := by
      rw [add_eq_or_add_and] at h
      exact BitVec.add_left_eq_self.mp h
    exact BitVec.or_eq_zero_iff.mp hzero
  · rintro ⟨rfl, rfl⟩
    simp

end Agree

/-! ### The claims about sequences -/

/-- No increment and no decrement, `fetch_and` only of 0 with 0, and no sum or difference
that overflows. -/
def IntegralType.Agrees (I : IntegralType) (value : I.Value) : IntegralOp I.Value → Prop
  | .base _ => True
  | .arithmetic (.fetchAdd arg) | .arithmetic (.addAssign arg) =>
    I.overflows BitVec.saddOverflow value arg = false
  | .arithmetic (.fetchSub arg) | .arithmetic (.subAssign arg) =>
    I.overflows BitVec.ssubOverflow value arg = false
  | .arithmetic .preIncrement | .arithmetic .postIncrement => False
  | .arithmetic .preDecrement | .arithmetic .postDecrement => False
  | .bitwise (.fetchAnd arg) => value = 0 ∧ arg = 0
  | .bitwise _ => True

def PointerType.Agrees (U : PointerType) (_ : U.Value) : PointerOp U.Value → Prop
  | .base _ => True
  | .arithmetic .preIncrement | .arithmetic .postIncrement => False
  | .arithmetic .preDecrement | .arithmetic .postDecrement => False
  | .arithmetic _ => True

section Increment

variable {w : Nat} {x d : BitVec w}

theorem add_ne_self (hd : d ≠ 0#w) : x + d ≠ x := by
  intro h
  exact hd (BitVec.self_eq_add_right.mp h.symm)

theorem sub_ne_self (hd : d ≠ 0#w) : x - d ≠ x := by
  intro h
  apply hd
  have hsum : x - d + d = x + d := by rw [h]
  rw [BitVec.sub_add_cancel] at hsum
  exact BitVec.self_eq_add_right.mp hsum

end Increment

theorem IntegralType.one_ne_zero (I : IntegralType) : (1 : I.Value) ≠ 0#I.width := by
  intro h
  have hnat := congrArg BitVec.toNat h
  have hpos := Nat.one_lt_two_pow (Nat.pos_iff_ne_zero.mp I.pos)
  have hone : (1 : I.Value).toNat = 1 % 2 ^ I.width := BitVec.toNat_ofNat 1 I.width
  rw [hone, Nat.mod_eq_of_lt hpos] at hnat
  simp at hnat

theorem PointerType.size_ne_zero (U : PointerType) :
    BitVec.ofNat U.width U.size * (1 : U.Difference) ≠ 0#U.width := by
  intro h
  have hnat := congrArg BitVec.toNat h
  rw [show (1 : U.Difference) = 1#U.width from rfl, BitVec.mul_one, BitVec.toNat_ofNat,
    Nat.mod_eq_of_lt U.lt] at hnat
  have hpos := U.pos
  simp only [BitVec.toNat_ofNat, Nat.zero_mod] at hnat
  omega

section Iff

variable {T A : Type} {plus minus : T → A → Option T} {value v w : T} {arg : A}

theorem fetch_eq_some : fetch plus value arg = some (.value v, w) ↔
    plus value arg = some w ∧ value = v := by
  unfold fetch
  rw [Option.map_eq_some_iff]
  simp only [Prod.mk.injEq, Out.value.injEq]
  constructor
  · rintro ⟨x, hx, rfl, rfl⟩
    exact ⟨hx, rfl⟩
  · rintro ⟨hx, rfl⟩
    exact ⟨w, hx, rfl, rfl⟩

theorem assign_eq_some : assign plus value arg = some (.value v, w) ↔
    plus value arg = some w ∧ v = w := by
  unfold assign
  rw [Option.map_eq_some_iff]
  simp only [Prod.mk.injEq, Out.value.injEq]
  constructor
  · rintro ⟨x, hx, rfl, rfl⟩
    exact ⟨hx, rfl⟩
  · rintro ⟨hx, rfl⟩
    exact ⟨v, hx, rfl, rfl⟩

end Iff

theorem IntegralType.plus_eq_some (I : IntegralType) {value arg : I.Value} :
    I.plus value arg = some (value + arg) ↔ I.overflows BitVec.saddOverflow value arg = false := by
  unfold IntegralType.plus
  cases I.overflows BitVec.saddOverflow value arg <;> simp

theorem IntegralType.minus_eq_some (I : IntegralType) {value arg : I.Value} :
    I.minus value arg = some (value - arg) ↔ I.overflows BitVec.ssubOverflow value arg = false := by
  unfold IntegralType.minus
  cases I.overflows BitVec.ssubOverflow value arg <;> simp

/-- The arithmetic of the fiber backend agrees where nothing overflows, but never in `++` and
`--`. -/
theorem Fiber.arithmetic_integral_iff (I : IntegralType) (value : I.Value)
    (op : ArithmeticOp I.Value) :
    Fiber.arithmetic I.plus I.minus 1 value op =
      some (Std.arithmetic (· + ·) (· - ·) 1 value op) ↔ I.Agrees value (.arithmetic op) := by
  cases op with
  | fetchAdd arg | addAssign arg =>
    simp [Fiber.arithmetic, Std.arithmetic, fetch_eq_some, assign_eq_some,
      I.plus_eq_some, IntegralType.Agrees]
  | fetchSub arg | subAssign arg =>
    simp [Fiber.arithmetic, Std.arithmetic, fetch_eq_some, assign_eq_some,
      I.minus_eq_some, IntegralType.Agrees]
  | preIncrement =>
    simp only [Fiber.arithmetic, Std.arithmetic, fetch_eq_some, IntegralType.Agrees, iff_false]
    rintro ⟨-, h⟩
    exact add_ne_self I.one_ne_zero h.symm
  | postIncrement =>
    simp only [Fiber.arithmetic, Std.arithmetic, assign_eq_some, IntegralType.Agrees, iff_false]
    rintro ⟨-, h⟩
    exact add_ne_self I.one_ne_zero h.symm
  | preDecrement =>
    simp only [Fiber.arithmetic, Std.arithmetic, fetch_eq_some, IntegralType.Agrees, iff_false]
    rintro ⟨-, h⟩
    exact sub_ne_self I.one_ne_zero h.symm
  | postDecrement =>
    simp only [Fiber.arithmetic, Std.arithmetic, assign_eq_some, IntegralType.Agrees, iff_false]
    rintro ⟨-, h⟩
    exact sub_ne_self I.one_ne_zero h.symm

/-- `fetch_and` agrees only of 0 with 0, and the other operations always. -/
theorem Fiber.bitwise_iff (I : IntegralType) (value : I.Value) (op : BitwiseOp I.Value) :
    Fiber.bitwise I value op = some (Std.bitwise value op) ↔ I.Agrees value (.bitwise op) := by
  cases op with
  | fetchAnd arg =>
    simp only [Fiber.bitwise, Std.bitwise, fetch_eq_some, and_true, IntegralType.Agrees]
    constructor
    · intro h
      unfold IntegralType.plus at h
      split at h
      · contradiction
      · exact add_eq_and_iff.mp (Option.some.inj h)
    · rintro ⟨rfl, rfl⟩
      have hplus : I.plus 0 0 = some (0 + 0) := by
        rw [I.plus_eq_some]
        have hpow : (0 : Int) < 2 ^ (I.width - 1) := Int.pow_pos (by decide)
        have hsum : BitVec.saddOverflow (0 : I.Value) 0 = false := by
          simp [BitVec.saddOverflow, hpow, Int.le_of_lt hpow]
        rw [IntegralType.overflows, hsum, Bool.and_false]
      simpa using hplus
  | fetchOr arg | fetchXor arg | andAssign arg | orAssign arg | xorAssign arg =>
    simp [Fiber.bitwise, Std.bitwise, fetch_eq_some, assign_eq_some, IntegralType.Agrees]

theorem Fiber.arithmetic_pointer_iff (U : PointerType) (value : U.Value)
    (op : ArithmeticOp U.Difference) :
    Fiber.arithmetic U.plus U.minus 1 value op =
      some (Std.arithmetic (fun v a => v + BitVec.ofNat U.width U.size * a)
        (fun v a => v - BitVec.ofNat U.width U.size * a) 1 value op) ↔
      U.Agrees value (.arithmetic op) := by
  cases op with
  | fetchAdd arg | addAssign arg | fetchSub arg | subAssign arg =>
    simp [Fiber.arithmetic, Std.arithmetic, fetch_eq_some, assign_eq_some, PointerType.plus,
      PointerType.minus, PointerType.Agrees]
  | preIncrement =>
    simp only [Fiber.arithmetic, Std.arithmetic, fetch_eq_some, PointerType.Agrees, iff_false]
    rintro ⟨-, h⟩
    exact add_ne_self U.size_ne_zero h.symm
  | postIncrement =>
    simp only [Fiber.arithmetic, Std.arithmetic, assign_eq_some, PointerType.Agrees, iff_false]
    rintro ⟨-, h⟩
    exact add_ne_self U.size_ne_zero h.symm
  | preDecrement =>
    simp only [Fiber.arithmetic, Std.arithmetic, fetch_eq_some, PointerType.Agrees, iff_false]
    rintro ⟨-, h⟩
    exact sub_ne_self U.size_ne_zero h.symm
  | postDecrement =>
    simp only [Fiber.arithmetic, Std.arithmetic, assign_eq_some, PointerType.Agrees, iff_false]
    rintro ⟨-, h⟩
    exact sub_ne_self U.size_ne_zero h.symm

theorem Fiber.integral_iff (I : IntegralType) (value : I.Value) (op : IntegralOp I.Value) :
    Fiber.integral I value op = some (Std.integral false value op) ↔ I.Agrees value op := by
  cases op with
  | base op => exact iff_of_true (congrArg some (Fiber.base_eq value op)) trivial
  | arithmetic op => exact Fiber.arithmetic_integral_iff I value op
  | bitwise op => exact Fiber.bitwise_iff I value op

theorem Fiber.pointer_iff (U : PointerType) (value : U.Value) (op : PointerOp U.Value) :
    Fiber.pointer U value op = some (Std.pointer U false value op) ↔ U.Agrees value op := by
  cases op with
  | base op => exact iff_of_true (congrArg some (Fiber.base_eq value op)) trivial
  | arithmetic op => exact Fiber.arithmetic_pointer_iff U value op

theorem Wrapper.integral_iff (I : IntegralType) (fails : Bool) (value : I.Value)
    (op : IntegralOp I.Value) :
    Wrapper.integral I fails value op = some (Std.integral fails value op) ↔ I.Agrees value op := by
  cases op with
  | base op => exact iff_of_true (congrArg some (Wrapper.base_eq fails value op)) trivial
  | arithmetic op => exact Fiber.arithmetic_integral_iff I value op
  | bitwise op => exact Fiber.bitwise_iff I value op

theorem Wrapper.pointer_iff (U : PointerType) (fails : Bool) (value : U.Value)
    (op : PointerOp U.Value) :
    Wrapper.pointer U fails value op = some (Std.pointer U fails value op) ↔
      U.Agrees value op := by
  cases op with
  | base op => exact iff_of_true (congrArg some (Wrapper.base_eq fails value op)) trivial
  | arithmetic op => exact Fiber.arithmetic_pointer_iff U value op

/-- The wrapper in a sequence: each operation comes with a random number. -/
def Wrapper.drawn {T P : Type} (sAtomicFailFrequency : Nat)
    (step : Bool → T → P → Option (Out T × T)) (value : T) (op : P × Nat) :
    Option (Out T × T) :=
  step (shouldFailAtomicWeak sAtomicFailFrequency op.2) value op.1

/-- `std::atomic`, whose weak compare-and-swap fails spuriously where the wrapper does. -/
def Std.drawn {T P : Type} (sAtomicFailFrequency : Nat) (std : Bool → T → P → Out T × T)
    (value : T) (op : P × Nat) : Out T × T :=
  std (shouldFailAtomicWeak sAtomicFailFrequency op.2) value op.1

/-- For every type and every sequence of operations, the fiber backend and the wrapper
return and store what `std::atomic` does if and only if each operation of the sequence is
one where they agree, on the value that is stored by then. A `bool`, and what else has the
operations of every type only, always agrees. -/
theorem atomic_agrees (freq : Nat) :
    (∀ (I : IntegralType) (value : I.Value) (ops : List (IntegralOp I.Value)),
      trace (Fiber.integral I) value ops = some (stdTrace (Std.integral false) value ops) ↔
        Along (Std.integral false) I.Agrees value ops) ∧
    (∀ (I : IntegralType) (value : I.Value) (ops : List (IntegralOp I.Value × Nat)),
      trace (Wrapper.drawn freq (Wrapper.integral I)) value ops =
        some (stdTrace (Std.drawn freq Std.integral) value ops) ↔
        Along (Std.drawn freq Std.integral) (fun value op => I.Agrees value op.1) value ops) ∧
    (∀ (U : PointerType) (value : U.Value) (ops : List (PointerOp U.Value)),
      trace (Fiber.pointer U) value ops = some (stdTrace (Std.pointer U false) value ops) ↔
        Along (Std.pointer U false) U.Agrees value ops) ∧
    (∀ (U : PointerType) (value : U.Value) (ops : List (PointerOp U.Value × Nat)),
      trace (Wrapper.drawn freq (Wrapper.pointer U)) value ops =
        some (stdTrace (Std.drawn freq (Std.pointer U)) value ops) ↔
        Along (Std.drawn freq (Std.pointer U)) (fun value op => U.Agrees value op.1) value ops) ∧
    (∀ (T : Type) [DecidableEq T] (value : T) (ops : List (BaseOp T × Nat)),
      trace (fun value op => some (Fiber.base value op)) value (ops.map Prod.fst) =
        some (stdTrace (Std.base false) value (ops.map Prod.fst)) ∧
      trace (Wrapper.drawn freq fun fails value op => some (Wrapper.base fails value op)) value ops =
        some (stdTrace (Std.drawn freq Std.base) value ops)) := by
  refine ⟨?_, ?_, ?_, ?_, ?_⟩
  · intro I value ops
    exact trace_eq_iff fun value op => Fiber.integral_iff I value op
  · intro I value ops
    exact trace_eq_iff fun value op => Wrapper.integral_iff I _ value op.1
  · intro U value ops
    exact trace_eq_iff fun value op => Fiber.pointer_iff U value op
  · intro U value ops
    exact trace_eq_iff fun value op => Wrapper.pointer_iff U _ value op.1
  · intro T _ value ops
    refine ⟨trace_eq fun value op => congrArg some (Fiber.base_eq value op), trace_eq ?_⟩
    intro value op
    exact congrArg some (Wrapper.base_eq _ value op.1)

abbrev unsignedInt : IntegralType := ⟨32, false, by decide⟩

/-- `fetch_and(3)` of 6 leaves 9 and not 2, and `++` of 6 returns 6 and not 7. -/
theorem not_atomic_agrees :
    ¬ (∀ (I : IntegralType) (value : I.Value) (ops : List (IntegralOp I.Value)),
      trace (Fiber.integral I) value ops = some (stdTrace (Std.integral false) value ops)) ∧
    trace (Fiber.integral unsignedInt) 6#32 [.bitwise (.fetchAnd 3#32)] =
      some [(.value 6#32, 9#32)] ∧
    stdTrace (Std.integral false) 6#32 [.bitwise (.fetchAnd 3#32)] = [(.value 6#32, 2#32)] ∧
    trace (Fiber.integral unsignedInt) 6#32 [.arithmetic .preIncrement] =
      some [(.value 6#32, 7#32)] ∧
    stdTrace (Std.integral false) 6#32 [.arithmetic .preIncrement] = [(.value 7#32, 7#32)] := by
  refine ⟨?_, by decide, by decide, by decide, by decide⟩
  intro h
  have hfetch := h unsignedInt 6#32 [.bitwise (.fetchAnd 3#32)]
  revert hfetch
  decide

end Yaclib.Fault.Atomic
