import Yaclib.Concurrency.System
import Yaclib.Concurrency.Tally
import Mathlib.Data.Fintype.Option

/-!
`IntrusivePtr` of `util/detail/intrusive_ptr_impl.hpp` over the counters of `MakeUnique` and
`MakeShared`: any number of pointers and of objects. The pointers that an object owns are
destroyed by calls of their own, after the call that destroys the object.

Left out are the memory of the objects and the interleavings within a call.
-/

namespace Yaclib.Util.IntrusivePtr

open Concurrency

inductive Counter where
  | oneCounter
  | atomicCounter
  deriving DecidableEq

structure Object where
  counter : Counter
  /-- `AtomicCounter` only -/
  count : UInt64
  /-- how often `Delete` was called -/
  destroyed : Nat

namespace Object

/-- `Get`; `OneCounter` counts nothing. -/
def getRef (x : Object) : UInt64 :=
  match x.counter with
  | .oneCounter => 1
  | .atomicCounter => x.count

def add (x : Object) : Object :=
  match x.counter with
  | .oneCounter => x
  | .atomicCounter => { x with count := x.count + 1 }

def delete (x : Object) : Object := { x with destroyed := x.destroyed + 1 }

def sub (x : Object) : Object :=
  match x.counter with
  | .oneCounter => x.delete
  | .atomicCounter =>
    let subEqual := x.count = 1
    let x := { x with count := x.count - 1 }
    if subEqual then x.delete else x

end Object

/-- `none` is the temporary of a call. A pointer that is not constructed has no value; the
null pointer is `some none`. `released` counts the references that no pointer holds: those
given away by `Release`, and those an object is made with. -/
structure State (π ο : Type) where
  ptr : Option π → Option (Option ο)
  object : ο → Option Object
  released : ο → Nat

/-- The calls. The names with `Cross` are the templates for another pointer type. -/
inductive Op (π ο : Type) where
  | makeUnique (p : π) (o : ο)
  | makeShared (p : π) (n : UInt64) (o : ο)
  | null (p : π)
  | raw (p : π) (other : Option ο)
  | noRef (p : π) (other : Option ο)
  | copy (p q : π)
  | move (p q : π)
  | copyCross (p q : π)
  | moveCross (p q : π)
  | assignRaw (p : π) (other : Option ο)
  | assignCopy (p q : π)
  | assignMove (p q : π)
  | assignCopyCross (p q : π)
  | assignMoveCross (p q : π)
  | swap (p q : π)
  | release (p : π)
  | reset (p : π) (other : Option ο)
  | destruct (p : π)

namespace State

variable {π ο : Type} [DecidableEq π] [DecidableEq ο]

def setPtr (s : State π ο) (p : Option π) (v : Option (Option ο)) : State π ο :=
  { s with ptr := Function.update s.ptr p v }

def setObject (s : State π ο) (o : ο) (x : Object) : State π ο :=
  { s with object := Function.update s.object o (some x) }

/-- A reference passes from a pointer to nobody. -/
def giveAway (s : State π ο) : Option ο → State π ο
  | none => s
  | some o => { s with released := Function.update s.released o (s.released o + 1) }

/-- A reference passes from nobody to a pointer. -/
def adopt (s : State π ο) : Option ο → State π ο
  | none => s
  | some o => { s with released := Function.update s.released o (s.released o - 1) }

/-- The object, unless it was destroyed. -/
def alive (s : State π ο) (o : ο) : Option Object :=
  (s.object o).filter fun x => x.destroyed = 0

def incRef (s : State π ο) : Option ο → Option (State π ο)
  | none => some s
  | some o => (s.alive o).map fun x => s.setObject o x.add

def decRef (s : State π ο) : Option ο → Option (State π ο)
  | none => some s
  | some o => (s.alive o).map fun x => s.setObject o x.sub

/-- `IntrusivePtr(T*)` -/
def raw (s : State π ο) (p : Option π) (other : Option ο) : Option (State π ο) :=
  (s.setPtr p (some other)).incRef other

/-- `IntrusivePtr(NoRefTag, T*)`, and `Reset` -/
def noRef (s : State π ο) (p : Option π) (other : Option ο) : State π ο :=
  (s.setPtr p (some other)).adopt other

def copy (s : State π ο) (p q : Option π) : Option (State π ο) := do
  s.raw p (← s.ptr q)

def move (s : State π ο) (p q : Option π) : Option (State π ο) := do
  let v ← s.ptr q
  return (s.setPtr p (some v)).setPtr q (some none)

def swap (s : State π ο) (p q : Option π) : Option (State π ο) := do
  let v ← s.ptr p
  let w ← s.ptr q
  return (s.setPtr p (some w)).setPtr q (some v)

def destruct (s : State π ο) (p : Option π) : Option (State π ο) := do
  let s' ← s.decRef (← s.ptr p)
  return s'.setPtr p none

/-- `operator=(T*)` -/
def assignRaw (s : State π ο) (p : Option π) (other : Option ο) : Option (State π ο) := do
  if (← s.ptr p) = other then return s
  let s ← s.raw none other
  let s ← s.swap none p
  s.destruct none

def assignCopy (s : State π ο) (p q : Option π) : Option (State π ο) := do
  s.assignRaw p (← s.ptr q)

def assignMoveCross (s : State π ο) (p q : Option π) : Option (State π ο) := do
  let s ← s.move none q
  let s ← s.swap none p
  s.destruct none

def release (s : State π ο) (p : Option π) : Option (State π ο) := do
  let v ← s.ptr p
  return (s.setPtr p (some none)).giveAway v

/-- `new Helper` with the references it starts with, of which the pointer adopts one. -/
def make (s : State π ο) (p : Option π) (o : ο) (x : Object) (n : Nat) : State π ο :=
  let s := { s.setObject o x with released := Function.update s.released o n }
  s.noRef p (some o)

end State

variable {π ο : Type}

section

variable [DecidableEq π] [DecidableEq ο]

def exec (s : State π ο) : Op π ο → Option (State π ο)
  | .makeUnique p o => some (s.make p o ⟨.oneCounter, 0, 0⟩ 1)
  | .makeShared p n o => some (s.make p o ⟨.atomicCounter, n, 0⟩ n.toNat)
  | .null p => some (s.setPtr p (some none))
  | .raw p other => s.raw p other
  | .noRef p other => some (s.noRef p other)
  | .copy p q | .copyCross p q => s.copy p q
  | .move p q | .moveCross p q => s.move p q
  | .assignRaw p other => s.assignRaw p other
  | .assignCopy p q | .assignCopyCross p q => s.assignCopy p q
  | .assignMove p q | .swap p q => s.swap p q
  | .assignMoveCross p q => s.assignMoveCross p q
  | .release p => s.release p
  | .reset p other => some (s.noRef p other)
  | .destruct p => s.destruct p

variable [Fintype π]

def pointsTo (o : ο) (v : Option (Option ο)) : Nat := if v = some (some o) then 1 else 0

/-- The pointers to an object, and its released references. -/
def State.refs (s : State π ο) (o : ο) : Nat := tally (pointsTo o) s.ptr + s.released o

/-- Which objects a pointer may be copied for: those that count their references, up to what
the count can hold. -/
def Copyable (s : State π ο) (o : ο) : Prop :=
  (∃ x, s.object o = some x ∧ x.counter = .atomicCounter) ∧ s.refs o + 1 < 2 ^ 64

/-- What the caller has to see to, when objects in `C` may be copied: pointers are constructed
before they are used and once, raw pointers are to living objects, only references that no
pointer holds are adopted, and `Reset` is for empty pointers. -/
def Allowed (C : State π ο → ο → Prop) (s : State π ο) : Op π ο → Prop
  | .makeUnique p o => s.ptr (some p) = none ∧ s.object o = none
  | .makeShared p n o => s.ptr (some p) = none ∧ s.object o = none ∧ n ≠ 0
  | .null p => s.ptr (some p) = none
  | .raw p other => s.ptr (some p) = none ∧ ∀ o, other = some o → s.alive o ≠ none ∧ C s o
  | .noRef p other => s.ptr (some p) = none ∧ ∀ o, other = some o → 0 < s.released o
  | .copy p q | .copyCross p q => s.ptr (some p) = none ∧ s.ptr (some q) ≠ none ∧
      ∀ o, s.ptr (some q) = some (some o) → C s o
  | .move p q | .moveCross p q => s.ptr (some p) = none ∧ s.ptr (some q) ≠ none
  | .assignRaw p other => s.ptr (some p) ≠ none ∧
      ∀ o, other = some o → s.ptr (some p) ≠ some (some o) → s.alive o ≠ none ∧ C s o
  | .assignCopy p q | .assignCopyCross p q =>
      s.ptr (some p) ≠ none ∧ s.ptr (some q) ≠ none ∧
      ∀ o, s.ptr (some q) = some (some o) → s.ptr (some p) ≠ some (some o) → C s o
  | .assignMove p q | .assignMoveCross p q | .swap p q =>
      s.ptr (some p) ≠ none ∧ s.ptr (some q) ≠ none
  | .release p | .destruct p => s.ptr (some p) ≠ none
  | .reset p other => s.ptr (some p) = some none ∧ ∀ o, other = some o → 0 < s.released o

def start : State π ο := ⟨fun _ => none, fun _ => none, fun _ => 0⟩

def system (π ο : Type) [DecidableEq π] [DecidableEq ο] : System (State π ο) (Op π ο) where
  Init s := s = start
  step := exec

/-- An object that has `n` references lives and counts them, or was destroyed once when there
were none left. -/
def Object.Counts (x : Object) (n : Nat) : Prop :=
  (x.destroyed = 0 ∧ 0 < n ∧ x.getRef.toNat = n) ∨ (x.destroyed = 1 ∧ n = 0)

/-- An object has as many references as it counts, also between the parts of a call. -/
structure Counted (s : State π ο) : Prop where
  counts : ∀ o x, s.object o = some x → x.Counts (s.refs o)
  fresh : ∀ o, s.object o = none → s.refs o = 0

/-- Between two calls there is no temporary either. -/
structure Inv (s : State π ο) : Prop where
  counted : Counted s
  temporary : s.ptr none = none

end

section

/-! ### One object -/

namespace Object

variable {x : Object} {n : Nat}

theorem Counts.pos (h : x.Counts n) (hlive : x.destroyed = 0) : 0 < n ∧ x.getRef.toNat = n := by
  rcases h with ⟨-, hcount⟩ | ⟨hdead, -⟩
  · exact hcount
  · omega

theorem Counts.live (h : x.Counts n) (hn : 0 < n) : x.destroyed = 0 := by
  rcases h with ⟨hlive, -⟩ | ⟨-, hzero⟩
  · exact hlive
  · omega

theorem Counts.add (h : x.Counts n) (hlive : x.destroyed = 0)
    (hcounter : x.counter = .atomicCounter) (hn : n + 1 < 2 ^ 64) : x.add.Counts (n + 1) := by
  obtain ⟨-, hcount⟩ := h.pos hlive
  rw [getRef, hcounter] at hcount
  rw [Object.add, hcounter]
  refine .inl ⟨hlive, Nat.succ_pos n, ?_⟩
  change (x.count + 1).toNat = n + 1
  rw [UInt64.toNat_add, hcount, UInt64.toNat_one, Nat.mod_eq_of_lt hn]

/-- The last reference deletes the object. -/
theorem Counts.sub (h : x.Counts n) (hlive : x.destroyed = 0) : x.sub.Counts (n - 1) := by
  obtain ⟨hpos, hcount⟩ := h.pos hlive
  cases hcounter : x.counter with
  | oneCounter =>
    rw [getRef, hcounter] at hcount
    have hone : n = 1 := hcount.symm
    rw [Object.sub, hcounter]
    exact .inr ⟨by rw [delete, hlive], by omega⟩
  | atomicCounter =>
    rw [getRef, hcounter] at hcount
    rw [Object.sub, hcounter]
    by_cases hone : x.count = 1
    · simp only [if_pos hone]
      rw [hone] at hcount
      have hn : n = 1 := hcount.symm
      exact .inr ⟨by rw [delete, hlive], by omega⟩
    · simp only [if_neg hone]
      have hne : n ≠ 1 := by
        rintro rfl
        exact hone (UInt64.toNat_inj.mp hcount)
      refine .inl ⟨hlive, by omega, ?_⟩
      change (x.count - 1).toNat = n - 1
      have hle : (1 : UInt64) ≤ x.count := by
        rw [UInt64.le_iff_toNat_le, hcount]
        exact hpos
      rw [UInt64.toNat_sub_of_le _ _ hle, hcount, UInt64.toNat_one]

end Object

/-! ### The parts of the calls -/

variable {s t : State π ο} {p q : Option π} {other v : Option ο} {o : ο}

theorem alive_eq_some {x : Object} :
    s.alive o = some x ↔ s.object o = some x ∧ x.destroyed = 0 := by
  simp [State.alive, Option.filter_eq_some_iff]

variable [DecidableEq ο] [Fintype π]

theorem pointsTo_self : pointsTo o (some (some o)) = 1 := if_pos rfl

theorem pointsTo_other {w : Option (Option ο)} (h : w ≠ some (some o)) : pointsTo o w = 0 :=
  if_neg h

theorem refs_pos (h : s.ptr p = some (some o)) : 0 < s.refs o := by
  have hle := le_tally_of (pointsTo o) h
  rw [pointsTo_self] at hle
  unfold State.refs
  omega

namespace Counted

theorem alive (h : Counted s) (ho : 0 < s.refs o) : ∃ x, s.alive o = some x := by
  cases hx : s.object o with
  | none =>
    rw [h.fresh o hx] at ho
    exact absurd ho (Nat.lt_irrefl 0)
  | some x => exact ⟨x, alive_eq_some.mpr ⟨hx, (h.counts o x hx).live ho⟩⟩

theorem same (h : Counted s) (hobject : t.object = s.object) (hrefs : ∀ o, t.refs o = s.refs o) :
    Counted t := by
  constructor
  · intro o x hx
    rw [hobject] at hx
    rw [hrefs]
    exact h.counts o x hx
  · intro o hx
    rw [hobject] at hx
    rw [hrefs]
    exact h.fresh o hx

/-- One object and its references change. -/
theorem change (h : Counted s) {x : Object}
    (hobject : t.object = Function.update s.object o (some x)) (hx : x.Counts (t.refs o))
    (hrefs : ∀ o', o' ≠ o → t.refs o' = s.refs o') : Counted t := by
  constructor
  · intro o' y hy
    rw [hobject] at hy
    by_cases ho : o' = o
    · subst ho
      rw [Function.update_self] at hy
      cases hy
      exact hx
    · rw [Function.update_of_ne ho] at hy
      rw [hrefs o' ho]
      exact h.counts o' y hy
  · intro o' hy
    rw [hobject] at hy
    by_cases ho : o' = o
    · subst ho
      rw [Function.update_self] at hy
      cases hy
    · rw [Function.update_of_ne ho] at hy
      rw [hrefs o' ho]
      exact h.fresh o' hy

end Counted

variable [DecidableEq π]

theorem refs_setPtr (s : State π ο) (p : Option π) (w : Option (Option ο)) (o : ο) :
    (s.setPtr p w).refs o + pointsTo o (s.ptr p) = s.refs o + pointsTo o w := by
  have hupdate := tally_update (pointsTo o) s.ptr p w
  change tally (pointsTo o) (Function.update s.ptr p w) + s.released o + pointsTo o (s.ptr p) =
    tally (pointsTo o) s.ptr + s.released o + pointsTo o w
  omega

namespace Counted

/-- A pointer comes to hold a new reference. -/
theorem raw (h : Counted s) (other : Option ο) (hp : s.ptr p = none)
    (hother : ∀ o, other = some o → s.alive o ≠ none ∧ Copyable s o) :
    ∃ t, s.raw p other = some t ∧ Counted t ∧
      t.ptr = Function.update s.ptr p (some other) := by
  have hrefs := refs_setPtr s p (some other)
  simp only [hp, pointsTo_other (Option.some_ne_none _).symm, Nat.add_zero] at hrefs
  cases other with
  | none =>
    refine ⟨s.setPtr p (some none), rfl, h.same rfl ?_, rfl⟩
    intro o
    rw [hrefs, pointsTo_other (by simp), Nat.add_zero]
  | some o =>
    obtain ⟨halive, ⟨y, hy, hcounter⟩, hbound⟩ := hother o rfl
    obtain ⟨x, hx⟩ := Option.ne_none_iff_exists'.mp halive
    obtain ⟨hobject, hlive⟩ := alive_eq_some.mp hx
    obtain rfl : y = x := Option.some.inj (hy.symm.trans hobject)
    have hx' : (s.setPtr p (some (some o))).alive o = some y := hx
    refine ⟨(s.setPtr p (some (some o))).setObject o y.add, ?_, ?_, rfl⟩
    · rw [State.raw, State.incRef, hx', Option.map_some]
    · refine h.change rfl ?_ ?_
      · change y.add.Counts ((s.setPtr p (some (some o))).refs o)
        rw [hrefs, pointsTo_self]
        exact (h.counts o y hobject).add hlive hcounter hbound
      · intro o' ho
        change (s.setPtr p (some (some o))).refs o' = s.refs o'
        rw [hrefs, pointsTo_other (by simpa using Ne.symm ho), Nat.add_zero]

/-- A pointer drops its reference; the last one is the end of the object. -/
theorem destruct (h : Counted s) (hp : s.ptr p = some other) :
    ∃ t, s.destruct p = some t ∧ Counted t ∧ t.ptr = Function.update s.ptr p none := by
  have hrefs := refs_setPtr s p none
  simp only [hp, pointsTo_other (Option.some_ne_none _).symm, Nat.add_zero] at hrefs
  cases other with
  | none =>
    refine ⟨s.setPtr p none, by rw [State.destruct, hp]; rfl, h.same rfl ?_, rfl⟩
    intro o
    rw [← hrefs, pointsTo_other (by simp), Nat.add_zero]
  | some o =>
    obtain ⟨x, hx⟩ := h.alive (refs_pos hp)
    obtain ⟨hobject, hlive⟩ := alive_eq_some.mp hx
    refine ⟨(s.setObject o x.sub).setPtr p none, ?_, ?_, rfl⟩
    · rw [State.destruct, hp]
      simp only [Option.bind_eq_bind, Option.bind_some, State.decRef, hx, Option.map_some]
      rfl
    · refine h.change rfl ?_ ?_
      · change x.sub.Counts ((s.setPtr p none).refs o)
        have hself := hrefs o
        rw [pointsTo_self] at hself
        rw [← Nat.add_sub_cancel ((s.setPtr p none).refs o) 1, hself]
        exact (h.counts o x hobject).sub hlive
      · intro o' ho
        change (s.setPtr p none).refs o' = s.refs o'
        rw [← hrefs o', pointsTo_other (by simpa using Ne.symm ho), Nat.add_zero]

/-- A reference moves to a new pointer. -/
theorem move (h : Counted s) (hp : s.ptr p = none) (hq : s.ptr q = some other) :
    ∃ t, s.move p q = some t ∧ Counted t ∧
      t.ptr = Function.update (Function.update s.ptr p (some other)) q (some none) := by
  have hqp : q ≠ p := by
    rintro rfl
    rw [hp] at hq
    cases hq
  refine ⟨(s.setPtr p (some other)).setPtr q (some none), ?_, h.same rfl ?_, rfl⟩
  · rw [State.move, hq]
    rfl
  · intro o
    have hfirst := refs_setPtr s p (some other) o
    have hsecond := refs_setPtr (s.setPtr p (some other)) q (some none) o
    have hvalue : (s.setPtr p (some other)).ptr q = some other :=
      (Function.update_of_ne hqp _ _).trans hq
    rw [hvalue, pointsTo_other (w := some none) (by simp)] at hsecond
    rw [hp, pointsTo_other (w := none) (by simp)] at hfirst
    omega

theorem swap (h : Counted s) (hp : s.ptr p = some other) (hq : s.ptr q = some v) :
    ∃ t, s.swap p q = some t ∧ Counted t ∧
      t.ptr = Function.update (Function.update s.ptr p (some v)) q (some other) := by
  refine ⟨(s.setPtr p (some v)).setPtr q (some other), ?_, h.same rfl ?_, rfl⟩
  · rw [State.swap, hp, hq]
    rfl
  · intro o
    have hfirst := refs_setPtr s p (some v) o
    have hsecond := refs_setPtr (s.setPtr p (some v)) q (some other) o
    have hvalue : (s.setPtr p (some v)).ptr q = some v := by
      by_cases hqp : q = p
      · subst hqp
        exact Function.update_self q _ _
      · exact (Function.update_of_ne hqp _ _).trans hq
    rw [hvalue] at hsecond
    rw [hp] at hfirst
    omega

/-- A pointer without a reference adopts one that no pointer holds. -/
theorem noRef (h : Counted s) (hp : s.ptr p = none ∨ s.ptr p = some none)
    (hother : ∀ o, other = some o → 0 < s.released o) : Counted (s.noRef p other) := by
  have hrefs : ∀ o, (s.setPtr p (some other)).refs o = s.refs o + pointsTo o (some other) := by
    intro o
    have hset := refs_setPtr s p (some other) o
    have hzero : pointsTo o (s.ptr p) = 0 := by
      rcases hp with hp | hp <;> rw [hp] <;> exact pointsTo_other (by simp)
    omega
  cases other with
  | none =>
    refine h.same rfl fun o => ?_
    change (s.setPtr p (some none)).refs o = s.refs o
    rw [hrefs, pointsTo_other (by simp), Nat.add_zero]
  | some o =>
    have hpos := hother o rfl
    refine h.same rfl fun o' => ?_
    have hset := hrefs o'
    change tally (pointsTo o') (s.setPtr p (some (some o))).ptr +
      Function.update s.released o (s.released o - 1) o' = s.refs o'
    by_cases ho : o' = o
    · subst ho
      rw [Function.update_self]
      rw [pointsTo_self] at hset
      change tally (pointsTo o') (s.setPtr p (some (some o'))).ptr + s.released o' =
        s.refs o' + 1 at hset
      omega
    · rw [Function.update_of_ne ho]
      rw [pointsTo_other (by simpa using Ne.symm ho), Nat.add_zero] at hset
      exact hset

theorem release (h : Counted s) (hp : s.ptr p = some other) :
    ∃ t, s.release p = some t ∧ Counted t ∧ t.ptr = Function.update s.ptr p (some none) := by
  have hrelease : s.release p = some ((s.setPtr p (some none)).giveAway other) := by
    rw [State.release, hp]
    rfl
  have hrefs := refs_setPtr s p (some none)
  simp only [hp, pointsTo_other (w := some none) (by simp), Nat.add_zero] at hrefs
  refine ⟨_, hrelease, ?_⟩
  cases other with
  | none =>
    refine ⟨h.same rfl fun o => ?_, rfl⟩
    rw [← hrefs o, pointsTo_other (by simp), Nat.add_zero]
    rfl
  | some o =>
    refine ⟨h.same rfl fun o' => ?_, rfl⟩
    have hset := hrefs o'
    change tally (pointsTo o') (s.setPtr p (some none)).ptr + s.released o' + _ = _ at hset
    change tally (pointsTo o') (s.setPtr p (some none)).ptr +
      Function.update s.released o (s.released o + 1) o' = s.refs o'
    by_cases ho : o' = o
    · subst ho
      rw [pointsTo_self] at hset
      rw [Function.update_self]
      omega
    · rw [pointsTo_other (by simpa using Ne.symm ho)] at hset
      rw [Function.update_of_ne ho]
      exact hset

/-- A new object, with `n` references. -/
theorem make (h : Counted s) (hp : s.ptr p = none) (ho : s.object o = none) {x : Object} {n : Nat}
    (hn : 0 < n) (hx : x.Counts n) : Counted (s.make p o x n) := by
  have hzero := h.fresh o ho
  unfold State.refs at hzero
  let u : State π ο := { s.setObject o x with released := Function.update s.released o n }
  have hself : u.released o = n := Function.update_self o n s.released
  have hu : Counted u := by
    refine h.change rfl ?_ ?_
    · change x.Counts (tally (pointsTo o) s.ptr + u.released o)
      rw [hself, (Nat.add_eq_zero_iff.mp hzero).1, Nat.zero_add]
      exact hx
    · intro o' ho'
      change tally (pointsTo o') s.ptr + Function.update s.released o n o' = s.refs o'
      rw [Function.update_of_ne ho']
      rfl
  refine hu.noRef (.inl hp) ?_
  intro o' ho'
  cases ho'
  rw [hself]
  exact hn

end Counted

/-! ### The calls -/

namespace Inv

/-- The temporary of a call takes a reference, swaps, and drops what the pointer had. -/
theorem assignRaw (h : Inv s) (other : Option ο) (hp : p ≠ none) (hv : s.ptr p = some v)
    (hother : ∀ o, other = some o → v ≠ some o → s.alive o ≠ none ∧ Copyable s o) :
    ∃ t, s.assignRaw p other = some t ∧ Inv t := by
  by_cases heq : v = other
  · refine ⟨s, ?_, h⟩
    simp only [State.assignRaw, hv, Option.bind_eq_bind, Option.bind_some, if_pos heq]
    rfl
  · obtain ⟨t, ht, hcounted, hptr⟩ := h.counted.raw other h.temporary fun o ho =>
      hother o ho fun hvo => heq (hvo.trans ho.symm)
    have htemp : t.ptr none = some other := by
      rw [hptr, Function.update_self]
    have hself : t.ptr p = some v := by
      rw [hptr, Function.update_of_ne hp, hv]
    obtain ⟨u, hu, hcounted', hptr'⟩ := hcounted.swap htemp hself
    have htemp' : u.ptr none = some v := by
      rw [hptr', Function.update_of_ne hp.symm, Function.update_self]
    obtain ⟨w, hw, hcounted'', hptr''⟩ := hcounted'.destruct htemp'
    refine ⟨w, ?_, hcounted'', ?_⟩
    · simp only [State.assignRaw, hv, Option.bind_eq_bind, Option.bind_some, if_neg heq, ht, hu,
        hw]
    · rw [hptr'', Function.update_self]

theorem assignMoveCross (h : Inv s) (hp : p ≠ none) (hq : q ≠ none) (hv : s.ptr p = some v)
    (hw : s.ptr q = some other) : ∃ t, s.assignMoveCross p q = some t ∧ Inv t := by
  obtain ⟨t, ht, hcounted, hptr⟩ := h.counted.move h.temporary hw
  have htemp : t.ptr none = some other := by
    rw [hptr, Function.update_of_ne hq.symm, Function.update_self]
  have hself : ∃ v', t.ptr p = some v' := by
    rw [hptr]
    by_cases hpq : p = q
    · subst hpq
      exact ⟨none, Function.update_self p _ _⟩
    · exact ⟨v, by rw [Function.update_of_ne hpq, Function.update_of_ne hp, hv]⟩
  obtain ⟨v', hself⟩ := hself
  obtain ⟨u, hu, hcounted', hptr'⟩ := hcounted.swap htemp hself
  have htemp' : u.ptr none = some v' := by
    rw [hptr', Function.update_of_ne hp.symm, Function.update_self]
  obtain ⟨w, hw', hcounted'', hptr''⟩ := hcounted'.destruct htemp'
  refine ⟨w, ?_, hcounted'', ?_⟩
  · simp only [State.assignMoveCross, Option.bind_eq_bind, Option.bind_some, ht, hu, hw']
  · rw [hptr'', Function.update_self]

/-- Calls that write to pointers of the caller leave no temporary. -/
theorem of_counted (h : Inv s) (hcounted : Counted t) {i : π} {w : Option (Option ο)}
    (hptr : t.ptr = Function.update s.ptr (some i) w) : Inv t := by
  refine ⟨hcounted, ?_⟩
  rw [hptr, Function.update_of_ne (Option.some_ne_none i).symm]
  exact h.temporary

theorem copy (h : Inv s) {i j : π} (hi : s.ptr (some i) = none) (hj : s.ptr (some j) ≠ none)
    (hcopy : ∀ o, s.ptr (some j) = some (some o) → Copyable s o) :
    ∃ t, s.copy (some i) (some j) = some t ∧ Inv t := by
  obtain ⟨v, hv⟩ := Option.ne_none_iff_exists'.mp hj
  obtain ⟨t, ht, hcounted, hptr⟩ := h.counted.raw v hi fun o ho => by
    subst ho
    obtain ⟨x, hx⟩ := h.counted.alive (refs_pos hv)
    exact ⟨by simp [hx], hcopy o hv⟩
  refine ⟨t, ?_, h.of_counted hcounted hptr⟩
  simp only [State.copy, hv, Option.bind_eq_bind, Option.bind_some, ht]

theorem assignCopy (h : Inv s) {i j : π} (hi : s.ptr (some i) ≠ none)
    (hj : s.ptr (some j) ≠ none)
    (hcopy : ∀ o, s.ptr (some j) = some (some o) → s.ptr (some i) ≠ some (some o) →
      Copyable s o) :
    ∃ t, s.assignCopy (some i) (some j) = some t ∧ Inv t := by
  obtain ⟨v, hv⟩ := Option.ne_none_iff_exists'.mp hi
  obtain ⟨w, hw⟩ := Option.ne_none_iff_exists'.mp hj
  obtain ⟨t, ht, hinv⟩ := h.assignRaw w (Option.some_ne_none i) hv fun o ho hne => by
    subst ho
    obtain ⟨x, hx⟩ := h.counted.alive (refs_pos hw)
    refine ⟨by simp [hx], hcopy o hw ?_⟩
    rw [hv]
    exact fun heq => hne (Option.some.inj heq)
  refine ⟨t, ?_, hinv⟩
  simp only [State.assignCopy, hw, Option.bind_eq_bind, Option.bind_some, ht]

theorem move (h : Inv s) {i j : π} (hi : s.ptr (some i) = none) (hj : s.ptr (some j) ≠ none) :
    ∃ t, s.move (some i) (some j) = some t ∧ Inv t := by
  obtain ⟨v, hv⟩ := Option.ne_none_iff_exists'.mp hj
  obtain ⟨t, ht, hcounted, hptr⟩ := h.counted.move hi hv
  refine ⟨t, ht, hcounted, ?_⟩
  rw [hptr, Function.update_of_ne (Option.some_ne_none j).symm,
    Function.update_of_ne (Option.some_ne_none i).symm]
  exact h.temporary

theorem swap (h : Inv s) {i j : π} (hi : s.ptr (some i) ≠ none) (hj : s.ptr (some j) ≠ none) :
    ∃ t, s.swap (some i) (some j) = some t ∧ Inv t := by
  obtain ⟨v, hv⟩ := Option.ne_none_iff_exists'.mp hi
  obtain ⟨w, hw⟩ := Option.ne_none_iff_exists'.mp hj
  obtain ⟨t, ht, hcounted, hptr⟩ := h.counted.swap hv hw
  refine ⟨t, ht, hcounted, ?_⟩
  rw [hptr, Function.update_of_ne (Option.some_ne_none j).symm,
    Function.update_of_ne (Option.some_ne_none i).symm]
  exact h.temporary

theorem noRef (h : Inv s) {i : π} (hi : s.ptr (some i) = none ∨ s.ptr (some i) = some none)
    (hother : ∀ o, other = some o → 0 < s.released o) : Inv (s.noRef (some i) other) := by
  refine ⟨h.counted.noRef hi hother, ?_⟩
  have hptr : (s.noRef (some i) other).ptr = Function.update s.ptr (some i) (some other) := by
    cases other <;> rfl
  rw [hptr, Function.update_of_ne (Option.some_ne_none i).symm]
  exact h.temporary

/-- Every allowed call touches living objects only, and keeps the references counted. -/
theorem exec (h : Inv s) {e : Op π ο} (ha : Allowed Copyable s e) :
    ∃ t, IntrusivePtr.exec s e = some t ∧ Inv t := by
  cases e with
  | makeUnique i o =>
    obtain ⟨hi, ho⟩ := ha
    have hcounts : Object.Counts ⟨.oneCounter, 0, 0⟩ 1 := .inl ⟨rfl, Nat.one_pos, rfl⟩
    exact ⟨_, rfl, h.of_counted (h.counted.make hi ho Nat.one_pos hcounts) rfl⟩
  | makeShared i n o =>
    obtain ⟨hi, ho, hn⟩ := ha
    have hpos : 0 < n.toNat := Nat.pos_of_ne_zero fun hzero => hn (UInt64.toNat_inj.mp hzero)
    have hcounts : Object.Counts ⟨.atomicCounter, n, 0⟩ n.toNat := .inl ⟨rfl, hpos, rfl⟩
    exact ⟨_, rfl, h.of_counted (h.counted.make hi ho hpos hcounts) rfl⟩
  | null i =>
    obtain ⟨t, ht, hcounted, hptr⟩ := h.counted.raw none ha (by simp)
    cases ht
    exact ⟨_, rfl, h.of_counted hcounted hptr⟩
  | raw i other =>
    obtain ⟨t, ht, hcounted, hptr⟩ := h.counted.raw other ha.1 ha.2
    exact ⟨t, ht, h.of_counted hcounted hptr⟩
  | noRef i other => exact ⟨_, rfl, h.noRef (.inl ha.1) ha.2⟩
  | copy i j | copyCross i j => exact h.copy ha.1 ha.2.1 ha.2.2
  | move i j | moveCross i j => exact h.move ha.1 ha.2
  | assignRaw i other =>
    obtain ⟨v, hv⟩ := Option.ne_none_iff_exists'.mp ha.1
    refine h.assignRaw other (Option.some_ne_none i) hv fun o ho hne => ha.2 o ho ?_
    rw [hv]
    exact fun heq => hne (Option.some.inj heq)
  | assignCopy i j | assignCopyCross i j => exact h.assignCopy ha.1 ha.2.1 ha.2.2
  | assignMove i j | swap i j => exact h.swap ha.1 ha.2
  | assignMoveCross i j =>
    obtain ⟨v, hv⟩ := Option.ne_none_iff_exists'.mp ha.1
    obtain ⟨w, hw⟩ := Option.ne_none_iff_exists'.mp ha.2
    exact h.assignMoveCross (Option.some_ne_none i) (Option.some_ne_none j) hv hw
  | release i =>
    obtain ⟨v, hv⟩ := Option.ne_none_iff_exists'.mp ha
    obtain ⟨t, ht, hcounted, hptr⟩ := h.counted.release hv
    exact ⟨t, ht, h.of_counted hcounted hptr⟩
  | reset i other => exact ⟨_, rfl, h.noRef (.inr ha.1) ha.2⟩
  | destruct i =>
    obtain ⟨v, hv⟩ := Option.ne_none_iff_exists'.mp ha
    obtain ⟨t, ht, hcounted, hptr⟩ := h.counted.destruct hv
    exact ⟨t, ht, h.of_counted hcounted hptr⟩

end Inv

/-- The states that calls lead to, when objects in `C` may be copied. -/
def Reachable (C : State π ο → ο → Prop) : State π ο → Prop :=
  (system π ο).ReachableIf fun s e _ => Allowed C s e

theorem inv_reachable (h : Reachable Copyable s) : Inv s := by
  refine System.Inductive.reachable (P := Inv) ⟨?_, ?_⟩ h
  · rintro s rfl
    have hrefs : ∀ o, (start : State π ο).refs o = 0 := by
      intro o
      refine Nat.add_eq_zero_iff.mpr ⟨tally_eq_zero.mpr fun p => ?_, rfl⟩
      exact pointsTo_other (w := none) (by simp)
    refine ⟨⟨?_, fun o _ => hrefs o⟩, rfl⟩
    intro o x hx
    cases hx
  · intro s e t hinv hstep ha
    obtain ⟨u, hu, hinv'⟩ := hinv.exec ha
    cases hu.symm.trans hstep
    exact hinv'

/-- As long as no pointer to an object of `MakeUnique` is copied, and no object has `2 ^ 64`
references: every call succeeds, an object's count is the number of its references, and it is
destroyed once, by the call that drops the last of them. -/
theorem references_conserved (h : Reachable Copyable s) :
    (∀ o x, s.object o = some x →
      (x.destroyed = 0 ∧ 0 < s.refs o ∧ x.getRef.toNat = s.refs o) ∨
      (x.destroyed = 1 ∧ s.refs o = 0)) ∧
    ∀ e, Allowed Copyable s e → ∃ t, exec s e = some t ∧
      ∀ o x y, s.object o = some x → t.object o = some y →
        (y.destroyed = x.destroyed + 1 ↔ 0 < s.refs o ∧ t.refs o = 0) := by
  have hinv := inv_reachable h
  refine ⟨hinv.counted.counts, ?_⟩
  intro e ha
  obtain ⟨t, ht, hinv'⟩ := hinv.exec ha
  refine ⟨t, ht, ?_⟩
  intro o x y hx hy
  have hbefore := hinv.counted.counts o x hx
  have hafter := hinv'.counted.counts o y hy
  unfold Object.Counts at hbefore hafter
  omega

end

/-- The first pointer to a new object. -/
def first (x : Object) : State (Fin 2) Unit := State.make start (some 0) () x 1

/-- Two pointers to an object of `MakeShared`. -/
theorem references_conserved_two : ∃ s : State (Fin 2) Unit,
    s.refs () = 2 ∧ ∃ x, s.object () = some x ∧ x.getRef.toNat = 2 := by
  have hmake : Reachable Copyable (first ⟨.atomicCounter, 1, 0⟩) :=
    .step (e := .makeShared 0 1 ()) (.init rfl) rfl ⟨rfl, rfl, by decide⟩
  have hallowed : Allowed Copyable (first ⟨.atomicCounter, 1, 0⟩) (.copy 1 0) := by
    refine ⟨rfl, by decide, ?_⟩
    rintro ⟨⟩ -
    exact ⟨⟨_, rfl, rfl⟩, by decide⟩
  obtain ⟨t, ht, -⟩ := (references_conserved hmake).2 (.copy 1 0) hallowed
  have hcopy : Reachable Copyable t := .step (e := .copy 1 0) hmake ht hallowed
  have hrefs := congrArg (Option.map fun t => t.refs ()) ht
  have hobject := congrArg (Option.map fun t => (t.object ()).isSome) ht
  have htwo : t.refs () = 2 := (Option.some.inj hrefs).symm
  obtain ⟨x, hx⟩ := Option.isSome_iff_exists.mp (Option.some.inj hobject).symm
  refine ⟨t, htwo, x, hx, ?_⟩
  rcases (references_conserved hcopy).1 () x hx with ⟨-, -, hcount⟩ | ⟨-, hzero⟩
  · rw [hcount, htwo]
  · omega

/-- `OneCounter` does not see the second pointer. -/
theorem not_references_conserved : ¬ ∀ s : State (Fin 2) Unit,
    Reachable (fun _ _ => True) s → ∀ o x, s.object o = some x →
      (x.destroyed = 0 ∧ 0 < s.refs o ∧ x.getRef.toNat = s.refs o) ∨
      (x.destroyed = 1 ∧ s.refs o = 0) := by
  intro hclaim
  have hmake : Reachable (fun _ _ => True) (first ⟨.oneCounter, 0, 0⟩) :=
    .step (e := .makeUnique 0 ()) (.init rfl) rfl ⟨rfl, rfl⟩
  have hcopy := hclaim _ (.step (e := .copy 1 0) hmake rfl ⟨rfl, by decide, fun _ _ => trivial⟩)
    () _ rfl
  revert hcopy
  decide

end Yaclib.Util.IntrusivePtr
