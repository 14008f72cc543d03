import Mathlib.Algebra.Group.Nat.Defs
import Yaclib.Runtime.FairThreadPool.Model

/-!
`_jobs_count` packs the number of jobs and two flags in one word.
-/

namespace Yaclib.FairThreadPool

variable {m n : UInt64} {a : Nat} {want stop : Bool}

/-! The stopped flag, for a counter that may wrap around. -/

theorem and_one_eq (n : UInt64) : (n &&& 1).toNat = n.toNat % 2 := by
  rw [UInt64.toNat_and]
  exact Nat.and_one_is_mod _

theorem wasStop_iff (n : UInt64) : wasStop n = true ↔ n.toNat % 2 = 1 := by
  have hlt := Nat.mod_lt n.toNat (show 0 < 2 by decide)
  rw [wasStop, bne_iff_ne, ne_eq, ← UInt64.toNat_inj, and_one_eq]
  simp only [UInt64.toNat_zero]
  omega

theorem wasStop_congr (h : m.toNat % 2 = n.toNat % 2) : wasStop m = wasStop n := by
  rw [Bool.eq_iff_iff, wasStop_iff, wasStop_iff, h]

@[simp] theorem wasStop_add (n : UInt64) : wasStop (n + 4) = wasStop n := by
  apply wasStop_congr
  rw [UInt64.toNat_add]
  simp only [UInt64.reduceToNat]
  omega

@[simp] theorem wasStop_sub (n : UInt64) : wasStop (n - 4) = wasStop n := by
  apply wasStop_congr
  rw [UInt64.toNat_sub]
  simp only [UInt64.reduceToNat]
  omega

@[simp] theorem wasStop_stop (n : UInt64) : wasStop (n ||| 1) = true := by
  rw [wasStop_iff, UInt64.toNat_or]
  simp

@[simp] theorem wasStop_want (n : UInt64) : wasStop (n ||| 2) = wasStop n := by
  apply wasStop_congr
  have hiff : (n ||| 2).toNat % 2 = 1 ↔ n.toNat % 2 = 1 := by
    rw [UInt64.toNat_or]
    simp
  omega

/-! All three parts, for a counter that does not. -/

theorem or_low (a : Nat) {x y : Nat} (hx : x < 4) (hy : y < 4) :
    4 * a + x ||| y = 4 * a + (x ||| y) := by
  have hlow := Nat.two_pow_add_eq_or_of_lt (i := 2) hx a
  have hor := Nat.two_pow_add_eq_or_of_lt (i := 2) (Nat.or_lt_two_pow hx hy) a
  calc 4 * a + x ||| y = (2 ^ 2 * a ||| x) ||| y := by rw [← hlow]
    _ = 2 ^ 2 * a ||| (x ||| y) := Nat.or_assoc _ _ _
    _ = 4 * a + (x ||| y) := hor.symm

theorem and_low (a : Nat) {x y : Nat} (hx : x < 4) (hy : y < 4) :
    (4 * a + x) &&& y = x &&& y := by
  have hmod := Nat.and_mod_two_pow (a := 4 * a + x) (b := y) (n := 2)
  have hlt : (4 * a + x) &&& y < 2 ^ 2 := Nat.and_lt_two_pow _ hy
  rw [Nat.mod_eq_of_lt hlt] at hmod
  rw [hmod]
  congr 1 <;> omega

/-- `n` holds the count `a` and the two flags. -/
def Packed (n : UInt64) (a : Nat) (want stop : Bool) : Prop :=
  n.toNat = 4 * a + 2 * want.toNat + stop.toNat

/-- The word without its flags is the count. -/
theorem Packed.shift_eq (h : Packed n a want stop) : (n >>> 2).toNat = a := by
  have hwant := want.toNat_le
  have hstop := stop.toNat_le
  rw [UInt64.toNat_shiftRight, h]
  simp [Nat.shiftRight_eq_div_pow]
  omega

/-- `NoJobs` asks whether the count is zero, whatever the flags are. -/
theorem Packed.noJobs_iff (h : Packed n a want stop) : noJobs n = true ↔ a = 0 := by
  rw [noJobs, beq_iff_eq, ← UInt64.toNat_inj, h.shift_eq]
  rfl

theorem Packed.wasStop_eq (h : Packed n a want stop) : wasStop n = stop := by
  rw [Bool.eq_iff_iff, wasStop_iff, h]
  cases stop <;> simp <;> omega

theorem Packed.wantStop_eq (h : Packed n a want stop) : wantStop n = want := by
  have hbit : (n &&& 2).toNat = 2 * want.toNat := by
    rw [UInt64.toNat_and, h, Nat.add_assoc]
    refine (and_low a (by cases want <;> cases stop <;> decide) (by decide)).trans ?_
    cases want <;> cases stop <;> rfl
  rw [Bool.eq_iff_iff, wantStop, bne_iff_ne, ne_eq, ← UInt64.toNat_inj, hbit]
  cases want <;> simp

/-- A job more: the flags stay, as long as the count does not reach the top of the word. -/
theorem Packed.add (h : Packed n a want stop) (hlt : a + 1 < 2 ^ 62) :
    Packed (n + 4) (a + 1) want stop := by
  have hwant := want.toNat_le
  have hstop := stop.toNat_le
  rw [Packed] at h ⊢
  rw [UInt64.toNat_add, h]
  simp only [UInt64.reduceToNat]
  omega

/-- A job less: nothing is borrowed from the flags. -/
theorem Packed.sub (h : Packed n (a + 1) want stop) : Packed (n - 4) a want stop := by
  have hlt := n.toNat_lt
  rw [Packed] at h ⊢
  rw [UInt64.toNat_sub]
  simp only [UInt64.reduceToNat]
  omega

theorem Packed.setStop (h : Packed n a want stop) : Packed (n ||| 1) a want true := by
  rw [Packed] at h ⊢
  rw [UInt64.toNat_or, h, Nat.add_assoc]
  refine (or_low a (by cases want <;> cases stop <;> decide) (by decide)).trans ?_
  cases want <;> cases stop <;> rfl

theorem Packed.setWant (h : Packed n a want stop) : Packed (n ||| 2) a true stop := by
  rw [Packed] at h ⊢
  rw [UInt64.toNat_or, h, Nat.add_assoc]
  refine (or_low a (by cases want <;> cases stop <;> decide) (by decide)).trans ?_
  cases want <;> cases stop <;> rfl

end Yaclib.FairThreadPool
