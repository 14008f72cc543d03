import Mathlib.Tactic.Common

/-!
`std::uint32_t` counters.
-/

namespace Yaclib.Counter

variable {x : UInt32}

theorem toNat_add_one (h : x + 1 ≠ 0) : (x + 1).toNat = x.toNat + 1 := by
  have hlt := x.toNat_lt
  have hne : (x + 1).toNat ≠ 0 := fun hzero => h (UInt32.toNat_inj.mp hzero)
  rw [UInt32.toNat_add, UInt32.toNat_one] at *
  omega

theorem toNat_sub_one (h : x ≠ 0) : (x - 1).toNat = x.toNat - 1 := by
  have hne : x.toNat ≠ 0 := fun hzero => h (UInt32.toNat_inj.mp hzero)
  exact UInt32.toNat_sub_of_le _ _ (UInt32.le_iff_toNat_le.mpr (Nat.pos_of_ne_zero hne))

end Yaclib.Counter
