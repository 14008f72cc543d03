import Mathlib.Data.Set.Card

/-!
A counter that counts holders. `Counts p n` says that `n` things satisfy `p`; a step that gives
something away, takes it back or hands it over changes the number by one, or not.

Nothing here depends on what the holders are.
-/

namespace Yaclib.Concurrency

variable {α : Type*} {p q : α → Prop} {n : Nat} {a b : α}

def Counts (p : α → Prop) (n : Nat) : Prop := {x | p x}.encard = n

namespace Counts

theorem congr (h : Counts p n) (hq : ∀ x, q x ↔ p x) : Counts q n := by
  have hset : {x | q x} = {x | p x} := Set.ext hq
  rwa [Counts, hset]

theorem zero (hp : ∀ x, ¬ p x) : Counts p 0 := by
  rw [Counts, Nat.cast_zero, Set.encard_eq_zero]
  exact Set.eq_empty_iff_forall_notMem.mpr hp

theorem not_of_zero (h : Counts p 0) : ¬ p a := by
  rw [Counts, Nat.cast_zero, Set.encard_eq_zero] at h
  exact Set.eq_empty_iff_forall_notMem.mp h a

theorem pos (h : Counts p n) (ha : p a) : 0 < n := by
  rw [Nat.pos_iff_ne_zero]
  rintro rfl
  exact h.not_of_zero ha

theorem add (h : Counts p n) (ha : ¬ p a) (hq : ∀ x, q x ↔ p x ∨ x = a) : Counts q (n + 1) := by
  have hset : {x | q x} = insert a {x | p x} := by
    ext x
    rw [Set.mem_insert_iff, or_comm]
    exact hq x
  have hna : a ∉ {x | p x} := ha
  rw [Counts, hset, Set.encard_insert_of_notMem hna, h]
  exact Nat.cast_succ n

theorem remove (h : Counts p n) (ha : p a) (hq : ∀ x, q x ↔ p x ∧ x ≠ a) : Counts q (n - 1) := by
  have hset : {x | p x} = insert a {x | q x} := by
    ext x
    rw [Set.mem_insert_iff, Set.mem_ofPred_eq, Set.mem_ofPred_eq, hq x]
    by_cases hx : x = a
    · simp [hx, ha]
    · simp [hx]
  have hna : a ∉ {x | q x} := fun hqa => ((hq a).mp hqa).2 rfl
  have hpos := h.pos ha
  rw [Counts, hset, Set.encard_insert_of_notMem hna] at h
  have hn : ((n : ℕ) : ℕ∞) = ((n - 1 : ℕ) : ℕ∞) + 1 := by
    rw [← Nat.cast_succ, Nat.succ_eq_add_one, Nat.sub_add_cancel hpos]
  rw [hn] at h
  exact WithTop.add_right_cancel ENat.one_ne_top h

/-- `b` hands over to `a`. -/
theorem exchange (h : Counts p n) (ha : ¬ p a) (hb : p b)
    (hq : ∀ x, q x ↔ p x ∧ x ≠ b ∨ x = a) : Counts q n := by
  have hremoved := h.remove (q := fun x => p x ∧ x ≠ b) hb fun x => Iff.rfl
  have hadded := hremoved.add (q := q) (a := a) (fun hx => ha hx.1) hq
  rwa [Nat.sub_add_cancel (h.pos hb)] at hadded

/-- The last holder is alone. -/
theorem eq_of_le_one (h : Counts p n) (hn : n ≤ 1) (ha : p a) (hb : p b) : a = b := by
  have hone : {x | p x}.encard ≤ 1 := by
    rw [h]
    exact_mod_cast hn
  exact Set.encard_le_one_iff.mp hone a b ha hb

/-- No more than one holds. -/
theorem le_one (h : Counts p n) (hsole : ∀ x y, p x → p y → x = y) : n ≤ 1 := by
  have hone : {x | p x}.encard ≤ 1 := Set.encard_le_one_iff.mpr hsole
  rw [h] at hone
  exact_mod_cast hone

end Counts

end Yaclib.Concurrency
