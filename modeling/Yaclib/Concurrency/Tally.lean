import Mathlib.Algebra.BigOperators.Group.Finset.Piecewise
import Mathlib.Algebra.BigOperators.Ring.Finset
import Mathlib.Algebra.Order.BigOperators.Group.Finset
import Mathlib.Tactic.Linarith

/-!
Counting threads. The invariant of a lock relates its counters to the number
of threads at each place of the program. `tally w f` adds the weights `w` of
all threads' places `f`; one thread moving from `f i` to `a` changes every
tally by `tally_update`, whatever the number of threads. `tallyP p f` counts the
elements with `p` of lists, one for each thread, and `once n` what is done when the
last of `n` is gone.
-/

namespace Yaclib.Concurrency

variable {ι α : Type*} [Fintype ι]

/-- The total weight of the places of all threads. -/
def tally (w : α → Nat) (f : ι → α) : Nat := ∑ i, w (f i)

theorem le_tally (w : α → Nat) (f : ι → α) (i : ι) : w (f i) ≤ tally w f :=
  Finset.single_le_sum (f := fun j => w (f j)) (fun _ _ => Nat.zero_le _) (Finset.mem_univ i)

theorem le_tally_of (w : α → Nat) {f : ι → α} {i : ι} {a : α} (h : f i = a) : w a ≤ tally w f :=
  h ▸ le_tally w f i

theorem tally_eq_zero {w : α → Nat} {f : ι → α} : tally w f = 0 ↔ ∀ i, w (f i) = 0 := by
  simp [tally]

theorem tally_congr {w : α → Nat} {f g : ι → α} (h : ∀ i, w (f i) = w (g i)) :
    tally w f = tally w g :=
  Finset.sum_congr rfl fun i _ => h i

theorem tally_mono {w v : α → Nat} {f : ι → α} (h : ∀ i, w (f i) ≤ v (f i)) :
    tally w f ≤ tally v f :=
  Finset.sum_le_sum fun i _ => h i

theorem tally_const (w : α → Nat) (a : α) : tally w (fun _ : ι => a) = Fintype.card ι * w a := by
  simp [tally]

theorem tally_le_card {w : α → Nat} (hw : ∀ a, w a ≤ 1) (f : ι → α) :
    tally w f ≤ Fintype.card ι := by
  have hmono := tally_mono (w := w) (v := fun _ => 1) (f := f) fun i => hw (f i)
  simpa [tally] using hmono

/-- Two threads weigh no more than all of them. -/
theorem add_le_tally (w : α → Nat) (f : ι → α) {i j : ι} (h : i ≠ j) :
    w (f i) + w (f j) ≤ tally w f := by
  have hsum := Finset.add_le_sum (s := Finset.univ) (f := fun k => w (f k))
    (fun _ _ => Nat.zero_le _) (Finset.mem_univ i) (Finset.mem_univ j) h
  exact hsum

/-- If thread `i` alone carries the weight `w`, it alone carries every weight
`v` that is nonzero only where `w` is. -/
theorem tally_eq_of_sole {w v : α → Nat} {f : ι → α} {i : ι}
    (hsole : tally w f ≤ w (f i)) (hzero : ∀ a, w a = 0 → v a = 0) :
    tally v f = v (f i) := by
  refine Finset.sum_eq_single i (fun j _ hj => hzero _ ?_) (fun h => absurd (Finset.mem_univ i) h)
  have := add_le_tally w f (Ne.symm hj)
  omega

/-- What is done once, when `n` reaches 0. -/
def once (n : Nat) : Nat := if n = 0 then 1 else 0

theorem once_zero : once 0 = 1 := rfl

theorem once_le (n : Nat) : once n ≤ 1 := by
  unfold once
  split <;> decide

theorem once_pos {n : Nat} (hn : 0 < n) : once n = 0 := if_neg (by omega)

/-- How many elements with `p` the lists have. -/
def tallyP (p : α → Bool) (f : ι → List α) : Nat := tally (fun l => l.countP p) f

theorem tallyP_pos {p : α → Bool} {f : ι → List α} {i : ι} {a : α} (ha : a ∈ f i)
    (hp : p a = true) : 0 < tallyP p f :=
  Nat.lt_of_lt_of_le (List.countP_pos_iff.mpr ⟨a, ha, hp⟩) (le_tally (fun l => l.countP p) f i)

/-! The same for a list of threads. -/

theorem sum_map_set (w : α → Nat) {l : List α} {k : Nat} {a b : α} (h : l[k]? = some a) :
    ((l.set k b).map w).sum + w a = (l.map w).sum + w b := by
  induction l generalizing k with
  | nil => simp at h
  | cons c l ih =>
    cases k with
    | zero =>
      simp only [List.getElem?_cons_zero, Option.some.injEq] at h
      subst h
      simp only [List.set_cons_zero, List.map_cons, List.sum_cons]
      omega
    | succ k =>
      have htail := ih (k := k) (by simpa using h)
      simp only [List.set_cons_succ, List.map_cons, List.sum_cons]
      omega

theorem sum_map_eraseIdx (w : α → Nat) {l : List α} {k : Nat} {a : α} (h : l[k]? = some a) :
    ((l.eraseIdx k).map w).sum + w a = (l.map w).sum := by
  induction l generalizing k with
  | nil => simp at h
  | cons c l ih =>
    cases k with
    | zero =>
      simp only [List.getElem?_cons_zero, Option.some.injEq] at h
      subst h
      simp only [List.eraseIdx_cons_zero, List.map_cons, List.sum_cons]
      omega
    | succ k =>
      have htail := ih (k := k) (by simpa using h)
      simp only [List.eraseIdx_cons_succ, List.map_cons, List.sum_cons]
      omega

variable [DecidableEq ι]

/-- How a tally changes when one thread moves. -/
theorem tally_update (w : α → Nat) (f : ι → α) (i : ι) (a : α) :
    tally w (Function.update f i a) + w (f i) = tally w f + w a := by
  have hnew : tally w (Function.update f i a) = w a + ∑ j ∈ Finset.univ \ {i}, w (f j) := by
    unfold tally
    rw [← Finset.sum_update_of_mem (Finset.mem_univ i)]
    refine Finset.sum_congr rfl fun j _ => ?_
    by_cases h : j = i
    · subst h
      simp
    · simp [h]
  have hold : tally w f = w (f i) + ∑ j ∈ Finset.univ \ {i}, w (f j) := by
    unfold tally
    rw [← Finset.sum_update_of_mem (Finset.mem_univ i), Function.update_eq_self]
  omega

theorem tally_move (w : α → Nat) (f : ι → α) (i : ι) (a : α) :
    tally w (Function.update f i a) = tally w f - w (f i) + w a := by
  have hupdate := tally_update w f i a
  have hle := le_tally w f i
  omega

/-- Nothing changes for a weight that is the same at both places. -/
theorem tally_stay {w : α → Nat} {f : ι → α} {i : ι} {a : α} (h : w a = w (f i)) :
    tally w (Function.update f i a) = tally w f := by
  have hupdate := tally_update w f i a
  omega

/-- How the count of elements changes with one list. -/
theorem tallyP_update (p : α → Bool) (f : ι → List α) (i : ι) (l : List α) :
    tallyP p (Function.update f i l) + (f i).countP p = tallyP p f + l.countP p :=
  tally_update (fun l => l.countP p) f i l

theorem tallyP_cons (p : α → Bool) (f : ι → List α) (i : ι) (a : α) :
    tallyP p (Function.update f i (a :: f i)) = tallyP p f + (p a).toNat := by
  have hupdate := tallyP_update p f i (a :: f i)
  rw [List.countP_cons] at hupdate
  cases hp : p a <;> simp only [hp, Bool.false_eq_true, if_false, if_true, Bool.toNat_false,
    Bool.toNat_true] at hupdate ⊢ <;> omega

theorem tallyP_tail (p : α → Bool) {f : ι → List α} {i : ι} {a : α} {l : List α}
    (h : f i = a :: l) : tallyP p (Function.update f i (f i).tail) + (p a).toNat = tallyP p f := by
  have hupdate := tallyP_update p f i (f i).tail
  rw [h, List.tail_cons, List.countP_cons] at hupdate
  rw [h, List.tail_cons]
  cases hp : p a <;> simp only [hp, Bool.false_eq_true, if_false, if_true, Bool.toNat_false,
    Bool.toNat_true] at hupdate ⊢ <;> omega

/-- One thread without weight is missing in the count. -/
theorem tally_lt_card {w : α → Nat} (hw : ∀ a, w a ≤ 1) {f : ι → α} {i : ι} (hi : w (f i) = 0)
    {a : α} (ha : w a = 1) : tally w f < Fintype.card ι := by
  have hupdate := tally_update w f i a
  have hle := tally_le_card hw (Function.update f i a)
  omega

end Yaclib.Concurrency
