import Mathlib.Data.List.Basic

/-!
The computations on lists of types of `util/type_traits.hpp`. A `std::tuple` of
types is a list of their names.

The traits that ask for a property of one type are left out.
-/

namespace Yaclib

variable {τ : Type}

def Filter (p : τ → Bool) : List τ → List τ
  | [] => []
  | t :: ts => if p t then t :: Filter p ts else Filter p ts

theorem Filter_eq (p : τ → Bool) (ts : List τ) : Filter p ts = ts.filter p := by
  induction ts with
  | nil => rfl
  | cons t ts ih =>
    rw [Filter, List.filter_cons, ih]

/-- The position that an element with the predicate has among those with it. -/
theorem getElem?_Filter {p : τ → Bool} {i : Nat} {ts : List τ} {t : τ} (hi : ts[i]? = some t)
    (ht : p t = true) : (Filter p ts)[(ts.take i).countP p]? = some t := by
  obtain ⟨hlt, hget⟩ := List.getElem?_eq_some_iff.mp hi
  have hsplit : Filter p ts = (ts.take i).filter p ++ (ts.drop i).filter p := by
    rw [Filter_eq, ← List.filter_append, List.take_append_drop]
  have hdrop : (ts.drop i).filter p = t :: (ts.drop (i + 1)).filter p := by
    rw [List.drop_eq_getElem_cons hlt, hget, List.filter_cons, if_pos ht]
  rw [hsplit, hdrop, List.countP_eq_length_filter]
  simp

variable [DecidableEq τ]

def Unique : List τ → List τ
  | [] => []
  | t :: ts => if t ∈ ts then Unique ts else t :: Unique ts

theorem Unique_eq_nil {ts : List τ} : Unique ts = [] ↔ ts = [] := by
  induction ts with
  | nil => simp [Unique]
  | cons t ts ih =>
    by_cases ht : t ∈ ts
    · simp only [Unique, ht, if_true, ih, reduceCtorEq, iff_false]
      exact List.ne_nil_of_mem ht
    · simp [Unique, ht]

/-- `TranslateIndexImpl<FromIndex, ToIndex, FromTuple, ToTuple>::Index()`; of an
empty tuple there is no `head_t`. -/
def TranslateIndexImpl : Nat → Nat → List τ → List τ → Option Nat
  | 0, toIndex, _, _ => some toIndex
  | fromIndex + 1, toIndex, t :: ts, u :: us =>
    if t = u then TranslateIndexImpl fromIndex (toIndex + 1) ts us
    else TranslateIndexImpl fromIndex toIndex ts (u :: us)
  | _ + 1, _, _, _ => none

/-- `translate_index_v<FromIndex, FromTuple, ToTuple>` -/
def translateIndex (fromIndex : Nat) (fromTuple toTuple : List τ) : Option Nat :=
  TranslateIndexImpl fromIndex 0 fromTuple toTuple

/-- The recursion drops the elements of both lists together exactly where the
predicate holds, as long as an element with the predicate is still ahead. -/
theorem TranslateIndexImpl_Filter {p : τ → Bool} {k a : Nat} {ts : List τ} {t : τ}
    (hk : ts[k]? = some t) (ht : p t = true) :
    TranslateIndexImpl k a ts (Filter p ts) = some (a + (ts.take k).countP p) := by
  induction ts generalizing k a with
  | nil => simp at hk
  | cons u us ih =>
    cases k with
    | zero => simp [TranslateIndexImpl]
    | succ k =>
      rw [List.getElem?_cons_succ] at hk
      rw [List.take_succ_cons, List.countP_cons]
      by_cases hu : p u = true
      · simp only [Filter, hu, if_true, TranslateIndexImpl]
        rw [ih hk]
        congr 1
        omega
      · -- the head of the filtered list has the predicate, so it is another type
        rw [Bool.not_eq_true] at hu
        have hmem : t ∈ Filter p us := by
          rw [Filter_eq]
          exact List.mem_filter.mpr ⟨List.mem_of_getElem? hk, ht⟩
        have hfilter := ih (a := a) hk
        cases hus : Filter p us with
        | nil => simp [hus] at hmem
        | cons v vs =>
          have hv : p v = true := by
            have hvmem : v ∈ us.filter p := by
              rw [← Filter_eq, hus]
              exact List.mem_cons_self
            exact (List.mem_filter.mp hvmem).2
          have hne : u ≠ v := by
            rintro rfl
            rw [hu] at hv
            contradiction
          simp only [Filter, hu, hus, TranslateIndexImpl, hne, if_false, Bool.false_eq_true]
          rw [← hus, hfilter, Nat.add_zero]

theorem translateIndex_Filter {p : τ → Bool} {i : Nat} {ts : List τ} {t : τ}
    (hi : ts[i]? = some t) (ht : p t = true) :
    translateIndex i ts (Filter p ts) = some ((ts.take i).countP p) := by
  rw [translateIndex, TranslateIndexImpl_Filter hi ht, Nat.zero_add]

/-- Positions with the predicate are translated to different ones. -/
theorem translateIndex_Filter_ne {p : τ → Bool} {ts : List τ} {i j : Nat} {t u : τ}
    (hi : ts[i]? = some t) (ht : p t = true) (hj : ts[j]? = some u) (hu : p u = true)
    (hne : i < j) :
    translateIndex i ts (Filter p ts) ≠ translateIndex j ts (Filter p ts) := by
  rw [translateIndex, translateIndex, TranslateIndexImpl_Filter hi ht,
    TranslateIndexImpl_Filter hj hu]
  have hsucc : (ts.take (i + 1)).countP p = (ts.take i).countP p + 1 := by
    rw [List.take_add_one, hi, List.countP_append, Option.toList_some, List.countP_singleton,
      if_pos ht]
  have hle : (ts.take (i + 1)).countP p ≤ (ts.take j).countP p :=
    (List.take_sublist_take_left hne).countP_le
  intro heq
  have hsame := Option.some.inj heq
  omega

/-- `index_of_v<T, Tuple>`; of an empty tuple there is no `head_t`. -/
def indexOf (t : τ) : List τ → Option Nat
  | [] => none
  | u :: us => if t = u then some 0 else (indexOf t us).map (1 + ·)

theorem indexOf_of_mem {t : τ} {ts : List τ} (h : t ∈ ts) :
    ∃ k, indexOf t ts = some k ∧ ts[k]? = some t := by
  induction ts with
  | nil => cases h
  | cons u us ih =>
    by_cases htu : t = u
    · exact ⟨0, by rw [indexOf, if_pos htu], by rw [htu, List.getElem?_cons_zero]⟩
    · obtain ⟨k, hk, hget⟩ := ih ((List.mem_cons.mp h).resolve_left htu)
      refine ⟨1 + k, by rw [indexOf, if_neg htu, hk, Option.map_some], ?_⟩
      rw [Nat.add_comm, List.getElem?_cons_succ, hget]

theorem mem_Unique {t : τ} {ts : List τ} : t ∈ Unique ts ↔ t ∈ ts := by
  induction ts with
  | nil => rfl
  | cons u us ih =>
    rw [Unique]
    split
    · rw [ih, List.mem_cons]
      constructor
      · exact .inr
      · rintro (rfl | h)
        · assumption
        · exact h
    · rw [List.mem_cons, List.mem_cons, ih]

end Yaclib
