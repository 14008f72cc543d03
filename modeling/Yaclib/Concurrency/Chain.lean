import Mathlib.Data.List.Nodup
import Mathlib.Logic.Function.Basic

/-!
Null-terminated chains of nodes that are linked through a `next` field, and the
loop that reverses one in place. A null pointer is `none`.
-/

namespace Yaclib.Concurrency

variable {ι : Type*} {next next' : ι → Option ι} {p : Option ι} {i : ι} {xs : List ι}

/-- The nodes that a pointer leads to, in the order of their links. -/
inductive Chain (next : ι → Option ι) : Option ι → List ι → Prop
  | nil : Chain next none []
  | cons {i : ι} {xs : List ι} : Chain next (next i) xs → Chain next (some i) (i :: xs)

namespace Chain

/-- A chain survives every change of links outside of it. -/
theorem frame (h : Chain next p xs) (hlinks : ∀ i ∈ xs, next' i = next i) :
    Chain next' p xs := by
  induction h with
  | nil => exact .nil
  | cons _ ih =>
    have hhead := hlinks _ List.mem_cons_self
    refine .cons ?_
    rw [hhead]
    exact ih fun j hj => hlinks j (List.mem_cons_of_mem _ hj)

theorem of_none (h : Chain next none xs) : xs = [] := by
  cases h
  rfl

theorem of_some (h : Chain next (some i) xs) : ∃ ys, xs = i :: ys ∧ Chain next (next i) ys := by
  cases h with
  | cons h => exact ⟨_, rfl, h⟩

/-- The links determine the list. -/
theorem eq_of_chain {ys : List ι} (h : Chain next p xs) (h' : Chain next p ys) : xs = ys := by
  induction h generalizing ys with
  | nil => exact h'.of_none.symm
  | cons _ ih =>
    obtain ⟨zs, rfl, hzs⟩ := h'.of_some
    rw [ih hzs]

/-- Without links, a pointer leads to one node at most. -/
theorem unlinked (h : Chain (fun _ => none) p xs) : xs = p.toList := by
  cases h with
  | nil => rfl
  | cons htail =>
    obtain rfl := htail.of_none
    rfl

variable [DecidableEq ι]

theorem update (h : Chain next p xs) (hi : i ∉ xs) (q : Option ι) :
    Chain (Function.update next i q) p xs := by
  apply h.frame
  intro j hj
  apply Function.update_of_ne
  rintro rfl
  exact hi hj

/-- Linking a new node in front of a chain. -/
theorem push (h : Chain next p xs) (hi : i ∉ xs) :
    Chain (Function.update next i p) (some i) (i :: xs) := by
  refine .cons ?_
  rw [Function.update_self]
  exact h.update hi p

/-- Linking a new node behind the last one. -/
theorem concat {t : ι} (h : Chain next p xs) (ht : xs.getLast? = some t) (hnodup : xs.Nodup)
    (hi : i ∉ xs) :
    Chain (Function.update (Function.update next i none) t (some i)) p (xs ++ [i]) := by
  induction h with
  | nil => cases ht
  | @cons j ys htail ih =>
    obtain ⟨hj, hys⟩ := List.nodup_cons.mp hnodup
    obtain ⟨hij, hiys⟩ := not_or.mp (List.mem_cons.not.mp hi)
    refine .cons ?_
    cases ys with
    | nil =>
      obtain rfl : j = t := Option.some.inj ht
      rw [Function.update_self]
      refine .cons ?_
      rw [Function.update_of_ne hij, Function.update_self]
      exact .nil
    | cons k zs =>
      rw [List.getLast?_cons_cons] at ht
      have hjt : j ≠ t := fun heq => hj (heq ▸ List.mem_of_getLast? ht)
      rw [Function.update_of_ne hjt, Function.update_of_ne (Ne.symm hij)]
      exact ih ht hys hiys

end Chain

variable [DecidableEq ι]

/-- The loop that turns the links of a chain around, from `node` on, with the
part that is already reversed at `prev`. At most `fuel` nodes are visited;
the result is the head of the reversed chain. -/
def reverseLoop (next : ι → Option ι) : Nat → ι → Option ι → Option ((ι → Option ι) × ι)
  | 0, _, _ => none
  | fuel + 1, node, prev =>
    let rest := next node
    let next := Function.update next node prev
    match rest with
    | none => some (next, node)
    | some node' => reverseLoop next fuel node' (some node)

/-- The loop returns on every chain it has the fuel for. Only links of the chain
change, and the new head leads to its nodes in reverse order. -/
theorem reverseLoop_chain {fuel : Nat} {node : ι} {prev : Option ι} {ys : List ι}
    (hnode : Chain next (some node) xs) (hprev : Chain next prev ys)
    (hnodup : (xs ++ ys).Nodup) (hfuel : xs.length ≤ fuel) :
    ∃ next' head, reverseLoop next fuel node prev = some (next', head) ∧
      Chain next' (some head) (xs.reverse ++ ys) ∧ ∀ i, i ∉ xs → next' i = next i := by
  induction fuel generalizing next node prev xs ys with
  | zero =>
    obtain ⟨zs, rfl, -⟩ := hnode.of_some
    simp at hfuel
  | succ fuel ih =>
    obtain ⟨zs, rfl, hzs⟩ := hnode.of_some
    obtain ⟨hfresh, hnodup'⟩ := List.nodup_cons.mp hnodup
    have hnodeys : node ∉ ys := fun hmem => hfresh (List.mem_append_right _ hmem)
    have hnodezs : node ∉ zs := fun hmem => hfresh (List.mem_append_left _ hmem)
    have hprev' : Chain (Function.update next node prev) (some node) (node :: ys) :=
      hprev.push hnodeys
    have hother : ∀ i, i ≠ node → Function.update next node prev i = next i := by
      intro i hi
      exact Function.update_of_ne hi _ _
    cases hrest : next node with
    | none =>
      rw [hrest] at hzs
      obtain rfl := hzs.of_none
      refine ⟨Function.update next node prev, node, ?_, hprev', ?_⟩
      · simp [reverseLoop, hrest]
      · intro i hi
        exact hother i (List.ne_of_not_mem_cons hi)
    | some node' =>
      have hnode' : Chain (Function.update next node prev) (some node') zs :=
        hrest ▸ hzs.update hnodezs prev
      have hperm : (zs ++ node :: ys).Nodup := List.nodup_middle.mpr hnodup
      obtain ⟨next', head, hloop, hchain, hframe⟩ :=
        ih hnode' hprev' hperm (Nat.le_of_succ_le_succ hfuel)
      refine ⟨next', head, ?_, ?_, ?_⟩
      · simp only [reverseLoop, hrest]
        exact hloop
      · simpa using hchain
      · intro i hi
        have hne := List.ne_of_not_mem_cons hi
        rw [hframe i (List.not_mem_of_not_mem_cons hi), hother i hne]

end Yaclib.Concurrency
