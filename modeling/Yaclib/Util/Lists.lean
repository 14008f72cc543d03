import Mathlib.Data.List.Nodup
import Mathlib.Logic.Function.Basic

/-!
Families of mathematical lists over the same nodes, each known by a head that is a node of
its own: what intrusive lists represent. No node is in two lists, or is in one and a head.
-/

namespace Yaclib.Intrusive

/-- Which lists there are, and what they hold. -/
abbrev HeadedLists (ν : Type) := ν → Option (List ν)

namespace HeadedLists

variable {ν : Type} {A : HeadedLists ν} {a b n : ν} {l m : List ν}

/-- The node is in no list, and is the head of none. -/
def Unlinked (A : HeadedLists ν) (n : ν) : Prop :=
  ∀ a l, A a = some l → n ∉ a :: l

/-- The lists do not overlap. -/
structure Apart (A : HeadedLists ν) : Prop where
  nodup : ∀ a l, A a = some l → (a :: l).Nodup
  apart : ∀ a b l m, A a = some l → A b = some m → a ≠ b → ∀ n ∈ a :: l, n ∉ b :: m

/-- Before there are lists. -/
theorem Apart.none : Apart fun _ : ν => none := by
  constructor
  · intro a l ha
    cases ha
  · intro a b l m ha
    cases ha

theorem Unlinked.none : Unlinked (fun _ => none) n := by
  intro a l ha
  cases ha

namespace Apart

theorem ne_of_unlinked (hn : A.Unlinked n) (ha : A a = some l) : n ≠ a :=
  fun heq => hn a l ha (heq ▸ List.mem_cons_self)

end Apart

variable [DecidableEq ν]

def join (A : HeadedLists ν) (a b : ν) (l : List ν) : HeadedLists ν :=
  Function.update (Function.update A a (some l)) b (some [])

theorem join_left (hab : a ≠ b) : A.join a b l a = some l := by
  rw [join, Function.update_of_ne hab, Function.update_self]

theorem join_right : A.join a b l b = some [] :=
  Function.update_self b _ _

theorem join_other {c : ν} (hca : c ≠ a) (hcb : c ≠ b) : A.join a b l c = A c := by
  rw [join, Function.update_of_ne hcb, Function.update_of_ne hca]

theorem Unlinked.update (hn : A.Unlinked n) (hnl : n ∉ a :: l) :
    Unlinked (Function.update A a (some l)) n := by
  intro b m hb
  by_cases hba : b = a
  · subst hba
    rw [Function.update_self] at hb
    cases hb
    exact hnl
  · rw [Function.update_of_ne hba] at hb
    exact hn b m hb

namespace Apart

/-- One list is replaced by one of its own nodes and unlinked ones. -/
theorem replace (h : Apart A) (ha : ∀ b m, b ≠ a → A b = some m → ∀ n ∈ a :: l, n ∉ b :: m)
    (hnodup : (a :: l).Nodup) : Apart (Function.update A a (some l)) := by
  constructor
  · intro b m hb
    by_cases hba : b = a
    · subst hba
      rw [Function.update_self] at hb
      cases hb
      exact hnodup
    · rw [Function.update_of_ne hba] at hb
      exact h.nodup b m hb
  · intro b c k m hb hc hbc n hn hmem
    by_cases hba : b = a
    · subst hba
      rw [Function.update_self] at hb
      rw [Function.update_of_ne hbc.symm] at hc
      cases hb
      exact ha c m hbc.symm hc n hn hmem
    · rw [Function.update_of_ne hba] at hb
      by_cases hca : c = a
      · subst hca
        rw [Function.update_self] at hc
        cases hc
        exact ha b k hba hb n hmem hn
      · rw [Function.update_of_ne hca] at hc
        exact h.apart b c k m hb hc hbc n hn hmem

theorem construct (h : Apart A) (ha : A.Unlinked a) : Apart (Function.update A a (some [])) := by
  refine h.replace ?_ (List.nodup_singleton a)
  intro b m _ hb n hn
  rw [List.mem_singleton] at hn
  rw [hn]
  exact ha b m hb

/-- An unlinked node is added. -/
theorem insert (h : Apart A) (ha : A a = some l) (hn : A.Unlinked n) (hperm : m.Perm (n :: l)) :
    Apart (Function.update A a (some m)) := by
  refine h.replace ?_ ?_
  · intro b k hba hb x hx
    rw [List.mem_cons, hperm.mem_iff, List.mem_cons] at hx
    rcases hx with rfl | rfl | hx
    · exact h.apart x b l k ha hb hba.symm x List.mem_cons_self
    · exact hn b k hb
    · exact h.apart a b l k ha hb hba.symm x (List.mem_cons_of_mem a hx)
  · have hnodup := h.nodup a l ha
    have hnot := hn a l ha
    rw [List.nodup_cons, hperm.mem_iff, hperm.nodup_iff]
    simp only [List.nodup_cons, List.mem_cons, not_or] at hnodup hnot ⊢
    exact ⟨⟨fun heq => hnot.1 heq.symm, hnodup.1⟩, hnot.2, hnodup.2⟩

/-- Nodes are taken out. -/
theorem remove (h : Apart A) (ha : A a = some l) (hsub : m.Sublist l) :
    Apart (Function.update A a (some m)) := by
  refine h.replace ?_ ((hsub.cons_cons a).nodup (h.nodup a l ha))
  intro b k hba hb x hx
  exact h.apart a b l k ha hb hba.symm x ((hsub.cons_cons a).subset hx)

/-- A list moves to a head whose list is empty. -/
theorem move (h : Apart A) (hab : a ≠ b) (ha : A a = some []) (hb : A b = some l) :
    Apart (A.join a b l) := by
  have hempty : Apart (Function.update A b (some [])) := h.remove hb (List.nil_sublist l)
  have hcomm : A.join a b l = Function.update (Function.update A b (some [])) a (some l) := by
    rw [join, Function.update_comm hab]
  rw [hcomm]
  refine hempty.replace ?_ ?_
  · intro c k hca hc x hx
    rw [List.mem_cons] at hx
    by_cases hcb : c = b
    · subst hcb
      rw [Function.update_self] at hc
      cases hc
      rw [List.mem_singleton]
      rcases hx with rfl | hx
      · exact hab
      · rintro rfl
        exact (List.nodup_cons.mp (h.nodup x l hb)).1 hx
    · rw [Function.update_of_ne hcb] at hc
      rcases hx with rfl | hx
      · exact h.apart x c [] k ha hc hca.symm x List.mem_cons_self
      · exact h.apart b c l k hb hc (Ne.symm hcb) x (List.mem_cons_of_mem b hx)
  · rw [List.nodup_cons]
    refine ⟨fun hmem => ?_, (List.nodup_cons.mp (h.nodup b l hb)).2⟩
    exact h.apart b a l [] hb ha hab.symm a (List.mem_cons_of_mem b hmem) List.mem_cons_self

end Apart

end HeadedLists

end Yaclib.Intrusive
