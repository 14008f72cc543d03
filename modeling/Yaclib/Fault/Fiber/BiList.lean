import Yaclib.Concurrency.Refinement
import Yaclib.Util.IntrusiveStore
import Yaclib.Util.Lists

/-!
`BiList` of `fault/fiber/bidirectional_intrusive_list.cpp`, any number of lists over the same
nodes: its operations refine those of mathematical lists. `GetElement` is exact but for the
walk past the end that counts backwards.
-/

namespace Yaclib.Fault.Fiber.BiList

open Concurrency Intrusive

inductive Op (ν : Type) where
  | construct (a : ν)
  | moveConstruct (a b : ν)
  | moveAssign (a b : ν)
  | pushBack (a n : ν)
  | popBack (a : ν)
  | pushAll (a b : ν)
  | erase (n : ν)
  | empty (a : ν)

inductive Output (ν : Type) where
  | none
  | node (n : ν)
  | flag (b : Bool)
  deriving DecidableEq

variable {ν : Type}

/-- A node that was just constructed points to itself. -/
def start : Heap ν := ⟨some, some⟩

def heads (A : HeadedLists ν) (a : ν) : Prop := A a ≠ none

def list (A : HeadedLists ν) (a : ν) : List ν := (A a).getD []

section

variable [DecidableEq ν]

/-- `BiList(BiList&&)`; the members are initialised first. -/
def moveConstruct (h : Heap ν) (a b : ν) : Option (Heap ν) :=
  let h := h.construct a
  if a = b ∨ h.empty b then some h else h.assign a b

def exec (h : Heap ν) : Op ν → Option (Heap ν × Output ν)
  | .construct a => some (h.construct a, .none)
  | .moveConstruct a b => (moveConstruct h a b).map fun t => (t, .none)
  | .moveAssign a b => (h.assign a b).map fun t => (t, .none)
  | .pushBack a n => (h.pushBack a n).map fun t => (t, .none)
  | .popBack a => (h.popBack a).map fun t => (t.1, .node t.2)
  | .pushAll a b => (h.pushAll a b).map fun t => (t, .none)
  | .erase n => some ((h.erase n).1, .flag (h.erase n).2)
  | .empty a => some (h, .flag (h.empty a))

/-- What the calls do to mathematical lists, and when they may be made. -/
inductive Spec (A : HeadedLists ν) : Op ν → HeadedLists ν → Output ν → Prop
  | construct {a : ν} : A.Unlinked a → Spec A (.construct a) (Function.update A a (some [])) .none
  | moveConstruct {a b : ν} {l : List ν} : A.Unlinked a → A b = some l →
      Spec A (.moveConstruct a b) (A.join a b l) .none
  | moveAssign {a b : ν} {l : List ν} : a ≠ b → A a = some [] → A b = some l →
      Spec A (.moveAssign a b) (A.join a b l) .none
  | moveAssign_self {a : ν} {l : List ν} : A a = some l → Spec A (.moveAssign a a) A .none
  | pushBack {a n : ν} {l : List ν} : A a = some l → A.Unlinked n →
      Spec A (.pushBack a n) (Function.update A a (some (l ++ [n]))) .none
  | popBack {a n : ν} {l : List ν} : A a = some (l ++ [n]) →
      Spec A (.popBack a) (Function.update A a (some l)) (.node n)
  | pushAll {a b : ν} {l m : List ν} : a ≠ b → A a = some l → A b = some m →
      Spec A (.pushAll a b) (A.join a b (l ++ m)) .none
  | pushAll_self {a : ν} {l : List ν} : A a = some l → Spec A (.pushAll a a) A .none
  | erase {a n : ν} {l m : List ν} : A a = some (l ++ n :: m) →
      Spec A (.erase n) (Function.update A a (some (l ++ m))) (.flag true)
  | empty {a : ν} {l : List ν} : A a = some l → Spec A (.empty a) A (.flag l.isEmpty)

end

/-- The links are those of the lists: no node is in two of them. -/
def Represents (h : Heap ν) (A : HeadedLists ν) : Prop :=
  Store h (heads A) (list A)

section

variable {A : HeadedLists ν} {a b n : ν} {l m : List ν} {h t : Heap ν}

theorem heads_of_eq (ha : A a = some l) : heads A a := by
  rw [heads, ha]
  exact Option.some_ne_none l

theorem list_of_eq (ha : A a = some l) : list A a = l := by
  rw [list, ha, Option.getD_some]

theorem eq_list (ha : heads A a) : A a = some (list A a) := by
  obtain ⟨l, hl⟩ := Option.ne_none_iff_exists'.mp ha
  rw [list, hl, Option.getD_some]

theorem free_of_unlinked (hn : A.Unlinked n) : Free (heads A) (list A) n :=
  fun a ha => hn a (list A a) (eq_list ha)

theorem Represents.list (hR : Represents h A) (ha : A a = some l) : IsList h a l := by
  have hlist := Store.list hR a (heads_of_eq ha)
  rwa [list_of_eq ha] at hlist

/-- Before the first call there is no list. -/
theorem represents_start : Represents (start (ν := ν)) fun _ => none := by
  constructor
  · intro a ha
    exact absurd rfl ha
  · intro a b ha
    exact absurd rfl ha

variable [DecidableEq ν]

theorem list_update (A : HeadedLists ν) (a : ν) (l : List ν) :
    list (Function.update A a (some l)) = Function.update (list A) a l := by
  funext b
  by_cases hb : b = a
  · subst hb
    rw [list, Function.update_self, Function.update_self, Option.getD_some]
  · rw [list, Function.update_of_ne hb, Function.update_of_ne hb, list]

/-- The list `a` is there already. -/
theorem heads_update (ha : heads A a) (l : List ν) :
    heads (Function.update A a (some l)) = heads A := by
  funext b
  by_cases hb : b = a
  · subst hb
    refine propext (iff_of_true ?_ ha)
    rw [heads, Function.update_self]
    exact Option.some_ne_none l
  · rw [heads, Function.update_of_ne hb, heads]

theorem Represents.update (ha : heads A a)
    (hs : Store t (heads A) (Function.update (BiList.list A) a l)) :
    Represents t (Function.update A a (some l)) := by
  rw [Represents, list_update, heads_update ha]
  exact hs

theorem Represents.join (ha : heads A a) (hb : heads A b)
    (hs : Store t (heads A) (Function.update (Function.update (BiList.list A) a l) b [])) :
    Represents t (A.join a b l) := by
  have hhead : heads (Function.update A a (some l)) b := by
    rw [heads_update ha]
    exact hb
  rw [Represents, HeadedLists.join, list_update, list_update, heads_update hhead, heads_update ha]
  exact hs

theorem Represents.construct (hR : Represents h A) (ha : A.Unlinked a) :
    Represents (h.construct a) (Function.update A a (some [])) := by
  obtain ⟨hs, -⟩ := Store.construct hR (free_of_unlinked ha)
  rw [Represents, list_update]
  refine hs.mono ?_
  intro b hb
  by_cases hba : b = a
  · exact .inr hba
  · rw [heads, Function.update_of_ne hba] at hb
    exact .inl hb

theorem Represents.moveAssign (hR : Represents h A) (hab : a ≠ b) (ha : A a = some [])
    (hb : A b = some l) : ∃ t, h.assign a b = some t ∧ Represents t (A.join a b l) := by
  have hheada := heads_of_eq ha
  have hheadb := heads_of_eq hb
  obtain ⟨t, ht, hs, -⟩ := Store.assign hR hheada hheadb hab (list_of_eq ha)
  rw [list_of_eq hb] at hs
  exact ⟨t, ht, Represents.join hheada hheadb hs⟩

/-- A move out of an empty list leaves both empty; else the members are assigned. -/
theorem Represents.moveConstruct (hR : Represents h A) (ha : A.Unlinked a) (hb : A b = some l) :
    ∃ t, BiList.moveConstruct h a b = some t ∧ Represents t (A.join a b l) := by
  have hab : a ≠ b := by
    rintro rfl
    exact ha a l hb List.mem_cons_self
  have hR' := hR.construct ha
  have hb' : Function.update A a (some []) b = some l := by
    rw [Function.update_of_ne hab.symm, hb]
  have hjoin : HeadedLists.join (Function.update A a (some [])) a b l = A.join a b l := by
    rw [HeadedLists.join, Function.update_idem, ← HeadedLists.join]
  unfold BiList.moveConstruct
  by_cases hempty : (h.construct a).empty b = true
  · have hnil : l = [] := ((hR'.list hb').empty_iff).mp hempty
    subst hnil
    refine ⟨h.construct a, by simp [hempty], ?_⟩
    have hsame : A.join a b [] = Function.update A a (some []) := by
      rw [HeadedLists.join, Function.update_eq_self_iff.mpr]
      rw [Function.update_of_ne hab.symm, hb]
    rw [hsame]
    exact hR'
  · obtain ⟨t, ht, hRt⟩ := hR'.moveAssign hab (Function.update_self a _ A) hb'
    rw [hjoin] at hRt
    exact ⟨t, by simp [hempty, hab, ht], hRt⟩

theorem Represents.erase (hR : Represents h A) (ha : A a = some (l ++ n :: m)) :
    ∃ t, h.erase n = (t, true) ∧ Represents t (Function.update A a (some (l ++ m))) := by
  have hhead := heads_of_eq ha
  have hn : n ∈ BiList.list A a := by simp [list_of_eq ha]
  obtain ⟨t, ht, hs, -⟩ := Store.erase hR hhead hn
  have hnl : n ∉ l := by
    have hnodup := (hR.list ha).nodup
    intro hmem
    exact (List.nodup_append.mp hnodup).2.2 n hmem n List.mem_cons_self rfl
  rw [list_of_eq ha, List.erase_append_right _ hnl, List.erase_cons_head] at hs
  exact ⟨t, ht, Represents.update hhead hs⟩

/-- Every call refines what it does to mathematical lists. -/
theorem exec_refines : Refines exec Spec (Represents (ν := ν)) := by
  intro h A e B o hR hspec
  cases hspec with
  | construct ha => exact ⟨_, rfl, hR.construct ha⟩
  | moveConstruct ha hb =>
    obtain ⟨t, ht, hRt⟩ := hR.moveConstruct ha hb
    exact ⟨t, by rw [exec, ht, Option.map_some], hRt⟩
  | moveAssign hab ha hb =>
    obtain ⟨t, ht, hRt⟩ := hR.moveAssign hab ha hb
    exact ⟨t, by rw [exec, ht, Option.map_some], hRt⟩
  | moveAssign_self ha =>
    exact ⟨h, by rw [exec, Heap.assign, if_pos rfl, Option.map_some], hR⟩
  | pushBack ha hn =>
    have hhead := heads_of_eq ha
    obtain ⟨t, ht, hs, -⟩ := Store.pushBack hR hhead (free_of_unlinked hn)
    rw [list_of_eq ha] at hs
    exact ⟨t, by rw [exec, ht, Option.map_some], Represents.update hhead hs⟩
  | @popBack a n l ha =>
    obtain ⟨t, ht, hRt⟩ := hR.erase (m := []) ha
    rw [List.append_nil] at hRt
    refine ⟨t, ?_, hRt⟩
    rw [exec, (hR.list ha).popBack, ht, Option.map_some]
  | pushAll hab ha hb =>
    have hheada := heads_of_eq ha
    have hheadb := heads_of_eq hb
    obtain ⟨t, ht, hs, -⟩ := Store.pushAll hR hheada hheadb hab
    rw [list_of_eq ha, list_of_eq hb] at hs
    exact ⟨t, by rw [exec, ht, Option.map_some], Represents.join hheada hheadb hs⟩
  | pushAll_self ha =>
    exact ⟨h, by rw [exec, Heap.pushAll, if_pos (.inl rfl), Option.map_some], hR⟩
  | erase ha =>
    obtain ⟨t, ht, hRt⟩ := hR.erase ha
    exact ⟨t, by rw [exec, ht], hRt⟩
  | @empty a l ha =>
    refine ⟨h, ?_, hR⟩
    have hflag : h.empty a = l.isEmpty := by
      rw [Bool.eq_iff_iff, (hR.list ha).empty_iff, List.isEmpty_iff]
    rw [exec, hflag]

end

/-! ### `GetElement` -/

/-- The index is counted past the end of a list of two or more, backwards. -/
def WrapsBack (l : List ν) (ind : Nat) (reversed : Bool) : Prop :=
  reversed = true ∧ l.length ≤ ind ∧ 2 ≤ l.length

/-- Counting from the back, the code is one element off after the end. -/
theorem position_eq_iff {l : List ν} (hnodup : l.Nodup) (hne : l ≠ []) (ind : Nat)
    (reversed : Bool) :
    (if ind < l.length then (along reversed l)[ind]?
      else l[if reversed then (l.length - ind % l.length) % l.length else ind % l.length]?) =
      (along reversed l)[ind % l.length]? ↔ ¬ WrapsBack l ind reversed := by
  have hpos : 0 < l.length := List.length_pos_iff.mpr hne
  have hmod : ind % l.length < l.length := Nat.mod_lt _ hpos
  by_cases hlt : ind < l.length
  · rw [if_pos hlt, Nat.mod_eq_of_lt hlt]
    refine iff_of_true rfl ?_
    rintro ⟨-, hle, -⟩
    omega
  rw [if_neg hlt]
  cases reversed with
  | false =>
    refine iff_of_true rfl ?_
    rintro ⟨hreversed, -⟩
    cases hreversed
  | true =>
    have hback : (l.length - ind % l.length) % l.length < l.length := Nat.mod_lt _ hpos
    rw [if_pos rfl, along, if_pos rfl, List.getElem?_reverse hmod,
      List.getElem?_eq_getElem hback, List.getElem?_eq_getElem (by omega), Option.some.injEq,
      hnodup.getElem_inj_iff]
    constructor
    · rintro heq ⟨-, -, htwo⟩
      by_cases hzero : ind % l.length = 0
      · rw [hzero, Nat.sub_zero, Nat.mod_self] at heq
        omega
      · rw [Nat.mod_eq_of_lt (by omega : l.length - ind % l.length < l.length)] at heq
        omega
    · intro hwraps
      have hone : l.length = 1 := by
        by_contra hne
        exact hwraps ⟨rfl, by omega, by omega⟩
      rw [hone] at hback ⊢
      omega

/-- Whatever the calls were, the links represent the lists, with the same outputs, and
`GetElement` takes an element of the list; it is the one at the position modulo the length,
counted in the chosen direction, if and only if the index is not counted past the end
backwards. -/
theorem biList_refines [DecidableEq ν] {A : HeadedLists ν} {es : List (Op ν × Output ν)}
    (hruns : Runs Spec (fun _ => none) es A) :
    ∃ h, outputs exec start (es.map Prod.fst) = some (h, es.map Prod.snd) ∧ Represents h A ∧
      ∀ a l, A a = some l → l ≠ [] → ∀ ind reversed,
        (∃ n ∈ l, h.getElement a ind reversed = some n) ∧
        (h.getElement a ind reversed = (along reversed l)[ind % l.length]? ↔
          ¬ WrapsBack l ind reversed) := by
  obtain ⟨h, houtputs, hR⟩ := exec_refines.runs represents_start hruns
  refine ⟨h, houtputs, hR, ?_⟩
  intro a l ha hne ind reversed
  have hlist := hR.list ha
  refine ⟨hlist.getElement hne ind reversed, ?_⟩
  rw [hlist.getElement_eq hne ind reversed]
  exact position_eq_iff hlist.nodup hne ind reversed

/-! A list of two nodes. -/

def one (l : List Nat) : HeadedLists Nat := Function.update (fun _ => none) 0 (some l)

theorem one_unlinked {l : List Nat} {n : Nat} (hzero : n ≠ 0) (hn : n ∉ l) :
    (one l).Unlinked n :=
  HeadedLists.Unlinked.none.update (List.not_mem_cons_of_ne_of_not_mem hzero hn)

theorem one_pushBack {l : List Nat} {n : Nat} (hzero : n ≠ 0) (hn : n ∉ l) :
    Spec (one l) (.pushBack 0 n) (one (l ++ [n])) .none := by
  have hpush : Spec (one l) (.pushBack 0 n) (Function.update (one l) 0 (some (l ++ [n]))) .none :=
    .pushBack (Function.update_self 0 _ _) (one_unlinked hzero hn)
  rwa [one, Function.update_idem] at hpush

theorem runs_two : Runs Spec (fun _ => none)
    [(.construct 0, .none), (.pushBack 0 1, .none), (.pushBack 0 2, .none)] (one [1, 2]) := by
  have hconstruct : Spec (fun _ => none) (.construct 0) (one []) .none := by
    exact .construct .none
  refine .cons hconstruct (.cons (one_pushBack (by decide) (by simp))
    (.cons (one_pushBack (by decide) (by simp)) (.nil _)))

theorem biList_refines_two : ∃ h : Heap Nat,
    h.getElement 0 3 false = some 2 ∧ ¬ h.getElement 0 3 true = some 1 := by
  obtain ⟨h, -, -, hget⟩ := biList_refines runs_two
  have hpositions := hget 0 [1, 2] rfl (by simp) 3
  refine ⟨h, (hpositions false).2.mpr ?_, ?_⟩
  · rintro ⟨hreversed, -⟩
    cases hreversed
  · intro heq
    exact (hpositions true).2.mp heq ⟨rfl, by decide, by decide⟩

/-- At index 2 of two elements, counted backwards, the first one is taken and not the last. -/
theorem not_biList_refines : ¬ ∀ (A : HeadedLists Nat) (es : List (Op Nat × Output Nat)),
    Runs Spec (fun _ => none) es A →
    ∃ h, outputs exec start (es.map Prod.fst) = some (h, es.map Prod.snd) ∧ Represents h A ∧
      ∀ a l, A a = some l → l ≠ [] → ∀ ind reversed,
        h.getElement a ind reversed = (along reversed l)[ind % l.length]? := by
  intro hclaim
  obtain ⟨h, houtputs, -, hget⟩ := hclaim _ _ runs_two
  have hposition := hget 0 [1, 2] rfl (by simp) 2 true
  have htaken := congrArg (Option.map fun p => p.1.getElement 0 2 true) houtputs
  rw [Option.map_some, hposition] at htaken
  revert htaken
  decide

end Yaclib.Fault.Fiber.BiList
