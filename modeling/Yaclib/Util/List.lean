import Yaclib.Concurrency.Chain
import Yaclib.Concurrency.Refinement
import Yaclib.Util.Lists

/-!
`detail::List` of `util/intrusive_list.cpp`, any number of lists over the same nodes: a
linear list with a `_tail` that points to the list's own head when it is empty.
-/

namespace Yaclib.Detail.List

open Concurrency Intrusive

/-- `next` of every node, and `_tail` of every list. A list is known by its `_head`. -/
structure Store (ν : Type) where
  next : ν → Option ν
  tail : ν → ν

inductive Op (ν : Type) where
  | construct (a : ν)
  | moveConstruct (a b : ν)
  | pushFront (a n : ν)
  | pushBack (a n : ν)
  | popFront (a : ν)
  | empty (a : ν)

inductive Output (ν : Type) where
  | none
  | node (n : ν)
  | flag (b : Bool)
  deriving DecidableEq

namespace Store

variable {ν : Type} [DecidableEq ν]

def setNext (s : Store ν) (n : ν) (m : Option ν) : Store ν :=
  { s with next := Function.update s.next n m }

def setTail (s : Store ν) (a n : ν) : Store ν :=
  { s with tail := Function.update s.tail a n }

/-- A node that was just constructed has no next one. -/
def start : Store ν := ⟨fun _ => none, id⟩

def construct (s : Store ν) (a : ν) : Store ν :=
  (s.setNext a none).setTail a a

/-- It fails when `YACLIB_DEBUG` does. -/
def empty (s : Store ν) (a : ν) : Option Bool :=
  if (s.next a).isNone ≠ decide (s.tail a = a) then none else some (s.next a).isNone

/-- `List(List&&)`; the members are initialised first. -/
def moveConstruct (s : Store ν) (a b : ν) : Option (Store ν) := do
  let s := s.construct a
  if a = b then return s
  if ← s.empty b then return s
  let s := (s.setNext a (s.next b)).setNext b none
  return (s.setTail a (s.tail b)).setTail b b

def pushFront (s : Store ν) (a n : ν) : Option (Store ν) := do
  let s := if ← s.empty a then s.setTail a n else s
  let s := s.setNext n (s.next a)
  return s.setNext a (some n)

def pushBack (s : Store ν) (a n : ν) : Store ν :=
  let s := s.setNext n none
  let s := s.setNext (s.tail a) (some n)
  s.setTail a n

/-- It fails when `YACLIB_ASSERT(!Empty())` does. -/
def popFront (s : Store ν) (a : ν) : Option (Store ν × ν) := do
  if ← s.empty a then none
  let node ← s.next a
  let s := s.setNext a (s.next node)
  let s := if (s.next a).isNone then s.setTail a a else s
  return (s, node)

section

variable (s : Store ν) {a b n : ν} {m : Option ν}

theorem setNext_self : (s.setNext n m).next n = m := by
  simp only [setNext, Function.update_self]

theorem setNext_other (h : a ≠ n) : (s.setNext n m).next a = s.next a := by
  simp only [setNext, Function.update_of_ne h]

theorem setTail_self : (s.setTail a n).tail a = n := by
  simp only [setTail, Function.update_self]

theorem setTail_other (h : b ≠ a) : (s.setTail a n).tail b = s.tail b := by
  simp only [setTail, Function.update_of_ne h]

end

end Store

variable {ν : Type}

/-- The links lead from the head through the list, and `_tail` points to the last node, or
to the head when there is none. -/
structure IsList (s : Store ν) (a : ν) (l : List ν) : Prop where
  chain : Chain s.next (some a) (a :: l)
  tail : (a :: l).getLast? = some (s.tail a)

/-- The store has exactly the lists `A`, and no node is in two of them. -/
structure Represents (s : Store ν) (A : HeadedLists ν) : Prop where
  apart : A.Apart
  list : ∀ a l, A a = some l → IsList s a l

section

variable {s t : Store ν} {A : HeadedLists ν} {a b n : ν} {l m : List ν}

/-- A list survives every change of links outside of it. -/
theorem IsList.frame (h : IsList s a l) (hnext : ∀ i ∈ a :: l, t.next i = s.next i)
    (htail : t.tail a = s.tail a) : IsList t a l := by
  constructor
  · exact h.chain.frame hnext
  · rw [htail]
    exact h.tail

theorem IsList.next_chain (h : IsList s a l) : Chain s.next (s.next a) l := by
  obtain ⟨ys, heq, hys⟩ := h.chain.of_some
  cases heq
  exact hys

theorem IsList.next_eq (h : IsList s a l) : s.next a = l.head? := by
  have hnext := h.next_chain
  cases l with
  | nil =>
    cases hq : s.next a with
    | none => rfl
    | some i =>
      rw [hq] at hnext
      cases hnext
  | cons n l =>
    cases hq : s.next a with
    | none =>
      rw [hq] at hnext
      cases hnext
    | some i =>
      rw [hq] at hnext
      obtain ⟨ys, heq, -⟩ := hnext.of_some
      cases heq
      rfl

/-- `_tail` is the list's own head only when the list is empty. -/
theorem IsList.tail_eq_iff (h : IsList s a l) (hnodup : (a :: l).Nodup) :
    s.tail a = a ↔ l = [] := by
  have htail := h.tail
  constructor
  · intro heq
    by_contra hne
    rw [heq, List.getLast?_cons, List.getLast?_eq_some_getLast hne, Option.getD_some,
      Option.some.injEq] at htail
    exact (List.nodup_cons.mp hnodup).1 (htail ▸ List.getLast_mem hne)
  · rintro rfl
    exact (Option.some.inj htail).symm

/-- An empty list whose `_tail` points to the head itself. -/
theorem IsList.nil (hnext : s.next a = none) (htail : s.tail a = a) : IsList s a [] := by
  constructor
  · refine .cons ?_
    rw [hnext]
    exact .nil
  · rw [htail, List.getLast?_singleton]

namespace Represents

theorem start : Represents (Store.start (ν := ν)) fun _ => none := by
  refine ⟨.none, ?_⟩
  intro a l ha
  cases ha

end Represents

end

variable [DecidableEq ν]

def exec (s : Store ν) : Op ν → Option (Store ν × Output ν)
  | .construct a => some (s.construct a, .none)
  | .moveConstruct a b => (s.moveConstruct a b).map fun t => (t, .none)
  | .pushFront a n => (s.pushFront a n).map fun t => (t, .none)
  | .pushBack a n => some (s.pushBack a n, .none)
  | .popFront a => (s.popFront a).map fun t => (t.1, .node t.2)
  | .empty a => (s.empty a).map fun b => (s, .flag b)

/-- What the calls do to mathematical lists, and when they may be made. -/
inductive Spec (A : HeadedLists ν) : Op ν → HeadedLists ν → Output ν → Prop
  | construct {a : ν} : A.Unlinked a → Spec A (.construct a) (Function.update A a (some [])) .none
  | moveConstruct {a b : ν} {l : List ν} : A.Unlinked a → A b = some l →
      Spec A (.moveConstruct a b) (A.join a b l) .none
  | pushFront {a n : ν} {l : List ν} : A a = some l → A.Unlinked n →
      Spec A (.pushFront a n) (Function.update A a (some (n :: l))) .none
  | pushBack {a n : ν} {l : List ν} : A a = some l → A.Unlinked n →
      Spec A (.pushBack a n) (Function.update A a (some (l ++ [n]))) .none
  | popFront {a n : ν} {l : List ν} : A a = some (n :: l) →
      Spec A (.popFront a) (Function.update A a (some l)) (.node n)
  | empty {a : ν} {l : List ν} : A a = some l → Spec A (.empty a) A (.flag l.isEmpty)

section

variable {s t : Store ν} {A : HeadedLists ν} {a b n : ν} {l m : List ν}

/-- The check of `YACLIB_DEBUG` passes. -/
theorem IsList.empty_eq (h : IsList s a l) (hnodup : (a :: l).Nodup) :
    s.empty a = some l.isEmpty := by
  have hnext : (s.next a).isNone = l.isEmpty := by
    rw [h.next_eq]
    cases l <;> rfl
  have htail : decide (s.tail a = a) = l.isEmpty := by
    rw [Bool.eq_iff_iff, decide_eq_true_iff, List.isEmpty_iff]
    exact h.tail_eq_iff hnodup
  rw [Store.empty, hnext, htail, if_neg fun hne => hne rfl]

/-! ### The calls on one list -/

theorem IsList.construct : IsList (s.construct a) a [] := by
  apply IsList.nil
  · exact s.setNext_self
  · exact (s.setNext a none).setTail_self

/-- `PushBack` links a node behind the one that `_tail` points to, which is the head of an
empty list. -/
theorem IsList.pushBack (h : IsList s a l) (hnodup : (a :: l).Nodup) (hn : n ∉ a :: l) :
    IsList (s.pushBack a n) a (l ++ [n]) := by
  constructor
  · exact h.chain.concat h.tail hnodup hn
  · rw [← List.cons_append, List.getLast?_concat]
    exact congrArg some s.setTail_self.symm

/-- `PushFront` moves `_tail` only if the list was empty. -/
theorem IsList.pushFront (h : IsList s a l) (hnodup : (a :: l).Nodup) (hn : n ∉ a :: l) :
    ∃ t, s.pushFront a n = some t ∧ IsList t a (n :: l) ∧
      (∀ i, i ≠ a → i ≠ n → t.next i = s.next i) ∧ ∀ b, b ≠ a → t.tail b = s.tail b := by
  obtain ⟨hna, hnl⟩ := not_or.mp (List.mem_cons.not.mp hn)
  have hal := (List.nodup_cons.mp hnodup).1
  have hlinks : Chain (Function.update (Function.update s.next n (s.next a)) a (some n))
      (some a) (a :: n :: l) := by
    refine .cons ?_
    rw [Function.update_self]
    refine .cons ?_
    rw [Function.update_of_ne hna, Function.update_self]
    exact (h.next_chain.update hnl (s.next a)).update hal (some n)
  have hframe : ∀ i, i ≠ a → i ≠ n →
      Function.update (Function.update s.next n (s.next a)) a (some n) i = s.next i := by
    intro i hia hin
    rw [Function.update_of_ne hia, Function.update_of_ne hin]
  cases l with
  | nil =>
    refine ⟨((s.setTail a n).setNext n (s.next a)).setNext a (some n), ?_, ⟨hlinks, ?_⟩, hframe,
      fun b hb => s.setTail_other hb⟩
    · rw [Store.pushFront, h.empty_eq hnodup]
      rfl
    · exact congrArg some s.setTail_self.symm
  | cons m l =>
    refine ⟨(s.setNext n (s.next a)).setNext a (some n), ?_, ⟨hlinks, ?_⟩, hframe, fun b _ => rfl⟩
    · rw [Store.pushFront, h.empty_eq hnodup]
      rfl
    · have htail := h.tail
      rw [List.getLast?_cons_cons] at htail ⊢
      rwa [List.getLast?_cons_cons]

/-- `PopFront` brings `_tail` back to the head when the list becomes empty. -/
theorem IsList.popFront (h : IsList s a (n :: l)) (hnodup : (a :: n :: l).Nodup) :
    ∃ t, s.popFront a = some (t, n) ∧ IsList t a l ∧
      (∀ i, i ≠ a → t.next i = s.next i) ∧ ∀ b, b ≠ a → t.tail b = s.tail b := by
  have hal : a ∉ l := fun hmem => (List.nodup_cons.mp hnodup).1 (List.mem_cons_of_mem n hmem)
  have hnext : s.next a = some n := h.next_eq
  have hrest : Chain s.next (s.next n) l := by
    obtain ⟨ys, heq, hys⟩ := (hnext ▸ h.next_chain).of_some
    cases heq
    exact hys
  have hlinks : Chain (Function.update s.next a (s.next n)) (some a) (a :: l) := by
    refine .cons ?_
    rw [Function.update_self]
    exact hrest.update hal (s.next n)
  have hframe : ∀ i, i ≠ a → Function.update s.next a (s.next n) i = s.next i :=
    fun i hi => Function.update_of_ne hi _ _
  have hpop : s.popFront a = some
      (if ((s.setNext a (s.next n)).next a).isNone then (s.setNext a (s.next n)).setTail a a
        else s.setNext a (s.next n), n) := by
    simp only [Store.popFront, h.empty_eq hnodup, hnext]
    rfl
  have hself : (s.setNext a (s.next n)).next a = s.next n := Function.update_self a _ s.next
  rw [hself] at hpop
  cases l with
  | nil =>
    have hnone : s.next n = none := by
      cases hq : s.next n with
      | none => rfl
      | some i =>
        rw [hq] at hrest
        cases hrest
    refine ⟨_, hpop, ?_⟩
    rw [if_pos (Option.isNone_iff_eq_none.mpr hnone)]
    refine ⟨⟨hlinks, ?_⟩, hframe, fun b hb => s.setTail_other hb⟩
    exact congrArg some s.setTail_self.symm
  | cons m l =>
    have hsome : (s.next n).isNone ≠ true := by
      intro hnone
      rw [Option.isNone_iff_eq_none.mp hnone] at hrest
      cases hrest
    refine ⟨_, hpop, ?_⟩
    rw [if_neg hsome]
    refine ⟨⟨hlinks, ?_⟩, hframe, fun b _ => rfl⟩
    have htail := h.tail
    rw [List.getLast?_cons_cons, List.getLast?_cons_cons] at htail
    rwa [List.getLast?_cons_cons]

/-- The members are taken from a list that is not empty; an empty one is left as it is. -/
theorem IsList.moveConstruct (h : IsList s b l) (hnodup : (b :: l).Nodup) (ha : a ∉ b :: l) :
    ∃ t, s.moveConstruct a b = some t ∧ IsList t a l ∧ IsList t b [] ∧
      (∀ i, i ≠ a → i ≠ b → t.next i = s.next i) ∧
      ∀ c, c ≠ a → c ≠ b → t.tail c = s.tail c := by
  obtain ⟨hab, hal⟩ := not_or.mp (List.mem_cons.not.mp ha)
  have hbl := (List.nodup_cons.mp hnodup).1
  have hnext : ∀ i, i ≠ a → (s.construct a).next i = s.next i :=
    fun i hi => s.setNext_other hi
  have htail : ∀ c, c ≠ a → (s.construct a).tail c = s.tail c :=
    fun c hc => (s.setNext a none).setTail_other hc
  have hsame : IsList (s.construct a) b l :=
    h.frame (fun i hi => hnext i fun heq => ha (heq ▸ hi)) (htail b (Ne.symm hab))
  have hempty := hsame.empty_eq hnodup
  cases l with
  | nil =>
    refine ⟨s.construct a, ?_, .construct, hsame, fun i hi _ => hnext i hi,
      fun c hc _ => htail c hc⟩
    simp only [Store.moveConstruct, if_neg hab, hempty]
    rfl
  | cons n l =>
    generalize hc : s.construct a = c at hnext htail hsame hempty
    refine ⟨(((c.setNext a (c.next b)).setNext b none).setTail a (c.tail b)).setTail b b, ?_, ?_,
      ?_, ?_, ?_⟩
    · simp only [Store.moveConstruct, if_neg hab, hc, hempty]
      rfl
    · constructor
      · change Chain (Function.update (Function.update c.next a (c.next b)) b none) _ _
        refine .cons ?_
        rw [Function.update_of_ne hab, Function.update_self]
        exact (hsame.next_chain.update hal (c.next b)).update hbl none
      · change _ = some (Function.update (Function.update c.tail a (c.tail b)) b b a)
        rw [Function.update_of_ne hab, Function.update_self, ← hsame.tail,
          List.getLast?_cons_cons, List.getLast?_cons_cons]
    · apply IsList.nil
      · exact (c.setNext a (c.next b)).setNext_self
      · exact (((c.setNext a (c.next b)).setNext b none).setTail a (c.tail b)).setTail_self
    · intro i hia hib
      change Function.update (Function.update c.next a (c.next b)) b none i = _
      rw [Function.update_of_ne hib, Function.update_of_ne hia, hnext i hia]
    · intro d hda hdb
      change Function.update (Function.update c.tail a (c.tail b)) b b d = _
      rw [Function.update_of_ne hdb, Function.update_of_ne hda, htail d hda]

/-! ### The calls on any number of lists -/

namespace Represents

theorem list_empty (hR : Represents s A) (ha : A a = some l) : s.empty a = some l.isEmpty :=
  (hR.list a l ha).empty_eq (hR.apart.nodup a l ha)

/-- The lists other than `a` are untouched when only `a`, its nodes and unlinked nodes are
written to. -/
theorem update (hR : Represents s A) (hlist : IsList t a m)
    (hapart : HeadedLists.Apart (Function.update A a (some m)))
    (hnext : ∀ i, i ≠ a → (∀ b k, A b = some k → b ≠ a → i ∈ b :: k → t.next i = s.next i))
    (htail : ∀ b, b ≠ a → t.tail b = s.tail b) :
    Represents t (Function.update A a (some m)) := by
  refine ⟨hapart, ?_⟩
  intro b k hb
  by_cases hba : b = a
  · subst hba
    rw [Function.update_self] at hb
    cases hb
    exact hlist
  · have hmem : ∀ i ∈ b :: k, i ≠ a := by
      intro i hi hia
      subst hia
      have hself := hapart.apart i b m k (Function.update_self i _ A) hb (Ne.symm hba) i
      exact hself List.mem_cons_self hi
    rw [Function.update_of_ne hba] at hb
    exact (hR.list b k hb).frame (fun i hi => hnext i (hmem i hi) b k hb hba hi) (htail b hba)

theorem construct (hR : Represents s A) (ha : A.Unlinked a) :
    Represents (s.construct a) (Function.update A a (some [])) := by
  refine hR.update .construct (hR.apart.construct ha) ?_ ?_
  · intro i hia _ _ _ _ _
    exact s.setNext_other hia
  · intro b hba
    exact (s.setNext a none).setTail_other hba

/-- The new list has the nodes, and the old one is empty. -/
theorem moveConstruct (hR : Represents s A) (ha : A.Unlinked a) (hb : A b = some l) :
    ∃ t, s.moveConstruct a b = some t ∧ Represents t (A.join a b l) := by
  have hab : a ≠ b := HeadedLists.Apart.ne_of_unlinked ha hb
  obtain ⟨t, ht, hlist, hempty, hnext, htail⟩ :=
    (hR.list b l hb).moveConstruct (hR.apart.nodup b l hb) (ha b l hb)
  have hb' : Function.update A a (some []) b = some l := by
    rw [Function.update_of_ne hab.symm, hb]
  have hapart := (hR.apart.construct ha).move hab (Function.update_self a _ A) hb'
  have hjoin : HeadedLists.join (Function.update A a (some [])) a b l = A.join a b l := by
    rw [HeadedLists.join, Function.update_idem, ← HeadedLists.join]
  refine ⟨t, ht, hjoin ▸ hapart, ?_⟩
  intro c k hc
  by_cases hca : c = a
  · subst hca
    rw [HeadedLists.join_left hab] at hc
    cases hc
    exact hlist
  by_cases hcb : c = b
  · subst hcb
    rw [HeadedLists.join_right] at hc
    cases hc
    exact hempty
  rw [HeadedLists.join_other hca hcb] at hc
  refine (hR.list c k hc).frame ?_ (htail c hca hcb)
  intro i hi
  refine hnext i ?_ ?_
  · rintro rfl
    exact ha c k hc hi
  · rintro rfl
    exact hR.apart.apart i c l k hb hc (Ne.symm hcb) i List.mem_cons_self hi

theorem pushFront (hR : Represents s A) (ha : A a = some l) (hn : A.Unlinked n) :
    ∃ t, s.pushFront a n = some t ∧ Represents t (Function.update A a (some (n :: l))) := by
  obtain ⟨t, ht, hlist, hnext, htail⟩ :=
    (hR.list a l ha).pushFront (hR.apart.nodup a l ha) (hn a l ha)
  refine ⟨t, ht, hR.update hlist (hR.apart.insert ha hn (.refl _)) ?_ htail⟩
  intro i hia b k hb _ hi
  exact hnext i hia fun heq => hn b k hb (heq ▸ hi)

theorem pushBack (hR : Represents s A) (ha : A a = some l) (hn : A.Unlinked n) :
    Represents (s.pushBack a n) (Function.update A a (some (l ++ [n]))) := by
  have hlist := hR.list a l ha
  refine hR.update (hlist.pushBack (hR.apart.nodup a l ha) (hn a l ha))
    (hR.apart.insert ha hn (List.perm_append_singleton n l)) ?_ ?_
  · intro i hia b k hb hba hi
    have htail : s.tail a ∈ a :: l := List.mem_of_getLast? hlist.tail
    have hit : i ≠ s.tail a := by
      rintro rfl
      exact hR.apart.apart a b l k ha hb (Ne.symm hba) _ htail hi
    have hin : i ≠ n := fun heq => hn b k hb (heq ▸ hi)
    exact ((s.setNext n none).setNext_other hit).trans (s.setNext_other hin)
  · intro b hba
    exact ((s.setNext n none).setNext (s.tail a) (some n)).setTail_other hba

theorem popFront (hR : Represents s A) (ha : A a = some (n :: l)) :
    ∃ t, s.popFront a = some (t, n) ∧ Represents t (Function.update A a (some l)) := by
  obtain ⟨t, ht, hlist, hnext, htail⟩ :=
    (hR.list a (n :: l) ha).popFront (hR.apart.nodup a _ ha)
  refine ⟨t, ht, hR.update hlist (hR.apart.remove ha (List.sublist_cons_self n l)) ?_ htail⟩
  intro i hia _ _ _ _ _
  exact hnext i hia

end Represents

/-- Every call refines what it does to mathematical lists, and no check of the code fails. -/
theorem exec_refines : Refines exec Spec (Represents (ν := ν)) := by
  intro s A e B o hR hspec
  cases hspec with
  | construct ha => exact ⟨_, rfl, hR.construct ha⟩
  | moveConstruct ha hb =>
    obtain ⟨t, ht, hRt⟩ := hR.moveConstruct ha hb
    exact ⟨t, by rw [exec, ht, Option.map_some], hRt⟩
  | pushFront ha hn =>
    obtain ⟨t, ht, hRt⟩ := hR.pushFront ha hn
    exact ⟨t, by rw [exec, ht, Option.map_some], hRt⟩
  | pushBack ha hn => exact ⟨_, rfl, hR.pushBack ha hn⟩
  | popFront ha =>
    obtain ⟨t, ht, hRt⟩ := hR.popFront ha
    exact ⟨t, by rw [exec, ht, Option.map_some], hRt⟩
  | empty ha => exact ⟨s, by rw [exec, hR.list_empty ha, Option.map_some], hR⟩

end

/-- Whatever the calls were, they had the outputs of the mathematical lists, and the links
and tails are those of the lists. After a move the source is an empty list. -/
theorem list_refines {A : HeadedLists ν} {es : List (Op ν × Output ν)}
    (hruns : Runs Spec (fun _ => none) es A) :
    ∃ s, outputs exec .start (es.map Prod.fst) = some (s, es.map Prod.snd) ∧
      A.Apart ∧
      (∀ a l, A a = some l → Chain s.next (s.next a) l ∧ s.tail a = (a :: l).getLast (by simp)) ∧
      ∀ a b l, A.Unlinked a → A b = some l → ∃ t, s.moveConstruct a b = some t ∧
        IsList t a l ∧ t.next b = none ∧ t.tail b = b ∧ Represents t (A.join a b l) := by
  obtain ⟨s, houtputs, hR⟩ := exec_refines.runs .start hruns
  refine ⟨s, houtputs, hR.apart, ?_, ?_⟩
  · intro a l ha
    have hlist := hR.list a l ha
    refine ⟨hlist.next_chain, ?_⟩
    have htail := hlist.tail
    rw [List.getLast?_eq_some_getLast (by simp)] at htail
    exact (Option.some.inj htail).symm
  · intro a b l ha hb
    obtain ⟨t, ht, hRt⟩ := hR.moveConstruct ha hb
    have hab : a ≠ b := HeadedLists.Apart.ne_of_unlinked ha hb
    have hsource := hRt.list b [] HeadedLists.join_right
    exact ⟨t, ht, hRt.list a l (HeadedLists.join_left hab), hsource.next_eq,
      (Option.some.inj hsource.tail).symm, hRt⟩

/-- A list is moved while it is empty, and the source is used again. -/
theorem list_refines_moved : ∃ s, outputs exec .start
    [Op.construct 0, .moveConstruct 1 0, .pushBack 0 2, .pushFront 0 3, .popFront 0] =
      some (s, [.none, .none, .none, .none, .node 3]) ∧ s.tail 0 = 2 := by
  let A : HeadedLists Nat := Function.update (fun _ => none) 0 (some [])
  let B : HeadedLists Nat := A.join 1 0 []
  let C : HeadedLists Nat := Function.update B 0 (some [2])
  have hA : ∀ n, n ≠ 0 → A.Unlinked n :=
    fun n hn => HeadedLists.Unlinked.none.update (by simpa using hn)
  have hB : ∀ n, n ≠ 0 → n ≠ 1 → B.Unlinked n := by
    intro n hn hn'
    exact ((hA n hn).update (by simpa using hn')).update (by simpa using hn)
  have hC : C.Unlinked 3 := (hB 3 (by decide) (by decide)).update (by decide)
  have hruns : Runs Spec (fun _ => none)
      [(.construct 0, .none), (.moveConstruct 1 0, .none), (.pushBack 0 2, .none),
        (.pushFront 0 3, .none), (.popFront 0, .node 3)] _ :=
    .cons (.construct .none) (.cons (.moveConstruct (hA 1 (by decide)) (Function.update_self 0 _ _))
      (.cons (.pushBack (l := []) HeadedLists.join_right (hB 2 (by decide) (by decide)))
        (.cons (.pushFront (Function.update_self 0 _ B) hC)
          (.cons (.popFront (Function.update_self 0 _ C)) (.nil _)))))
  obtain ⟨s, houtputs, -, hlists, -⟩ := list_refines hruns
  exact ⟨s, houtputs, (hlists 0 [2] (Function.update_self 0 _ _)).2⟩

end Yaclib.Detail.List
