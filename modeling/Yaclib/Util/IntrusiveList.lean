import Mathlib.Data.List.Nodup
import Mathlib.Logic.Function.Basic

/-!
Intrusive doubly linked lists: nodes of any type `ν` with two pointers each, and lists that
are rings of nodes closed by a head node. The operations read and write pointers; `IsList`
says which list a head represents, and `Store` that several of them do not overlap.

`none` is a null pointer. An operation that would read through one is `none`.
-/

namespace Yaclib.Intrusive

structure Heap (ν : Type) where
  next : ν → Option ν
  prev : ν → Option ν

variable {ν : Type}

namespace Heap

/-- One step along the list, backwards if `reversed`. -/
def follow (h : Heap ν) (reversed : Bool) (n : ν) : Option ν :=
  if reversed then h.prev n else h.next n

/-- `count` steps along the list. -/
def hop (h : Heap ν) (reversed : Bool) : Nat → ν → Option ν
  | 0, n => some n
  | count + 1, n => (h.follow reversed n).bind (h.hop reversed count)

variable [DecidableEq ν]

def setNext (h : Heap ν) (n : ν) (v : Option ν) : Heap ν :=
  { h with next := Function.update h.next n v }

def setPrev (h : Heap ν) (n : ν) (v : Option ν) : Heap ν :=
  { h with prev := Function.update h.prev n v }

def construct (h : Heap ν) (n : ν) : Heap ν :=
  (h.setNext n (some n)).setPrev n (some n)

def empty (h : Heap ν) (a : ν) : Bool :=
  h.next a = some a

/-- Unlink a node; false if it is not linked. -/
def erase (h : Heap ν) (n : ν) : Heap ν × Bool :=
  match h.prev n, h.next n with
  | some p, some q =>
    ((((h.setNext p (some q)).setPrev q (some p)).setNext n none).setPrev n none, true)
  | _, _ => (h, false)

def pushBack (h : Heap ν) (a n : ν) : Option (Heap ν) :=
  (h.prev a).map fun last =>
    (((h.setNext n (some a)).setNext last (some n)).setPrev n (some last)).setPrev a (some n)

/-- The last node, unlinked. -/
def popBack (h : Heap ν) (a : ν) : Option (Heap ν × ν) :=
  (h.prev a).map fun last => ((h.erase last).1, last)

/-- The list `a` becomes the list `b`, which becomes empty. -/
def assign (h : Heap ν) (a b : ν) : Option (Heap ν) :=
  if a = b then some h
  else if h.empty b then some (h.construct a)
  else do
    let first ← h.next b
    let last ← h.prev b
    let h := ((h.setNext a (some first)).setNext b (some b)).setPrev a (some last)
    some (((h.setPrev b (some b)).setPrev first (some a)).setNext last (some a))

/-- The nodes of `b` go to the end of `a`. -/
def pushAll (h : Heap ν) (a b : ν) : Option (Heap ν) :=
  if a = b ∨ h.empty b then some h
  else do
    let first ← h.next b
    let mid ← h.prev a
    let h := ((h.setNext mid (some first)).setNext b (some b)).setPrev first (some mid)
    let last ← h.prev b
    some (((h.setPrev a (some last)).setPrev b (some b)).setNext last (some a))

/-- From a node on towards the head, at most `ind` steps: how many, and where. -/
def walk (h : Heap ν) (a : ν) (reversed : Bool) : Nat → ν → Option (Nat × ν)
  | 0, n => some (0, n)
  | ind + 1, n =>
    if n = a then some (0, n)
    else do
      let m ← h.follow reversed n
      let (i, last) ← h.walk a reversed ind m
      some (i + 1, last)

/-- The node at a position, from the end if `reversed`; past the end the positions start
again. `none` for the empty list. -/
def getElement (h : Heap ν) (a : ν) (ind : Nat) (reversed : Bool) : Option ν := do
  let first ← h.follow reversed a
  let (size, n) ← h.walk a reversed ind first
  if size = ind ∧ n ≠ a then some n
  else if size = 0 then none
  else
    let i := if reversed then (size - ind % size) % size else ind % size
    if i < size / 2 then (h.next a).bind (h.hop false i)
    else (h.prev a).bind (h.hop true (size - 1 - i))

end Heap

/-! ### What a head represents -/

/-- The nodes `l` are linked one after the other between `a` and `b`. -/
def Segment (h : Heap ν) : ν → List ν → ν → Prop
  | a, [], b => h.next a = some b ∧ h.prev b = some a
  | a, x :: l, b => h.next a = some x ∧ h.prev x = some a ∧ Segment h x l b

/-- The head `a` represents the list `l`. -/
def IsList (h : Heap ν) (a : ν) (l : List ν) : Prop :=
  Segment h a l a ∧ (a :: l).Nodup

/-- The same pointers at a node. -/
def Same (h h' : Heap ν) (n : ν) : Prop :=
  h'.next n = h.next n ∧ h'.prev n = h.prev n

variable {h h' : Heap ν} {a b c n x : ν} {l m : List ν}

namespace Segment

/-- A segment is cut at any of its nodes. -/
theorem append : Segment h a (l ++ x :: m) b ↔ Segment h a l x ∧ Segment h x m b := by
  induction l generalizing a with
  | nil => simp [Segment, and_assoc]
  | cons y l ih => simp [Segment, ih, and_assoc]

/-- The first node after `a`. -/
theorem next (hs : Segment h a l b) : h.next a = some ((l ++ [b]).head (by simp)) := by
  cases l with
  | nil => exact hs.1
  | cons x l => exact hs.1

/-- The last node before `b`. -/
theorem prev (hs : Segment h a l b) :
    h.prev b = some ((a :: l).getLast (List.cons_ne_nil a l)) := by
  induction l generalizing a with
  | nil => exact hs.2
  | cons x l ih =>
    rw [List.getLast_cons (List.cons_ne_nil x l)]
    exact ih hs.2.2

/-- Another heap that differs neither in the `next` of the nodes up to the last one, nor in
the `prev` after the first. -/
theorem congr (hs : Segment h a l b) (hnext : ∀ n ∈ a :: l, h'.next n = h.next n)
    (hprev : ∀ n ∈ l ++ [b], h'.prev n = h.prev n) : Segment h' a l b := by
  induction l generalizing a with
  | nil =>
    refine ⟨?_, ?_⟩
    · rw [hnext a (by simp)]
      exact hs.1
    · rw [hprev b (by simp)]
      exact hs.2
  | cons x l ih =>
    refine ⟨?_, ?_, ?_⟩
    · rw [hnext a (by simp)]
      exact hs.1
    · rw [hprev x (by simp)]
      exact hs.2.1
    · apply ih hs.2.2
      · intro n hn
        exact hnext n (List.mem_cons_of_mem a hn)
      · intro n hn
        exact hprev n (List.mem_cons_of_mem x hn)

/-- The last pointers of the segment are turned from `b` to `c`. -/
theorem retarget (hs : Segment h a l b) (hnodup : (a :: l).Nodup)
    (hnext : ∀ n ∈ a :: l, n ≠ (a :: l).getLast (List.cons_ne_nil a l) → h'.next n = h.next n)
    (hprev : ∀ n ∈ l, h'.prev n = h.prev n)
    (hlast : h'.next ((a :: l).getLast (List.cons_ne_nil a l)) = some c)
    (hend : h'.prev c = some ((a :: l).getLast (List.cons_ne_nil a l))) :
    Segment h' a l c := by
  induction l generalizing a with
  | nil => exact ⟨hlast, hend⟩
  | cons x l ih =>
    rw [List.getLast_cons (List.cons_ne_nil x l)] at hlast hend
    obtain ⟨hfresh, hnodup⟩ := List.nodup_cons.mp hnodup
    have hne : a ≠ (a :: x :: l).getLast (List.cons_ne_nil a _) := by
      rw [List.getLast_cons (List.cons_ne_nil x l)]
      intro heq
      exact hfresh (heq ▸ List.getLast_mem (List.cons_ne_nil x l))
    refine ⟨?_, ?_, ih hs.2.2 hnodup ?_ ?_ hlast hend⟩
    · rw [hnext a (by simp) hne]
      exact hs.1
    · rw [hprev x (by simp)]
      exact hs.2.1
    · intro n hn hlast
      apply hnext n (List.mem_cons_of_mem a hn)
      rwa [List.getLast_cons (List.cons_ne_nil x l)]
    · intro n hn
      exact hprev n (List.mem_cons_of_mem x hn)

end Segment

namespace IsList

theorem not_mem (hl : IsList h a l) : a ∉ l :=
  (List.nodup_cons.mp hl.2).1

/-- A node is once in its list, since it has one predecessor. -/
theorem nodup (hl : IsList h a l) : l.Nodup :=
  (List.nodup_cons.mp hl.2).2

theorem congr (hl : IsList h a l) (hsame : ∀ n ∈ a :: l, Same h h' n) : IsList h' a l := by
  refine ⟨hl.1.congr (fun n hn => (hsame n hn).1) ?_, hl.2⟩
  intro n hn
  apply (hsame n _).2
  rw [List.mem_append, List.mem_singleton] at hn
  rw [List.mem_cons]
  exact hn.symm

/-! ### The operations -/

variable [DecidableEq ν]

theorem construct (h : Heap ν) (a : ν) : IsList (h.construct a) a [] := by
  refine ⟨⟨?_, ?_⟩, List.nodup_singleton a⟩
  · exact Function.update_self a _ _
  · exact Function.update_self a _ _

/-- An empty list is already constructed. -/
theorem construct_nil (hl : IsList h a []) : h.construct a = h := by
  obtain ⟨hnext, hprev⟩ := hl.1
  unfold Heap.construct Heap.setNext Heap.setPrev
  rw [← hnext, Function.update_eq_self, hnext]
  dsimp only
  rw [← hprev, Function.update_eq_self]

theorem same_construct (h : Heap ν) (hn : n ≠ a) : Same h (h.construct a) n :=
  ⟨Function.update_of_ne hn _ _, Function.update_of_ne hn _ _⟩

theorem empty_iff (hl : IsList h a l) : h.empty a = true ↔ l = [] := by
  unfold Heap.empty
  rw [decide_eq_true_iff]
  cases l with
  | nil => exact iff_of_true hl.1.1 rfl
  | cons x l =>
    apply iff_of_false
    · intro hnext
      have heq : x = a := Option.some.inj (hl.1.1.symm.trans hnext)
      exact hl.not_mem (heq ▸ List.mem_cons_self)
    · exact List.cons_ne_nil x l

theorem pushBack (hl : IsList h a l) (hn : n ∉ a :: l) :
    ∃ h', h.pushBack a n = some h' ∧ IsList h' a (l ++ [n]) ∧
      ∀ m, m ∉ a :: l → m ≠ n → Same h h' m := by
  obtain ⟨last, hlast⟩ : ∃ t, t = (a :: l).getLast (List.cons_ne_nil a l) := ⟨_, rfl⟩
  have hmem : last ∈ a :: l := hlast ▸ List.getLast_mem _
  have hprev : h.prev a = some last := hlast ▸ hl.1.prev
  have hna : n ≠ a := fun heq => hn (heq ▸ List.mem_cons_self)
  have hnlast : n ≠ last := fun heq => hn (heq ▸ hmem)
  refine ⟨_, by rw [Heap.pushBack, hprev, Option.map_some], ⟨?_, ?_⟩, ?_⟩
  · rw [Segment.append]
    refine ⟨hl.1.retarget hl.2 ?_ ?_ ?_ ?_, ?_, ?_⟩
    · intro m hm hne
      rw [← hlast] at hne
      have hmn : m ≠ n := fun heq => hn (heq ▸ hm)
      simp [Heap.setNext, Heap.setPrev, hne, hmn]
    · intro m hm
      have hmn : m ≠ n := fun heq => hn (heq ▸ List.mem_cons_of_mem a hm)
      have hma : m ≠ a := fun heq => hl.not_mem (heq ▸ hm)
      simp [Heap.setNext, Heap.setPrev, hma, hmn]
    · rw [← hlast]
      simp [Heap.setNext, Heap.setPrev]
    · rw [← hlast]
      simp [Heap.setNext, Heap.setPrev, hna]
    · simp [Heap.setNext, Heap.setPrev, hnlast]
    · simp [Heap.setPrev]
  · rw [← List.cons_append]
    apply List.nodup_append.mpr
    refine ⟨hl.2, List.nodup_singleton n, ?_⟩
    intro m hm m' hm' heq
    rw [List.mem_singleton] at hm'
    exact hn (hm' ▸ heq ▸ hm)
  · intro m hm hmn
    have hma : m ≠ a := fun heq => hm (heq ▸ List.mem_cons_self)
    have hmlast : m ≠ last := fun heq => hm (heq ▸ hmem)
    simp [Same, Heap.setNext, Heap.setPrev, hma, hmn, hmlast]

theorem erase (hl : IsList h a (l ++ n :: m)) :
    ∃ h', h.erase n = (h', true) ∧ IsList h' a (l ++ m) ∧ h'.next n = none ∧ h'.prev n = none ∧
      ∀ x, x ∉ a :: (l ++ n :: m) → Same h h' x := by
  obtain ⟨hs, hnodup⟩ := hl
  obtain ⟨hfront, hback⟩ := Segment.append.mp hs
  obtain ⟨p, hp⟩ : ∃ t, t = (a :: l).getLast (List.cons_ne_nil a l) := ⟨_, rfl⟩
  obtain ⟨q, hq⟩ : ∃ t, t = (m ++ [a]).head (by simp) := ⟨_, rfl⟩
  have hprev : h.prev n = some p := hp ▸ hfront.prev
  have hnext : h.next n = some q := hq ▸ hback.next
  have hsplit : (a :: l).Nodup ∧ (n :: m).Nodup ∧ ∀ x ∈ a :: l, ∀ y ∈ n :: m, x ≠ y :=
    List.nodup_append.mp (by rwa [List.cons_append])
  obtain ⟨hfrontnodup, hbacknodup, hapart⟩ := hsplit
  have hpmem : p ∈ a :: l := hp ▸ List.getLast_mem _
  have hqmem : q ∈ m ++ [a] := hq ▸ List.head_mem _
  have hnfront : ∀ x ∈ a :: l, x ≠ n := fun x hx => hapart x hx n List.mem_cons_self
  have hnback : ∀ x ∈ m, x ≠ n := fun x hx heq => (List.nodup_cons.mp hbacknodup).1 (heq ▸ hx)
  have hqn : q ≠ n := by
    rw [List.mem_append, List.mem_singleton] at hqmem
    rcases hqmem with hqm | rfl
    · exact hnback q hqm
    · exact hnfront q List.mem_cons_self
  refine ⟨_, by rw [Heap.erase, hprev, hnext], ⟨?_, ?_⟩, ?_, ?_, ?_⟩
  · have hstep : Segment ((((h.setNext p (some q)).setPrev q (some p)).setNext n none).setPrev n none)
        a l q := by
      refine hfront.retarget hfrontnodup ?_ ?_ ?_ ?_
      · intro x hx hne
        rw [← hp] at hne
        simp [Heap.setNext, Heap.setPrev, hne, hnfront x hx]
      · intro x hx
        have hxa : x ≠ a := fun heq => (List.nodup_cons.mp hfrontnodup).1 (heq ▸ hx)
        have hxq : x ≠ q := by
          rintro rfl
          rw [List.mem_append, List.mem_singleton] at hqmem
          rcases hqmem with hqm | hqa
          · exact hapart x (List.mem_cons_of_mem a hx) x (List.mem_cons_of_mem n hqm) rfl
          · exact hxa hqa
        simp [Heap.setNext, Heap.setPrev, hxq, hnfront x (List.mem_cons_of_mem a hx)]
      · rw [← hp]
        simp [Heap.setNext, Heap.setPrev, hnfront p hpmem]
      · rw [← hp]
        simp [Heap.setNext, Heap.setPrev, hqn]
    cases m with
    | nil =>
      obtain rfl : q = a := hq
      rw [List.append_nil]
      exact hstep
    | cons y m =>
      obtain rfl : q = y := hq
      rw [Segment.append]
      refine ⟨hstep, hback.2.2.congr ?_ ?_⟩
      · intro x hx
        have hxp : x ≠ p := (hapart p hpmem x (List.mem_cons_of_mem n hx)).symm
        simp [Heap.setNext, Heap.setPrev, hxp, hnback x hx]
      · intro x hx
        rw [List.mem_append, List.mem_singleton] at hx
        have hxq : x ≠ q := by
          rintro rfl
          rcases hx with hxm | hxa
          · exact (List.nodup_cons.mp (List.nodup_cons.mp hbacknodup).2).1 hxm
          · exact hapart a List.mem_cons_self x (by simp) hxa.symm
        have hxn : x ≠ n := by
          rcases hx with hxm | rfl
          · exact hnback x (List.mem_cons_of_mem q hxm)
          · exact hnfront x List.mem_cons_self
        simp [Heap.setNext, Heap.setPrev, hxq, hxn]
  · exact hnodup.sublist (by simp)
  · simp [Heap.setNext, Heap.setPrev]
  · simp [Heap.setPrev]
  · intro x hx
    have hxp : x ≠ p := by
      rintro rfl
      exact hx (by rw [← List.cons_append]; exact List.mem_append_left _ hpmem)
    have hxn : x ≠ n := by
      rintro rfl
      exact hx (by simp)
    have hxq : x ≠ q := by
      rintro rfl
      rw [List.mem_append, List.mem_singleton] at hqmem
      rcases hqmem with hqm | rfl
      · exact hx (by simp [hqm])
      · exact hx (by simp)
    simp [Same, Heap.setNext, Heap.setPrev, hxp, hxn, hxq]

/-- An unlinked node stays as it is. -/
theorem erase_null (hnext : h.next n = none) : h.erase n = (h, false) := by
  unfold Heap.erase
  rw [hnext]
  cases h.prev n <;> rfl

theorem popBack (hl : IsList h a (l ++ [n])) : h.popBack a = some ((h.erase n).1, n) := by
  have hlast : h.prev a = some n := by
    rw [hl.1.prev]
    simp
  rw [Heap.popBack, hlast, Option.map_some]

theorem assign (hl : IsList h b l) (hab : a ≠ b) (ha : a ∉ l) :
    ∃ h', h.assign a b = some h' ∧ IsList h' a l ∧ IsList h' b [] ∧
      ∀ x, x ≠ a → x ∉ b :: l → Same h h' x := by
  have hempty := hl.empty_iff
  cases l with
  | nil =>
    refine ⟨h.construct a, ?_, construct h a, ?_, ?_⟩
    · rw [Heap.assign, if_neg hab, if_pos (hempty.mpr rfl)]
    · exact hl.congr fun x hx => same_construct h (by
        rw [List.mem_singleton] at hx
        rw [hx]
        exact hab.symm)
    · intro x hx _
      exact same_construct h hx
  | cons y l =>
    obtain ⟨last, hlast⟩ : ∃ t, t = (y :: l).getLast (List.cons_ne_nil y l) := ⟨_, rfl⟩
    have hnext : h.next b = some y := hl.1.1
    have hprev : h.prev b = some last := by
      rw [hlast, hl.1.prev, List.getLast_cons (List.cons_ne_nil y l)]
    have hmem : last ∈ y :: l := hlast ▸ List.getLast_mem _
    have hlasta : last ≠ a := fun heq => ha (heq ▸ hmem)
    have hlastb : last ≠ b := fun heq => hl.not_mem (heq ▸ hmem)
    have hya : y ≠ a := fun heq => ha (heq ▸ List.mem_cons_self)
    have hyb : y ≠ b := fun heq => hl.not_mem (heq ▸ List.mem_cons_self)
    have hnonempty : ¬ h.empty b = true := by
      rw [hempty]
      exact List.cons_ne_nil y l
    refine ⟨_, by rw [Heap.assign, if_neg hab, if_neg hnonempty, hnext, hprev]; rfl,
      ⟨⟨?_, ?_, ?_⟩, ?_⟩, ⟨⟨?_, ?_⟩, List.nodup_singleton b⟩, ?_⟩
    · simp [Heap.setNext, Heap.setPrev, hlasta.symm, hab]
    · simp [Heap.setNext, Heap.setPrev]
    · refine hl.1.2.2.retarget hl.nodup ?_ ?_ ?_ ?_
      · intro x hx hne
        rw [← hlast] at hne
        have hxa : x ≠ a := fun heq => ha (heq ▸ hx)
        have hxb : x ≠ b := fun heq => hl.not_mem (heq ▸ hx)
        simp [Heap.setNext, Heap.setPrev, hne, hxa, hxb]
      · intro x hx
        have hxy : x ≠ y := fun heq => (List.nodup_cons.mp hl.nodup).1 (heq ▸ hx)
        have hxa : x ≠ a := fun heq => ha (heq ▸ List.mem_cons_of_mem y hx)
        have hxb : x ≠ b := fun heq => hl.not_mem (heq ▸ List.mem_cons_of_mem y hx)
        simp [Heap.setNext, Heap.setPrev, hxy, hxa, hxb]
      · rw [← hlast]
        simp [Heap.setNext, Heap.setPrev]
      · rw [← hlast]
        simp [Heap.setNext, Heap.setPrev, hya.symm, hab]
    · exact List.nodup_cons.mpr ⟨ha, hl.nodup⟩
    · simp [Heap.setNext, Heap.setPrev, hlastb.symm]
    · simp [Heap.setNext, Heap.setPrev, hyb.symm]
    · intro x hxa hx
      have hxb : x ≠ b := fun heq => hx (heq ▸ List.mem_cons_self)
      have hxy : x ≠ y := fun heq => hx (by simp [heq])
      have hxlast : x ≠ last := fun heq => hx (List.mem_cons_of_mem b (heq ▸ hmem))
      simp [Same, Heap.setNext, Heap.setPrev, hxa, hxb, hxy, hxlast]

theorem pushAll (hl : IsList h a l) (hm : IsList h b m) (hab : a ≠ b)
    (hapart : ∀ x ∈ a :: l, x ∉ b :: m) :
    ∃ h', h.pushAll a b = some h' ∧ IsList h' a (l ++ m) ∧ IsList h' b [] ∧
      ∀ x, x ∉ a :: l → x ∉ b :: m → Same h h' x := by
  have hempty := hm.empty_iff
  cases m with
  | nil =>
    refine ⟨h, ?_, ?_, hm, ?_⟩
    · rw [Heap.pushAll, if_pos (.inr (hempty.mpr rfl))]
    · rwa [List.append_nil]
    · intro x _ _
      exact ⟨rfl, rfl⟩
  | cons y m =>
    obtain ⟨mid, hmid⟩ : ∃ t, t = (a :: l).getLast (List.cons_ne_nil a l) := ⟨_, rfl⟩
    obtain ⟨last, hlast⟩ : ∃ t, t = (y :: m).getLast (List.cons_ne_nil y m) := ⟨_, rfl⟩
    have hnextb : h.next b = some y := hm.1.1
    have hpreva : h.prev a = some mid := hmid ▸ hl.1.prev
    have hprevb : h.prev b = some last := by
      rw [hlast, hm.1.prev, List.getLast_cons (List.cons_ne_nil y m)]
    have hmidmem : mid ∈ a :: l := hmid ▸ List.getLast_mem _
    have hlastmem : last ∈ y :: m := hlast ▸ List.getLast_mem _
    have hlasta : ∀ x ∈ a :: l, x ≠ last := by
      rintro x hx rfl
      exact hapart x hx (List.mem_cons_of_mem b hlastmem)
    have hfronty : ∀ x ∈ a :: l, x ≠ y := by
      rintro x hx rfl
      exact hapart x hx (by simp)
    have hfrontb : ∀ x ∈ a :: l, x ≠ b := by
      rintro x hx rfl
      exact hapart x hx List.mem_cons_self
    have hyb : y ≠ b := fun heq => hm.not_mem (heq ▸ List.mem_cons_self)
    have hlastb : last ≠ b := fun heq => hm.not_mem (heq ▸ hlastmem)
    have hnonempty : ¬ (a = b ∨ h.empty b = true) := by
      rw [hempty]
      simp [hab]
    have hsecond : (((h.setNext mid (some y)).setNext b (some b)).setPrev y (some mid)).prev b =
        some last := by
      simp [Heap.setNext, Heap.setPrev, hyb.symm, hprevb]
    refine ⟨_, by rw [Heap.pushAll, if_neg hnonempty, hnextb, hpreva]
                  exact congrArg (Option.bind · _) hsecond,
      ⟨?_, ?_⟩, ⟨⟨?_, ?_⟩, List.nodup_singleton b⟩, ?_⟩
    · rw [Segment.append]
      refine ⟨hl.1.retarget hl.2 ?_ ?_ ?_ ?_, hm.1.2.2.retarget hm.nodup ?_ ?_ ?_ ?_⟩
      · intro x hx hne
        rw [← hmid] at hne
        simp [Heap.setNext, Heap.setPrev, hne, hlasta x hx, hfrontb x hx]
      · intro x hx
        have hxa : x ≠ a := fun heq => hl.not_mem (heq ▸ hx)
        have hx := List.mem_cons_of_mem a hx
        simp [Heap.setNext, Heap.setPrev, hxa, hfronty x hx, hfrontb x hx]
      · rw [← hmid]
        simp [Heap.setNext, Heap.setPrev, hlasta mid hmidmem, hfrontb mid hmidmem]
      · rw [← hmid]
        simp [Heap.setNext, Heap.setPrev, hyb, (hfronty a List.mem_cons_self).symm]
      · intro x hx hne
        rw [← hlast] at hne
        have hxmid : x ≠ mid := by
          rintro rfl
          exact hapart x hmidmem (List.mem_cons_of_mem b hx)
        have hxb : x ≠ b := fun heq => hm.not_mem (heq ▸ hx)
        simp [Heap.setNext, Heap.setPrev, hne, hxmid, hxb]
      · intro x hx
        have hxy : x ≠ y := fun heq => (List.nodup_cons.mp hm.nodup).1 (heq ▸ hx)
        have hxb : x ≠ b := fun heq => hm.not_mem (heq ▸ List.mem_cons_of_mem y hx)
        have hxa : x ≠ a := by
          rintro rfl
          exact hapart x List.mem_cons_self (by simp [hx])
        simp [Heap.setNext, Heap.setPrev, hxy, hxa, hxb]
      · rw [← hlast]
        simp [Heap.setNext, Heap.setPrev]
      · rw [← hlast]
        simp [Heap.setNext, Heap.setPrev, hab]
    · rw [← List.cons_append]
      apply List.nodup_append.mpr
      refine ⟨hl.2, hm.nodup, ?_⟩
      rintro x hx z hz rfl
      exact hapart x hx (List.mem_cons_of_mem b hz)
    · simp [Heap.setNext, Heap.setPrev, hlastb.symm]
    · simp [Heap.setNext, Heap.setPrev]
    · intro x hxa hxb
      have hxmid : x ≠ mid := fun heq => hxa (heq ▸ hmidmem)
      have hxlast : x ≠ last := fun heq => hxb (List.mem_cons_of_mem b (heq ▸ hlastmem))
      have hxy : x ≠ y := fun heq => hxb (by simp [heq])
      have hxheada : x ≠ a := fun heq => hxa (heq ▸ List.mem_cons_self)
      have hxheadb : x ≠ b := fun heq => hxb (heq ▸ List.mem_cons_self)
      simp [Same, Heap.setNext, Heap.setPrev, hxmid, hxlast, hxy, hxheada, hxheadb]

end IsList

/-! ### Positions -/

/-- The heap read backwards. -/
def Heap.flip (h : Heap ν) : Heap ν where
  next := h.prev
  prev := h.next

/-- Backwards a segment has the nodes in the other order. -/
theorem Segment.flip (hs : Segment h a l b) : Segment h.flip b l.reverse a := by
  induction l generalizing a with
  | nil => exact ⟨hs.2, hs.1⟩
  | cons x l ih =>
    rw [List.reverse_cons, Segment.append]
    exact ⟨ih hs.2.2, hs.2.1, hs.1⟩

theorem IsList.flip (hl : IsList h a l) : IsList h.flip a l.reverse := by
  refine ⟨hl.1.flip, ?_⟩
  rw [List.nodup_cons, List.mem_reverse, List.nodup_reverse]
  exact List.nodup_cons.mp hl.2

theorem Heap.hop_flip (h : Heap ν) (count : Nat) (n : ν) :
    h.hop true count n = h.flip.hop false count n := by
  induction count generalizing n with
  | zero => rfl
  | succ count ih =>
    have hih : h.hop true count = h.flip.hop false count := funext ih
    rw [Heap.hop, Heap.hop, hih]
    rfl

/-- Steps along a segment count its positions. -/
theorem Segment.hop (hs : Segment h x m a) {i : Nat} (hi : i ≤ m.length) :
    h.hop false i x = (x :: m)[i]? := by
  induction i generalizing x m with
  | zero => rfl
  | succ i ih =>
    cases m with
    | nil => simp at hi
    | cons y m =>
      rw [Heap.hop, show h.follow false x = some y from hs.1, Option.bind_some,
        ih hs.2.2 (by simpa using hi), List.getElem?_cons_succ]

/-- The list as it is met in a direction. -/
def along (reversed : Bool) (l : List ν) : List ν :=
  if reversed then l.reverse else l

theorem length_along (reversed : Bool) (l : List ν) : (along reversed l).length = l.length := by
  unfold along
  split
  · exact List.length_reverse
  · rfl

theorem mem_along {reversed : Bool} : x ∈ along reversed l ↔ x ∈ l := by
  unfold along
  split
  · exact List.mem_reverse
  · rfl

/-- Steps from the head, backwards. -/
theorem IsList.hop_prev (hl : IsList h a l) {i : Nat} (hi : i < l.length) :
    (h.prev a).bind (h.hop true i) = l.reverse[i]? := by
  have hflip := hl.flip
  have hlength : l.reverse.length = l.length := List.length_reverse
  obtain ⟨x, m, hm⟩ := List.exists_cons_of_ne_nil
    (List.reverse_ne_nil_iff.mpr (List.ne_nil_of_length_pos (by omega : 0 < l.length)))
  rw [hm] at hflip hlength ⊢
  rw [List.length_cons] at hlength
  rw [show h.prev a = some x from hflip.1.1, Option.bind_some, Heap.hop_flip,
    hflip.1.2.2.hop (by omega)]

/-- Steps from the head, forwards. -/
theorem IsList.hop_next (hl : IsList h a l) {i : Nat} (hi : i < l.length) :
    (h.next a).bind (h.hop false i) = l[i]? := by
  cases l with
  | nil => simp at hi
  | cons x m =>
    rw [List.length_cons] at hi
    rw [show h.next a = some x from hl.1.1, Option.bind_some, hl.1.2.2.hop (by omega)]

variable [DecidableEq ν]

theorem Heap.walk_flip (h : Heap ν) (a : ν) (ind : Nat) (n : ν) :
    h.walk a true ind n = h.flip.walk a false ind n := by
  induction ind generalizing n with
  | zero => rfl
  | succ ind ih =>
    simp only [Heap.walk, ih]
    rfl

theorem Heap.walk_head (h : Heap ν) (a : ν) (reversed : Bool) (ind : Nat) :
    h.walk a reversed ind a = some (0, a) := by
  cases ind with
  | zero => rfl
  | succ ind => rw [Heap.walk, if_pos rfl]

/-- The walk ends after `ind` steps in the segment, or at the head. -/
theorem Segment.walk (hs : Segment h x m a) (ha : a ∉ x :: m) (ind : Nat) :
    h.walk a false ind x = some (min ind (x :: m).length, (x :: m).getD ind a) := by
  induction ind generalizing x m with
  | zero => rfl
  | succ ind ih =>
    have hxa : x ≠ a := fun heq => ha (heq ▸ List.mem_cons_self)
    cases m with
    | nil =>
      rw [Heap.walk, if_neg hxa, show h.follow false x = some a from hs.1, Option.bind_eq_bind,
        Option.bind_some, Heap.walk_head, List.length_singleton, Nat.min_eq_right (by omega)]
      rfl
    | cons y m =>
      have hwalk := ih hs.2.2 fun hmem => ha (List.mem_cons_of_mem x hmem)
      rw [Heap.walk, if_neg hxa, show h.follow false x = some y from hs.1, Option.bind_eq_bind,
        Option.bind_some, hwalk, Option.bind_eq_bind, Option.bind_some,
        List.length_cons (a := x), Nat.succ_min_succ]
      rfl

/-- The walk of `getElement` in either direction. -/
theorem IsList.walk (hl : IsList h a l) (hne : l ≠ []) (ind : Nat) (reversed : Bool) :
    ∃ first, h.follow reversed a = some first ∧
      h.walk a reversed ind first = some (min ind l.length, (along reversed l).getD ind a) := by
  cases reversed with
  | false =>
    cases l with
    | nil => exact absurd rfl hne
    | cons x l => exact ⟨x, hl.1.1, hl.1.2.2.walk hl.not_mem ind⟩
  | true =>
    have hflip := hl.flip
    have hlength : l.reverse.length = l.length := List.length_reverse
    obtain ⟨x, m, hm⟩ := List.exists_cons_of_ne_nil (List.reverse_ne_nil_iff.mpr hne)
    have halong : along true l = x :: m := hm
    rw [hm] at hflip hlength
    refine ⟨x, hflip.1.1, ?_⟩
    rw [Heap.walk_flip, hflip.1.2.2.walk hflip.not_mem ind, hlength, halong]

theorem IsList.getElement_nil (hl : IsList h a []) (ind : Nat) (reversed : Bool) :
    h.getElement a ind reversed = none := by
  have hfollow : h.follow reversed a = some a := by
    unfold Heap.follow
    split
    · exact hl.1.2
    · exact hl.1.1
  unfold Heap.getElement
  rw [hfollow, Option.bind_eq_bind, Option.bind_some, Heap.walk_head, Option.bind_eq_bind,
    Option.bind_some]
  simp

/-- Which element `getElement` takes: the one at the index in the chosen direction, or, past
the end, the one at a position from the front. -/
theorem IsList.getElement_eq (hl : IsList h a l) (hne : l ≠ []) (ind : Nat) (reversed : Bool) :
    h.getElement a ind reversed =
      if ind < l.length then (along reversed l)[ind]?
      else l[if reversed then (l.length - ind % l.length) % l.length else ind % l.length]? := by
  obtain ⟨first, hfirst, hwalk⟩ := hl.walk hne ind reversed
  unfold Heap.getElement
  rw [hfirst, Option.bind_eq_bind, Option.bind_some, hwalk, Option.bind_eq_bind, Option.bind_some]
  dsimp only
  by_cases hlt : ind < l.length
  · have halong : ind < (along reversed l).length := by rwa [length_along]
    have hget : (along reversed l).getD ind a = (along reversed l)[ind] := by
      rw [List.getD_eq_getElem?_getD, List.getElem?_eq_getElem halong, Option.getD_some]
    have hmem : (along reversed l)[ind] ≠ a := by
      intro heq
      exact hl.not_mem (mem_along.mp (heq ▸ List.getElem_mem halong))
    rw [if_pos hlt, Nat.min_eq_left (Nat.le_of_lt hlt), hget, if_pos ⟨rfl, hmem⟩,
      List.getElem?_eq_getElem halong]
  · have hpos : 0 < l.length := List.length_pos_iff.mpr hne
    have hlast : (along reversed l).getD ind a = a := by
      rw [List.getD_eq_getElem?_getD, List.getElem?_eq_none (by rw [length_along]; omega),
        Option.getD_none]
    rw [if_neg hlt, Nat.min_eq_right (by omega), hlast, if_neg (fun hand => hand.2 rfl),
      if_neg (by omega)]
    obtain ⟨i, hi⟩ : ∃ i, i = if reversed then (l.length - ind % l.length) % l.length
        else ind % l.length := ⟨_, rfl⟩
    have hilt : i < l.length := by
      rw [hi]
      split
      · exact Nat.mod_lt _ hpos
      · exact Nat.mod_lt _ hpos
    rw [← hi]
    split
    · exact hl.hop_next hilt
    · rw [hl.hop_prev (by omega), List.getElem?_reverse (by omega)]
      congr 1
      omega

/-- From a non-empty list `getElement` takes one of its nodes. -/
theorem IsList.getElement (hl : IsList h a l) (hne : l ≠ []) (ind : Nat) (reversed : Bool) :
    ∃ n ∈ l, h.getElement a ind reversed = some n := by
  have hpos : 0 < l.length := List.length_pos_iff.mpr hne
  rw [hl.getElement_eq hne ind reversed]
  split
  · have halong : ind < (along reversed l).length := by rwa [length_along]
    exact ⟨_, mem_along.mp (List.getElem_mem halong), List.getElem?_eq_getElem halong⟩
  · have hlt : (if reversed then (l.length - ind % l.length) % l.length else ind % l.length) <
        l.length := by
      split
      · exact Nat.mod_lt _ hpos
      · exact Nat.mod_lt _ hpos
    exact ⟨_, List.getElem_mem hlt, List.getElem?_eq_getElem hlt⟩

end Yaclib.Intrusive
