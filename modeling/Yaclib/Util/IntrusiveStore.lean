import Yaclib.Util.IntrusiveList

/-!
Several intrusive lists over the same nodes. `Store` says that their rings do not overlap,
`Only` which of them a node is in, and `Move` what unlinking or linking one node does.
-/

namespace Yaclib.Intrusive

variable {ν : Type} {h h' : Heap ν} {a b n : ν} {l : List ν}

/-- Every one of the `heads` represents its list `L`, and no node is in two of the rings. -/
structure Store (h : Heap ν) (heads : ν → Prop) (L : ν → List ν) : Prop where
  list : ∀ a, heads a → IsList h a (L a)
  apart : ∀ a b, heads a → heads b → a ≠ b → ∀ n ∈ a :: L a, n ∉ b :: L b

def Free (heads : ν → Prop) (L : ν → List ν) (n : ν) : Prop :=
  ∀ a, heads a → n ∉ a :: L a

namespace Store

variable {heads : ν → Prop} {L L' : ν → List ν}

/-- A node is in one list at most. -/
theorem same_list (hs : Store h heads L) (ha : heads a) (hb : heads b) (hna : n ∈ L a)
    (hnb : n ∈ L b) : a = b := by
  by_contra hab
  exact hs.apart a b ha hb hab n (List.mem_cons_of_mem a hna) (List.mem_cons_of_mem b hnb)

theorem not_head (hs : Store h heads L) (ha : heads a) (hb : heads b) (hn : n ∈ L a) : n ≠ b := by
  rintro rfl
  by_cases hab : a = n
  · subst hab
    exact (hs.list a ha).not_mem hn
  · exact hs.apart a n ha hb hab n (List.mem_cons_of_mem a hn) List.mem_cons_self

/-- The heads in `C` represent something else, made of their nodes and free ones. -/
theorem change (hs : Store h heads L) {C : ν → Prop}
    (hlist : ∀ a, heads a → C a → IsList h' a (L' a))
    (hsame : ∀ a, heads a → ¬ C a → L' a = L a ∧ ∀ n ∈ a :: L a, Same h h' n)
    (hmem : ∀ a, heads a → C a → ∀ n ∈ L' a, Free heads L n ∨ ∃ b, heads b ∧ C b ∧ n ∈ L b)
    (hapart : ∀ a b, heads a → heads b → C a → C b → a ≠ b → ∀ n ∈ a :: L' a, n ∉ b :: L' b) :
    Store h' heads L' := by
  have hmixed : ∀ a b, heads a → heads b → C a → ¬ C b → ∀ n ∈ a :: L' a, n ∉ b :: L' b := by
    intro a b ha hb hCa hCb n hn
    have hab : a ≠ b := fun heq => hCb (heq ▸ hCa)
    rw [(hsame b hb hCb).1]
    rw [List.mem_cons] at hn
    rcases hn with rfl | hn
    · exact hs.apart n b ha hb hab n List.mem_cons_self
    · rcases hmem a ha hCa n hn with hfree | ⟨c, hc, hCc, hnc⟩
      · exact hfree b hb
      · have hcb : c ≠ b := fun heq => hCb (heq ▸ hCc)
        exact hs.apart c b hc hb hcb n (List.mem_cons_of_mem c hnc)
  constructor
  · intro a ha
    by_cases hC : C a
    · exact hlist a ha hC
    · obtain ⟨heq, hkeep⟩ := hsame a ha hC
      rw [heq]
      exact (hs.list a ha).congr hkeep
  · intro a b ha hb hab n hn
    by_cases hCa : C a
    · by_cases hCb : C b
      · exact hapart a b ha hb hCa hCb hab n hn
      · exact hmixed a b ha hb hCa hCb n hn
    · by_cases hCb : C b
      · intro hnb
        exact hmixed b a hb ha hCb hCa n hnb hn
      · rw [(hsame b hb hCb).1]
        rw [(hsame a ha hCa).1] at hn
        exact hs.apart a b ha hb hab n hn

/-- Fewer lists. -/
theorem mono (hs : Store h heads L) {heads' : ν → Prop} (hsub : ∀ a, heads' a → heads a) :
    Store h heads' L :=
  ⟨fun a ha => hs.list a (hsub a ha), fun a b ha hb => hs.apart a b (hsub a ha) (hsub b hb)⟩

end Store

/-- The only list the node is in has the head `o`. -/
def Only (heads : ν → Prop) (L : ν → List ν) (n : ν) (o : Option ν) : Prop :=
  (∀ a, o = some a → heads a) ∧ ∀ a, heads a → (n ∈ L a ↔ o = some a)

/-- The node `n` is now in the list of `o`, and every other one where it was. -/
structure Move (h h' : Heap ν) (heads : ν → Prop) (L L' : ν → List ν) (n : ν) (o : Option ν) :
    Prop where
  store : Store h' heads L'
  moved : Only heads L' n o
  others : ∀ m, m ≠ n → ∀ p, Only heads L m p → Only heads L' m p
  same : ∀ m, m ≠ n → Free heads L m → Same h h' m

section Only

variable {heads : ν → Prop} {L L' : ν → List ν} {o p : Option ν}

theorem Only.mem (hn : Only heads L n (some a)) : n ∈ L a :=
  (hn.2 a (hn.1 a rfl)).mpr rfl

theorem Only.eq (ho : Only heads L n o) (hp : Only heads L n p) : o = p := by
  cases o with
  | some a => exact ((hp.2 a (ho.1 a rfl)).mp ho.mem).symm
  | none =>
    cases p with
    | none => rfl
    | some b => exact (ho.2 b (hp.1 b rfl)).mp hp.mem

theorem Only.free (hn : Only heads L n none) (hhead : ¬ heads n) : Free heads L n := by
  intro a ha hmem
  rcases List.mem_cons.mp hmem with rfl | hmem
  · exact hhead ha
  · cases (hn.2 a ha).mp hmem

/-- Every node is in one list or in none. -/
theorem Store.exists_only (hs : Store h heads L) (n : ν) : ∃ o, Only heads L n o := by
  by_cases hn : ∃ a, heads a ∧ n ∈ L a
  · obtain ⟨a, ha, hna⟩ := hn
    refine ⟨some a, ?_, ?_⟩
    · rintro b hb
      injection hb with hb
      exact hb ▸ ha
    · intro b hb
      refine ⟨fun hnb => congrArg some (hs.same_list ha hb hna hnb), ?_⟩
      intro heq
      injection heq with heq
      exact heq ▸ hna
  · refine ⟨none, by simp, ?_⟩
    intro a ha
    exact iff_of_false (fun hna => hn ⟨a, ha, hna⟩) (by simp)

/-- Nor does it matter that a list it is not in is gone. -/
theorem Only.mono {heads' : ν → Prop} (hsub : ∀ b, heads' b → heads b)
    (hkeep : ∀ b, heads b → L b ≠ [] → heads' b) {m : ν} (hm : Only heads L m p) :
    Only heads' L m p := by
  refine ⟨?_, fun b hb => hm.2 b (hsub b hb)⟩
  rintro b rfl
  exact hkeep b (hm.1 b rfl) (List.ne_nil_of_mem hm.mem)

end Only

variable [DecidableEq ν]

/-! ### Several lists -/

namespace Store

variable {heads : ν → Prop} {L L' : ν → List ν}

/-- One head represents something else. -/
theorem replace (hs : Store h heads L) (ha : heads a) (hlist : IsList h' a l)
    (hmem : ∀ n ∈ l, Free heads L n ∨ n ∈ L a)
    (hsame : ∀ n, n ∉ a :: L a → n ∉ l → Same h h' n) :
    Store h' heads (Function.update L a l) := by
  apply hs.change (C := fun b => b = a)
  · rintro b _ rfl
    rwa [Function.update_self]
  · intro b hb hba
    refine ⟨Function.update_of_ne hba _ _, ?_⟩
    intro n hn
    have hna : n ∉ a :: L a := hs.apart b a hb ha hba n hn
    apply hsame n hna
    intro hnl
    rcases hmem n hnl with hfree | hnL
    · exact hfree b hb hn
    · exact hna (List.mem_cons_of_mem a hnL)
  · rintro b hb rfl n hn
    rw [Function.update_self] at hn
    rcases hmem n hn with hfree | hnL
    · exact .inl hfree
    · exact .inr ⟨b, hb, rfl, hnL⟩
  · rintro b c _ _ rfl rfl hne
    exact absurd rfl hne

theorem pushBack (hs : Store h heads L) (ha : heads a) (hn : Free heads L n) :
    ∃ h', h.pushBack a n = some h' ∧ Store h' heads (Function.update L a (L a ++ [n])) ∧
      ∀ m, Free heads L m → m ≠ n → Same h h' m := by
  obtain ⟨h', hpush, hlist, hsame⟩ := (hs.list a ha).pushBack (hn a ha)
  refine ⟨h', hpush, hs.replace ha hlist ?_ ?_, ?_⟩
  · intro m hm
    rw [List.mem_append, List.mem_singleton] at hm
    rcases hm with hm | rfl
    · exact .inr hm
    · exact .inl hn
  · intro m hm hml
    apply hsame m hm
    rintro rfl
    exact hml (by simp)
  · intro m hm hmn
    exact hsame m (hm a ha) hmn

theorem erase (hs : Store h heads L) (ha : heads a) (hn : n ∈ L a) :
    ∃ h', h.erase n = (h', true) ∧ Store h' heads (Function.update L a ((L a).erase n)) ∧
      h'.next n = none ∧ ∀ m, Free heads L m → Same h h' m := by
  have hlist := hs.list a ha
  obtain ⟨l, m, hsplit⟩ := List.append_of_mem hn
  have hnl : n ∉ l := by
    have hnodup := hlist.nodup
    rw [hsplit] at hnodup
    intro hmem
    exact (List.nodup_append.mp hnodup).2.2 n hmem n List.mem_cons_self rfl
  have herased : (L a).erase n = l ++ m := by
    rw [hsplit, List.erase_append_right _ hnl, List.erase_cons_head]
  rw [herased]
  rw [hsplit] at hlist
  obtain ⟨h', herase, hlist', hnull, -, hsame⟩ := hlist.erase
  refine ⟨h', herase, hs.replace ha hlist' ?_ ?_, hnull, ?_⟩
  · intro x hx
    right
    rw [hsplit]
    rw [List.mem_append] at hx
    rcases hx with hx | hx
    · simp [hx]
    · simp [hx]
  · intro x hx _
    apply hsame x
    rwa [← hsplit]
  · intro x hx
    apply hsame x
    rw [← hsplit]
    exact hx a ha

/-- `pushAll` and `assign`: the nodes of `b` go to the end of `a`. -/
theorem join (hs : Store h heads L) (ha : heads a) (hb : heads b) (hab : a ≠ b)
    (hlista : IsList h' a (L a ++ L b)) (hlistb : IsList h' b [])
    (hsame : ∀ n, n ∉ a :: L a → n ∉ b :: L b → Same h h' n) :
    Store h' heads (Function.update (Function.update L a (L a ++ L b)) b []) := by
  have hLa : Function.update (Function.update L a (L a ++ L b)) b [] a = L a ++ L b := by
    rw [Function.update_of_ne hab, Function.update_self]
  have hLb : Function.update (Function.update L a (L a ++ L b)) b [] b = [] :=
    Function.update_self b _ _
  have hba : ∀ n ∈ a :: (L a ++ L b), n ∉ b :: [] := by
    intro n hn
    rw [List.mem_singleton]
    rw [← List.cons_append, List.mem_append] at hn
    rcases hn with hn | hn
    · exact fun heq => hs.apart a b ha hb hab n hn (heq ▸ List.mem_cons_self)
    · exact hs.not_head hb hb hn
  apply hs.change (C := fun c => c = a ∨ c = b)
  · rintro c _ (rfl | rfl)
    · rwa [hLa]
    · rwa [hLb]
  · intro c hc hne
    rw [not_or] at hne
    refine ⟨by rw [Function.update_of_ne hne.2, Function.update_of_ne hne.1], ?_⟩
    intro n hn
    exact hsame n (hs.apart c a hc ha hne.1 n hn) (hs.apart c b hc hb hne.2 n hn)
  · rintro c hc (rfl | rfl) n hn
    · rw [hLa, List.mem_append] at hn
      rcases hn with hn | hn
      · exact .inr ⟨c, hc, .inl rfl, hn⟩
      · exact .inr ⟨b, hb, .inr rfl, hn⟩
    · rw [hLb] at hn
      cases hn
  · rintro c d _ _ (rfl | rfl) (rfl | rfl) hne n hn
    · exact absurd rfl hne
    · rw [hLa] at hn
      rw [hLb]
      exact hba n hn
    · rw [hLb] at hn
      rw [hLa]
      exact fun hmem => hba n hmem hn
    · exact absurd rfl hne

theorem pushAll (hs : Store h heads L) (ha : heads a) (hb : heads b) (hab : a ≠ b) :
    ∃ h', h.pushAll a b = some h' ∧
      Store h' heads (Function.update (Function.update L a (L a ++ L b)) b []) ∧
      ∀ m, Free heads L m → Same h h' m := by
  obtain ⟨h', hpush, hlista, hlistb, hsame⟩ :=
    (hs.list a ha).pushAll (hs.list b hb) hab (hs.apart a b ha hb hab)
  refine ⟨h', hpush, hs.join ha hb hab hlista hlistb hsame, ?_⟩
  intro m hm
  exact hsame m (hm a ha) (hm b hb)

theorem assign (hs : Store h heads L) (ha : heads a) (hb : heads b) (hab : a ≠ b)
    (hempty : L a = []) :
    ∃ h', h.assign a b = some h' ∧
      Store h' heads (Function.update (Function.update L a (L b)) b []) ∧
      ∀ m, Free heads L m → Same h h' m := by
  have hnot : a ∉ b :: L b := hs.apart a b ha hb hab a List.mem_cons_self
  obtain ⟨h', hassign, hlista, hlistb, hsame⟩ :=
    (hs.list b hb).assign hab fun hmem => hnot (List.mem_cons_of_mem b hmem)
  have hjoin : L b = L a ++ L b := by rw [hempty, List.nil_append]
  refine ⟨h', hassign, ?_, ?_⟩
  · rw [hjoin] at hlista
    have hstore := hs.join ha hb hab hlista hlistb fun n hna hnb =>
      hsame n (fun heq => hna (heq ▸ List.mem_cons_self)) hnb
    rwa [← hjoin] at hstore
  · intro m hm
    exact hsame m (fun heq => hm a ha (heq ▸ List.mem_cons_self)) (hm b hb)

/-- A new empty list. -/
theorem construct (hs : Store h heads L) (ha : Free heads L a) :
    Store (h.construct a) (fun b => heads b ∨ b = a) (Function.update L a []) ∧
      ∀ m, m ≠ a → Same h (h.construct a) m := by
  have hother : ∀ b, heads b → b ≠ a := fun b hb heq => ha b hb (heq ▸ List.mem_cons_self)
  refine ⟨⟨?_, ?_⟩, fun m hm => IsList.same_construct h hm⟩
  · rintro b (hb | rfl)
    · rw [Function.update_of_ne (hother b hb)]
      apply (hs.list b hb).congr
      intro n hn
      exact IsList.same_construct h fun heq => ha b hb (heq ▸ hn)
    · rw [Function.update_self]
      exact IsList.construct h b
  · rintro b c (hb | rfl) (hc | rfl) hne n hn
    · rw [Function.update_of_ne (hother c hc)]
      rw [Function.update_of_ne (hother b hb)] at hn
      exact hs.apart b c hb hc hne n hn
    · rw [Function.update_self, List.mem_singleton]
      rw [Function.update_of_ne (hother b hb)] at hn
      exact fun heq => ha b hb (heq ▸ hn)
    · rw [Function.update_self, List.mem_singleton] at hn
      rw [Function.update_of_ne (hother c hc), hn]
      exact ha c hc
    · exact absurd rfl hne

end Store

/-! ### Where a node is -/

section Only

variable {heads : ν → Prop} {L L' : ν → List ν} {o p : Option ν}

/-- A list with the same nodes but for `n`. -/
theorem Only.update (hmem : ∀ m, m ≠ n → (m ∈ l ↔ m ∈ L a)) {m : ν} (hmn : m ≠ n)
    (hm : Only heads L m p) : Only heads (Function.update L a l) m p := by
  refine ⟨hm.1, ?_⟩
  intro b hb
  rw [← hm.2 b hb]
  by_cases hba : b = a
  · subst hba
    rw [Function.update_self]
    exact hmem m hmn
  · rw [Function.update_of_ne hba]

theorem Store.move_pushBack (hs : Store h heads L) (ha : heads a) (hn : Only heads L n none)
    (hhead : ¬ heads n) :
    ∃ h' L', h.pushBack a n = some h' ∧ Move h h' heads L L' n (some a) := by
  obtain ⟨h', hpush, hstore, hsame⟩ := hs.pushBack ha (hn.free hhead)
  refine ⟨h', _, hpush, hstore, ⟨?_, ?_⟩, ?_, ?_⟩
  · rintro b hb
    injection hb with hb
    exact hb ▸ ha
  · intro b hb
    by_cases hba : b = a
    · subst hba
      simp
    · rw [Function.update_of_ne hba, hn.2 b hb]
      simp [Ne.symm hba]
  · intro m hmn p hp
    apply hp.update _ hmn
    intro m hmn
    simp [hmn]
  · intro m hmn hm
    exact hsame m hm hmn

theorem Store.move_erase (hs : Store h heads L) (hn : Only heads L n (some a)) :
    ∃ h' L', h.erase n = (h', true) ∧ h'.next n = none ∧ Move h h' heads L L' n none := by
  have ha : heads a := hn.1 a rfl
  obtain ⟨h', herase, hstore, hnull, hsame⟩ := hs.erase ha hn.mem
  have hnodup := (hs.list a ha).nodup
  refine ⟨h', _, herase, hnull, hstore, ⟨by simp, ?_⟩, ?_, ?_⟩
  · intro b hb
    by_cases hba : b = a
    · subst hba
      simp [hnodup.mem_erase_iff]
    · rw [Function.update_of_ne hba, hn.2 b hb]
      simp [Ne.symm hba]
  · intro m hmn p hp
    apply hp.update _ hmn
    intro m hmn
    simp [hnodup.mem_erase_iff, hmn]
  · intro m _ hm
    exact hsame m hm

/-- An unlinked node: never linked, or unlinked since. -/
def Loose (h : Heap ν) (n : ν) : Prop :=
  h.next n = none ∨ h.next n = some n ∧ h.prev n = some n

theorem Store.move_erase_loose (hs : Store h heads L) (hn : Only heads L n none)
    (hhead : ¬ heads n) (hloose : Loose h n) :
    ∃ h', (h.erase n).1 = h' ∧ h'.next n = none ∧ Move h h' heads L L n none := by
  rcases hloose with hnull | ⟨hnext, hprev⟩
  · refine ⟨h, by rw [IsList.erase_null hnull], hnull, hs, hn, fun m _ p hm => hm, ?_⟩
    intro m _ _
    exact ⟨rfl, rfl⟩
  · have hsame : ∀ m, m ≠ n → Same h (h.erase n).1 m := by
      intro m hm
      simp [Heap.erase, hnext, hprev, Same, Heap.setNext, Heap.setPrev, hm]
    refine ⟨_, rfl, ?_, ?_, hn, fun m _ p hm => hm, fun m hm _ => hsame m hm⟩
    · simp [Heap.erase, hnext, hprev, Heap.setNext, Heap.setPrev]
    · refine ⟨fun a ha => (hs.list a ha).congr ?_, hs.apart⟩
      intro m hm
      exact hsame m fun heq => hn.free hhead a ha (heq ▸ hm)

/-- `pushAll` and `assign`: who was in `b` is in `a`. -/
theorem Only.join (ha : heads a) (hb : heads b) (hab : a ≠ b) {m : ν} (hm : Only heads L m p) :
    Only heads (Function.update (Function.update L a (L a ++ L b)) b []) m
      (if p = some b then some a else p) := by
  constructor
  · intro c hc
    split at hc
    · injection hc with hc
      exact hc ▸ ha
    · exact hm.1 c hc
  · intro c hc
    by_cases hcb : c = b
    · subst hcb
      rw [Function.update_self]
      apply iff_of_false (by simp)
      split
      · simp [hab]
      · rename_i hp
        exact hp
    · rw [Function.update_of_ne hcb]
      by_cases hca : c = a
      · subst hca
        rw [Function.update_self, List.mem_append, hm.2 c hc]
        constructor
        · rintro (rfl | hmb)
          · rw [if_neg]
            simp [hab]
          · rw [if_pos ((hm.2 b hb).mp hmb)]
        · intro hp
          split at hp
          · rename_i hpb
            subst hpb
            exact .inr hm.mem
          · exact .inl hp
      · rw [Function.update_of_ne hca, hm.2 c hc]
        split
        · rename_i hp
          rw [hp]
          simp [Ne.symm hcb, Ne.symm hca]
        · rfl

/-- A new list does not change where a node is. -/
theorem Only.construct (ha : Free heads L a) {m : ν} (hm : Only heads L m p) :
    Only (fun b => heads b ∨ b = a) (Function.update L a []) m p := by
  refine ⟨fun b hb => .inl (hm.1 b hb), ?_⟩
  rintro b (hb | rfl)
  · have hba : b ≠ a := fun heq => ha b hb (heq ▸ List.mem_cons_self)
    rw [Function.update_of_ne hba]
    exact hm.2 b hb
  · rw [Function.update_self]
    apply iff_of_false (by simp)
    intro hp
    exact ha b (hm.1 b hp) List.mem_cons_self

end Only

end Yaclib.Intrusive
