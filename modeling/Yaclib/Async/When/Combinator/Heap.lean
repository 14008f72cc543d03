import Mathlib.Algebra.BigOperators.Fin
import Yaclib.Async.When.Combinator.Work

/-!
Every step keeps `Heap`: a core counts the references to it, and nobody who can still
read a result finds it moved away.
-/

namespace Yaclib.When.Combinator

open Concurrency

variable {n : Nat} {κ τ R : Type} {F : Futures n κ τ R}

theorem Producer.leaving_of_share {p : Producer n} (hp : p.share ≤ 1) : p.Leaving := by
  cases p with
  | call _ next | inside _ next =>
    simp only [Producer.share] at hp
    split at hp <;> omega
  | decRef _ | finished => trivial
  | _ => simp [Producer.share] at hp

variable [DecidableEq κ]
variable {S : StrategyClass n R} {s t : State κ S} {c : κ} {i : Fin n}

/-! ### Who keeps a core alive -/

theorem State.holders_pos (hi : s.released i = 0) : 0 < s.holders F (F.core i) := by
  have hle := le_tally (holds (F.core i)) (fun j => (F.core j, s.released j)) i
  have hone : holds (F.core i) (F.core i, s.released i) = 1 := by simp [holds, hi]
  rw [hone] at hle
  exact hle

theorem Heap.refs_pos (h : Heap F s) (hi : s.released i = 0) : 0 < s.refs (F.core i) := by
  have hpos := State.holders_pos (F := F) hi
  rw [h.refs_eq]
  omega

theorem Heap.refs_pos_of_share (h : Heap F s) (hshared : F.shared c = true)
    (hshare : 0 < (s.producer c).share) : 0 < s.refs c := by
  rw [h.refs_eq, if_pos hshared]
  omega

/-- An input that has its reference and is not about to give it back reads the result. -/
theorem Heap.content_eq (h : Heap F s) (hi : s.released i = 0) (hretiring : ¬s.Retiring i) :
    s.content (F.core i) = F.result (F.core i) := by
  by_contra hne
  rcases (h.fresh _ hne).inputs i rfl with hreleased | hnot
  · exact hreleased hi
  · exact hretiring hnot

/-- So does the producer while it calls the callbacks. -/
theorem Heap.content_of_producer (h : Heap F s) (hshared : F.shared c = true)
    (hleaving : ¬(s.producer c).Leaving) : s.content c = F.result c := by
  by_contra hne
  exact hleaving ((h.fresh c hne).others hshared).2

/-- And so does who keeps a future. -/
theorem Heap.content_of_kept (h : Heap F s) (hkept : 0 < s.kept c) : s.content c = F.result c := by
  by_contra hne
  have hshared : F.shared c = true := by
    by_contra hunique
    rw [h.kept_unique c (by simpa using hunique)] at hkept
    exact absurd hkept (Nat.lt_irrefl 0)
  rw [((h.fresh c hne).others hshared).1] at hkept
  exact absurd hkept (Nat.lt_irrefl 0)

/-! ### The steps -/

/-- A step without a reference. -/
theorem Heap.keep (h : Heap F s) (hrefs : t.refs = s.refs) (hreleased : t.released = s.released)
    (hkept : t.kept = s.kept) (hcontent : t.content = s.content)
    (hshare : ∀ c, F.shared c = true → (t.producer c).share = (s.producer c).share)
    (hleaving : ∀ c, F.shared c = true → (s.producer c).Leaving → (t.producer c).Leaving)
    (hretiring : ∀ i, s.Retiring i → t.Retiring i) : Heap F t := by
  refine ⟨?_, ?_, ?_⟩
  · intro c
    rw [hrefs, h.refs_eq c, State.holders, State.holders, hreleased, hkept]
    by_cases hshared : F.shared c = true
    · rw [if_pos hshared, if_pos hshared, hshare c hshared]
    · rw [if_neg hshared, if_neg hshared]
  · rw [hkept]
    exact h.kept_unique
  · intro c hne
    rw [hcontent] at hne
    have hspent := h.fresh c hne
    refine ⟨?_, ?_⟩
    · intro hshared
      rw [hkept]
      exact ⟨(hspent.others hshared).1, hleaving c hshared (hspent.others hshared).2⟩
    · intro i hi
      rw [hreleased]
      rcases hspent.inputs i hi with hgone | hnot
      · exact .inl hgone
      · exact .inr (hretiring i hnot)

/-- A step that no producer takes. -/
theorem Heap.still (h : Heap F s) (hrefs : t.refs = s.refs) (hreleased : t.released = s.released)
    (hkept : t.kept = s.kept) (hcontent : t.content = s.content)
    (hproducer : t.producer = s.producer) (hretiring : ∀ i, s.Retiring i → t.Retiring i) :
    Heap F t := by
  apply h.keep hrefs hreleased hkept hcontent
  · intro c _
    rw [hproducer]
  · intro c _ hleaving
    rw [hproducer]
    exact hleaving
  · exact hretiring

/-- The holders after an input has given back its reference. -/
theorem State.holders_release (hi : s.released i = 0)
    (hreleased : t.released = Function.update s.released i 1) (c : κ) :
    t.holders F c + (if F.core i = c then 1 else 0) = s.holders F c := by
  have hfun : (fun j => (F.core j, t.released j)) =
      Function.update (fun j => (F.core j, s.released j)) i (F.core i, 1) := by
    funext j
    rw [hreleased]
    by_cases hj : j = i
    · subst hj
      rw [Function.update_self, Function.update_self]
    · rw [Function.update_of_ne hj, Function.update_of_ne hj]
  have hupdate := tally_update (holds c) (fun j => (F.core j, s.released j)) i (F.core i, 1)
  rw [← hfun] at hupdate
  simp only [holds, hi, and_true, one_ne_zero, and_false, if_false] at hupdate
  exact hupdate

/-- An input gives back its reference. -/
theorem Heap.release (h : Heap F s) (hi : s.released i = 0)
    (hrefs : t.refs = Function.update s.refs (F.core i) (s.refs (F.core i) - 1))
    (hreleased : t.released = Function.update s.released i 1) (hkept : t.kept = s.kept)
    (hcontent : t.content = s.content) (hproducer : t.producer = s.producer)
    (hretiring : ∀ j, j ≠ i → s.Retiring j → t.Retiring j) : Heap F t := by
  refine ⟨?_, ?_, ?_⟩
  · intro c
    have hholders := State.holders_release (F := F) hi hreleased c
    have hold := h.refs_eq c
    rw [hrefs, hkept, hproducer]
    by_cases hc : c = F.core i
    · subst hc
      rw [Function.update_self]
      rw [if_pos rfl] at hholders
      omega
    · rw [Function.update_of_ne hc]
      rw [if_neg (Ne.symm hc)] at hholders
      omega
  · rw [hkept]
    exact h.kept_unique
  · intro c hne
    rw [hcontent] at hne
    have hspent := h.fresh c hne
    refine ⟨?_, ?_⟩
    · rw [hkept, hproducer]
      exact hspent.others
    · intro j hj
      rw [hreleased]
      by_cases hji : j = i
      · subst hji
        rw [Function.update_self]
        exact .inl one_ne_zero
      · rw [Function.update_of_ne hji]
        rcases hspent.inputs j hj with hgone | hnot
        · exact .inl hgone
        · exact .inr (hretiring j hji hnot)

/-- `Retire` of an input, that holds the last reference where it moves the result. -/
theorem Heap.retire (h : Heap F s) (hi : s.released i = 0)
    (hrefs : t.refs = s.refs) (hreleased : t.released = s.released) (hkept : t.kept = s.kept)
    (hcontent : t.content = (s.retire F (F.core i)).content) (hproducer : t.producer = s.producer)
    (hretiring : ∀ j, s.Retiring j → t.Retiring j) (hit : t.Retiring i) : Heap F t := by
  by_cases hcopy : F.shared (F.core i) = true ∧ s.refs (F.core i) ≠ 1
  · apply h.still hrefs hreleased hkept _ hproducer hretiring
    rw [hcontent, State.retire, if_pos hcopy]
    rfl
  · rw [State.retire, if_neg hcopy] at hcontent
    have hmoved : t.content = Function.update s.content (F.core i)
      (F.movedFrom (s.content (F.core i))) := hcontent
    have hpos := State.holders_pos (F := F) hi
    have hold := h.refs_eq (F.core i)
    refine ⟨?_, ?_, ?_⟩
    · intro c
      rw [hrefs, h.refs_eq c, State.holders, State.holders, hreleased, hkept, hproducer]
    · rw [hkept]
      exact h.kept_unique
    · intro c hne
      by_cases hc : c = F.core i
      · subst hc
        refine ⟨?_, ?_⟩
        · intro hshared
          have hone : s.refs (F.core i) = 1 := by
            by_contra hmore
            exact hcopy ⟨hshared, hmore⟩
          rw [if_pos hshared] at hold
          rw [hkept, hproducer]
          exact ⟨by omega, Producer.leaving_of_share (by omega)⟩
        · intro j hj
          by_cases hji : j = i
          · subst hji
            exact .inr hit
          · rw [hreleased]
            left
            intro hjzero
            by_cases hshared : F.shared (F.core i) = true
            · have htwo := add_le_tally (holds (F.core i)) (fun k => (F.core k, s.released k)) hji
              have hboth : holds (F.core i) (F.core j, s.released j) = 1 ∧
                  holds (F.core i) (F.core i, s.released i) = 1 := by
                simp [holds, hi, hj, hjzero]
              have hone : s.refs (F.core i) = 1 := by
                by_contra hmore
                exact hcopy ⟨hshared, hmore⟩
              rw [hboth.1, hboth.2] at htwo
              have hholders : 2 ≤ s.holders F (F.core i) := htwo
              omega
            · apply hji
              apply F.distinct j i hj
              rw [hj]
              simpa [Futures.shared] using hshared
      · rw [hmoved, Function.update_of_ne hc] at hne
        have hspent := h.fresh c hne
        refine ⟨?_, ?_⟩
        · rw [hkept, hproducer]
          exact hspent.others
        · intro j hj
          rw [hreleased]
          rcases hspent.inputs j hj with hgone | hnot
          · exact .inl hgone
          · exact .inr (hretiring j hnot)

/-- The producer or who keeps a future changes the references to a shared core, and
with them the result when there is nobody else. -/
theorem Heap.change (h : Heap F s) (hshared : F.shared c = true)
    (hrefs : ∀ d, d ≠ c → t.refs d = s.refs d) (hreleased : t.released = s.released)
    (hkept : ∀ d, d ≠ c → t.kept d = s.kept d) (hcontent : ∀ d, d ≠ c → t.content d = s.content d)
    (hproducer : ∀ d, d ≠ c → t.producer d = s.producer d) (hcall : t.call = s.call)
    (hcount : t.refs c + ((s.producer c).share + s.kept c) =
      s.refs c + ((t.producer c).share + t.kept c))
    (hspent : t.content c ≠ F.result c →
      t.kept c = 0 ∧ (t.producer c).Leaving ∧ (s.content c ≠ F.result c ∨ s.holders F c = 0)) :
    Heap F t := by
  have hholders : ∀ d, t.holders F d = s.holders F d := by
    intro d
    rw [State.holders, State.holders, hreleased]
  have hretiring : ∀ j, s.Retiring j → t.Retiring j := by
    intro j hj
    unfold State.Retiring at hj ⊢
    rw [hcall]
    exact hj
  refine ⟨?_, ?_, ?_⟩
  · intro d
    rw [hholders]
    by_cases hd : d = c
    · subst hd
      have hold := h.refs_eq d
      rw [if_pos hshared] at hold ⊢
      omega
    · rw [hrefs d hd, hkept d hd, hproducer d hd]
      exact h.refs_eq d
  · intro d hunique
    have hd : d ≠ c := by
      rintro rfl
      rw [hshared] at hunique
      contradiction
    rw [hkept d hd]
    exact h.kept_unique d hunique
  · intro d hne
    by_cases hd : d = c
    · subst hd
      obtain ⟨hzero, hleaving, hwhy⟩ := hspent hne
      refine ⟨fun _ => ⟨hzero, hleaving⟩, ?_⟩
      intro j hj
      rw [hreleased]
      rcases hwhy with hold | hnone
      · rcases (h.fresh d hold).inputs j hj with hgone | hnot
        · exact .inl hgone
        · exact .inr (hretiring j hnot)
      · left
        intro hjzero
        have hpos := State.holders_pos (F := F) hjzero
        rw [hj] at hpos
        omega
    · rw [hcontent d hd] at hne
      have hold := h.fresh d hne
      refine ⟨?_, ?_⟩
      · rw [hkept d hd, hproducer d hd]
        exact hold.others
      · intro j hj
        rw [hreleased]
        rcases hold.inputs j hj with hgone | hnot
        · exact .inl hgone
        · exact .inr (hretiring j hnot)

/-! ### The first state -/

theorem tally_eq_countP {α : Type} (p : α → Bool) (f : Fin n → α) :
    tally (fun a => if p a = true then 1 else 0) f = (List.finRange n).countP fun i => p (f i) := by
  rw [tally, Fin.sum_univ_def]
  induction List.finRange n with
  | nil => rfl
  | cons i l ih =>
    rw [List.map_cons, List.sum_cons, ih, List.countP_cons, Nat.add_comm]

theorem Heap.init {fields : S.Fields} {kept : κ → Nat}
    (hkept : ∀ c, F.shared c = false → kept c = 0) : Heap F (init F fields kept) := by
  refine ⟨?_, hkept, ?_⟩
  · intro c
    have hholders : (Combinator.init F fields kept).holders F c =
        (List.finRange n).countP fun i => F.core i = c := by
      rw [← tally_eq_countP fun d => decide (d = c)]
      show tally (holds c) (fun i => (F.core i, 0)) = _
      apply Finset.sum_congr rfl
      intro i _
      simp [holds]
    rw [hholders]
    rfl
  · intro c hne
    exact absurd rfl hne

end Yaclib.When.Combinator
