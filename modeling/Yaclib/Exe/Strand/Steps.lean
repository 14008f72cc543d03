import Mathlib.Data.Fintype.EquivFin
import Yaclib.Exe.Strand.Invariant

/-!
Every step of the strand keeps its invariant.
-/

namespace Yaclib.Strand

open Concurrency

variable {ι κ : Type} [DecidableEq ι]
variable {s t : State ι κ} {i : ι} {k : κ} {p : Pc ι} {u : Run ι} {todo : κ → List ι}

theorem place_stay (w : Pc ι → Nat) (hw : w p = w (s.pc i)) (j : ι) :
    w ((Function.update s.pc i p) j) = w (s.pc j) := by
  by_cases hji : j = i
  · rw [hji, Function.update_self, hw]
  · rw [Function.update_of_ne hji]

variable [Fintype κ]
variable {left : List ι} {expected : Word ι}

/-- A step that leaves the batches of the threads. -/
theorem Batches.keep (hb : Batches s todo left)
    (hnext : ∀ j, (s.pc j).parked ≠ 0 → t.next j = s.next j)
    (hqueued : ∀ j, s.pc j = .queued → t.pc j = .queued) (hworker : t.worker = s.worker)
    (hcount : ∀ j, t.current.count j + (s.pc j).parked = s.current.count j + (t.pc j).parked)
    (hcalled : t.called = s.called) (htaken : t.taken = s.taken) : Batches t todo left := by
  refine ⟨fun k => ?_, fun k j hj => hqueued j (hb.queued k j hj), fun j => ?_, ?_, ?_, ?_⟩
  · rw [hworker]
    apply (hb.chain k).frame
    intro j hj
    apply hnext
    rw [hb.queued k j hj]
    exact Nat.one_ne_zero
  · have hj := hb.count j
    have hj' := hcount j
    omega
  · rw [hworker]
    exact hb.left_eq
  · rw [hworker]
    exact hb.left_nil
  · rw [hcalled, State.callBatches, htaken]
    exact hb.called

variable [Fintype ι]

/-! `Submit`. -/

/-- A move of a job that the strand does not hold. -/
theorem Inv.loop (h : Inv s) (hpc : (s.pc i).parked = 0) (q : Option ι) (w : Word ι) :
    Inv ({ s with next := Function.update s.next i q }.goto i (.loop w)) := by
  obtain ⟨todo, left, hb⟩ := h.batches
  have htoken : (s.pc i).token = 0 ∧ (s.pc i).holds = 0 := by
    cases hp : s.pc i <;> simp [hp] at hpc ⊢
  have htokens : tally Pc.token (Function.update s.pc i (.loop w)) = tally Pc.token s.pc :=
    tally_stay htoken.1.symm
  have hholds : tally Pc.holds (Function.update s.pc i (.loop w)) = tally Pc.holds s.pc :=
    tally_stay htoken.2.symm
  have hfresh : i ∉ s.current.reverse := by
    rw [List.mem_reverse]
    exact (hb.fresh hpc).1
  refine ⟨?_, fun hpos => ?_, h.stack.update hfresh q, ⟨todo, left, ?_⟩, fun j => ?_, ?_,
    h.derefs_eq⟩
  · simp only [State.tokens, State.goto, htokens]
    exact h.tokens_eq
  · simp only [State.asking, State.goto, htokens] at hpos
    exact h.asking_full hpos
  · refine hb.keep (fun j hj => ?_) (fun j hj => ?_) rfl (fun j => ?_) rfl rfl
    · apply Function.update_of_ne
      rintro rfl
      exact hj hpc
    · have hji : j ≠ i := by
        rintro rfl
        rw [hj] at hpc
        exact absurd hpc Nat.one_ne_zero
      simp only [State.goto, Function.update_of_ne hji]
      exact hj
    · simp only [State.goto, place_stay (s := s) (p := .loop w) Pc.parked hpc.symm]
  · simp only [State.goto, place_stay (s := s) (p := .loop w) Pc.parked hpc.symm]
    exact h.pushes_eq j
  · simp only [State.holders, State.goto, hholds]
    exact h.refs_eq

/-- The successful swap of `Submit`. The one that finds `Mark` is in charge. -/
theorem Inv.push (h : Inv s) (hpc : s.pc i = .loop s.jobs) :
    Inv ({ s with
      next := Function.update s.next i s.jobs.toPtr
      jobs := .ptr (some i)
      current := s.current ++ [i] }.goto i (if s.jobs = Word.mark then .incRef else .queued)) := by
  obtain ⟨todo, left, hb⟩ := h.batches
  obtain ⟨p, hp⟩ : ∃ p : Pc ι, p = if s.jobs = Word.mark then .incRef else .queued := ⟨_, rfl⟩
  have hparked : p.parked = 1 ∧ p.holds = 0 ∧ p.token = if s.jobs = Word.mark then 1 else 0 := by
    rw [hp]
    split <;> simp
  have hfresh := hb.fresh (i := i) (by rw [hpc]; rfl)
  have htokens : tally Pc.token (Function.update s.pc i p) = tally Pc.token s.pc + p.token := by
    have hupdate := tally_update Pc.token s.pc i p
    rw [hpc] at hupdate
    exact hupdate
  have hholds : tally Pc.holds (Function.update s.pc i p) = tally Pc.holds s.pc := by
    apply tally_stay
    rw [hpc, hparked.2.1]
    rfl
  have hcount : ∀ j, (s.current ++ [i]).count j + (s.pc j).parked =
      s.current.count j + ((Function.update s.pc i p) j).parked := by
    intro j
    rw [List.count_append, List.count_singleton]
    by_cases hij : i = j
    · subst hij
      rw [Function.update_self, hparked.1, hpc]
      simp
    · simp [hij, Function.update_of_ne (Ne.symm hij)]
  rw [← hp]
  refine ⟨?_, fun _ => ⟨i, rfl⟩, ?_, ⟨todo, left, ?_⟩, fun j => ?_, ?_, h.derefs_eq⟩
  · have heq := h.tokens_eq
    simp only [State.tokens] at heq
    rw [hparked.2.2] at htokens
    refine Eq.trans ?_ (if_neg (by simp [State.goto])).symm
    simp only [State.tokens, State.goto]
    split at heq
    · next hmark =>
      rw [if_pos hmark] at htokens
      omega
    · next hmark =>
      rw [if_neg hmark] at htokens
      omega
  · rw [State.goto, List.reverse_append]
    exact h.stack.push (by rw [List.mem_reverse]; exact hfresh.1)
  · refine hb.keep (fun j hj => ?_) (fun j hj => ?_) rfl hcount rfl rfl
    · apply Function.update_of_ne
      rintro rfl
      exact hj (by rw [hpc]; rfl)
    · have hji : j ≠ i := by
        rintro rfl
        rw [hpc] at hj
        contradiction
      simp only [State.goto, Function.update_of_ne hji]
      exact hj
  · have hpushes := h.pushes_eq j
    have hj := hcount j
    simp only [State.pushes, List.count_append] at hpushes hj
    simp only [State.goto, State.pushes, List.count_append]
    omega
  · have hrefs := h.refs_eq
    simp only [State.holders] at hrefs
    simp only [State.holders, State.goto, hholds]
    exact hrefs

/-- `Submit` goes on to the executor: the places before and after hold the job,
and one of them or the executor is in charge. -/
theorem Inv.announce (h : Inv s) {n : Nat} (htoken : (s.pc i).token = 1) (hp : p.parked = 1)
    (hcharge : p.token + n = 1) {refs : Nat}
    (hrefs : refs + (s.pc i).holds = s.incRefs + p.holds + n) :
    Inv ({ s with executor := s.executor + n, incRefs := refs }.goto i p) := by
  obtain ⟨todo, left, hb⟩ := h.batches
  have hparked : (s.pc i).parked = 1 := by
    cases hpc : s.pc i <;> simp [hpc] at htoken ⊢
  have hplace := place_stay (s := s) (i := i) (p := p) Pc.parked (hp.trans hparked.symm)
  have htokens := tally_update Pc.token s.pc i p
  have hholds := tally_update Pc.holds s.pc i p
  refine ⟨?_, fun _ => ?_, h.stack, ⟨todo, left, ?_⟩, fun j => ?_, ?_, h.derefs_eq⟩
  · refine Eq.trans ?_ h.tokens_eq
    simp only [State.tokens, State.goto]
    omega
  · have hpos := le_tally Pc.token s.pc i
    apply h.asking_full
    simp only [State.asking]
    omega
  · refine hb.keep (fun j _ => rfl) (fun j hj => ?_) rfl (fun j => ?_) rfl rfl
    · have hji : j ≠ i := by
        rintro rfl
        rw [hj] at htoken
        exact absurd htoken Nat.zero_ne_one
      simp only [State.goto, Function.update_of_ne hji]
      exact hj
    · simp only [State.goto, hplace]
  · simp only [State.goto, hplace]
    exact h.pushes_eq j
  · have heq := h.refs_eq
    simp only [State.holders] at heq
    simp only [State.holders, State.goto]
    omega

theorem Inv.advance (h : Inv s) {weak : Bool} (hstep : advance s i weak = some t) : Inv t := by
  unfold Strand.advance at hstep
  cases hpc : s.pc i with
  | idle | queued => simp [hpc] at hstep
  | loop expected =>
    simp only [hpc, Option.some.injEq] at hstep
    subst hstep
    unfold submitSwap
    simp only
    split
    · next hswap =>
      obtain ⟨rfl, -⟩ := hswap
      exact h.push hpc
    · exact h.loop (by rw [hpc]; rfl) _ _
  | incRef =>
    simp only [hpc, Option.some.injEq] at hstep
    subst hstep
    exact h.announce (n := 0) (by rw [hpc]; rfl) rfl rfl (by rw [hpc]; rfl)
  | submit =>
    simp only [hpc, Option.some.injEq] at hstep
    subst hstep
    exact h.announce (n := 1) (by rw [hpc]; rfl) rfl rfl (by rw [hpc]; rfl)

/-- Links of jobs that the strand does not hold are free for other uses. -/
theorem Inv.relink (h : Inv s) (hpc : s.pc i = .idle) (q : Option ι) :
    Inv { s with next := Function.update s.next i q } := by
  obtain ⟨todo, left, hb⟩ := h.batches
  have hfresh : i ∉ s.current.reverse := by
    rw [List.mem_reverse]
    exact (hb.fresh (by rw [hpc]; rfl)).1
  refine ⟨h.tokens_eq, h.asking_full, h.stack.update hfresh q, ⟨todo, left, ?_⟩, h.pushes_eq,
    h.refs_eq, h.derefs_eq⟩
  refine hb.keep (fun j hj => ?_) (fun j hj => hj) rfl (fun j => rfl) rfl rfl
  apply Function.update_of_ne
  rintro rfl
  exact hj (by rw [hpc]; rfl)

end Yaclib.Strand
