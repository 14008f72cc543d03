import Yaclib.Exe.Strand.Work

/-!
The strand runs its jobs one at a time and in the order of their pushes, and
loses none.
-/

namespace Yaclib.Strand

open Concurrency

variable {ι κ : Type}
variable {s t : State ι κ} {i : ι} {k : κ}

theorem Run.token_of_inCall {u : Run ι} (hu : u.inCall = true) : u.token = 1 := by
  cases u <;> simp [Run.inCall] at hu ⊢

theorem State.callBatches_sublist (s : State ι κ) : s.callBatches.Sublist s.pushes := by
  have hfilter : (s.taken.filter Prod.fst).Sublist s.taken := List.filter_sublist
  exact (hfilter.map Prod.snd).flatten.trans (List.sublist_append_left _ _)

variable [DecidableEq ι] [Fintype ι] [Fintype κ]

/-- Two threads are never in `Call` together. -/
theorem Inv.one_call (h : Inv s) {l : κ} (hk : (s.worker k).inCall = true)
    (hl : (s.worker l).inCall = true) : k = l := by
  by_contra hne
  have hzero := (h.sole (Run.token_of_inCall hk)).2.2.2 l (Ne.symm hne)
  rw [Run.token_of_inCall hl] at hzero
  contradiction

theorem Inv.called_prefix (h : Inv s) : s.called <+: s.callBatches := by
  obtain ⟨todo, left, hb⟩ := h.batches
  exact ⟨left, hb.called⟩

/-- Once the underlying executor has run out of jobs the strand is empty. -/
theorem Inv.quiescent (h : Inv s) (hq : Quiescent s) :
    s.jobs = .mark ∧ (∀ i, s.pc i ≠ .queued) ∧ s.called = s.callBatches ∧
      s.incRefs = s.decRefs := by
  obtain ⟨hexecutor, hworker, hpc⟩ := hq
  obtain ⟨todo, left, hb⟩ := h.batches
  have hworkers : ∀ w : Run ι → Nat, w .idle = 0 → tally w s.worker = 0 := by
    intro w hw
    apply tally_eq_zero.mpr
    intro k
    rw [hworker k, hw]
  have hpcs : ∀ w : Pc ι → Nat, w .idle = 0 → (∀ p, w (.loop p) = 0) → w .queued = 0 →
      tally w s.pc = 0 := by
    intro w hidle hloop hqueued
    apply tally_eq_zero.mpr
    intro i
    cases hi : s.pc i with
    | idle => exact hidle
    | loop p => exact hloop p
    | incRef => exact absurd hi (hpc i).1
    | submit => exact absurd hi (hpc i).2
    | queued => exact hqueued
  have hmark : s.jobs = .mark := by
    have htokens := h.tokens_eq
    by_contra hjobs
    rw [if_neg hjobs, State.tokens, hworkers Run.token rfl, hexecutor,
      hpcs Pc.token rfl (fun _ => rfl) rfl] at htokens
    exact absurd htokens (by decide)
  have hcurrent : s.current = [] := by
    have hstack := h.stack
    rw [hmark] at hstack
    exact List.reverse_eq_nil_iff.mp hstack.of_none
  have htodo : ∀ k, todo k = [] := by
    intro k
    have hchain := hb.chain k
    rw [hworker k] at hchain
    exact hchain.of_none
  refine ⟨hmark, fun i hi => ?_, ?_, ?_⟩
  · have hcount := hb.count i
    have hnone : tally (fun xs : List ι => xs.count i) todo = 0 := by
      apply tally_eq_zero.mpr
      intro k
      rw [htodo k, List.count_nil]
    rw [hcurrent, List.count_nil, hnone, hi] at hcount
    exact absurd hcount Nat.zero_ne_one
  · have hcalled := hb.called
    rw [hb.left_nil fun k => by rw [hworker k]; rfl, List.append_nil] at hcalled
    exact hcalled
  · have hrefs := h.refs_eq
    rw [State.holders, hworkers Run.holds rfl, hexecutor, hpcs Pc.holds rfl (fun _ => rfl) rfl]
      at hrefs
    omega

variable [DecidableEq κ]

theorem Inv.step {e : Event ι κ} (h : Inv s) (hstep : step s e = some t) : Inv t := by
  cases e with
  | submit i =>
    simp only [Strand.step] at hstep
    split at hstep
    · next hpc =>
      cases hstep
      have hloop := h.loop (i := i) (by rw [hpc]; rfl) (s.next i) s.jobs
      rwa [Function.update_eq_self] at hloop
    · contradiction
  | advance i weak => exact h.advance hstep
  | execute k drop =>
    simp only [Strand.step] at hstep
    split at hstep
    · next hfree =>
      cases hstep
      exact h.execute hfree.1 hfree.2 drop
    · contradiction
  | work k => exact h.work hstep
  | relink i p =>
    simp only [Strand.step] at hstep
    split at hstep
    · next hpc =>
      cases hstep
      exact h.relink hpc p
    · contradiction

theorem inv_of_reachable (hs : (system ι κ).Reachable s) : Inv s := by
  refine System.Inductive.reachable (C := fun _ _ _ => True) ⟨?_, ?_⟩ hs
  · rintro s ⟨next, rfl⟩
    exact .init next
  · intro s e t h hstep _
    exact h.step hstep

/-- In every reachable state of the strand: at most one thread is in `Call`, and
the strand is queued or run at most once in the underlying executor, a `Call` or
`Drop` that has put `Mark` in not counted; the called jobs are, in order, the
first ones of the batches that `Call` took, and the batches are in the order of
the pushes; every push is called or dropped once, unless the strand still holds it;
no loop followed `Mark` or null; and every reference taken is given back once by
those in charge. Once the executor has run out of jobs the strand holds neither
jobs nor references. -/
theorem strand_safe (s : State ι κ) (hs : (system ι κ).Reachable s) :
    ((∀ k l, (s.worker k).inCall = true → (s.worker l).inCall = true → k = l) ∧
      s.executor + tally Run.token s.worker ≤ 1) ∧
    (s.called <+: s.callBatches ∧ s.callBatches.Sublist s.pushes) ∧
    (∀ i, s.pushes.count i = s.called.count i + s.dropped.count i + (s.pc i).parked) ∧
    s.derefs = true ∧
    s.incRefs = s.decRefs + s.holders ∧
    (Quiescent s → s.jobs = .mark ∧ (∀ i, (s.pc i).parked = 0) ∧ s.called = s.callBatches ∧
      s.incRefs = s.decRefs) := by
  have h := inv_of_reachable hs
  have hle := h.tokens_le
  rw [State.tokens] at hle
  refine ⟨⟨fun k l => h.one_call, by omega⟩, ⟨h.called_prefix, s.callBatches_sublist⟩,
    h.pushes_eq, h.derefs_eq, h.refs_eq, fun hq => ?_⟩
  obtain ⟨hmark, hqueued, hcalled, hrefs⟩ := h.quiescent hq
  refine ⟨hmark, fun i => ?_, hcalled, hrefs⟩
  have hcharge := hq.2.2 i
  have hfree := hqueued i
  cases hpc : s.pc i <;> simp [hpc] at hcharge hfree ⊢

/-- Job 1 is pushed while job 0 runs, so `Call` submits the strand again; the
executor then drops it. -/
def resubmitted : List (Event (Fin 2) (Fin 1)) :=
  [.submit 0, .advance 0 false, .advance 0 false, .advance 0 false, .execute 0 false, .work 0,
    .work 0, .submit 1, .advance 1 true, .advance 1 false, .work 0, .work 0, .work 0,
    .execute 0 true, .work 0, .work 0, .work 0, .work 0]

theorem strand_safe_resubmitted :
    let s := ((system (Fin 2) (Fin 1)).run ({ next := fun _ => none } : State (Fin 2) (Fin 1))
      resubmitted).get (by decide)
    s.called = [0] ∧ s.dropped = [1] ∧ s.pushes = [0, 1] ∧ s.incRefs = s.decRefs := by
  refine ⟨by decide, by decide, by decide, ?_⟩
  have hinit : (system (Fin 2) (Fin 1)).Reachable { next := fun _ => none } := .init ⟨_, rfl⟩
  have hq : Quiescent (((system (Fin 2) (Fin 1)).run { next := fun _ => none } resubmitted).get
      (by decide)) := ⟨by decide, by decide, by decide⟩
  exact ((strand_safe _ (hinit.run (fun _ _ _ _ => trivial)
    (Option.some_get _).symm)).2.2.2.2.2 hq).2.2.2

/-- `Call` has put `Mark` in and not released the strand yet when another
`Submit` gives the strand to the executor. -/
def marked : List (Event (Fin 2) (Fin 1)) :=
  [.submit 0, .advance 0 false, .advance 0 false, .advance 0 false, .execute 0 false, .work 0,
    .work 0, .work 0, .work 0, .work 0, .submit 1, .advance 1 false, .advance 1 false,
    .advance 1 false]

theorem queued_while_called :
    ¬ ∀ s : State (Fin 2) (Fin 1), (system (Fin 2) (Fin 1)).Reachable s →
      s.executor + tally Run.running s.worker ≤ 1 := by
  intro hle
  have hinit : (system (Fin 2) (Fin 1)).Reachable { next := fun _ => none } := .init ⟨_, rfl⟩
  have hs := hle (((system (Fin 2) (Fin 1)).run { next := fun _ => none } marked).get (by decide))
    (hinit.run (fun _ _ _ _ => trivial) (Option.some_get _).symm)
  exact absurd hs (by decide)

end Yaclib.Strand
