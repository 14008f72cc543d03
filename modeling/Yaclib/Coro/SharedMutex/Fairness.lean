import Yaclib.Coro.SharedMutex.Order

/-!
In which order the shared mutex serves its requests: the writers in the order
of their announcement; with `FIFO` readers and writers in one queue; without it
the queued readers at every unlock.
-/

namespace Yaclib.SharedMutex

open Concurrency

variable {ι : Type}
variable {cfg : Config} {s t : State ι} {i n : ι} {p : Pc ι} {log : List (Entry ι)} {cs : List ι}

/-- Every reader that was queued when a writer unlocked was submitted by that
unlock since, or is still to be. -/
def Served (s : State ι) (log : List (Entry ι)) : Prop :=
  ∀ l₁ l₂ i rs, log = l₁ ++ .unlock i rs :: l₂ → ∀ n ∈ rs, .submit i n ∈ l₂ ∨ n ∈ s.due i

theorem Served.append (hs : Served s log) {es : List (Entry ι)}
    (hdue : ∀ j n, n ∈ s.due j → .submit j n ∈ es ∨ n ∈ t.due j)
    (hnew : ∀ l₁ l₂ j rs, es = l₁ ++ .unlock j rs :: l₂ → ∀ n ∈ rs, n ∈ t.due j) :
    Served t (log ++ es) := by
  intro l₁ l₂ j rs hsplit n hn
  rcases List.append_eq_append_iff.mp hsplit with ⟨k, rfl, hes⟩ | ⟨k, hlog, htail⟩
  · exact .inr (hnew k l₂ j rs hes n hn)
  · cases k with
    | nil =>
      rw [List.nil_append] at htail
      exact .inr (hnew [] l₂ j rs htail.symm n hn)
    | cons e k =>
      obtain ⟨rfl, rfl⟩ := List.cons.inj htail
      rcases hs l₁ k j rs hlog n hn with hsubmit | hdue'
      · exact .inl (List.mem_append_left _ hsubmit)
      · exact (hdue j n hdue').imp_left (List.mem_append_right _)

variable [DecidableEq ι]

theorem slowUnlock_pc (s : State ι) : ∃ p, (slowUnlock cfg s i).pc = Function.update s.pc i p := by
  unfold SharedMutex.slowUnlock
  simp only
  split
  · obtain ⟨p, hp, -⟩ := runWriter_pc cfg i
      ({ s with state := sub64 s.state kWriter }.check (decide (1 < s.state / kWriter)))
    exact ⟨p, hp⟩
  split
  · unfold SharedMutex.runReaders
    split <;> exact ⟨_, rfl⟩
  split
  · obtain ⟨p, hp, -⟩ := runWriter_pc cfg i
      { s with state := sub64 s.state kWriter }
    exact ⟨p, hp⟩
  · exact ⟨_, rfl⟩

theorem nextWriter_pc {old : Nat} : ∃ p, (nextWriter cfg s i old).pc = Function.update s.pc i p := by
  unfold SharedMutex.nextWriter
  split <;> exact ⟨_, rfl⟩

/-- A step moves its own request, and at most one other that it submits. Only in
the section it changes `_readers`. -/
theorem advance_frame {weak : Bool} (hstep : advance cfg s i weak = some t) :
    (∃ f p, t.pc = Function.update f i p ∧ ∀ j, f j = s.pc j ∨ f j = (s.pc j).resumed) ∧
      (t.readers = s.readers ∨ (s.pc i).inside = 1) := by
  have hmove : ∀ v : State ι, (∃ p, v.pc = Function.update s.pc i p) →
      ∃ f p, v.pc = Function.update f i p ∧ ∀ j, f j = s.pc j ∨ f j = (s.pc j).resumed := by
    rintro v ⟨p, hp⟩
    exact ⟨s.pc, p, hp, fun j => .inl rfl⟩
  have hsubmit : ∀ n p, ∃ f p', ((s.submit n).goto i p).pc = Function.update f i p' ∧
      ∀ j, f j = s.pc j ∨ f j = (s.pc j).resumed := by
    intro n p
    refine ⟨(s.submit n).pc, p, rfl, fun j => ?_⟩
    by_cases hjn : j = n
    · subst hjn
      exact .inr (Function.update_self ..)
    · exact .inl (Function.update_of_ne hjn ..)
  unfold SharedMutex.advance at hstep
  cases hpc : s.pc i with
  | idle | shWaiting | exWaiting => simp [hpc] at hstep
  | shEnter | exEnter | slowEnter =>
    simp only [hpc, State.acquire] at hstep
    split at hstep
    · cases hstep
      exact ⟨hmove _ ⟨_, rfl⟩, .inl rfl⟩
    · contradiction
  | shResumed | shHeld | shLeave | exResumed | exFirst | runReaders | unlocking =>
    simp only [hpc, Option.some.injEq] at hstep
    subst hstep
    exact ⟨hmove _ ⟨_, rfl⟩, .inl rfl⟩
  | shSection =>
    simp only [hpc, Option.some.injEq] at hstep
    subst hstep
    refine ⟨hmove _ ?_, .inr rfl⟩
    unfold SharedMutex.awaitLockShared
    split <;> exact ⟨_, rfl⟩
  | tryShared expected =>
    simp only [hpc, Option.some.injEq] at hstep
    subst hstep
    unfold tryLockSharedSwap
    split <;> exact ⟨hmove _ ⟨_, rfl⟩, .inl rfl⟩
  | shWake =>
    simp only [hpc, Option.some.injEq] at hstep
    subst hstep
    cases s.writersFirst <;> exact ⟨hmove _ ⟨_, rfl⟩, .inl rfl⟩
  | tryLock await =>
    simp only [hpc, Option.some.injEq] at hstep
    subst hstep
    unfold tryLockAwaitSwap
    split <;> exact ⟨hmove _ ⟨_, rfl⟩, .inl rfl⟩
  | exSection =>
    simp only [hpc, Option.some.injEq] at hstep
    subst hstep
    refine ⟨hmove _ ?_, .inr rfl⟩
    unfold SharedMutex.awaitLock
    split <;> exact ⟨_, rfl⟩
  | exWait r =>
    simp only [hpc, Option.some.injEq] at hstep
    subst hstep
    refine ⟨hmove _ ?_, .inr rfl⟩
    unfold awaitLockWait
    split <;> exact ⟨_, rfl⟩
  | exHeld =>
    simp only [hpc, Option.some.injEq] at hstep
    subst hstep
    unfold unlockHere
    split <;> exact ⟨hmove _ ⟨_, rfl⟩, .inl rfl⟩
  | slowSection =>
    simp only [hpc, Option.some.injEq] at hstep
    subst hstep
    exact ⟨hmove _ (slowUnlock_pc s), .inr rfl⟩
  | nextWriter old =>
    simp only [hpc, Option.some.injEq] at hstep
    subst hstep
    exact ⟨hmove _ nextWriter_pc, .inr rfl⟩
  | submitOne n =>
    simp only [hpc, Option.some.injEq] at hstep
    subst hstep
    exact ⟨hsubmit n _, .inl rfl⟩
  | submitAll ns =>
    cases ns with
    | nil =>
      simp only [hpc, Option.some.injEq] at hstep
      subst hstep
      exact ⟨hmove _ ⟨_, rfl⟩, .inl rfl⟩
    | cons n ns =>
      simp only [hpc, Option.some.injEq] at hstep
      subst hstep
      exact ⟨hsubmit n _, .inl rfl⟩

theorem due_call {op : Op} (hpc : s.pc i = .idle) {j : ι} (hn : n ∈ s.due j) :
    n ∈ (call s i op).due j := by
  have hji : j ≠ i := by
    rintro rfl
    simp [State.due, hpc] at hn
  unfold State.due at hn ⊢
  have hplace : (call s i op).pc j = s.pc j := by
    cases op <;> exact Function.update_of_ne hji ..
  have hreaders : (call s i op).readers = s.readers := by
    cases op <;> rfl
  rw [hplace, hreaders]
  exact hn

variable [Fintype ι]

/-! What an unlock without `FIFO` owes to the readers. -/

theorem due_other (h : Inv cfg s) {weak : Bool} (hstep : advance cfg s i weak = some t) {j : ι}
    (hj : j ≠ i) (hn : n ∈ s.due j) : n ∈ t.due j := by
  obtain ⟨⟨f, p, hpc, hf⟩, hreaders⟩ := advance_frame hstep
  have hplace : t.pc j = s.pc j := by
    rw [hpc, Function.update_of_ne hj]
    rcases hf j with hfj | hfj
    · exact hfj
    · rw [hfj]
      unfold State.due at hn
      cases hpcj : s.pc j <;> simp [hpcj] at hn <;> rfl
  have hhanding : (s.pc j).handing = 1 → t.readers = s.readers := by
    intro hhanding
    rcases hreaders with hreaders | hinside
    · exact hreaders
    · have hzero : tally Pc.handing s.pc = (s.pc i).handing :=
        h.sole_inside rfl hinside handing_of_inside
      have hsum := add_le_tally Pc.handing s.pc hj
      omega
  unfold State.due at hn ⊢
  rw [hplace]
  cases hpcj : s.pc j with
  | runReaders old | nextWriter old =>
    rw [hpcj] at hn hhanding
    rw [hhanding rfl]
    exact hn
  | unlocking k =>
    rw [hpcj] at hn
    cases k <;> exact hn
  | _ =>
    rw [hpcj] at hn
    exact hn

theorem due_self (h : Inv cfg s) {weak : Bool} (hstep : advance cfg s i weak = some t)
    (hn : n ∈ s.due i) : .submit i n ∈ Entry.ofStep s t i ∨ n ∈ t.due i := by
  unfold State.due at hn
  cases hpc : s.pc i with
  | runReaders old =>
    simp only [SharedMutex.advance, hpc, Option.some.injEq] at hstep
    subst hstep
    rw [hpc] at hn
    right
    simpa [State.due, runReadersStore, State.goto] using hn
  | nextWriter old =>
    simp only [SharedMutex.advance, hpc, Option.some.injEq] at hstep
    subst hstep
    rw [hpc] at hn
    have hhand : 0 < (ledger s).handing := le_tally_of Pc.handing hpc
    obtain ⟨-, -, -, -, -, -, -, -, hqueued⟩ := h.ok.handing hhand
    obtain ⟨m, ms, hms⟩ := List.exists_cons_of_ne_nil (List.length_pos_iff.mp hqueued)
    right
    simpa [State.due, nextWriter, hms, takeReaders, State.goto] using hn
  | unlocking k =>
    simp only [SharedMutex.advance, hpc, Option.some.injEq] at hstep
    subst hstep
    rw [hpc] at hn
    cases k with
    | submitAll ns =>
      right
      simpa [State.due, State.goto] using hn
    | _ => exact absurd hn List.not_mem_nil
  | submitAll ns =>
    rw [hpc] at hn
    cases ns with
    | nil => exact absurd hn List.not_mem_nil
    | cons m ms =>
      simp only [SharedMutex.advance, hpc, Option.some.injEq] at hstep
      subst hstep
      rcases List.mem_cons.mp hn with rfl | hn
      · left
        simp [Entry.ofStep, hpc]
      · right
        simpa [State.due, State.goto] using hn
  | _ =>
    rw [hpc] at hn
    exact absurd hn List.not_mem_nil

/-- Without `FIFO` an unlock serves all queued readers. -/
theorem due_unlock (h : Inv cfg s) (hlifo : cfg.fifo = false) {weak : Bool}
    (hstep : advance cfg s i weak = some t) {l₁ l₂ : List (Entry ι)} {j : ι} {rs : List ι}
    (hes : Entry.ofStep s t i = l₁ ++ .unlock j rs :: l₂) (hn : n ∈ rs) : n ∈ t.due j := by
  have hmem : .unlock j rs ∈ Entry.ofStep s t i := by
    rw [hes]
    exact List.mem_append_right _ List.mem_cons_self
  have htaken : ∀ p, .unlock j rs ∉ Entry.taken p := by
    intro p hp
    unfold Entry.taken at hp
    split at hp <;> simp at hp
  unfold Entry.ofStep at hmem
  cases hpc : s.pc i with
  | exHeld =>
    simp only [hpc] at hmem
    split at hmem
    · next hfast =>
      simp only [List.mem_singleton, Entry.unlock.injEq] at hmem
      obtain ⟨-, rfl⟩ := hmem
      have hlow := h.ok.low_sum
      have hnone : s.readers.length = 0 := by
        simp only [ledger, hfast, Nat.mod_self] at hlow
        omega
      rw [List.length_eq_zero_iff.mp hnone] at hn
      exact absurd hn List.not_mem_nil
    · simp at hmem
  | slowSection =>
    simp only [hpc, List.mem_cons, Entry.unlock.injEq, htaken, or_false] at hmem
    obtain ⟨rfl, rfl⟩ := hmem
    simp only [SharedMutex.advance, hpc, Option.some.injEq] at hstep
    subst hstep
    have hreaders : s.readers ≠ [] := List.ne_nil_of_mem hn
    unfold SharedMutex.slowUnlock SharedMutex.runReaders
    simp only [hlifo, Bool.false_eq_true, false_and, if_false, ne_eq, hreaders, not_false_iff,
      if_true]
    split
    · simpa [State.due, State.goto] using hn
    · simpa [State.due, takeReaders, passReaders, State.check, State.goto] using hn
  | shSection =>
    simp only [hpc] at hmem
    split at hmem <;> simp at hmem
  | nextWriter old =>
    simp only [hpc] at hmem
    exact absurd hmem (htaken _)
  | unlocking k => cases k <;> simp [hpc] at hmem
  | submitAll ns => cases ns <;> simp [hpc] at hmem
  | _ => simp [hpc] at hmem

/-! Every run. -/

theorem Ordered.init : Ordered cfg ({} : State ι) [] [] := by
  refine ⟨rfl, fun n => rfl, fun _ => ⟨{}, rfl, rfl, rfl, .nil, fun n => ?_⟩, fun _ j hj => rfl⟩
  simp [tally_const]

/-- The run lemma for the log. -/
theorem ordered_of_reachable {r : State ι × List (Entry ι)}
    (hr : (recorded cfg ι).ReachableIf (fun _ _ t => t.1.Few) r) :
    (∃ cs, Ordered cfg r.1 r.2 cs) ∧ (cfg.fifo = false → Served r.1 r.2) := by
  refine System.ReachableIf.recorded_holds (C := fun _ _ (t : State ι) => t.Few)
    (P := fun s log => (∃ cs, Ordered cfg s log cs) ∧ (cfg.fifo = false → Served s log))
    (fun s hs => ?_) (fun s e t log hs hstep hfew ho => ?_) hr
  · subst hs
    refine ⟨⟨[], .init⟩, fun _ l₁ l₂ i rs hsplit => ?_⟩
    simp at hsplit
  · obtain ⟨⟨cs, ho⟩, hserved⟩ := ho
    have h := inv_of_reachable hs
    have ht : Inv cfg t := inv_of_reachable (.step hs hstep hfew)
    cases e with
    | call i op =>
      simp only [system, step] at hstep
      split at hstep
      · next hpc =>
        cases hstep
        refine ⟨⟨cs, ho.call hpc⟩, fun hlifo => ?_⟩
        have hcall : Served (call s i op) (log ++ []) := (hserved hlifo).append
          (fun j n hn => .inr (due_call hpc hn)) (fun l₁ l₂ j rs hes => by simp at hes)
        rwa [List.append_nil] at hcall
      · contradiction
    | advance i weak =>
      refine ⟨ho.advance h ht hstep, fun hlifo => ?_⟩
      refine (hserved hlifo).append (fun j n hn => ?_) fun l₁ l₂ j rs hes n hn =>
        due_unlock h hlifo hstep hes hn
      by_cases hji : j = i
      · subst hji
        exact due_self h hstep hn
      · exact .inr (due_other h hstep hji hn)
    | release =>
      simp only [system, step] at hstep
      split at hstep
      · cases hstep
        exact ⟨⟨cs, ho.congr rfl rfl rfl rfl⟩, hserved⟩
      · contradiction

/-- The order of service, in every run: the writers acquire in the order of
their `fetch_add` in `AwaitLock`. With `FIFO` a writer that is queued after a
reader was pushed to `_readers` does not acquire before that reader is
submitted, and `RunReaders` takes at most one batch between the moment a writer
is queued and the moment it acquires. Without `FIFO` every reader in `_readers`
when a writer unlocks is submitted by that unlock: it was, or is still to be. -/
theorem service_order (cfg : Config) (r : State ι × List (Entry ι))
    (hr : (recorded cfg ι).ReachableIf (fun _ _ t => t.1.Few) r) :
    acquired r.2 <+: queued r.2 ∧
      (cfg.fifo = true →
        (∀ l₁ l₂ l₃ l₄ i j, r.2 = l₁ ++ .queueReader i :: l₂ ++ .queueWriter j :: l₃ ++
          .acquire j :: l₄ → ∃ k, .submit k i ∈ l₂ ++ l₃) ∧
        ∀ l₁ l₂ l₃ j, r.2 = l₁ ++ .queueWriter j :: l₂ ++ .acquire j :: l₃ → .acquire j ∉ l₂ →
          FairQueue.batches l₂ ≤ 1) ∧
      (cfg.fifo = false → ∀ l₁ l₂ i rs, r.2 = l₁ ++ .unlock i rs :: l₂ →
        ∀ n ∈ rs, .submit i n ∈ l₂ ∨ n ∈ r.1.due i) := by
  obtain ⟨⟨cs, ho⟩, hserved⟩ := ordered_of_reachable hr
  refine ⟨⟨_, ho.queued_eq.symm⟩, fun hfifo => ?_, hserved⟩
  obtain ⟨q, hrun, -⟩ := ho.fair hfifo
  -- a part of the log is accepted from the queue that the part before it leads to
  have hpart : ∀ l₁ l₂ l₃, r.2 = l₁ ++ l₂ ++ l₃ →
      ∃ q₁ q₂, FairQueue.system.run q₁ l₂ = some q₂ := by
    intro l₁ l₂ l₃ hsplit
    rw [hsplit, System.run_append, System.run_append, Option.bind_eq_some_iff] at hrun
    obtain ⟨q₂, hrun, -⟩ := hrun
    obtain ⟨q₁, -, hrun⟩ := Option.bind_eq_some_iff.mp hrun
    exact ⟨q₁, q₂, hrun⟩
  constructor
  · intro l₁ l₂ l₃ l₄ i j hsplit
    obtain ⟨q₁, q₂, hrun⟩ := hpart l₁ (.queueReader i :: l₂ ++ .queueWriter j :: l₃ ++ [.acquire j])
      l₄ (by simpa using hsplit)
    exact FairQueue.reader_first hrun
  · intro l₁ l₂ l₃ j hsplit hfirst
    obtain ⟨q₁, q₂, hrun⟩ := hpart l₁ (.queueWriter j :: l₂ ++ [.acquire j]) l₃
      (by simpa using hsplit)
    exact FairQueue.one_batch hrun hfirst

/-- Reader 1 and then writer 2 wait for writer 0; the reader is served first. -/
def inTurn : List (Event (Fin 3)) :=
  [.call 0 .lock, .advance 0 false, .call 1 .lockShared, .advance 1 false, .advance 1 false,
    .release, .call 2 .lock, .advance 2 false, .advance 2 false, .release] ++
  List.replicate 8 (.advance 0 false) ++ List.replicate 5 (.advance 1 false)

theorem service_order_inTurn :
    let r := ((recorded ⟨true, true⟩ (Fin 3)).run ({}, []) inTurn).get (by decide)
    r.2 = [.queueReader 1, .queueWriter 2, .unlock 0 [1], .runReaders [1], .submit 0 1,
        .acquire 2] ∧
      FairQueue.batches [.unlock 0 [1], .runReaders [1], .submit 0 (1 : Fin 3)] ≤ 1 := by
  have hinit : (recorded ⟨true, true⟩ (Fin 3)).ReachableIf (fun _ _ t => t.1.Few) ({}, []) :=
    .init ⟨rfl, rfl⟩
  have hr : (recorded ⟨true, true⟩ (Fin 3)).ReachableIf (fun _ _ t => t.1.Few)
      (((recorded ⟨true, true⟩ (Fin 3)).run ({}, []) inTurn).get (by decide)) :=
    .run (fun _ _ t _ => few_of_card (by simp) t.1) hinit (Option.some_get _).symm
  refine ⟨by decide, ?_⟩
  apply ((service_order ⟨true, true⟩ _ hr).2.1 rfl).2 [.queueReader 1] _ [] 2
  · decide
  · decide

end Yaclib.SharedMutex
