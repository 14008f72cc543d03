import Yaclib.Coro.SharedMutex.Steps

/-!
Submissions keep the invariant: the request that was owed one becomes runnable,
and the debt is gone.
-/

namespace Yaclib.SharedMutex

open Concurrency

variable {ι : Type}
variable {cfg : Config} {s t : State ι} {i : ι} {p : Pc ι}

theorem Pc.eq_shWaiting (h : 0 < p.shParked) : p = .shWaiting := by
  cases p <;> simp at h ⊢

theorem Pc.eq_exWaiting (h : 0 < p.exParked) : p = .exWaiting := by
  cases p <;> simp at h ⊢

variable [DecidableEq ι] [Fintype ι]

theorem tally_move₂ (w : Pc ι → Nat) {f : ι → Pc ι} {n : ι} (hne : n ≠ i) (q : Pc ι) :
    tally w (Function.update (Function.update f n q) i p) + w (f n) + w (f i) =
      tally w f + w q + w p := by
  have h1 := tally_update w f n q
  have h2 := tally_update w (Function.update f n q) i p
  rw [Function.update_of_ne (Ne.symm hne)] at h2
  omega

theorem ledger_stay₂ {n : ι} (hne : n ≠ i) {q : Pc ι} (hpc : t.pc = Function.update
    (Function.update s.pc n q) i p) (hcount : ∀ w ∈ [Pc.active, Pc.transit, Pc.leaving, Pc.owner,
      Pc.first, Pc.announced, Pc.handing, Pc.handed, Pc.stored],
      w q + w p = w (s.pc n) + w (s.pc i))
    (hcounters : ledger t = { ledger s with
      active := tally Pc.active t.pc
      transit := tally Pc.transit t.pc
      leaving := tally Pc.leaving t.pc
      owner := tally Pc.owner t.pc
      first := tally Pc.first t.pc
      announced := tally Pc.announced t.pc
      handing := tally Pc.handing t.pc
      handed := tally Pc.handed t.pc
      stored := tally Pc.stored t.pc }) : ledger t = ledger s := by
  have hstay : ∀ w ∈ [Pc.active, Pc.transit, Pc.leaving, Pc.owner, Pc.first, Pc.announced,
      Pc.handing, Pc.handed, Pc.stored], tally w t.pc = tally w s.pc := by
    intro w hw
    have hmove := tally_move₂ (p := p) w (f := s.pc) hne q
    have hsame := hcount w hw
    rw [hpc]
    omega
  simp only [List.forall_mem_cons, List.not_mem_nil, false_imp_iff, implies_true, and_true] at hstay
  obtain ⟨h1, h2, h3, h4, h5, h6, h7, h8, h9⟩ := hstay
  rw [hcounters, h1, h2, h3, h4, h5, h6, h7, h8, h9]
  rfl

theorem Queues.submit (h : Queues s) {n : ι} (hne : n ≠ i)
    (hn : s.pc n = .shWaiting ∨ s.pc n = .exWaiting)
    (hpc : t.pc = Function.update (Function.update s.pc n (s.pc n).resumed) i p)
    (hreaders : t.readers = s.readers) (hwriters : t.writers = s.writers)
    (hfirst : t.writersFirst = s.writersFirst)
    (hold : (s.pc i).shParked = 0 ∧ (s.pc i).exParked = 0)
    (hnew : p.shParked = 0 ∧ p.exParked = 0 ∧ ∀ r, p ≠ .exWait r)
    (hreader : ∀ m, p.owesReader m + (if n = m then (s.pc n).shParked else 0) =
      (s.pc i).owesReader m)
    (hwriter : ∀ m, p.owesWriter m + t.firstIs m + (if n = m then (s.pc n).exParked else 0) =
      (s.pc i).owesWriter m + s.firstIs m)
    (hnamed : 0 < t.firstParked → 0 < s.firstParked) : Queues t := by
  have hplace : ∀ m, (t.pc m).shParked + (if n = m then (s.pc n).shParked else 0) =
      (s.pc m).shParked ∧ (t.pc m).exParked + (if n = m then (s.pc n).exParked else 0) =
      (s.pc m).exParked := by
    intro m
    rw [hpc]
    by_cases hmi : m = i
    · rw [hmi, Function.update_self, if_neg hne, if_neg hne, hnew.1, hnew.2.1, hold.1, hold.2]
      exact ⟨rfl, rfl⟩
    · rw [Function.update_of_ne hmi]
      by_cases hmn : n = m
      · subst hmn
        rcases hn with hn | hn <;> simp [hn, Pc.resumed]
      · simp [hmn, Function.update_of_ne (Ne.symm hmn)]
  have howed : (∀ m, (s.pc n).owesReader m = 0 ∧ (s.pc n).resumed.owesReader m = 0) ∧
      ∀ m, (s.pc n).owesWriter m = 0 ∧ (s.pc n).resumed.owesWriter m = 0 := by
    rcases hn with hn | hn <;> simp [hn, Pc.resumed]
  refine ⟨fun m => ?_, fun m => ?_, fun hpos => ?_, fun j r hj => ?_⟩
  · have hs := h.reader m
    have hmove := tally_move₂ (p := p) (Pc.owesReader m) (f := s.pc) hne (s.pc n).resumed
    have hdebt := hreader m
    obtain ⟨h1, h2⟩ := howed.1 m
    have hp := (hplace m).1
    rw [hreaders, hpc] at *
    omega
  · have hs := h.writer m
    have hmove := tally_move₂ (p := p) (Pc.owesWriter m) (f := s.pc) hne (s.pc n).resumed
    have hdebt := hwriter m
    obtain ⟨h1, h2⟩ := howed.2 m
    have hp := (hplace m).2
    rw [hwriters, hpc] at *
    omega
  · rw [hfirst]
    exact h.named (hnamed hpos)
  · rw [hpc] at hj
    rw [hfirst]
    by_cases hji : j = i
    · rw [hji, Function.update_self] at hj
      exact absurd hj (hnew.2.2 r)
    rw [Function.update_of_ne hji] at hj
    by_cases hjn : j = n
    · rw [hjn, Function.update_self] at hj
      rcases hn with hn | hn <;> simp [hn, Pc.resumed] at hj
    · rw [Function.update_of_ne hjn] at hj
      exact h.naming j r hj

/-- `Submit` followed by a move of the request that called it. -/
theorem Inv.submit (h : Inv cfg s) {n : ι} (hne : n ≠ i)
    (hn : s.pc n = .shWaiting ∨ s.pc n = .exWaiting)
    (hok : (ledger ((s.submit n).goto i p)).Ok cfg.fifo)
    (hqueues : Queues ((s.submit n).goto i p))
    (hfew : ((s.submit n).goto i p).Few)
    (hinside : (s.pc i).inside = p.inside) (hwrong : p.wrong = 0) (hasking : p.asking = false) :
    Inv cfg ((s.submit n).goto i p) := by
  have hzero : s.submits n = 0 := h.asking n (by rcases hn with hn | hn <;> rw [hn] <;> rfl)
  have hplaces : ((s.pc n).inside = 0 ∧ (s.pc n).resumed.inside = 0) ∧
      ((s.pc n).wrong = 0 ∧ (s.pc n).resumed.wrong = 0) ∧ (s.pc n).resumed.asking = false := by
    rcases hn with hn | hn <;> simp [hn, Pc.resumed]
  obtain ⟨⟨h1, h2⟩, ⟨h3, h4⟩, h5⟩ := hplaces
  refine ⟨hfew, hok, hqueues, ?_, ?_, fun m => ?_, fun m hm => ?_, h.asserts_eq⟩
  · have hmove := tally_move₂ (p := p) Pc.inside (f := s.pc) hne (s.pc n).resumed
    have heq := h.inside_eq
    simp only [State.submit, State.goto]
    omega
  · have hmove := tally_move₂ (p := p) Pc.wrong (f := s.pc) hne (s.pc n).resumed
    have heq := h.wrong_eq
    simp only [State.submit, State.goto]
    omega
  · simp only [State.submit, State.goto]
    by_cases hmn : m = n
    · rw [hmn, Function.update_self, hzero]
    · rw [Function.update_of_ne hmn]
      exact h.submits_le m
  · simp only [State.submit, State.goto] at hm ⊢
    by_cases hmi : m = i
    · rw [hmi, Function.update_self, hasking] at hm
      contradiction
    rw [Function.update_of_ne hmi] at hm
    by_cases hmn : m = n
    · rw [hmn, Function.update_self, h5] at hm
      contradiction
    · rw [Function.update_of_ne hmn] at hm ⊢
      exact h.asking m hm

/-- One round of the loop of `RunReaders`. -/
theorem Inv.submitAll (h : Inv cfg s) {n : ι} {ns : List ι} (hpc : s.pc i = .submitAll (n :: ns))
    (hfew : ((s.submit n).goto i (.submitAll ns)).Few) :
    Inv cfg ((s.submit n).goto i (.submitAll ns)) := by
  have hn : s.pc n = .shWaiting := by
    have hle := le_tally_of (Pc.owesReader n) hpc
    have heq := h.queues.reader n
    simp only [Pc.owesReader, List.count_cons_self] at hle
    exact Pc.eq_shWaiting (by omega)
  have hne : n ≠ i := by
    rintro rfl
    rw [hpc] at hn
    contradiction
  have hledger : ledger ((s.submit n).goto i (.submitAll ns)) = ledger s :=
    ledger_stay₂ hne rfl (by simp [hn, hpc, Pc.resumed, Nat.add_comm]) rfl
  have hparked : ((s.submit n).goto i (.submitAll ns)).firstParked = s.firstParked := by
    have hwakes := tally_move₂ (p := .submitAll ns) Pc.wakes (f := s.pc) hne (s.pc n).resumed
    simp only [hn, hpc, Pc.resumed, Pc.wakes] at hwakes
    simp only [State.firstParked, hledger]
    simp only [State.submit, State.goto, hn, Pc.resumed]
    omega
  refine h.submit hne (.inl hn) (hledger ▸ h.ok) ?_ hfew (by simp [hpc]) rfl rfl
  refine h.queues.submit hne (.inl hn) rfl rfl rfl rfl (by simp [hpc]) (by simp) (fun m => ?_)
    (fun m => ?_) (fun hpos => hparked ▸ hpos)
  · simp [hpc, hn, List.count_cons]
  · rw [firstIs_congr (by rfl) hparked m]
    simp [hpc, hn]

/-- `Run(node)` of `RunWriter`. -/
theorem Inv.submitOne (h : Inv cfg s) {n : ι} (hpc : s.pc i = .submitOne n)
    (hfew : ((s.submit n).goto i .idle).Few) :
    Inv cfg ((s.submit n).goto i .idle) := by
  have hn : s.pc n = .exWaiting := by
    have hle := le_tally_of (Pc.owesWriter n) hpc
    have heq := h.queues.writer n
    simp only [Pc.owesWriter, if_true] at hle
    exact Pc.eq_exWaiting (by omega)
  have hne : n ≠ i := by
    rintro rfl
    rw [hpc] at hn
    contradiction
  have hledger : ledger ((s.submit n).goto i .idle) = ledger s :=
    ledger_stay₂ hne rfl (by simp [hn, hpc, Pc.resumed]) rfl
  have hparked : ((s.submit n).goto i .idle).firstParked = s.firstParked := by
    have hwakes := tally_move₂ (p := .idle) Pc.wakes (f := s.pc) hne (s.pc n).resumed
    simp only [hn, hpc, Pc.resumed, Pc.wakes] at hwakes
    simp only [State.firstParked, hledger]
    simp only [State.submit, State.goto, hn, Pc.resumed]
    omega
  refine h.submit hne (.inr hn) (hledger ▸ h.ok) ?_ hfew (by simp [hpc]) rfl rfl
  refine h.queues.submit hne (.inr hn) rfl rfl rfl rfl (by simp [hpc]) (by simp) (fun m => ?_)
    (fun m => ?_) (fun hpos => hparked ▸ hpos)
  · simp [hpc, hn]
  · rw [firstIs_congr (by rfl) hparked m]
    simp [hpc, hn, Nat.add_comm]

end Yaclib.SharedMutex
