import Yaclib.Fault.Fiber.Scheduler.Sleep

/-!
The return from a wait. A timed one looks for its entry and removes it if it is empty, then
leaves the wait queue, unless a notifier took it from there.
-/

namespace Yaclib.Fault.Fiber.Scheduler

open Concurrency Intrusive

variable {φ κ : Type} {s t : State φ κ} {L L' : Node φ κ → List (Node φ κ)} {f g : φ}
  {o p : Option (Node φ κ)} {n : Node φ κ} {u : UInt64}

/-- An empty entry is removed. -/
theorem Listed.drop (h : Listed s L) (hempty : L (.sleep u) = []) :
    Listed { s with sleep_list := s.sleep_list.erase u } L ∧
      ∀ n r, Only (Heads s.sleep_list) L n r → Only (Heads (s.sleep_list.erase u)) L n r := by
  have hsub : ∀ a : Node φ κ, Heads (s.sleep_list.erase u) a → Heads s.sleep_list a := by
    intro a ha
    cases a with
    | sleep v => exact List.mem_of_mem_erase ha
    | queue | wait _ => exact ha
    | all | scheduler _ | waitQueue _ => cases ha
  have hkeep : ∀ a : Node φ κ, Heads s.sleep_list a → L a ≠ [] →
      Heads (s.sleep_list.erase u) a := by
    intro a ha hne
    cases a with
    | sleep v =>
      have hvu : v ≠ u := by
        rintro rfl
        exact hne hempty
      exact (List.mem_erase_of_ne hvu).mpr ha
    | queue | wait _ => exact ha
    | all | scheduler _ | waitQueue _ => cases ha
  have hr := h.relist_mono hsub hkeep
  refine ⟨h.relist hr rfl rfl ?_, hr.only⟩
  intro f o p _ _ hexpected
  exact hexpected.congr ⟨rfl, rfl, rfl, Iff.rfl⟩

variable [DecidableEq φ]

/-- The return from a sleep or a wait without a time point. -/
theorem Listed.finish_quiet (h : Listed s L) (hrun : s.control = .fiber f)
    (hplace : (∃ u, s.place f = .sleep u) ∨ ∃ k, s.place f = .wait k) :
    Listed (s.goto f .client) L ∧ (OnTime s L → OnTime (s.goto f .client) L) := by
  obtain ⟨hrunning, ho, hp⟩ := h.current hrun
  have htimed : ∀ k ns u, s.place f ≠ .timedWait k ns u := by
    intro k ns u htimed
    rcases hplace with ⟨v, hplace⟩ | ⟨k, hplace⟩ <;> simp [hplace] at htimed
  have hp : Only (Heads s.sleep_list) L (.waitQueue f) none := by
    rcases hp with hp | ⟨k, ns, u, hplace', -⟩
    · exact hp
    · exact absurd hplace' (htimed k ns u)
  have hnew : (s.goto f .client).place f = .client := Function.update_self f _ _
  refine h.quiet_step (t := s.goto f .client) (h.shift_refl ho hp) ?_
    (.of_client hnew (.inl ⟨hrun, hrunning, rfl⟩)) rfl rfl ?_ (by simp [hnew]) (by simp [hnew])
    ?_ ?_
  · intro g hgf
    exact ⟨Function.update_of_ne hgf _ _, rfl, rfl, Iff.rfl⟩
  · simp [State.goto, hrun]
  · intro k ns u hplace'
    exact absurd hplace' (htimed k ns u)
  · intro u hsleep
    cases ho.eq hsleep

variable [DecidableEq κ]

/-- `SleepPreemptive` after `Sleep`: only an empty entry is lost, and if an empty one is still
there, it is over. -/
theorem Listed.afterSleep (h : Listed s L) (ht : s.afterSleep u = some t) :
    (∃ keys, t = { s with sleep_list := keys } ∧ keys.Sublist s.sleep_list ∧
      (s.sleep_list.Nodup → u ∈ keys → L (.sleep u) = [] → u < s.time)) ∧
    Listed t L ∧
      ∀ n r, Only (Heads s.sleep_list) L n r → Only (Heads t.sleep_list) L n r := by
  unfold State.afterSleep at ht
  split at ht
  · split at ht
    · rename_i hlate hu
      have hiff := (h.store.list (.sleep u) hu).empty_iff
      split at ht
      · rename_i hempty
        obtain rfl := Option.some.inj ht
        refine ⟨⟨_, rfl, List.erase_sublist, ?_⟩, h.drop (hiff.mp hempty)⟩
        intro hnodup hmem
        exact absurd hmem hnodup.not_mem_erase
      · rename_i hempty
        obtain rfl := Option.some.inj ht
        refine ⟨⟨_, rfl, List.Sublist.refl _, ?_⟩, h, fun n r hr => hr⟩
        intro _ _ hnil
        exact absurd (hiff.mpr hnil) hempty
    · cases ht
  · rename_i hlate
    obtain rfl := Option.some.inj ht
    exact ⟨⟨_, rfl, List.Sublist.refl _, fun _ _ _ => UInt64.not_le.mp hlate⟩, h, fun n r hr => hr⟩

/-- A fiber leaves its wait queue at the end of a timed wait: `Erase` is true if nobody took
it from there. -/
theorem Listed.erase_waitQueue (h : Listed s L) (hrun : s.control = .fiber f) {k : κ}
    {ns : UInt64} (hplace : s.place f = .timedWait k ns u) :
    ∃ heap L', s.heap.erase (.waitQueue f) = (heap, !s.removed f) ∧
      Shift (Heads s.sleep_list) s.heap heap L L' f none none ∧
      (s.removed f = true → L' = L) := by
  obtain ⟨-, ho, -⟩ := h.current hrun
  obtain ⟨o, p, -, hp, hexpected⟩ := (h.fiber f).position
  unfold Expected at hexpected
  simp only [hplace] at hexpected
  cases hremoved : s.removed f with
  | true =>
    rw [hremoved, if_pos rfl] at hexpected
    obtain ⟨rfl, -⟩ := hexpected
    refine ⟨s.heap, L, ?_, h.shift_refl ho hp, fun _ => rfl⟩
    rw [IsList.erase_null ((h.fiber f).erased k ns u hplace hremoved)]
    rfl
  | false =>
    rw [hremoved, if_neg (by simp)] at hexpected
    obtain ⟨rfl, -⟩ := hexpected
    obtain ⟨heap, L', herase, hnull, hmove⟩ := h.store.move_erase hp
    exact ⟨heap, L', herase, move_waitQueue (h.bare · f) (h.loose · f) ho hmove fun _ => hnull, nofun⟩

/-- The return from a timed wait. -/
theorem Listed.finish_timedWait (h : Listed s L) (hrun : s.control = .fiber f) {k : κ}
    {ns : UInt64} (hplace : s.place f = .timedWait k ns u) (ht : s.finish f = some t) :
    t.status f = some (if s.removed f then .Ready else .Timeout) ∧ t.time = s.time ∧
      ∃ L', Listed t L' ∧ (OnTime s L → OnTime t L') := by
  unfold State.finish at ht
  simp only [hplace] at ht
  obtain ⟨s₁, hafter, ht⟩ := Option.map_eq_some_iff.mp ht
  obtain ⟨⟨keys, hs₁, hkeys, hpast⟩, h₁, honly⟩ := h.afterSleep hafter
  have hrun₁ : s₁.control = .fiber f := by rw [hs₁]; exact hrun
  have hplace₁ : s₁.place f = .timedWait k ns u := by rw [hs₁]; exact hplace
  have hremoved₁ : s₁.removed f = s.removed f := by rw [hs₁]
  have htime₁ : s₁.time = s.time := by rw [hs₁]
  have hkeys₁ : s₁.sleep_list = keys := by rw [hs₁]
  obtain ⟨hrunning, ho, -⟩ := h.current hrun
  obtain ⟨heap, L', herase, hm, hstays⟩ := h₁.erase_waitQueue hrun₁ hplace₁
  rw [herase] at ht
  dsimp only at ht
  have hplace' : t.place f = .client := by rw [← ht]; exact Function.update_self f _ _
  have hothers₁ : ∀ g, g ≠ f → Untouched s₁ t g := by
    intro g hgf
    rw [← ht]
    exact ⟨Function.update_of_ne hgf _ _, rfl, rfl, Iff.rfl⟩
  have hothers : ∀ g, g ≠ f → Untouched s t g := by
    intro g hgf
    obtain ⟨hplace₂, hremoved₂, hstate₂, hcontrol₂⟩ := hothers₁ g hgf
    rw [hs₁] at hplace₂ hremoved₂ hstate₂ hcontrol₂
    exact ⟨hplace₂, hremoved₂, hstate₂, hcontrol₂⟩
  have hheap : t.heap = heap := by rw [← ht]
  have hkeys' : t.sleep_list = s₁.sleep_list := by rw [← ht]; rfl
  have hcontrol' : t.control = .fiber f := by rw [← ht]; exact hrun₁
  have hstate' : t.state f = .Running := by rw [← ht, hs₁]; exact hrunning
  have htime' : t.time = s.time := by rw [← ht]; exact htime₁
  have hc : Carried (Heads s.sleep_list) (Heads t.sleep_list) L L' f := by
    intro n hn r hr
    rw [hkeys']
    exact hm.others n hn r (honly n r hr)
  have hle : s.time ≤ t.time := htime' ▸ UInt64.le_refl _
  refine ⟨?_, htime', L', ?_, ?_⟩
  · rw [← ht, hremoved₁]
    dsimp only
    rw [Function.update_self]
    cases s.removed f <;> rfl
  · unfold Listed
    rw [hkeys']
    refine h₁.shift (by rw [hheap]; exact hm) hothers₁
      (.of_client hplace' (.inl ⟨hcontrol', hstate', rfl⟩)) ?_
    simp [hplace']
  · intro hon
    have hsorted := hon.punctual.sorted
    constructor
    · refine hon.punctual.carry h.store hc hothers ?_ hle (by simp [hcontrol']) ?_
        (by simp [hplace']) ?_
      · rw [hkeys', hkeys₁]
        exact hsorted.sublist hkeys
      · rintro v (hsleep | ⟨_, _, htimed, -⟩)
        · rw [hplace'] at hsleep
          cases hsleep
        · rw [hplace'] at htimed
          cases htimed
      · intro g _ _ v hrun' htimed
        rw [hcontrol'] at hrun'
        obtain rfl : f = g := Control.fiber.inj hrun'
        rw [hplace'] at htimed
        cases htimed
    · refine hon.swept.carry h (by simp) hc hothers (fun v hv => hv) ?_ hle ?_
      · intro v hv _
        rw [hkeys', hkeys₁] at hv
        exact hkeys.subset hv
      · rintro v hv (hasleep | ⟨_, _, htimed, hremoved⟩) hempty
        · cases ho.eq hasleep
        · rw [hplace] at htimed
          injection htimed with _ _ huv
          rw [hkeys', hkeys₁, ← huv] at hv
          rw [← huv, hstays (hremoved₁.trans hremoved)] at hempty
          left
          rw [← huv, htime']
          exact hpast (hsorted.imp UInt64.ne_of_lt) hv hempty

/-- The return from the call a fiber is in. -/
theorem Listed.finish (h : Listed s L) (hrun : s.control = .fiber f) (ht : s.finish f = some t) :
    t.time = s.time ∧ ∃ L', Listed t L' ∧ (OnTime s L → OnTime t L') := by
  cases hplace : s.place f with
  | sleep u =>
    unfold State.finish at ht
    simp only [hplace] at ht
    obtain rfl := Option.some.inj ht
    exact ⟨rfl, L, h.finish_quiet hrun (.inl ⟨u, hplace⟩)⟩
  | wait k =>
    unfold State.finish at ht
    simp only [hplace] at ht
    obtain rfl := Option.some.inj ht
    exact ⟨rfl, L, h.finish_quiet hrun (.inr ⟨k, hplace⟩)⟩
  | timedWait k ns u => exact (h.finish_timedWait hrun hplace ht).2
  | fresh | client | suspended | exited =>
    unfold State.finish at ht
    simp only [hplace] at ht
    cases ht

end Yaclib.Fault.Fiber.Scheduler
