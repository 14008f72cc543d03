import Yaclib.Fault.Fiber.Scheduler.Lists
import Yaclib.Fault.Fiber.Scheduler.Steps

/-!
`Sleep` and the timed `Wait`: a fiber enters `_sleep_list`, and an entry is made for it.
-/

namespace Yaclib.Fault.Fiber.Scheduler

open Concurrency Intrusive

variable {φ κ : Type}

/-! ### A new entry -/

theorem pairwise_orderedInsert {keys : List UInt64} {u : UInt64} (h : keys.Pairwise (· < ·))
    (hu : u ∉ keys) : (keys.orderedInsert (· ≤ ·) u).Pairwise (· < ·) := by
  induction keys with
  | nil => exact List.pairwise_singleton _ u
  | cons v keys ih =>
    obtain ⟨hv, hkeys⟩ := List.pairwise_cons.mp h
    have huv : u ≠ v := fun heq => hu (heq ▸ List.mem_cons_self)
    by_cases hle : u ≤ v
    · rw [List.orderedInsert_cons_of_le _ _ hle]
      have hlt : u < v := UInt64.lt_of_le_of_ne hle huv
      refine List.pairwise_cons.mpr ⟨?_, h⟩
      intro w hw
      rcases List.mem_cons.mp hw with rfl | hw
      · exact hlt
      · exact UInt64.lt_trans hlt (hv w hw)
    · rw [List.orderedInsert_of_not_le _ _ hle]
      refine List.pairwise_cons.mpr ⟨?_, ih hkeys fun hmem => hu (List.mem_cons_of_mem v hmem)⟩
      intro w hw
      rcases (List.mem_orderedInsert _).mp hw with rfl | hw
      · exact UInt64.not_le.mp hle
      · exact hv w hw

theorem heads_orderedInsert (keys : List UInt64) (u : UInt64) :
    (Heads (keys.orderedInsert (· ≤ ·) u) : Node φ κ → Prop) =
      fun a => Heads keys a ∨ a = .sleep u := by
  funext a
  apply propext
  cases a with
  | sleep v =>
    show v ∈ keys.orderedInsert (· ≤ ·) u ↔ v ∈ keys ∨ Node.sleep v = Node.sleep u
    rw [List.mem_orderedInsert, Node.sleep.injEq, or_comm]
  | queue | wait _ => simp [Heads]
  | all | scheduler _ | waitQueue _ => simp [Heads]

variable {s t : State φ κ} {L L' : Node φ κ → List (Node φ κ)} {f g : φ}
  {o p : Option (Node φ κ)} {n : Node φ κ} {u : UInt64}

variable [DecidableEq φ] [DecidableEq κ]

theorem untouched_entry : Untouched s (s.entry u) g := by
  unfold State.entry
  split
  · exact ⟨rfl, rfl, rfl, Iff.rfl⟩
  · exact ⟨rfl, rfl, rfl, Iff.rfl⟩

theorem mem_entry {v : UInt64} : v ∈ (s.entry u).sleep_list ↔ v ∈ s.sleep_list ∨ v = u := by
  unfold State.entry
  split
  · rename_i hu
    exact ⟨.inl, fun hv => hv.elim id fun heq => heq ▸ hu⟩
  · exact (List.mem_orderedInsert _).trans or_comm

theorem sorted_entry (h : s.sleep_list.Pairwise (· < ·)) :
    (s.entry u).sleep_list.Pairwise (· < ·) := by
  unfold State.entry
  split
  · exact h
  · rename_i hu
    exact pairwise_orderedInsert h hu

/-- `_sleep_list[ns]`: a new entry is empty, and nothing else changes. -/
theorem Listed.entry (h : Listed s L) (u : UInt64) :
    ∃ L', Listed (s.entry u) L' ∧
      ∀ n r, Only (Heads s.sleep_list) L n r → Only (Heads (s.entry u).sleep_list) L' n r := by
  by_cases hu : u ∈ s.sleep_list
  · refine ⟨L, ?_⟩
    rw [State.entry, if_pos hu]
    exact ⟨h, fun n r hr => hr⟩
  · have hr := h.relist_construct (a := .sleep u) hu (by simp [Of])
    rw [← heads_orderedInsert] at hr
    have hr' : Relist (Heads s.sleep_list) (Heads (s.entry u).sleep_list) s.heap (s.entry u).heap L
        (Function.update L (.sleep u) []) id := by
      unfold State.entry
      rw [if_neg hu]
      exact hr
    obtain ⟨hplace, hremoved⟩ : (s.entry u).place = s.place ∧ (s.entry u).removed = s.removed := by
      unfold State.entry
      rw [if_neg hu]
      exact ⟨rfl, rfl⟩
    refine ⟨_, h.relist hr' hplace hremoved ?_, hr'.only⟩
    intro f o p _ _ hexpected
    exact hexpected.congr untouched_entry

/-- `Sleep` of the current fiber until a time to come, with the rest of its state given. -/
theorem Listed.fall_asleep (h : Listed s L) (hrun : s.control = .fiber f)
    (ho : Only (Heads s.sleep_list) L (.scheduler f) none)
    (hp : Only (Heads s.sleep_list) L (.waitQueue f) p) (hu : ¬ u ≤ s.time) {P : Place κ}
    (hexpected : ∀ t : State φ κ, t.place f = P → t.control = .loop → t.state f = .Suspended →
      t.removed f = s.removed f → Expected Node.wait t f (some (.sleep u)) p)
    (herased : ∀ k ns deadline, P = .timedWait k ns deadline → s.removed f = false) :
    ∃ t L', s.sleep f u P = some t ∧ Listed t L' ∧
      Carried (Heads s.sleep_list) (Heads t.sleep_list) L L' f ∧
      Only (Heads t.sleep_list) L' (.scheduler f) (some (.sleep u)) ∧
      (∀ g, g ≠ f → Untouched s t g) ∧ t.sleep_list = (s.entry u).sleep_list ∧
      t.time = s.time ∧ t.control = .loop ∧ t.place f = P ∧ t.removed f = s.removed f := by
  obtain ⟨L₁, h₁, honly⟩ := h.entry u
  have hentry : Heads (s.entry u).sleep_list (.sleep u : Node φ κ) := mem_entry.mpr (.inr rfl)
  obtain ⟨heap, L', hpush, hm⟩ := h₁.push_scheduler hentry (honly _ _ ho) (honly _ _ hp)
  obtain ⟨hplace₁, hremoved₁, hstate₁, hcontrol₁⟩ := untouched_entry (s := s) (u := u) (g := f)
  obtain ⟨t, ht⟩ : ∃ t : State φ κ, t = (State.suspend { s.entry u with heap := heap } f).goto f P :=
    ⟨_, rfl⟩
  have hplace : t.place f = P := by simp [ht, State.goto]
  have hcontrol : t.control = .loop := by rw [ht]; rfl
  have hstate : t.state f = .Suspended := by simp [ht, State.goto, State.suspend]
  have hremoved : t.removed f = s.removed f := by rw [ht]; exact hremoved₁
  have hkeys : t.sleep_list = (s.entry u).sleep_list := by rw [ht]; rfl
  have htime : t.time = s.time := by
    rw [ht]
    show (s.entry u).time = s.time
    unfold State.entry
    split <;> rfl
  have hothers₁ : ∀ g, g ≠ f → Untouched (s.entry u) t g := by
    intro g hgf
    rw [ht]
    refine ⟨Function.update_of_ne hgf _ _, rfl, Function.update_of_ne hgf _ _, ?_⟩
    rw [hcontrol₁.mpr hrun]
    simp [State.suspend, State.goto, Ne.symm hgf]
  refine ⟨t, L', ?_, ?_, ?_, ?_, ?_, hkeys, htime, hcontrol, hplace, hremoved⟩
  · rw [State.sleep, if_neg hu, ht]
    dsimp only
    rw [hpush]
    rfl
  · have hheap : heap = t.heap := by rw [ht]; rfl
    unfold Listed
    rw [hkeys]
    refine h₁.shift (hheap ▸ hm) hothers₁ (hexpected t hplace hcontrol hstate hremoved) ?_
    intro k ns deadline hP hr
    rw [hremoved, herased k ns deadline (hplace.symm.trans hP)] at hr
    cases hr
  · rw [hkeys]
    intro n hn r hr
    exact hm.others n hn r (honly n r hr)
  · rw [hkeys]
    exact hm.scheduler
  · intro g hgf
    exact untouched_entry.trans (hothers₁ g hgf)

/-- A fiber in an entry, for time. -/
theorem OnTime.fall_asleep (hon : OnTime s L) (h : Listed s L)
    (hc : Carried (Heads s.sleep_list) (Heads t.sleep_list) L L' f)
    (ho : Only (Heads s.sleep_list) L (.scheduler f) none)
    (hsched : Only (Heads t.sleep_list) L' (.scheduler f) (some (.sleep u)))
    (hothers : ∀ g, g ≠ f → Untouched s t g) (hkeys : t.sleep_list = (s.entry u).sleep_list)
    (htime : t.time = s.time) (hcontrol : t.control = .loop) (hplace : s.place f = .client)
    (hdelay : ∀ k ns v, t.place f = .timedWait k ns v → ns ≤ v) : OnTime t L' := by
  have hle : s.time ≤ t.time := htime ▸ UInt64.le_refl _
  constructor
  · refine hon.punctual.carry h.store hc hothers (hkeys ▸ sorted_entry hon.punctual.sorted) hle
      (by simp [hcontrol]) ?_ hdelay ?_
    · rintro v - (hrun | hqueue)
      · rw [hcontrol] at hrun
        cases hrun
      · cases hsched.eq hqueue
    · intro g k ns v hrun
      rw [hcontrol] at hrun
      cases hrun
  · refine hon.swept.carry h (by simp) hc hothers (fun v hv => hv) ?_ hle ?_
    · intro v hv hempty
      rw [hkeys] at hv
      rcases mem_entry.mp hv with hv | rfl
      · exact hv
      · have hmem := hsched.mem
        rw [hempty] at hmem
        cases hmem
    · rintro v - (hasleep | ⟨k, ns, htimed, -⟩) -
      · cases ho.eq hasleep
      · rw [hplace] at htimed
        cases htimed

/-- `Sleep` -/
theorem Listed.sleep (h : Listed s L) (hrun : s.control = .fiber f) (hplace : s.place f = .client)
    (u : UInt64) :
    ∃ t L', s.sleep f u (.sleep u) = some t ∧ t.time = s.time ∧ Listed t L' ∧
      (OnTime s L → OnTime t L') := by
  by_cases hu : u ≤ s.time
  · refine ⟨s, L, ?_, rfl, h, id⟩
    rw [State.sleep, if_pos hu]
  · obtain ⟨ho, hp⟩ := h.client hrun hplace
    obtain ⟨t, L', hsleep, ht, hc, hsched, hothers, hkeys, htime, hcontrol, hnew, -⟩ :=
      h.fall_asleep hrun ho hp hu (P := .sleep u)
        (fun t hnew hcontrol _ _ => .of_sleep hnew (.inr ⟨by simp [hcontrol], rfl⟩)) (by simp)
    refine ⟨t, L', hsleep, htime, ht, ?_⟩
    intro hon
    refine hon.fall_asleep h hc ho hsched hothers hkeys htime hcontrol hplace ?_
    simp [hnew]

/-- `Wait` with a time point -/
theorem Listed.timedWait (h : Listed s L) (hrun : s.control = .fiber f)
    (hplace : s.place f = .client) (k : κ) (ns rand : UInt64) :
    ∃ t L', s.timedWait f k ns rand = some t ∧ t.time = s.time ∧ Listed t L' ∧
      (OnTime s L → ns ≤ ns + rand → (ns + rand = s.time → s.time ∈ s.sleep_list) →
        OnTime t L') := by
  obtain ⟨ho, hp⟩ := h.client hrun hplace
  obtain ⟨hrunning, -⟩ := h.current hrun
  obtain ⟨heap, L₀, hpush, hm⟩ := h.push_waitQueue (a := .wait k) trivial ho hp
  obtain ⟨u, hu⟩ : ∃ u, u = ns + rand := ⟨_, rfl⟩
  obtain ⟨s₀, hs₀⟩ : ∃ s₀ : State φ κ, s₀ = State.goto { s with
    heap := heap, removed := Function.update s.removed f false } f (.timedWait k ns u) := ⟨_, rfl⟩
  have hplace₀ : s₀.place f = .timedWait k ns u := by simp [hs₀, State.goto]
  have hremoved₀ : s₀.removed f = false := by simp [hs₀, State.goto]
  have hrun₀ : s₀.control = .fiber f := by rw [hs₀]; exact hrun
  have hstate₀ : s₀.state f = .Running := by rw [hs₀]; exact hrunning
  have hothers₀ : ∀ g, g ≠ f → Untouched s s₀ g := by
    intro g hgf
    rw [hs₀]
    exact ⟨Function.update_of_ne hgf _ _, Function.update_of_ne hgf _ _, rfl, Iff.rfl⟩
  have hheap : heap = s₀.heap := by rw [hs₀]; rfl
  have hkeys₀ : s₀.sleep_list = s.sleep_list := by rw [hs₀]; rfl
  have htime₀ : s₀.time = s.time := by rw [hs₀]; rfl
  have h₀ : Listed s₀ L₀ := by
    unfold Listed
    rw [hkeys₀]
    refine h.shift (hheap ▸ hm) hothers₀
      (.of_timedWait hplace₀ hremoved₀ (by simp [hstate₀]) (.inl (.inl ⟨hrun₀, hstate₀, rfl⟩))) ?_
    intro _ _ _ _ hremoved
    rw [hremoved₀] at hremoved
    cases hremoved
  have hstep : s.timedWait f k ns rand = s₀.sleep f u (.timedWait k ns u) := by
    rw [State.timedWait, hpush, hs₀, hu]
    rfl
  rw [hstep, ← hu]
  by_cases hpast : u ≤ s.time
  · refine ⟨s₀, L₀, ?_, htime₀, h₀, ?_⟩
    · rw [State.sleep, if_pos (htime₀ ▸ hpast)]
    · intro hon hdelay hnow
      have hle : s.time ≤ s₀.time := htime₀ ▸ UInt64.le_refl _
      unfold OnTime
      rw [hkeys₀]
      constructor
      · refine hon.punctual.carry h.store hm.others hothers₀ (hkeys₀ ▸ hon.punctual.sorted) hle
          (by simp [hrun₀]) ?_ ?_ ?_
        · rintro v (hsleep | ⟨_, _, htimed, -⟩) -
          · rw [hplace₀] at hsleep
            cases hsleep
          · rw [hplace₀] at htimed
            injection htimed with _ _ huv
            rw [htime₀, ← huv]
            exact hpast
        · intro _ _ _ htimed
          rw [hplace₀] at htimed
          injection htimed with _ hns huv
          rw [← hns, ← huv]
          exact hdelay
        · intro g _ _ v hrun' htimed hlate
          rw [hrun₀] at hrun'
          obtain rfl : f = g := Control.fiber.inj hrun'
          rw [hplace₀] at htimed
          injection htimed with _ _ huv
          rw [← huv, htime₀] at hlate
          rw [← huv, hkeys₀]
          have heq : u = s.time := UInt64.le_antisymm hpast hlate
          rw [heq]
          exact hnow heq
      · refine hon.swept.carry h (by simp) hm.others hothers₀ (fun v hv => hv)
          (fun v hv _ => hkeys₀ ▸ hv) hle ?_
        rintro v - (hasleep | ⟨_, _, htimed, -⟩) -
        · cases ho.eq hasleep
        · rw [hplace] at htimed
          cases htimed
  · have ho₀ : Only (Heads s₀.sleep_list) L₀ (.scheduler f) none := hkeys₀ ▸ hm.scheduler
    have hp₀ : Only (Heads s₀.sleep_list) L₀ (.waitQueue f) (some (.wait k)) := hkeys₀ ▸ hm.waitQueue
    obtain ⟨t, L', hsleep, ht, hc, hsched, hothers, hkeys, htime, hcontrol, hnew, -⟩ :=
      h₀.fall_asleep hrun₀ ho₀ hp₀ (htime₀ ▸ hpast) (P := .timedWait k ns u)
        (fun t hnew hcontrol hstate hremoved => .of_timedWait hnew (hremoved.trans hremoved₀)
          (by simp [hstate]) (.inr ⟨by simp [hcontrol], rfl⟩)) (fun _ _ _ _ => hremoved₀)
    refine ⟨t, L', hsleep, htime.trans htime₀, ht, ?_⟩
    intro hon hdelay _
    refine hon.fall_asleep h ?_ ho hsched ?_ ?_ (htime.trans htime₀) hcontrol hplace ?_
    · intro n hn r hr
      apply hc n hn r
      rw [hkeys₀]
      exact hm.others n hn r hr
    · intro g hgf
      exact (hothers₀ g hgf).trans (hothers g hgf)
    · rw [hkeys]
      unfold State.entry
      rw [hkeys₀]
      split
      · exact hkeys₀
      · rfl
    · intro _ _ _ htimed
      rw [hnew] at htimed
      injection htimed with _ hns huv
      rw [← hns, ← huv]
      exact hdelay

end Yaclib.Fault.Fiber.Scheduler
