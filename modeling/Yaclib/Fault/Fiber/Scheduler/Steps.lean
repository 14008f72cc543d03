import Yaclib.Fault.Fiber.Scheduler.Timely

/-!
The steps of the fibers. Each is proved once for the lists and, if these are on time, for
time.
-/

namespace Yaclib.Fault.Fiber.Scheduler

open Concurrency Intrusive

variable {φ κ : Type}

/-- The lists of the scheduler between two calls. -/
abbrev Listed (s : State φ κ) (L : Node φ κ → List (Node φ κ)) : Prop :=
  Tracked Node.wait (Heads s.sleep_list) s L

abbrev OnTime (s : State φ κ) (L : Node φ κ → List (Node φ κ)) : Prop :=
  Timely (Heads s.sleep_list) s L

variable {s t : State φ κ} {L L' : Node φ κ → List (Node φ κ)} {f g : φ}
  {o p : Option (Node φ κ)} {n : Node φ κ}

/-- A step that moves the nodes of one fiber which does not sleep, before or after. -/
theorem Listed.quiet_step (h : Listed s L)
    (hm : Shift (Heads s.sleep_list) s.heap t.heap L L' f o p)
    (hothers : ∀ g, g ≠ f → Untouched s t g) (hexpected : Expected Node.wait t f o p)
    (hkeys : t.sleep_list = s.sleep_list) (htime : t.time = s.time) (hnext : t.control ≠ .next)
    (hsleep : ∀ u, t.place f ≠ .sleep u) (htimed : ∀ k ns u, t.place f ≠ .timedWait k ns u)
    (hold : ∀ k ns u, s.place f = .timedWait k ns u → s.removed f = false)
    (hawake : ∀ u, ¬ Only (Heads s.sleep_list) L (.scheduler f) (some (.sleep u))) :
    Listed t L' ∧ (OnTime s L → OnTime t L') := by
  unfold Listed OnTime
  rw [hkeys]
  refine ⟨h.shift hm hothers hexpected ?_, ?_⟩
  · intro k ns u hplace
    exact absurd hplace (htimed k ns u)
  · intro hon
    have hle : s.time ≤ t.time := htime ▸ UInt64.le_refl _
    constructor
    · refine hon.punctual.carry h.store hm.others hothers (hkeys ▸ hon.punctual.sorted) hle hnext
        ?_ ?_ ?_
      · rintro u (hplace | ⟨k, ns, hplace, -⟩)
        · exact absurd hplace (hsleep u)
        · exact absurd hplace (htimed k ns u)
      · intro k ns u hplace
        exact absurd hplace (htimed k ns u)
      · intro g k ns u hrun hplace hlate
        have hgf : g ≠ f := by
          rintro rfl
          exact htimed k ns u hplace
        have hg := hothers g hgf
        rw [htime] at hlate
        rw [hkeys]
        exact hon.punctual.found g k ns u (hg.control.mp hrun) (hg.place ▸ hplace) hlate
    · refine hon.swept.carry h (by simp) hm.others hothers (fun u hu => hu)
        (fun u hu _ => hkeys ▸ hu) hle ?_
      rintro u - (hsched | ⟨k, ns, hplace, hremoved⟩) -
      · exact absurd hsched (hawake u)
      · rw [hold k ns u hplace] at hremoved
        cases hremoved

/-- The nodes of a fiber that stay where they are. -/
theorem Tracked.shift_refl {q : κ → Node φ κ} {heads : Node φ κ → Prop} (h : Tracked q heads s L)
    (ho : Only heads L (.scheduler f) o) (hp : Only heads L (.waitQueue f) p) :
    Shift heads s.heap s.heap L L f o p :=
  ⟨h.store, ho, hp, fun n => h.loose n f, fun _ _ _ hr => hr, fun _ _ _ => ⟨rfl, rfl⟩⟩

/-- The scheduler node of the current fiber is in no list; nor is the wait node, but in a
timed wait that nobody has notified. -/
theorem Listed.current (h : Listed s L) (hrun : s.control = .fiber f) :
    s.state f = .Running ∧ Only (Heads s.sleep_list) L (.scheduler f) none ∧
      (Only (Heads s.sleep_list) L (.waitQueue f) none ∨ ∃ k ns u, s.place f = .timedWait k ns u ∧
        s.removed f = false ∧ Only (Heads s.sleep_list) L (.waitQueue f) (some (.wait k))) := by
  obtain ⟨o, p, ho, hp, hexpected⟩ := (h.fiber f).position
  have hturn : Turn s f o → s.state f = .Running ∧ o = none := by
    rintro (⟨-, hstate, rfl⟩ | ⟨hnot, -⟩)
    · exact ⟨hstate, rfl⟩
    · exact absurd hrun hnot
  unfold Expected at hexpected
  cases hplace : s.place f with
  | fresh | suspended | exited =>
    simp only [hplace] at hexpected
    exact absurd hrun hexpected.1
  | client =>
    simp only [hplace] at hexpected
    obtain ⟨rfl, hexpected⟩ := hexpected
    obtain ⟨hstate, rfl⟩ := hturn hexpected
    exact ⟨hstate, ho, .inl hp⟩
  | sleep u =>
    simp only [hplace] at hexpected
    obtain ⟨rfl, hexpected | ⟨hnot, -⟩⟩ := hexpected
    · obtain ⟨hstate, rfl⟩ := hturn hexpected
      exact ⟨hstate, ho, .inl hp⟩
    · exact absurd hrun hnot
  | wait k =>
    simp only [hplace] at hexpected
    split at hexpected
    · obtain ⟨rfl, hexpected⟩ := hexpected
      obtain ⟨hstate, rfl⟩ := hturn hexpected
      exact ⟨hstate, ho, .inl hp⟩
    · exact absurd hrun hexpected.2.2.1
  | timedWait k ns u =>
    simp only [hplace] at hexpected
    split at hexpected
    · obtain ⟨rfl, hexpected⟩ := hexpected
      obtain ⟨hstate, rfl⟩ := hturn hexpected
      exact ⟨hstate, ho, .inl hp⟩
    · rename_i hremoved
      obtain ⟨rfl, -, hexpected | ⟨hnot, -⟩⟩ := hexpected
      · obtain ⟨hstate, rfl⟩ := hturn hexpected
        exact ⟨hstate, ho, .inr ⟨k, ns, u, rfl, by simpa using hremoved, hp⟩⟩
      · exact absurd hrun hnot

/-- A fiber that is about to call is in no list. -/
theorem Listed.client (h : Listed s L) (hrun : s.control = .fiber f) (hplace : s.place f = .client) :
    Only (Heads s.sleep_list) L (.scheduler f) none ∧
      Only (Heads s.sleep_list) L (.waitQueue f) none := by
  obtain ⟨-, ho, hp | ⟨k, ns, u, htimed, -⟩⟩ := h.current hrun
  · exact ⟨ho, hp⟩
  · rw [hplace] at htimed
    cases htimed

theorem calls_client (hrun : s.control = .fiber f) (hplace : s.place f = .client) :
    ∀ g, s.control = .fiber g → s.place g = .client := by
  intro g hrun'
  rw [hrun] at hrun'
  obtain rfl : f = g := Control.fiber.inj hrun'
  exact hplace

/-- Nor is one that does not run and waits for nothing. -/
theorem Listed.idle (h : Listed s L) (hplace : s.place f = .fresh ∨ s.place f = .suspended) :
    s.control ≠ .fiber f ∧ Only (Heads s.sleep_list) L (.scheduler f) none ∧
      Only (Heads s.sleep_list) L (.waitQueue f) none := by
  obtain ⟨o, p, ho, hp, hexpected⟩ := (h.fiber f).position
  unfold Expected at hexpected
  rcases hplace with hplace | hplace
  · simp only [hplace] at hexpected
    obtain ⟨hcontrol, rfl, rfl⟩ := hexpected
    exact ⟨hcontrol, ho, hp⟩
  · simp only [hplace] at hexpected
    obtain ⟨hcontrol, rfl, rfl⟩ := hexpected
    exact ⟨hcontrol, ho, hp⟩

variable [DecidableEq φ]

theorem untouched_suspend (hrun : s.control = .fiber f) (hgf : g ≠ f) :
    Untouched s (s.suspend f) g := by
  refine ⟨rfl, rfl, Function.update_of_ne hgf _ _, ?_⟩
  rw [hrun]
  simp [State.suspend, Ne.symm hgf]

/-- `Suspend` -/
theorem Listed.suspend (h : Listed s L) (hrun : s.control = .fiber f)
    (hplace : s.place f = .client) :
    let t := (s.suspend f).goto f .suspended
    Listed t L ∧ (OnTime s L → OnTime t L) := by
  intro t
  obtain ⟨ho, hp⟩ := h.client hrun hplace
  have hnew : t.place f = .suspended := Function.update_self f _ _
  refine h.quiet_step (t := t) (h.shift_refl ho hp) ?_ (.of_off (.inl hnew) nofun) rfl rfl nofun
    ?_ ?_ ?_ ?_
  · intro g hgf
    obtain ⟨-, hremoved, hstate, hcontrol⟩ := untouched_suspend hrun hgf
    exact ⟨Function.update_of_ne hgf _ _, hremoved, hstate, hcontrol⟩
  · simp [hnew]
  · simp [hnew]
  · simp [hplace]
  · intro u hsleep
    cases ho.eq hsleep

/-- `Exit` -/
theorem Listed.exit (h : Listed s L) (hrun : s.control = .fiber f) (hplace : s.place f = .client) :
    Listed (s.exit f) L ∧ (OnTime s L → OnTime (s.exit f) L) := by
  obtain ⟨ho, hp⟩ := h.client hrun hplace
  have hnew : (s.exit f).place f = .exited := Function.update_self f _ _
  refine h.quiet_step (t := s.exit f) (h.shift_refl ho hp) ?_ (.of_off (.inr hnew) nofun) rfl rfl
    nofun ?_ ?_ ?_ ?_
  · intro g hgf
    refine ⟨Function.update_of_ne hgf _ _, rfl, Function.update_of_ne hgf _ _, ?_⟩
    rw [hrun]
    simp [State.exit, State.goto, Ne.symm hgf]
  · simp [hnew]
  · simp [hnew]
  · simp [hplace]
  · intro u hsleep
    cases ho.eq hsleep

variable [DecidableEq κ]

/-- Linking the scheduler node of a fiber. -/
theorem Tracked.push_scheduler {q : κ → Node φ κ} {heads : Node φ κ → Prop}
    (h : Tracked q heads s L) {a : Node φ κ} (ha : heads a)
    (ho : Only heads L (.scheduler f) none) (hp : Only heads L (.waitQueue f) p) :
    ∃ heap L', s.heap.pushBack a (.scheduler f) = some heap ∧
      Shift heads s.heap heap L L' f (some a) p := by
  obtain ⟨heap, L', hpush, hmove⟩ := h.store.move_pushBack ha ho (h.bare _ f (by exact rfl))
  exact ⟨heap, L', hpush, move_scheduler (h.bare · f) (h.loose · f) hp hmove (by simp)⟩

/-- Linking its wait node. -/
theorem Tracked.push_waitQueue {q : κ → Node φ κ} {heads : Node φ κ → Prop}
    (h : Tracked q heads s L) {a : Node φ κ} (ha : heads a)
    (ho : Only heads L (.scheduler f) o) (hp : Only heads L (.waitQueue f) none) :
    ∃ heap L', s.heap.pushBack a (.waitQueue f) = some heap ∧
      Shift heads s.heap heap L L' f o (some a) := by
  obtain ⟨heap, L', hpush, hmove⟩ := h.store.move_pushBack ha hp (h.bare _ f (by exact rfl))
  exact ⟨heap, L', hpush, move_waitQueue (h.bare · f) (h.loose · f) ho hmove (by simp)⟩

/-- `Schedule` of a fiber that is in no list, by the current fiber or from outside. -/
theorem Listed.schedule (h : Listed s L) (hplace : s.place g = .fresh ∨ s.place g = .suspended)
    {c : Control φ} (hc : ∀ f, c = .fiber f ↔ s.control = .fiber f) (hnext : c ≠ .next) :
    ∃ u L', s.schedule g = some u ∧ u.time = s.time ∧
      (let t := { u.goto g .client with control := c }
       Listed t L' ∧ (OnTime s L → OnTime t L')) := by
  obtain ⟨hcontrol, ho, hp⟩ := h.idle hplace
  obtain ⟨heap, L', hpush, hm⟩ := h.push_scheduler (a := .queue) trivial ho hp
  refine ⟨_, L', by rw [State.schedule, hpush, Option.map_some], by rfl, ?_⟩
  intro t
  have hclient : t.place g = .client := Function.update_self g _ _
  refine h.quiet_step hm ?_ (.of_client hclient ?_) rfl rfl hnext ?_ ?_ ?_ ?_
  · intro f hfg
    exact ⟨Function.update_of_ne hfg _ _, rfl, Function.update_of_ne hfg _ _, hc f⟩
  · exact .inr ⟨fun heq => hcontrol ((hc g).mp heq), rfl⟩
  · simp [hclient]
  · simp [hclient]
  · intro k ns u htimed
    rcases hplace with hplace | hplace <;> simp [hplace] at htimed
  · intro u hsleep
    cases ho.eq hsleep

/-- `RescheduleCurrent` -/
theorem Listed.rescheduleCurrent (h : Listed s L) (hrun : s.control = .fiber f)
    (hplace : s.place f = .client) :
    ∃ t L', s.rescheduleCurrent f = some t ∧ t.time = s.time ∧ Listed t L' ∧
      (OnTime s L → OnTime t L') := by
  obtain ⟨ho, hp⟩ := h.client hrun hplace
  obtain ⟨heap, L', hpush, hm⟩ := h.push_scheduler (a := .queue) trivial ho hp
  refine ⟨_, L', by rw [State.rescheduleCurrent, hpush, Option.map_some], by rfl, ?_⟩
  refine h.quiet_step (t := ({ s with heap := heap } : State φ κ).suspend f) hm ?_
    (.of_client hplace (.inr ⟨nofun, rfl⟩)) rfl rfl nofun ?_ ?_ ?_ ?_
  · intro g hgf
    obtain ⟨-, -, hstate, hcontrol⟩ := untouched_suspend hrun hgf
    exact ⟨rfl, rfl, hstate, hcontrol⟩
  · simp [State.suspend, hplace]
  · simp [State.suspend, hplace]
  · simp [hplace]
  · intro u hsleep
    cases ho.eq hsleep

/-- `Wait` without a time point -/
theorem Listed.wait (h : Listed s L) (hrun : s.control = .fiber f) (hplace : s.place f = .client)
    (k : κ) :
    ∃ t L', s.wait f k = some t ∧ t.time = s.time ∧ Listed t L' ∧
      (OnTime s L → OnTime t L') := by
  obtain ⟨ho, hp⟩ := h.client hrun hplace
  obtain ⟨heap, L', hpush, hm⟩ := h.push_waitQueue (a := .wait k) trivial ho hp
  refine ⟨_, L', by rw [State.wait, hpush, Option.map_some], by rfl, ?_⟩
  obtain ⟨t, ht⟩ : ∃ t : State φ κ, t = (State.suspend { s with
    heap := heap, removed := Function.update s.removed f false } f).goto f (.wait k) := ⟨_, rfl⟩
  rw [← ht]
  have hnew : t.place f = .wait k := by simp [ht, State.goto]
  have hremoved : t.removed f = false := by simp [ht, State.goto, State.suspend]
  have hstate : t.state f ≠ .Waiting := by simp [ht, State.goto, State.suspend]
  have hcontrol : t.control = .loop := by rw [ht]; rfl
  refine h.quiet_step (t := t) (by rw [ht]; exact hm) ?_
    (.of_wait hnew hremoved hstate (by simp [hcontrol])) (by rw [ht]; rfl) (by rw [ht]; rfl)
    (by simp [hcontrol]) ?_ ?_ ?_ ?_
  · intro g hgf
    obtain ⟨-, -, hstate, hcontrol⟩ := untouched_suspend hrun hgf
    rw [ht]
    exact ⟨Function.update_of_ne hgf _ _, Function.update_of_ne hgf _ _, hstate, hcontrol⟩
  · simp [hnew]
  · simp [hnew]
  · simp [hplace]
  · intro u hsleep
    cases ho.eq hsleep

end Yaclib.Fault.Fiber.Scheduler
