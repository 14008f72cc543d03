import Mathlib.Data.Fintype.Basic
import Yaclib.Fault.Fiber.Scheduler.Reachable

/-!
What time promises the fibers, in every run whose steps are all apt: `SleepPreemptive` finds the
entry it looks for, `GetNext` a fiber, and nobody is resumed early.
-/

namespace Yaclib.Fault.Fiber.Scheduler

open Concurrency Intrusive

variable {φ κ : Type} [DecidableEq φ] [DecidableEq κ] {s t : State φ κ}
  {L L' : Node φ κ → List (Node φ κ)} {tick : UInt64}

/-- The lookup of `SleepPreemptive` finds its entry, `GetNext` a fiber, and a fiber that was
not notified was resumed after the time it asked for. -/
structure Held (s : State φ κ) : Prop where
  found : ∀ f k ns u, s.control = .fiber f → s.place f = .timedWait k ns u → s.time ≤ u →
    u ∈ s.sleep_list
  nonempty : s.control = .next → s.heap.empty .queue = false
  slept : ∀ f u, s.control = .fiber f → s.place f = .sleep u → u ≤ s.time
  waited : ∀ f k ns u, s.control = .fiber f → s.place f = .timedWait k ns u →
    s.removed f = false → ns ≤ s.time

theorem OnTime.held (hon : OnTime s L) (h : Listed s L) : Held s := by
  refine ⟨hon.punctual.found, ?_, ?_, ?_⟩
  · intro hcontrol
    have hne := hon.punctual.next hcontrol
    rw [Bool.eq_false_iff]
    exact mt (h.store.list .queue trivial).empty_iff.mp hne
  · intro f u hrun hplace
    exact hon.punctual.due f u (.inl hplace) (.inl hrun)
  · intro f k ns u hrun hplace hremoved
    have hdue := hon.punctual.due f u (.inr ⟨k, ns, hplace, hremoved⟩) (.inl hrun)
    exact UInt64.le_trans (hon.punctual.delay f k ns u hplace) hdue

/-- As long as all steps are apt, the scheduler keeps its promises, and time does not go
backwards. -/
theorem deadlines (hs : (system tick).ReachableIf (fun s e _ => Apt tick s e) s) :
    Held s ∧ ∀ e t, step tick s e = some t → Apt tick s e → s.time ≤ t.time := by
  obtain ⟨L, h, hon⟩ := exists_onTime hs
  refine ⟨hon.held h, ?_⟩
  intro e t hstep hapt
  obtain ⟨L', -, htime⟩ := h.step hstep
  exact (htime hon hapt).2

instance (tick : UInt64) (s : State φ κ) (f : φ) : ∀ p, Decidable (ResumeApt tick s f p)
  | .timedWait _ _ u => inferInstanceAs (Decidable (if s.removed f = true then
      u < s.time + tick ∨ u ∈ s.sleep_list else tick ≠ 0 ∨ u < s.time))
  | .fresh | .client | .suspended | .sleep _ | .wait _ | .exited => isTrue trivial

instance [Fintype φ] (tick : UInt64) (s : State φ κ) : ∀ e, Decidable (Apt tick s e)
  | .iterate => inferInstanceAs (Decidable (s.heap.empty .queue = true →
      (∃ u ∈ s.sleep_list, u < s.time) →
        ∃ u ∈ s.sleep_list, u ≤ s.time ∧ s.heap.empty (.sleep u) = false))
  | .next ind reversed => inferInstanceAs (Decidable (s.time ≤ s.time + tick ∧
      ∀ f, s.heap.getElement .queue ind reversed = some (.scheduler f) →
        ResumeApt tick s f (s.place f)))
  | .run (.timedWait _ ns rand) => inferInstanceAs (Decidable (ns ≤ ns + rand ∧
      (ns + rand = s.time → s.time ∈ s.sleep_list)))
  | .start _ | .run (.schedule _) | .run .suspend | .run .rescheduleCurrent | .run (.sleep _) |
    .run (.wait _) | .run .finish | .run (.notifyOne ..) | .run (.notifyAll ..) | .run .exit =>
    isTrue trivial

/-- A timed wait of a fiber that is resumed when it is over. -/
theorem deadlines_over :
    let s := ((system 10).runIf (fun s e _ => Apt 10 s e) ({} : State (Fin 1) (Fin 1))
      [.start 0, .iterate, .next 0 false, .run (.timedWait 0 100 0), .iterate,
        .next 0 false]).get (by decide)
    s.control = .fiber 0 ∧ s.place 0 = .timedWait 0 100 100 ∧ s.time = 110 ∧ Held s := by
  refine ⟨by decide, by decide, by decide, ?_⟩
  exact (deadlines (System.ReachableIf.runIf (.init rfl) (Option.some_get _).symm)).1

/-- A timed wait until the present does not suspend, and there is no entry for it. -/
theorem not_deadlines :
    ∃ s : State (Fin 1) (Fin 1), (system 10).Reachable s ∧ s.control = .fiber 0 ∧
      s.place 0 = .timedWait 0 10 10 ∧ s.time = 10 ∧ s.sleep_list = [] ∧ ¬ Held s := by
  have hs : (system 10).Reachable (((system 10).run ({} : State (Fin 1) (Fin 1))
      [.start 0, .iterate, .next 0 false, .run (.timedWait 0 10 0)]).get (by decide)) :=
    System.ReachableIf.run (fun _ _ _ _ => trivial) (.init rfl) (Option.some_get _).symm
  refine ⟨_, hs, by decide, by decide, by decide, by decide, ?_⟩
  intro hheld
  have hfound := hheld.found 0 0 10 10 (by decide) (by decide) (by decide)
  exact absurd hfound (by decide)

end Yaclib.Fault.Fiber.Scheduler
