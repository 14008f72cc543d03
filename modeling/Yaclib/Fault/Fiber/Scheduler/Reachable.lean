import Yaclib.Fault.Fiber.Scheduler.Finish
import Yaclib.Fault.Fiber.Scheduler.Loop
import Yaclib.Fault.Fiber.Scheduler.NotifyAll

/-!
Every step of the scheduler keeps its lists, and time if the step is apt.
-/

namespace Yaclib.Fault.Fiber.Scheduler

open Concurrency Intrusive

variable {φ κ : Type} {s t : State φ κ} {L L' : Node φ κ → List (Node φ κ)} {f g : φ}
  {tick : UInt64} {e : Event φ κ}

/-- `Listed` for some lists after a step, and `OnTime` if the step was apt. -/
def Kept (s : State φ κ) (L : Node φ κ → List (Node φ κ)) (apt : Prop) (t : State φ κ) : Prop :=
  ∃ L', Listed t L' ∧ (OnTime s L → apt → OnTime t L' ∧ s.time ≤ t.time)

theorem Kept.of_quiet {apt : Prop} (htime : t.time = s.time) (ht : Listed t L')
    (hon : OnTime s L → OnTime t L') : Kept s L apt t :=
  ⟨L', ht, fun hs _ => ⟨hon hs, htime ▸ UInt64.le_refl _⟩⟩

/-- All lists are empty at the start. -/
theorem Listed.init : Listed ({} : State φ κ) fun _ => [] := by
  have hout : ∀ n : Node φ κ, Only (Heads []) (fun _ => []) n none := by
    intro n
    exact ⟨by simp, by simp⟩
  refine ⟨⟨?_, ?_⟩, ?_, ?_, fun _ _ _ _ => .inr ⟨rfl, rfl⟩, ?_⟩
  · intro a _
    exact ⟨⟨rfl, rfl⟩, List.nodup_singleton a⟩
  · intro a b _ _ hab n hn
    rw [List.mem_singleton] at hn
    rw [List.mem_singleton, hn]
    exact hab
  · intro n f hn hhead
    cases n with
    | scheduler _ | waitQueue _ => cases hhead
    | queue | sleep _ | wait _ | all => cases hn
  · intro a _ n hn
    cases hn
  · intro f
    refine ⟨⟨none, none, hout _, hout _, ?_⟩, nofun⟩
    exact ⟨nofun, rfl, rfl⟩

theorem OnTime.init : OnTime ({} : State φ κ) fun _ => [] := by
  refine ⟨⟨List.Pairwise.nil, ?_, nofun, nofun, nofun⟩, ?_⟩
  · rintro f u (hsleep | ⟨_, _, hwait, -⟩) -
    · cases hsleep
    · cases hwait
  · intro u hu
    cases hu

variable [DecidableEq φ] [DecidableEq κ]

/-- The steps that time allows for: a timed wait is not until the present, unless there is an
entry for it. -/
def Apt (tick : UInt64) (s : State φ κ) : Event φ κ → Prop
  | .iterate => IterateApt s
  | .next ind reversed => NextApt tick s ind reversed
  | .run (.timedWait _ ns rand) => ns ≤ ns + rand ∧ (ns + rand = s.time → s.time ∈ s.sleep_list)
  | .run _ | .start _ => True

/-- `Schedule`, with what runs afterwards. -/
theorem Listed.start {apt : Prop} (h : Listed s L)
    (hplace : s.place g = .fresh ∨ s.place g = .suspended) {c : Control φ}
    (hc : ∀ f, c = .fiber f ↔ s.control = .fiber f) (hnext : c ≠ .next)
    (ht : (s.schedule g).map (fun s => { s.goto g .client with control := c }) = some t) :
    Kept s L apt t := by
  obtain ⟨u, L', hschedule, htime, hu, hon⟩ := h.schedule hplace hc hnext
  rw [hschedule, Option.map_some] at ht
  obtain rfl := Option.some.inj ht
  exact .of_quiet htime hu hon

/-- A fiber that starts another one goes on. -/
theorem map_schedule_control (s : State φ κ) (g : φ) :
    (s.schedule g).map (fun s => s.goto g .client) =
      (s.schedule g).map fun t => { t.goto g .client with control := s.control } := by
  unfold State.schedule
  cases s.heap.pushBack .queue (.scheduler g) with
  | none => rfl
  | some heap => rfl

/-- A call of the current fiber. -/
theorem Listed.exec {op : Op φ κ} (h : Listed s L) (hrun : s.control = .fiber f)
    (ht : exec s f op = some t) : Kept s L (Apt tick s (.run op)) t := by
  have hnext : s.control ≠ .next := by simp [hrun]
  unfold Scheduler.exec at ht
  split at ht
  · rename_i g hplace
    rw [map_schedule_control] at ht
    split at ht
    · rename_i hg
      exact h.start (.inl hg) (c := s.control) (fun f => Iff.rfl) hnext ht
    · rename_i hg
      exact h.start (.inr hg) (c := s.control) (fun f => Iff.rfl) hnext ht
    · cases ht
  · rename_i hplace
    obtain rfl := Option.some.inj ht
    obtain ⟨ht, hon⟩ := h.suspend hrun hplace
    exact .of_quiet rfl ht hon
  · rename_i hplace
    obtain ⟨t', L', heq, htime, ht', hon⟩ := h.rescheduleCurrent hrun hplace
    obtain rfl := Option.some.inj (heq.symm.trans ht)
    exact .of_quiet htime ht' hon
  · rename_i ns hplace
    obtain ⟨t', L', heq, htime, ht', hon⟩ := h.sleep hrun hplace ns
    obtain rfl := Option.some.inj (heq.symm.trans ht)
    exact .of_quiet htime ht' hon
  · rename_i k hplace
    obtain ⟨t', L', heq, htime, ht', hon⟩ := h.wait hrun hplace k
    obtain rfl := Option.some.inj (heq.symm.trans ht)
    exact .of_quiet htime ht' hon
  · rename_i k ns rand hplace
    obtain ⟨t', L', heq, htime, ht', hon⟩ := h.timedWait hrun hplace k ns rand
    obtain rfl := Option.some.inj (heq.symm.trans ht)
    exact ⟨L', ht', fun hs hapt => ⟨hon hs hapt.1 hapt.2, htime ▸ UInt64.le_refl _⟩⟩
  · obtain ⟨htime, L', ht', hon⟩ := h.finish hrun ht
    exact .of_quiet htime ht' hon
  · rename_i k ind reversed hplace
    obtain ⟨t', L', heq, htime, ht', hon, -⟩ :=
      h.notifyOne (calls_client hrun hplace) hnext k ind reversed
    obtain rfl := Option.some.inj (heq.symm.trans ht)
    exact .of_quiet htime ht' hon
  · rename_i k fuel hplace
    obtain ⟨henough, hnone⟩ := h.notifyAll (calls_client hrun hplace) hnext k fuel
    rcases Nat.lt_or_ge fuel (L (.wait k)).length with hless | hge
    · rw [hnone hless] at ht
      cases ht
    · obtain ⟨t', L', heq, htime, ht', hon, -⟩ := henough hge
      obtain rfl := Option.some.inj (heq.symm.trans ht)
      exact .of_quiet htime ht' hon
  · rename_i hplace
    obtain rfl := Option.some.inj ht
    obtain ⟨ht, hon⟩ := h.exit hrun hplace
    exact .of_quiet rfl ht hon
  · cases ht

/-- A step. -/
theorem Listed.step (h : Listed s L) (ht : step tick s e = some t) :
    Kept s L (Apt tick s e) t := by
  unfold Scheduler.step at ht
  split at ht
  · rename_i g hcontrol
    split at ht
    · rename_i hplace
      exact h.start (.inl hplace) (c := .loop) (by simp [hcontrol]) nofun ht
    · cases ht
  · rename_i hcontrol
    obtain ⟨t', L', hiterate, hle, ht', hon⟩ := h.iterate hcontrol
    obtain rfl := Option.some.inj (hiterate.symm.trans ht)
    exact ⟨L', ht', fun hs hapt => ⟨hon hs hapt, hle⟩⟩
  · rename_i ind reversed hcontrol
    obtain ⟨htime, L', ht', hon⟩ := h.next hcontrol ht
    exact ⟨L', ht', fun hs hapt => ⟨hon hs hapt, htime ▸ hapt.1⟩⟩
  · rename_i op f hcontrol
    exact h.exec hcontrol ht
  · cases ht

/-- In every reachable state the nodes of every fiber are where its place says. -/
theorem exists_listed (hs : (system tick).Reachable s) : ∃ L, Listed s L := by
  refine System.Inductive.reachable (P := fun s => ∃ L, Listed s L) ⟨?_, ?_⟩ hs
  · rintro s rfl
    exact ⟨_, Listed.init⟩
  · rintro s e t ⟨L, h⟩ hstep -
    obtain ⟨L', ht, -⟩ := h.step hstep
    exact ⟨L', ht⟩

/-- And time is kept if all steps were apt. -/
theorem exists_onTime (hs : (system tick).ReachableIf (fun s e _ => Apt tick s e) s) :
    ∃ L, Listed s L ∧ OnTime s L := by
  refine System.Inductive.reachable (P := fun s => ∃ L, Listed s L ∧ OnTime s L) ⟨?_, ?_⟩ hs
  · rintro s rfl
    exact ⟨_, Listed.init, OnTime.init⟩
  · rintro s e t ⟨L, h, hon⟩ hstep hapt
    obtain ⟨L', ht, htime⟩ := h.step hstep
    exact ⟨L', ht, (htime hon hapt).1⟩

end Yaclib.Fault.Fiber.Scheduler
