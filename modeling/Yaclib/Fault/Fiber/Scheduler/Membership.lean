import Yaclib.Fault.Fiber.Scheduler.Reachable

/-!
Where a fiber is. It runs, it is in the run queue, or it is parked, and the two nodes of it are
in at most one wait queue and one entry of `_sleep_list`; notifications move exactly the fibers
they should.
-/

namespace Yaclib.Fault.Fiber.Scheduler

open Concurrency Intrusive

variable {φ κ : Type}

/-- Started and not ended. -/
def Live (s : State φ κ) (f : φ) : Prop :=
  s.place f ≠ .fresh ∧ s.place f ≠ .exited

/-- Suspended, in an entry of `_sleep_list`, or in a `Wait` without a time point. -/
def Parked (s : State φ κ) (L : Node φ κ → List (Node φ κ)) (f : φ) : Prop :=
  s.place f = .suspended ∨ (∃ u ∈ s.sleep_list, .scheduler f ∈ L (.sleep u)) ∨
    ∃ k, s.place f = .wait k ∧ .waitQueue f ∈ L (.wait k)

/-- The lists the pointers represent, and where the fibers are in them. -/
structure Membership [DecidableEq φ] [DecidableEq κ] (s : State φ κ)
    (L : Node φ κ → List (Node φ κ)) : Prop where
  store : Store s.heap (Heads s.sleep_list) L
  running : ∀ f, s.control = .fiber f → s.state f = .Running ∧ .scheduler f ∉ L .queue ∧
    ¬ Parked s L f
  off : ∀ f, Live s f → s.control ≠ .fiber f →
    (L .queue).count (.scheduler f) = 1 ∧ ¬ Parked s L f ∨ .scheduler f ∉ L .queue ∧ Parked s L f
  wait : ∀ f k, .waitQueue f ∈ L (.wait k) → (L (.wait k)).count (.waitQueue f) = 1 ∧
    ∀ k', .waitQueue f ∈ L (.wait k') → k' = k
  sleep : ∀ f, ∀ u ∈ s.sleep_list, .scheduler f ∈ L (.sleep u) →
    (L (.sleep u)).count (.scheduler f) = 1 ∧ .scheduler f ∉ L .queue ∧
    ∀ v ∈ s.sleep_list, .scheduler f ∈ L (.sleep v) → v = u

variable {s t : State φ κ} {L L' : Node φ κ → List (Node φ κ)} {f g : φ}
  {o p : Option (Node φ κ)}

/-- A parked fiber is neither running nor in the run queue, and a live one that is neither is
parked. -/
theorem Listed.turn_or_parked (h : Listed s L) (hlive : Live s f) :
    ∃ o, Only (Heads s.sleep_list) L (.scheduler f) o ∧
      (Turn s f o ∧ ¬ Parked s L f ∨ s.control ≠ .fiber f ∧ o ≠ some .queue ∧ Parked s L f) := by
  obtain ⟨o, p, ho, hp, hexpected⟩ := (h.fiber f).position
  refine ⟨o, ho, ?_⟩
  have hup : Turn s f o → s.place f ≠ .suspended →
      (∀ k, s.place f = .wait k → p = none) → ¬ Parked s L f := by
    rintro hturn hplace hwait (hsuspended | ⟨u, hu, hin⟩ | ⟨k, hk, hin⟩)
    · exact hplace hsuspended
    · obtain rfl : o = some (.sleep u) := (ho.2 (.sleep u) hu).mp hin
      rcases hturn with ⟨-, -, heq⟩ | ⟨-, heq⟩
      · cases heq
      · cases heq
    · have hnone := (hp.2 (.wait k) trivial).mp hin
      rw [hwait k hk] at hnone
      cases hnone
  have hdown : ∀ u, Asleep s f u o → s.control ≠ .fiber f ∧ o ≠ some .queue ∧ Parked s L f := by
    rintro u ⟨hcontrol, rfl⟩
    exact ⟨hcontrol, by simp, .inr (.inl ⟨u, ho.1 _ rfl, ho.mem⟩)⟩
  unfold Expected at hexpected
  cases hplace : s.place f with
  | fresh => exact absurd hplace hlive.1
  | exited => exact absurd hplace hlive.2
  | suspended =>
    simp only [hplace] at hexpected
    obtain ⟨hcontrol, rfl, -⟩ := hexpected
    exact .inr ⟨hcontrol, by simp, .inl hplace⟩
  | client =>
    simp only [hplace] at hexpected
    exact .inl ⟨hexpected.2, hup hexpected.2 (by simp [hplace]) (by simp [hplace])⟩
  | sleep u =>
    simp only [hplace] at hexpected
    rcases hexpected.2 with hturn | hasleep
    · exact .inl ⟨hturn, hup hturn (by simp [hplace]) (by simp [hplace])⟩
    · exact .inr (hdown u hasleep)
  | wait k =>
    simp only [hplace] at hexpected
    split at hexpected
    · exact .inl ⟨hexpected.2, hup hexpected.2 (by simp [hplace]) fun _ _ => hexpected.1⟩
    · obtain ⟨rfl, -, hcontrol, rfl⟩ := hexpected
      exact .inr ⟨hcontrol, by simp, .inr (.inr ⟨k, hplace, hp.mem⟩)⟩
  | timedWait k ns u =>
    simp only [hplace] at hexpected
    split at hexpected
    · exact .inl ⟨hexpected.2, hup hexpected.2 (by simp [hplace]) (by simp [hplace])⟩
    · rcases hexpected.2.2 with hturn | hasleep
      · exact .inl ⟨hturn, hup hturn (by simp [hplace]) (by simp [hplace])⟩
      · exact .inr (hdown u hasleep)

/-- Only live fibers run. -/
theorem Listed.live (h : Listed s L) (hrun : s.control = .fiber f) : Live s f := by
  obtain ⟨o, p, -, -, hexpected⟩ := (h.fiber f).position
  unfold Expected at hexpected
  constructor
  · intro hplace
    simp only [hplace] at hexpected
    exact hexpected.1 hrun
  · intro hplace
    simp only [hplace] at hexpected
    exact hexpected.1 hrun

variable [DecidableEq φ] [DecidableEq κ]

theorem Listed.count_eq_one (h : Listed s L) {a n : Node φ κ} (ha : Heads s.sleep_list a)
    (hn : n ∈ L a) : (L a).count n = 1 :=
  List.count_eq_one_of_mem (h.store.list a ha).nodup hn

theorem Listed.lists (h : Listed s L) : Membership s L := by
  refine ⟨h.store, ?_, ?_, ?_, ?_⟩
  · intro f hrun
    obtain ⟨hstate, ho, -⟩ := h.current hrun
    refine ⟨hstate, ?_, ?_⟩
    · intro hin
      cases (ho.2 .queue trivial).mp hin
    · obtain ⟨o, -, ⟨-, hnot⟩ | ⟨hnot, -⟩⟩ := h.turn_or_parked (h.live hrun)
      · exact hnot
      · exact absurd hrun hnot
  · intro f hlive hoff
    obtain ⟨o, ho, ⟨hturn, hnot⟩ | ⟨-, hqueue, hparked⟩⟩ := h.turn_or_parked hlive
    · left
      rcases hturn with ⟨hrun, -⟩ | ⟨-, rfl⟩
      · exact absurd hrun hoff
      · exact ⟨h.count_eq_one trivial ho.mem, hnot⟩
    · right
      refine ⟨?_, hparked⟩
      intro hin
      exact hqueue ((ho.2 .queue trivial).mp hin)
  · intro f k hin
    refine ⟨h.count_eq_one (a := .wait k) trivial hin, ?_⟩
    intro k' hin'
    have heq := h.store.same_list (a := .wait k') (b := .wait k) (by exact trivial) (by exact trivial)
      hin' hin
    injection heq
  · intro f u hu hin
    refine ⟨h.count_eq_one (a := .sleep u) hu hin, ?_, ?_⟩
    · intro hqueue
      cases h.store.same_list (a := .sleep u) (b := .queue) (by exact hu) (by exact trivial) hin hqueue
    · intro v hv hin'
      have heq := h.store.same_list (a := .sleep v) (b := .sleep u) (by exact hv) (by exact hu) hin' hin
      injection heq

/-- The fibers `W` of the wait queue `k` were notified: they are in the run queue, and the
waiting fibers of other queues stay there. -/
structure Notifies (s t : State φ κ) (L L' : Node φ κ → List (Node φ κ)) (k : κ)
    (W : φ → Prop) : Prop where
  scheduled : ∀ g, W g → .waitQueue g ∈ L (.wait k) ∧ (L' .queue).count (.scheduler g) = 1 ∧
    t.removed g = true
  kept : ∀ g, ¬ W g → t.removed g = s.removed g
  others : ∀ k', k' ≠ k → (L (.wait k')).Perm (L' (.wait k'))

theorem Wakes.notifies {W : φ → Prop} {k : κ} (hs : Listed s L) (ht : Listed t L')
    (hw : Wakes (Heads s.sleep_list) s t L L' W) (hW : ∀ g, W g → .waitQueue g ∈ L (.wait k)) :
    Notifies s t L L' k W := by
  refine ⟨?_, fun g hg => (hw.others g hg).1.removed, ?_⟩
  · intro g hg
    obtain ⟨hsched, -, hremoved⟩ := hw.woken g hg
    exact ⟨hW g hg, ht.count_eq_one trivial hsched.mem, hremoved⟩
  · intro k' hk
    have hhead : Heads s.sleep_list (.wait k' : Node φ κ) := trivial
    have hhead' : Heads t.sleep_list (.wait k' : Node φ κ) := trivial
    rw [List.perm_ext_iff_of_nodup (hs.store.list _ hhead).nodup (ht.store.list _ hhead').nodup]
    intro n
    constructor
    · intro hn
      obtain ⟨g, _, rfl, -, hin, -⟩ := hs.waiter hhead trivial hn
      have hg : ¬ W g := by
        intro hg
        have heq := hs.store.same_list (by exact trivial) hhead (hW g hg) hn
        injection heq with heq
        exact hk heq.symm
      exact ((hw.others g hg).2 _ (by exact rfl) _ hin).mem
    · intro hn
      obtain ⟨g, _, rfl, -, hin, -⟩ := ht.waiter hhead' trivial hn
      rw [hw.sleep_list] at hin
      by_cases hg : W g
      · cases (hw.woken g hg).2.1.eq hin
      · obtain ⟨r, hr⟩ := hs.store.exists_only (.waitQueue g)
        have heq := ((hw.others g hg).2 _ (by exact rfl) r hr).eq hin
        exact (heq ▸ hr).mem

/-- What a call of `NotifyOne` does to the lists. -/
theorem Listed.notifyOne_notifies (h : Listed s L) (hrun : s.control = .fiber f)
    (hplace : s.place f = .client) (k : κ) (ind : Nat) (reversed : Bool) :
    ∃ t L', s.notifyOne k ind reversed = some t ∧ Membership t L' ∧
      (L (.wait k) = [] ∧ t = s ∧ L' = L ∨
        ∃ g, (L (.wait k)).Perm (.waitQueue g :: L' (.wait k)) ∧ Notifies s t L L' k (· = g)) := by
  obtain ⟨t, L', hnotify, -, ht, -, heffect⟩ :=
    h.notifyOne (calls_client hrun hplace) (by simp [hrun]) k ind reversed
  refine ⟨t, L', hnotify, ht.lists, heffect.imp_right ?_⟩
  rintro ⟨g, hperm, hw⟩
  refine ⟨g, hperm, hw.notifies h ht ?_⟩
  rintro _ rfl
  exact hperm.mem_iff.mpr List.mem_cons_self

/-- What a call of `NotifyAll` does to the lists. -/
theorem Listed.notifyAll_notifies (h : Listed s L) (hrun : s.control = .fiber f)
    (hplace : s.place f = .client) (k : κ) {fuel : Nat} (hfuel : (L (.wait k)).length ≤ fuel) :
    ∃ t L', s.notifyAll k fuel = some t ∧ Membership t L' ∧ L' (.wait k) = [] ∧
      Notifies s t L L' k fun g => .waitQueue g ∈ L (.wait k) := by
  obtain ⟨t, L', hnotify, -, ht, -, hempty, hw⟩ :=
    (h.notifyAll (calls_client hrun hplace) (by simp [hrun]) k fuel).1 hfuel
  exact ⟨t, L', hnotify, ht.lists, hempty, hw.notifies h ht fun _ => id⟩

/-- The end of a timed wait: `Ready` if a notifier took the fiber from the wait queue, and
`Timeout` if it was still there. -/
theorem Listed.finish_status (h : Listed s L) (hrun : s.control = .fiber f) {k : κ}
    {ns u : UInt64} (hplace : s.place f = .timedWait k ns u) (ht : s.finish f = some t) :
    s.removed f = true ∧ .waitQueue f ∉ L (.wait k) ∧ t.status f = some .Ready ∨
      s.removed f = false ∧ .waitQueue f ∈ L (.wait k) ∧ t.status f = some .Timeout := by
  obtain ⟨hstatus, -⟩ := h.finish_timedWait hrun hplace ht
  obtain ⟨o, p, -, hp, hexpected⟩ := (h.fiber f).position
  unfold Expected at hexpected
  simp only [hplace] at hexpected
  cases hremoved : s.removed f with
  | true =>
    rw [hremoved] at hstatus hexpected
    obtain ⟨rfl, -⟩ := hexpected
    refine .inl ⟨rfl, ?_, hstatus⟩
    intro hin
    cases (hp.2 (.wait k) trivial).mp hin
  | false =>
    rw [hremoved] at hstatus hexpected
    obtain ⟨rfl, -⟩ := hexpected
    exact .inr ⟨rfl, hp.mem, hstatus⟩

/-! ### Every run -/

/-- In every reachable state every live fiber is exactly one of running, in the run queue once,
and parked, in at most one wait queue and at most one entry of `_sleep_list`, and not in an entry
and the run queue at once. A timed wait ends with `Ready` exactly if a notifier took the fiber
from the wait queue. `NotifyOne` takes exactly one fiber from a wait queue that is not empty,
`NotifyAll` all of them, and they are in the run queue once afterwards. -/
theorem membership {tick : UInt64} (hs : (system tick).Reachable s) :
    ∃ L, Membership s L ∧ ∀ f, s.control = .fiber f →
      (∀ k ns u t, s.place f = .timedWait k ns u → step tick s (.run .finish) = some t →
        s.removed f = true ∧ .waitQueue f ∉ L (.wait k) ∧ t.status f = some .Ready ∨
        s.removed f = false ∧ .waitQueue f ∈ L (.wait k) ∧ t.status f = some .Timeout) ∧
      (∀ k ind reversed, s.place f = .client →
        ∃ t L', step tick s (.run (.notifyOne k ind reversed)) = some t ∧ Membership t L' ∧
          (L (.wait k) = [] ∧ t = s ∧ L' = L ∨ ∃ g,
            (L (.wait k)).Perm (.waitQueue g :: L' (.wait k)) ∧ Notifies s t L L' k (· = g))) ∧
      ∀ k fuel, s.place f = .client → (L (.wait k)).length ≤ fuel →
        ∃ t L', step tick s (.run (.notifyAll k fuel)) = some t ∧ Membership t L' ∧
          L' (.wait k) = [] ∧ Notifies s t L L' k fun g => .waitQueue g ∈ L (.wait k) := by
  obtain ⟨L, h⟩ := exists_listed hs
  refine ⟨L, h.lists, ?_⟩
  intro f hrun
  refine ⟨?_, ?_, ?_⟩
  · intro k ns u t hplace ht
    simp only [step, hrun, exec] at ht
    exact h.finish_status hrun hplace ht
  · intro k ind reversed hplace
    simp only [step, hrun, exec, hplace]
    exact h.notifyOne_notifies hrun hplace k ind reversed
  · intro k fuel hplace hfuel
    simp only [step, hrun, exec, hplace]
    exact h.notifyAll_notifies hrun hplace k hfuel

/-- Fiber 0 waits with a time point, and fiber 1 runs. -/
def waiting : List (Event (Fin 2) (Fin 1)) :=
  [.start 0, .iterate, .next 0 false, .run (.schedule 1), .run (.timedWait 0 100 0), .iterate,
    .next 0 false]

/-- Fiber 1 can notify fiber 0. -/
theorem membership_waiting :
    let s := ((system 10).run {} waiting).get (by decide)
    s.control = .fiber 1 ∧ s.heap.empty (.wait 0) = false ∧ ∃ L, Membership s L ∧
      ∃ t L', step 10 s (.run (.notifyOne 0 0 false)) = some t ∧ Membership t L' := by
  intro s
  have hs : (system 10).Reachable s :=
    System.ReachableIf.run (fun _ _ _ _ => trivial) (.init rfl) (Option.some_get _).symm
  have hrun : s.control = .fiber 1 := by decide
  have hplace : s.place 1 = .client := by decide
  refine ⟨hrun, by decide, ?_⟩
  obtain ⟨L, hmembership, hcalls⟩ := membership hs
  obtain ⟨-, hnotify, -⟩ := hcalls 1 hrun
  obtain ⟨t, L', hstep, ht, -⟩ := hnotify 0 0 false hplace
  exact ⟨L, hmembership, t, L', hstep, ht⟩

end Yaclib.Fault.Fiber.Scheduler
