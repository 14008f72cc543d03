import Yaclib.Fault.Fiber.Scheduler.Lists
import Yaclib.Fault.Fiber.Scheduler.Steps

/-!
`NotifyOne` and `NotifyAll`. A notified fiber leaves its wait queue and, if it is there, its
entry of `_sleep_list`, and is in the run queue afterwards.
-/

namespace Yaclib.Fault.Fiber.Scheduler

open Concurrency Intrusive

variable {φ κ : Type} {q : κ → Node φ κ} {heads : Node φ κ → Prop} {s t : State φ κ}
  {L L' : Node φ κ → List (Node φ κ)} {f g : φ} {a n : Node φ κ} {o p : Option (Node φ κ)}

/-- A wait queue, or the local list of `NotifyAll`. -/
def WaitHead : Node φ κ → Prop
  | .wait _ | .all => True
  | .queue | .sleep _ | .scheduler _ | .waitQueue _ => False

structure Waits (s : State φ κ) (g : φ) (k : κ) : Prop where
  place : s.place g = .wait k ∨ ∃ ns u, s.place g = .timedWait k ns u
  removed : s.removed g = false
  state : s.state g ≠ .Waiting

/-- Who is in a list of waiting fibers is the wait node of one. -/
theorem Tracked.waiter (h : Tracked q heads s L) (ha : heads a) (hwait : WaitHead a)
    (hn : n ∈ L a) :
    ∃ g k, n = .waitQueue g ∧ a = q k ∧ Only heads L (.waitQueue g) (some a) ∧ Waits s g k := by
  obtain ⟨g, hof⟩ := h.nodes a ha n hn
  obtain ⟨o, p, ho, hp, hexpected⟩ := (h.fiber g).position
  have hturn : ∀ u, Turn s g (some a) ∨ Asleep s g u (some a) → False := by
    rintro u ((⟨-, -, hnone⟩ | ⟨-, hqueue⟩) | ⟨-, hsleep⟩)
    · cases hnone
    · obtain rfl := Option.some.inj hqueue
      exact hwait
    · obtain rfl := Option.some.inj hsleep
      exact hwait
  cases n with
  | scheduler x =>
    obtain rfl : x = g := hof
    exfalso
    obtain rfl := (ho.2 a ha).mp hn
    unfold Expected at hexpected
    cases hplace : s.place x with
    | fresh | suspended | exited =>
      simp only [hplace] at hexpected
      cases hexpected.2.1
    | client =>
      simp only [hplace] at hexpected
      exact hturn 0 (.inl hexpected.2)
    | sleep u =>
      simp only [hplace] at hexpected
      exact hturn u hexpected.2
    | wait k =>
      simp only [hplace] at hexpected
      split at hexpected
      · exact hturn 0 (.inl hexpected.2)
      · cases hexpected.2.2.2
    | timedWait k ns u =>
      simp only [hplace] at hexpected
      split at hexpected
      · exact hturn 0 (.inl hexpected.2)
      · exact hturn u hexpected.2.2
  | waitQueue x =>
    obtain rfl : x = g := hof
    obtain rfl := (hp.2 a ha).mp hn
    unfold Expected at hexpected
    cases hplace : s.place x with
    | fresh | suspended | exited =>
      simp only [hplace] at hexpected
      cases hexpected.2.2
    | client | sleep _ =>
      simp only [hplace] at hexpected
      cases hexpected.1
    | wait k =>
      simp only [hplace] at hexpected
      split at hexpected
      · cases hexpected.1
      · rename_i hremoved
        exact ⟨x, k, rfl, Option.some.inj hexpected.1, hp,
          .inl hplace, by simpa using hremoved, hexpected.2.1⟩
    | timedWait k ns u =>
      simp only [hplace] at hexpected
      split at hexpected
      · cases hexpected.1
      · rename_i hremoved
        exact ⟨x, k, rfl, Option.some.inj hexpected.1, hp,
          .inr ⟨ns, u, hplace⟩, by simpa using hremoved, hexpected.2.1⟩
  | queue | sleep _ | wait _ | all => cases hof

/-- A fiber in an entry of `_sleep_list` that waits, waits until then. -/
theorem Tracked.asleep_until (h : Tracked q heads s L) {k : κ} {u : UInt64}
    (hwaits : Waits s g k) (hin : Only heads L (.scheduler g) (some (.sleep u))) :
    ∃ ns, s.place g = .timedWait k ns u := by
  obtain ⟨o, p, ho, -, hexpected⟩ := (h.fiber g).position
  obtain rfl := ho.eq hin
  unfold Expected at hexpected
  rcases hwaits.place with hplace | ⟨ns, v, hplace⟩
  · simp only [hplace, hwaits.removed] at hexpected
    cases hexpected.2.2.2
  · simp only [hplace, hwaits.removed] at hexpected
    obtain ⟨-, -, (⟨-, -, hnone⟩ | ⟨-, hqueue⟩) | ⟨-, hsleep⟩⟩ := hexpected
    · cases hnone
    · cases hqueue
    · injection hsleep with hsleep
      injection hsleep with hsleep
      exact ⟨ns, hsleep ▸ hplace⟩

/-- The fibers `W` were notified, and nothing happened to the others. -/
structure Wakes (heads : Node φ κ → Prop) (s t : State φ κ) (L L' : Node φ κ → List (Node φ κ))
    (W : φ → Prop) : Prop where
  sleep_list : t.sleep_list = s.sleep_list
  woken : ∀ g, W g → Only heads L' (.scheduler g) (some .queue) ∧
    Only heads L' (.waitQueue g) none ∧ t.removed g = true
  others : ∀ g, ¬ W g → Untouched s t g ∧
    ∀ n, Of g n → ∀ r, Only heads L n r → Only heads L' n r

theorem Wakes.trans {u : State φ κ} {L'' : Node φ κ → List (Node φ κ)} {W W' V : φ → Prop}
    (hw : Wakes heads s t L L' W) (hw' : Wakes heads t u L' L'' W')
    (hV : ∀ g, V g ↔ W g ∨ W' g) : Wakes heads s u L L'' V := by
  refine ⟨hw'.sleep_list.trans hw.sleep_list, ?_, ?_⟩
  · intro g hg
    by_cases hg' : W' g
    · exact hw'.woken g hg'
    · obtain ⟨hsched, hwait, hremoved⟩ := hw.woken g (((hV g).mp hg).resolve_right hg')
      obtain ⟨huntouched, hkept⟩ := hw'.others g hg'
      exact ⟨hkept _ (by exact rfl) _ hsched, hkept _ (by exact rfl) _ hwait,
        huntouched.removed.trans hremoved⟩
  · intro g hg
    rw [hV, not_or] at hg
    obtain ⟨huntouched, hkept⟩ := hw.others g hg.1
    obtain ⟨huntouched', hkept'⟩ := hw'.others g hg.2
    exact ⟨huntouched.trans huntouched', fun n hn r hr => hkept' n hn r (hkept n hn r hr)⟩

/-- Of the wait nodes of a list exactly that of the notified fiber is gone. -/
theorem Tracked.perm_of_shift (h : Tracked q heads s L) (ha : heads a) (hwait : WaitHead a)
    (hin : Only heads L (.waitQueue g) (some a)) {heap : Heap (Node φ κ)}
    (hm : Shift heads s.heap heap L L' g (some .queue) none) :
    (L a).Perm (.waitQueue g :: L' a) := by
  have hout : .waitQueue g ∉ L' a := by
    intro hmem
    cases (hm.waitQueue.2 a ha).mp hmem
  have hnodup : (.waitQueue g :: L' a).Nodup :=
    List.nodup_cons.mpr ⟨hout, (hm.store.list a ha).nodup⟩
  rw [List.perm_ext_iff_of_nodup (h.store.list a ha).nodup hnodup]
  intro n
  rw [List.mem_cons]
  by_cases hof : Of g n
  · cases n with
    | waitQueue x =>
      obtain rfl : x = g := hof
      exact iff_of_true hin.mem (.inl rfl)
    | scheduler x =>
      obtain rfl : x = g := hof
      apply iff_of_false
      · intro hmem
        obtain ⟨_, _, heq, -⟩ := h.waiter ha hwait hmem
        cases heq
      · rintro (heq | hmem)
        · cases heq
        · obtain rfl := Option.some.inj ((hm.scheduler.2 a ha).mp hmem)
          exact hwait
    | queue | sleep _ | wait _ | all => cases hof
  · have hne : n ≠ .waitQueue g := by
      rintro rfl
      exact hof (by exact rfl)
    obtain ⟨r, hr⟩ := h.store.exists_only n
    rw [hr.2 a ha, (hm.others n hof r hr).2 a ha]
    simp [hne]

variable [DecidableEq φ]

def State.notified (s : State φ κ) (g : φ) (heap : Heap (Node φ κ)) : State φ κ :=
  { s with
    heap := heap
    removed := Function.update s.removed g true
    state := Function.update s.state g .Waiting }

theorem untouched_notified {heap : Heap (Node φ κ)} (hfg : f ≠ g) :
    Untouched s (s.notified g heap) f :=
  ⟨rfl, Function.update_of_ne hfg _ _, Function.update_of_ne hfg _ _, Iff.rfl⟩

theorem Tracked.notified (h : Tracked q heads s L) {heap : Heap (Node φ κ)} {k : κ}
    (hwaits : Waits s g k) (hcontrol : s.control ≠ .fiber g)
    (hm : Shift heads s.heap heap L L' g (some .queue) none)
    (hnull : heap.next (.waitQueue g) = none) : Tracked q heads (s.notified g heap) L' := by
  have hplace : (s.notified g heap).place g = .wait k ∨
      ∃ ns u, (s.notified g heap).place g = .timedWait k ns u := hwaits.place
  refine h.shift hm (fun f hfg => untouched_notified hfg) ?_ fun _ _ _ _ _ => hnull
  exact .of_woken hplace (Function.update_self g _ _) (.inr ⟨hcontrol, rfl⟩)

/-- A notified fiber may leave an empty entry behind, and will see to it. -/
theorem Timely.notified (hon : Timely heads s L) (h : Tracked q heads s L)
    (hq : ∀ k u, q k ≠ .sleep u) (hheads : ∀ u ∈ s.sleep_list, heads (.sleep u))
    (hnext : s.control ≠ .next) {heap : Heap (Node φ κ)} {k : κ} (hwaits : Waits s g k)
    (hm : Shift heads s.heap heap L L' g (some .queue) none) :
    Timely heads (s.notified g heap) L' := by
  have hothers : ∀ f, f ≠ g → Untouched s (s.notified g heap) f := fun f hfg =>
    untouched_notified hfg
  have hremoved : (s.notified g heap).removed g = true := Function.update_self g _ _
  constructor
  · refine hon.punctual.carry h.store hm.others hothers hon.punctual.sorted
      (UInt64.le_refl _) hnext ?_ (hon.punctual.delay g) hon.punctual.found
    rintro u (hsleep | ⟨_, _, -, hfalse⟩) -
    · have hplace : s.place g = .sleep u := hsleep
      rcases hwaits.place with hwait | ⟨_, _, hwait⟩
      · rw [hwait] at hplace
        cases hplace
      · rw [hwait] at hplace
        cases hplace
    · rw [hremoved] at hfalse
      cases hfalse
  · refine hon.swept.carry h hq hm.others hothers hheads (fun u hu _ => hu)
      (UInt64.le_refl _) ?_
    rintro u - (hin | ⟨k', ns, hplace, -⟩) -
    · obtain ⟨ns, hplace⟩ := h.asleep_until hwaits hin
      exact .inr ⟨k, ns, hplace, hremoved⟩
    · exact .inr ⟨k', ns, hplace, hremoved⟩

theorem Shift.wakes {heap : Heap (Node φ κ)}
    (hm : Shift heads s.heap heap L L' g (some .queue) none) :
    Wakes heads s (s.notified g heap) L L' (· = g) := by
  refine ⟨rfl, ?_, ?_⟩
  · rintro f rfl
    exact ⟨hm.scheduler, hm.waitQueue, Function.update_self f _ _⟩
  · intro f hfg
    refine ⟨untouched_notified hfg, ?_⟩
    intro n hn r hr
    apply hm.others n _ r hr
    cases n with
    | scheduler x | waitQueue x =>
      obtain rfl : x = f := hn
      exact hfg
    | queue | sleep _ | wait _ | all => cases hn

variable [DecidableEq κ]

/-- `ScheduleAndRemove` of a waiting fiber that was just taken from its list. -/
theorem Tracked.remove (h : Tracked q heads s L) (hqueue : heads .queue)
    (hin : Only heads L (.waitQueue g) (some a)) (hstate : s.state g ≠ .Waiting) :
    ∃ heap L', State.remove { s with heap := (s.heap.erase (.waitQueue g)).1 } (.waitQueue g) =
        some (s.notified g heap) ∧
      Shift heads s.heap heap L L' g (some .queue) none ∧ heap.next (.waitQueue g) = none := by
  have hbare := fun n => h.bare n g
  obtain ⟨o, -, ho, -, -⟩ := (h.fiber g).position
  obtain ⟨heap₁, L₁, herase₁, hnull₁, hmove₁⟩ := h.store.move_erase hin
  have hm₁ : Shift heads s.heap heap₁ L L₁ g o none :=
    move_waitQueue hbare (h.loose · g) ho hmove₁ fun _ => hnull₁
  obtain ⟨heap₂, L₂, herase₂, hnull₂, hmove₂⟩ : ∃ heap₂ L₂,
      (heap₁.erase (.scheduler g)).1 = heap₂ ∧ heap₂.next (.scheduler g) = none ∧
      Move heap₁ heap₂ heads L₁ L₂ (.scheduler g) none := by
    cases o with
    | none =>
      obtain ⟨heap₂, herase, hnull, hmove⟩ := hm₁.store.move_erase_loose hm₁.scheduler
        (hbare _ (by exact rfl)) (hm₁.loose _ (by exact rfl) hm₁.scheduler)
      exact ⟨heap₂, L₁, herase, hnull, hmove⟩
    | some b =>
      obtain ⟨heap₂, L₂, herase, hnull, hmove⟩ := hm₁.store.move_erase hm₁.scheduler
      exact ⟨heap₂, L₂, by rw [herase], hnull, hmove⟩
  have hm₂ := move_scheduler hbare hm₁.loose hm₁.waitQueue hmove₂ fun _ => hnull₂
  obtain ⟨heap, L', hpush, hmove⟩ :=
    hm₂.store.move_pushBack hqueue hm₂.scheduler (hbare _ (by exact rfl))
  have hm := move_scheduler hbare hm₂.loose hm₂.waitQueue hmove (by simp)
  refine ⟨heap, L', ?_, (hm₁.trans h.store hm₂).trans h.store hm, ?_⟩
  · rw [herase₁]
    rw [State.remove, State.scheduleAndRemove, if_pos hstate, State.schedule]
    dsimp only
    rw [herase₂, hpush]
    rfl
  · have hne : (Node.waitQueue g : Node φ κ) ≠ .scheduler g := by simp
    rw [(hmove.same _ hne (hm₂.waitQueue.free (hbare _ (by exact rfl)))).1,
      (hmove₂.same _ hne (hm₁.waitQueue.free (hbare _ (by exact rfl)))).1]
    exact hnull₁

/-! ### Who was notified -/

/-- `NotifyOne` -/
theorem Listed.notifyOne (h : Listed s L) (hcalls : ∀ f, s.control = .fiber f → s.place f = .client)
    (hnext : s.control ≠ .next) (k : κ) (ind : Nat) (reversed : Bool) :
    ∃ t L', s.notifyOne k ind reversed = some t ∧ t.time = s.time ∧ Listed t L' ∧
      (OnTime s L → OnTime t L') ∧
      (L (.wait k) = [] ∧ t = s ∧ L' = L ∨
        ∃ g, (L (.wait k)).Perm (.waitQueue g :: L' (.wait k)) ∧
          Wakes (Heads s.sleep_list) s t L L' (· = g)) := by
  have hhead : Heads s.sleep_list (.wait k : Node φ κ) := trivial
  have hlist := h.store.list _ hhead
  unfold State.notifyOne
  by_cases hempty : L (.wait k) = []
  · rw [if_pos (hlist.empty_iff.mpr hempty)]
    exact ⟨s, L, rfl, rfl, h, id, .inl ⟨hempty, rfl, rfl⟩⟩
  · rw [if_neg (mt hlist.empty_iff.mp hempty)]
    obtain ⟨n, hn, hget⟩ := hlist.getElement hempty ind reversed
    obtain ⟨g, k', rfl, -, hin, hwaits⟩ := h.waiter hhead trivial hn
    have hcontrol : s.control ≠ .fiber g := by
      intro hrun
      rcases hwaits.place with hplace | ⟨_, _, hplace⟩
      · exact absurd ((hcalls g hrun).symm.trans hplace) (by simp)
      · exact absurd ((hcalls g hrun).symm.trans hplace) (by simp)
    obtain ⟨heap, L', hremove, hm, hnull⟩ := h.remove trivial hin hwaits.state
    refine ⟨s.notified g heap, L', ?_, rfl, h.notified hwaits hcontrol hm hnull, ?_, .inr ⟨g, ?_, ?_⟩⟩
    · rw [hget, Option.bind_some, hremove]
    · intro hon
      exact hon.notified h (by simp) (fun u hu => hu) hnext hwaits hm
    · exact h.perm_of_shift hhead trivial hin hm
    · exact hm.wakes

end Yaclib.Fault.Fiber.Scheduler
