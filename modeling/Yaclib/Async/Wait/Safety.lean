import Yaclib.Async.Wait.Producers
import Yaclib.Async.Wait.Waiting

/-!
What a wait guarantees for every interleaving: what its result says, that nothing
of its stack is used after it, and that it is never stuck.
-/

namespace Yaclib.Wait

open Concurrency

variable {κ : Type} {w : Call κ} {s t : State κ} {c : κ} {r : Bool}

/-- Only a producer that waits for the mutex cannot go on. -/
theorem producerStep_isSome [DecidableEq κ] (hproducer : s.producer c ≠ .finished)
    (hlock : ∀ next, s.producer c = .lock next → s.locked = false) :
    (producerStep w s c).isSome = true := by
  unfold producerStep
  cases hpc : s.producer c with
  | finished => exact absurd hpc hproducer
  | lock next => simp [hlock next hpc]
  | _ => rfl

variable [Fintype κ]

theorem Inv.init (w : Call κ) : Inv w { count := w.count + 1 } := by
  have hnonempty : 0 < w.count := List.length_pos_of_ne_nil w.nonempty
  have hpending : State.pending ({ count := w.count + 1 } : State κ) = 0 :=
    tally_eq_zero.mpr fun _ => rfl
  constructor
  · intro c
    refine ⟨⟨[], rfl, .nil⟩, by simp [Callback.kEmpty], by simp, ?_, by simp⟩
    intro _
    exact ⟨by simp, rfl⟩
  · intro j c hj r hr
    simp [Waiter.credit] at hr
  · intro hatomic _
    rw [hpending]
    simp [Waiter.own, hatomic]
  · show (0 : Int) ≤ w.count + 1
    omega
  · rw [hpending]
    exact Nat.le_refl _
  · exact Nat.le_refl _
  · exact Nat.zero_le _
  · intro _
    rw [hpending, once_pos]
    · simp [State.setting, tally_const, Producer.setting]
    · simp only [Waiter.own]
      omega
  · simp [State.leaving, tally_const, Producer.leaving]
  · simp [State.holding, tally_const, Producer.holding, Waiter.holding]
  · intro hret
    contradiction
  · intro htimed
    contradiction
  · trivial
  · intro last wc rc hasleep
    contradiction
  · rfl

theorem Inv.done_result (h : Inv w s) (hdone : s.waiter = .done r) (hc : c ∈ w.handles) :
    HasResult s c ∨ (r = false ∧ s.callback c = .kEmpty) := by
  have hpending := h.pending_zero (by simp [State.returned, hdone])
  obtain ⟨j, hj⟩ := List.getElem?_of_mem hc
  have hsettled : Settled w s j c (if r then 0 else 1) := by
    apply h.settled j c hj
    rw [hdone]
    rfl
  rcases hsettled with hresult | hmem | ⟨hempty, -, hpos⟩
  · exact .inl hresult
  · have hnot := no_ours hpending hmem
    rw [w.node_ours] at hnot
    contradiction
  · cases r with
    | true => contradiction
    | false => exact .inr ⟨rfl, hempty⟩

theorem Inv.done_holds (h : Inv w s) (hdone : s.waiter = .done r) (c : κ) : ¬ HoldsOurs w s c := by
  rintro ⟨xs, hxs, m, hm, hours⟩
  have hpending := h.pending_zero (by simp [State.returned, hdone])
  obtain ⟨ys, hys, hchain⟩ := (h.core c).linked
  obtain rfl := hxs.eq_of_chain hchain
  have hnot := no_ours (c := c) hpending (hys ▸ List.mem_append_right _ hm)
  rw [hnot] at hours
  contradiction

theorem Inv.done_uses (h : Inv w s) (hdone : s.waiter = .done r) (c : κ) : ¬ UsesEvent s c := by
  have hret : s.returned = true := by simp [State.returned, hdone]
  have hpending := h.pending_zero hret
  have hquiet := h.quiet hret
  have hsetting := le_tally Producer.setting s.producer c
  have hleaving := le_tally Producer.leaving s.producer c
  obtain ⟨xs, hxs, hchain⟩ := (h.core c).linked
  simp only [State.setting, State.leaving] at hquiet
  intro huses
  unfold UsesEvent at huses
  cases hproducer : s.producer c with
  | before | finished => rw [hproducer] at huses; exact huses
  | visit head =>
    rw [hproducer] at huses hxs hchain
    obtain ⟨ys, rfl, -⟩ := hchain.of_some
    have hmem : head ∈ s.held c := by
      rw [hxs]
      exact List.mem_cons_self
    have hnot := no_ours hpending hmem
    rw [show head.ours = true from huses] at hnot
    contradiction
  | call head next =>
    rw [hproducer] at huses hxs
    have hmem : head ∈ s.held c := by
      rw [hxs]
      exact List.mem_cons_self
    have hnot := no_ours hpending hmem
    rw [show head.ours = true from huses] at hnot
    contradiction
  | lock next | setReady next =>
    rw [hproducer] at hsetting
    simp only [Producer.setting] at hsetting
    omega
  | notify next | unlock next =>
    rw [hproducer] at hleaving
    simp only [Producer.leaving] at hleaving
    omega

/-- A wait that sleeps without a notification has a producer to wait for. -/
theorem Inv.asleep_goes (h : Inv w s) {last : Bool} {wc rc : Nat}
    (hwaiter : s.waiter = .asleep last wc rc) (hnotified : s.notified = false) :
    ∃ c, s.producer c ≠ .finished := by
  by_contra hnone
  have hfinished : ∀ c, s.producer c = .finished := by
    intro c
    by_contra hc
    exact hnone ⟨c, hc⟩
  have hpending : s.pending = 0 := by
    refine tally_eq_zero.mpr fun c => ?_
    obtain ⟨xs, hxs, hchain⟩ := (h.core c).linked
    rw [hfinished c] at hxs hchain
    obtain rfl := hchain.of_none
    rw [hxs]
    rfl
  have hsetting : s.setting = 0 := by
    refine tally_eq_zero.mpr fun c => ?_
    rw [hfinished c]
    rfl
  have hset := h.set_once (by simp [State.returned, hwaiter])
  have hown : s.waiter.own w = 0 := by rw [hwaiter]; rfl
  rw [hown, hpending, hsetting, once_zero] at hset
  have hready : s.isReady = true := by
    cases hready : s.isReady with
    | true => rfl
    | false =>
      rw [hready] at hset
      contradiction
  rcases h.notified last wc rc hwaiter hready with hwoken | ⟨c, next, hc⟩
  · rw [hnotified] at hwoken
    contradiction
  · rw [hfinished c] at hc
    contradiction

variable [DecidableEq κ]

/-- The run lemma: the invariant holds in every reachable state. -/
theorem inv_of_reachable (hs : (system w).Reachable s) : Inv w s := by
  refine System.Inductive.reachable ⟨?_, ?_⟩ hs
  · rintro s rfl
    exact Inv.init w
  · intro s e t h hstep _
    cases e with
    | advance weak => exact h.advance hstep
    | wakeUp giveUp => exact h.wakeUp hstep
    | producer c => exact h.producerStep hstep
    | foreign c => exact h.foreign hstep

/-! ### At the return -/

/-- For every interleaving: after the return of true every future has its result,
after false it has its result or an empty slot, an untimed wait returns true, no
core leads to the event or its callbacks, and no producer will use them. The
counter is never negative, and nothing on the stack is used after the return.

That the call does return is not said here: `never_stuck` adds that before its return
somebody can always go on. -/
theorem wait_safe (hs : (system w).Reachable s) :
    (∀ r, s.waiter = .done r →
      (r = true → ∀ c ∈ w.handles, HasResult s c) ∧
      (r = false → ∀ c ∈ w.handles, HasResult s c ∨ s.callback c = .kEmpty) ∧
      (w.timed = false → r = true) ∧
      ∀ c, ¬ HoldsOurs w s c ∧ ¬ UsesEvent s c) ∧
    0 ≤ s.count ∧ s.dangling = false := by
  have h := inv_of_reachable hs
  refine ⟨?_, h.count_nonneg, h.dangling⟩
  intro r hdone
  refine ⟨?_, ?_, ?_, fun c => ⟨h.done_holds hdone c, h.done_uses hdone c⟩⟩
  · rintro rfl c hc
    rcases h.done_result hdone hc with hresult | ⟨hfalse, -⟩
    · exact hresult
    · contradiction
  · rintro rfl c hc
    rcases h.done_result hdone hc with hresult | ⟨-, hempty⟩
    · exact .inl hresult
    · exact .inr hempty
  · intro huntimed
    have htimed := h.timed
    rw [hdone, huntimed] at htimed
    cases r with
    | true => rfl
    | false => exact absurd (htimed rfl) (by decide)

def twoTimed : Call Bool where
  handles := [false, true]
  shared _ := false
  timed := true
  nonempty := by decide
  distinct j k c hj hk _ := by
    match j, k with
    | 0, 0 | 1, 1 => rfl
    | 0, 1 | 1, 0 => cases c <;> simp at hj hk
    | j + 2, _ => simp at hj
    | _, k + 2 => simp at hk
  unique_of_timed _ _ _ := rfl

/-- The wait gives up, a producer takes the event before its `Reset`, the other
future is reset, and the late producer sets the event. -/
def lateProducer : List (Event Bool) :=
  List.replicate 7 (.advance false) ++ [.wakeUp true, .producer false] ++
    List.replicate 5 (.advance false) ++ List.replicate 5 (.producer false) ++
      List.replicate 2 (.advance false)

theorem wait_safe_lateProducer :
    let s := ((system twoTimed).run { count := 3 } lateProducer).get (by decide)
    s.waiter = .done false ∧ s.callback true = .kEmpty ∧ s.callback false = .kResult ∧
      ∀ c, ¬ HoldsOurs twoTimed s c ∧ ¬ UsesEvent s c := by
  refine ⟨by decide, by decide, by decide, ?_⟩
  exact ((wait_safe (w := twoTimed) (.run (fun _ _ _ _ => trivial) (.init rfl)
    (Option.some_get _).symm)).1 false (by decide)).2.2.2

/-! ### The wait goes on -/

/-- Whoever has the mutex can go on, if the waiting thread does not have it. -/
theorem Inv.holder (h : Inv w s) (hholding : s.waiter.holding = 0) (hlocked : s.locked = true) :
    ∃ c, (Wait.producerStep w s c).isSome = true := by
  have heq := h.locked_eq
  rw [hholding, hlocked, Bool.toNat_true] at heq
  have hsome : ∃ c, Producer.holding (s.producer c) ≠ 0 := by
    by_contra hnone
    have hzero : s.holding = 0 := tally_eq_zero.mpr fun c => by
      by_contra hc
      exact hnone ⟨c, hc⟩
    omega
  obtain ⟨c, hc⟩ := hsome
  refine ⟨c, producerStep_isSome ?_ ?_⟩
  · intro hproducer
    exact hc (by rw [hproducer]; rfl)
  · intro next hproducer
    exact absurd (by rw [hproducer]; rfl) hc

/-- A producer that is not finished can go on, or the one that has the mutex. -/
theorem Inv.producer_goes (h : Inv w s) (hholding : s.waiter.holding = 0)
    (hproducer : s.producer c ≠ .finished) : ∃ d, (Wait.producerStep w s d).isSome = true := by
  cases hlocked : s.locked with
  | true => exact h.holder hholding hlocked
  | false => exact ⟨c, producerStep_isSome hproducer fun _ _ => hlocked⟩

/-- No wake-up is lost: until the return, the waiting thread can go on, or a
producer that it waits for. `wait_safe` would hold of a call that sleeps for ever; with
this, such a call is one whose thread or producers are not run. -/
theorem never_stuck (hs : (system w).Reachable s) :
    s.returned = true ∨ (advance w s false).isSome = true ∨
      ∃ c, (producerStep w s c).isSome = true := by
  have h := inv_of_reachable hs
  cases hwaiter : s.waiter with
  | done r => exact .inl (by simp [State.returned, hwaiter])
  | attach k wc =>
    right
    left
    cases hk : w.handles[k]? <;> simp [advance, hwaiter, hk]
  | attachSwap k wc | attachLoop k wc expected =>
    right
    left
    have hexpects := h.expects
    rw [hwaiter] at hexpects
    obtain ⟨c, hk, -⟩ := hexpects
    simp [advance, hwaiter, hk]
  | make wc =>
    right
    cases hlocked : s.locked with
    | true => exact .inr (h.holder (by rw [hwaiter]; rfl) hlocked)
    | false => exact .inl (by simp [advance, hwaiter, hlocked])
  | check last wc rc =>
    right
    left
    cases hready : s.isReady <;> simp [advance, hwaiter, hready]
  | asleep last wc rc =>
    right
    have hholding : s.waiter.holding = 0 := by rw [hwaiter]; rfl
    cases hlocked : s.locked with
    | true => exact .inr (h.holder hholding hlocked)
    | false =>
      cases hnotified : s.notified with
      | true => exact .inl (by simp [advance, hwaiter, hlocked, hnotified])
      | false =>
        obtain ⟨c, hc⟩ := h.asleep_goes hwaiter hnotified
        exact .inr (h.producer_goes hholding hc)
  | reset k wc rc =>
    right
    left
    cases hk : w.handles[k]? <;> simp [advance, hwaiter, hk]
  | resetSwap k wc rc expected =>
    right
    left
    have hexpects := h.expects
    rw [hwaiter] at hexpects
    obtain ⟨c, hk⟩ : ∃ c, w.handles[k]? = some c := ⟨_, List.getElem?_eq_getElem hexpects.1⟩
    simp [advance, hwaiter, hk]

end Yaclib.Wait
