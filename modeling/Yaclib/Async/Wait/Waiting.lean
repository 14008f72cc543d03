import Yaclib.Async.Wait.Steps

/-!
Every step of the waiting thread keeps the invariant of the wait.
-/

namespace Yaclib.Wait

open Concurrency

variable {κ : Type} [Fintype κ] {w : Call κ} {s t : State κ} {c : κ} {j k wc rc : Nat}

/-- Nothing is set while a part of the counter is left. -/
theorem Inv.unset (h : Inv w s) (hwaits : s.returned = false)
    (hleft : 0 < s.waiter.own w + s.pending) : s.setting + s.leaving = 0 := by
  have hset := h.set_once hwaits
  rw [once_pos hleft] at hset
  have hready : s.isReady = false := by
    cases hready : s.isReady with
    | false => rfl
    | true =>
      rw [hready, Bool.toNat_true] at hset
      omega
  have hleaving := h.leaving_eq hready
  omega

/-- `_is_ready` is seen under the mutex: `Set` is over, and so are all callbacks. -/
theorem Inv.set_over (h : Inv w s) (hwaits : s.returned = false) (hready : s.isReady = true)
    (hholding : s.holding = 0) : s.pending = 0 ∧ s.setting + s.leaving = 0 := by
  have hset := h.set_once hwaits
  rw [hready, Bool.toNat_true] at hset
  have hzero : s.waiter.own w + s.pending = 0 := by
    by_contra hne
    rw [once_pos (Nat.pos_of_ne_zero hne)] at hset
    omega
  rw [hzero, once_zero] at hset
  have hleaving := leaving_le_holding s
  omega

theorem Inv.join (h : Inv w s) (hwaiter : s.waiter = .attach w.count wc) :
    Inv w (join w s wc) := by
  have hwaits : s.returned = false := by simp [State.returned, hwaiter]
  have hbudget := h.budget
  have hcount := fun hatomic => h.count_eq hatomic hwaits
  have hle := h.waitCount_le
  have hlocked := h.locked_eq
  have hunset := h.unset hwaits
  have hnonempty : 0 < w.count := List.length_pos_of_ne_nil w.nonempty
  have hpassed : s.waiter.passed w.count = w.count := by rw [hwaiter]; rfl
  have hkept : ∀ j c, w.handles[j]? = some c → Settled w s j c 0 := by
    intro j c hj
    apply h.settled j c hj
    rw [hwaiter, Waiter.credit, if_pos (Call.lt_count hj)]
    rfl
  have hown : s.waiter.own w = w.count + w.atomic.toNat - wc := by rw [hwaiter]; rfl
  rw [hwaiter] at hbudget hle hlocked
  simp only [Waiter.resetCount, Waiter.waitCount, Waiter.passed, Waiter.holding]
    at hbudget hle hlocked
  -- the thread returns before the event is set
  have hret : ∀ x : Int, 0 ≤ x → s.pending = 0 → 0 < s.waiter.own w →
      Inv w { s with count := x, waiter := .done true } := by
    intro x hx hpending hpos
    have hquiet := hunset (by omega)
    have hholding := holding_le s
    have hfree : s.locked = false := by
      cases hlock : s.locked with
      | false => rfl
      | true =>
        rw [hlock, Bool.toNat_true] at hlocked
        omega
    exact h.ret hpending hquiet hpassed hx hfree (by simp) hkept
  unfold Wait.join
  split
  · next hwc =>
    exact hret s.count h.count_nonneg (by omega) (by omega)
  · next hwc =>
    have hmoves : Waiter.Moves w s.waiter (.make wc) := by
      constructor <;> simp [hwaiter, Waiter.waitCount, Waiter.resetCount, Waiter.passed,
        Waiter.Timed, Waiter.Expects]
    have hmake : ∀ j c, w.handles[j]? = some c → ∀ r ∈ (Waiter.make wc).credit j,
        Settled w s j c r := by
      intro j c hj r hr
      obtain rfl := Option.some.inj hr
      exact hkept j c hj
    cases hatomic : w.atomic with
    | true =>
      have hsum := hcount hatomic
      rw [hown, hatomic, Bool.toNat_true] at hsum
      simp only [State.subEqual, State.fetchSub, hatomic, Bool.true_and, if_true, decide_eq_true_eq]
      split
      · next hequal =>
        exact hret (s.count - (w.count - wc + 1 : Nat)) (by omega) (by omega)
          (by rw [hown, hatomic, Bool.toNat_true]; omega)
      · next hequal =>
        have hpos : 0 < s.pending := by omega
        refine h.sub (p := .make wc) (x := s.count - (w.count - wc + 1 : Nat)) hmoves hwaits ?_
          (by omega) ?_ ?_ hmake (by simp)
        · intro _
          show s.count - _ = ((0 : Nat) : Int) + _
          omega
        · rw [once_pos (by omega), once_pos (by omega)]
        · simp [hwaiter, Waiter.holding]
    | false =>
      have hone : w.count = 1 := by simpa [Call.atomic] using hatomic
      simp only [State.subEqual, State.fetchSub, hatomic, Bool.false_and, Bool.false_eq_true,
        if_false]
      refine h.wait (p := .make wc) hmoves hwaits ?_ ?_ hmake (by simp)
      · rw [hown, hatomic, hone]
        show 0 = 1 + 0 - wc
        omega
      · simp [hwaiter, Waiter.holding]

/-- `SetCallback` of the handle `k` failed. -/
theorem Inv.attach_failed (h : Inv w s) (hk : w.handles[k]? = some c)
    (hat : Attaching w s k wc) (hkept : Settled w s k c 0) :
    Inv w (s.goto (.attach (k + 1) wc)) := by
  refine h.wait ⟨hat.waitCount.symm, ?_, ?_, ?_, ?_, ?_, ?_⟩ hat.waits hat.own.symm ?_ ?_ (by simp)
  · exact Nat.zero_le _
  · rw [hat.passed]
    exact Nat.le_succ k
  · exact Call.lt_count hk
  · simp
  · intro htimed
    contradiction
  · trivial
  · rw [hat.holding]
    rfl
  · intro j d hj r hr
    obtain ⟨hlt, rfl⟩ : j < k + 1 ∧ 0 = r := by simpa [Waiter.credit] using hr
    by_cases hjk : j = k
    · subst hjk
      rw [hk] at hj
      obtain rfl := Option.some.inj hj
      exact hkept
    · apply h.settled j d hj
      rw [hat.credit, if_pos (by omega)]
      rfl

/-- Another step of the same `SetCallback`. -/
theorem Inv.attach_again (h : Inv w s) (hk : w.handles[k]? = some c) (hat : Attaching w s k wc)
    {p : Waiter} (hp : p = .attachSwap k wc ∨ ∃ q, p = .attachLoop k wc q)
    (hexpects : p.Expects w) :
    Inv w (s.goto p) := by
  have hnext : Attaching w (s.goto p) k wc := attaching (Or.inr hp)
  have hmoves : Waiter.Moves w s.waiter p := by
    constructor
    · exact hnext.waitCount.trans hat.waitCount.symm
    · exact hnext.resetCount.trans_le (Nat.zero_le _)
    · exact (hat.passed.trans hnext.passed.symm).le
    · exact hnext.passed.trans_le (Call.lt_count hk).le
    · rcases hp with rfl | ⟨q, rfl⟩ <;> simp
    · rcases hp with rfl | ⟨q, rfl⟩ <;> intro htimed <;> contradiction
    · exact hexpects
  refine h.wait hmoves hat.waits (hnext.own.trans hat.own.symm) ?_ ?_ ?_
  · rw [hat.holding]
    exact congrArg _ hnext.holding.symm
  · intro j d hj r hr
    apply h.settled j d hj
    rw [hat.credit, ← hnext.credit]
    exact hr
  · rcases hp with rfl | ⟨q, rfl⟩ <;> simp

/-- The word of a unique core that is not empty: its result, or the event. -/
theorem Inv.attached (h : Inv w s) (hc : w.shared c = false) (hword : s.callback c ≠ .kEmpty) :
    Settled w s k c 0 := by
  cases hcallback : s.callback c with
  | kResult => exact .inl hcallback
  | ptr p =>
    have hheld := (h.core c).unique_held hc hcallback
    cases p with
    | none => exact absurd hcallback hword
    | some m =>
      have hmem : m ∈ s.held c := by simp [hheld]
      obtain rfl := ((h.core c).unique hc).1 m hmem
      right
      left
      rwa [Call.node_unique hc]

theorem Inv.setCallback (h : Inv w s) (hk : w.handles[k]? = some c)
    (hwaiter : s.waiter = .attach k wc) : Inv w (setCallback w s k wc c) := by
  have hat : Attaching w s k wc := attaching (.inl hwaiter)
  unfold Wait.setCallback
  split
  · next hc =>
    cases hword : s.callback c with
    | kResult => exact h.attach_failed hk hat (.inl hword)
    | ptr p => exact h.attach_again hk hat (.inr ⟨p, rfl⟩) ⟨c, hk, by simpa using hc⟩
  · next hc =>
    split
    · exact h.attach_again hk hat (.inl rfl) ⟨c, hk, by simpa using hc⟩
    · next hword => exact h.attach_failed hk hat (h.attached (by simpa using hc) hword)

section

variable [DecidableEq κ]

theorem Inv.setCallbackSwap (h : Inv w s) (hk : w.handles[k]? = some c) (hc : w.shared c = false)
    (hwaiter : s.waiter = .attachSwap k wc) : Inv w (setCallbackSwap w s k wc c) := by
  have hat : Attaching w s k wc := attaching (.inr (.inl hwaiter))
  unfold Wait.setCallbackSwap
  split
  · next hword =>
    have hheld := (h.core c).held_nil hword
    have hattach := h.attach hk hword hat (by simp [State.links, hc])
    rwa [hheld] at hattach
  · next hword => exact h.attach_failed hk hat (h.attached hc hword)

theorem Inv.setCallbackLoop (h : Inv w s) {p : Option Node} {weak : Bool}
    (hk : w.handles[k]? = some c) (hc : w.shared c = true)
    (hwaiter : s.waiter = .attachLoop k wc p) : Inv w (setCallbackLoop w s k wc c p weak) := by
  have hat : Attaching w s k wc := attaching (.inr (.inr ⟨p, hwaiter⟩))
  have hlink : Inv w (s.link (w.node k c) p) := by
    refine h.link ?_ p
    intro d hd
    exact h.fresh hk hc hat.passed.le hd
  have hat' : Attaching w (s.link (w.node k c) p) k wc := attaching (.inr (.inr ⟨p, hwaiter⟩))
  unfold Wait.setCallbackLoop
  dsimp only
  split
  · next hround =>
    apply hlink.attach hk (Callback.eq_of_attached hround) hat'
    simp [State.links, hc, State.link]
  · next hround => exact hlink.attach_failed hk hat' (.inl (Callback.eq_of_refused hround))
  · next q hround => exact hlink.attach_again hk hat' (.inr ⟨q, rfl⟩) ⟨c, hk, by simpa using hc⟩

end

/-- The waiting thread takes the mutex, for the first time or out of `_cv.wait`. -/
theorem Inv.acquire (h : Inv w s) {p : Waiter} {last : Bool}
    (hwaiter : s.waiter = .make wc ∨ s.waiter = .asleep last wc rc) (hfree : s.locked = false)
    (hmoves : Waiter.Moves w s.waiter p) (hholding : p.holding = 1) (hown : p.own w = 0)
    (hcredit : ∀ j, p.credit j = s.waiter.credit j) :
    Inv w ({ s with locked := true }.goto p) := by
  have hwaits : s.returned = false := by
    rcases hwaiter with hwaiter | hwaiter <;> simp [State.returned, hwaiter]
  refine h.wait hmoves hwaits ?_ ?_ ?_ ?_
  · rw [hown]
    rcases hwaiter with hwaiter | hwaiter <;> rw [hwaiter] <;> rfl
  · rw [hfree, hholding]
    rcases hwaiter with hwaiter | hwaiter <;> rw [hwaiter] <;> rfl
  · intro j d hj r hr
    rw [hcredit] at hr
    exact h.settled j d hj r hr
  · rintro ⟨last, wc, rc, rfl⟩
    contradiction

theorem Inv.make (h : Inv w s) (hwaiter : s.waiter = .make wc) (hfree : s.locked = false) :
    Inv w ({ s with locked := true }.goto (.check (!w.timed) wc 0)) := by
  have hthere : s.waiter = .make wc ∨ s.waiter = .asleep true wc 0 := .inl hwaiter
  apply h.acquire hthere hfree
  · constructor <;> simp [hwaiter, Waiter.waitCount, Waiter.resetCount, Waiter.passed,
      Waiter.Timed, Waiter.Expects]
  · rfl
  · rfl
  · simp [hwaiter, Waiter.credit]

theorem Inv.wake (h : Inv w s) {last : Bool} (hwaiter : s.waiter = .asleep last wc rc)
    (hfree : s.locked = false) : Inv w ({ s with locked := true }.goto (.check last wc rc)) := by
  have htimed := h.timed
  rw [hwaiter] at htimed
  apply h.acquire (.inr hwaiter) hfree
  · exact ⟨by rw [hwaiter]; rfl, by rw [hwaiter]; exact Nat.le_refl _,
      by rw [hwaiter]; exact Nat.le_refl _, Nat.le_refl _, by simp, htimed, trivial⟩
  · rfl
  · rfl
  · simp [hwaiter, Waiter.credit]

/-- The timed wait gave up. -/
theorem Inv.giveUp (h : Inv w s) (hwaiter : s.waiter = .asleep false wc rc)
    (hfree : s.locked = false) : Inv w ({ s with locked := true }.goto (.reset 0 wc 0)) := by
  have htimed : w.timed = true := by
    apply h.timed
    rw [hwaiter]
    exact .inl rfl
  apply h.acquire (.inr hwaiter) hfree
  · constructor <;> simp [hwaiter, Waiter.waitCount, Waiter.resetCount, Waiter.passed,
      Waiter.Timed, Waiter.Expects, htimed]
  · rfl
  · rfl
  · simp [hwaiter, Waiter.credit]

theorem Inv.sleep (h : Inv w s) {last : Bool} (hwaiter : s.waiter = .check last wc rc)
    (hready : s.isReady = false) :
    Inv w ({ s with locked := false, notified := false }.goto (.asleep last wc rc)) := by
  have htimed := h.timed
  have hlocked := h.locked_eq
  rw [hwaiter] at htimed hlocked
  refine h.wait ?_ ?_ ?_ ?_ ?_ ?_
  · exact ⟨by rw [hwaiter]; rfl, by rw [hwaiter]; exact Nat.le_refl _,
      by rw [hwaiter]; exact Nat.le_refl _, Nat.le_refl _, by simp, htimed, trivial⟩
  · simp [hwaiter, State.returned]
  · rw [hwaiter]
    rfl
  · rw [hwaiter]
    cases hlock : s.locked with
    | true => rfl
    | false =>
      rw [hlock, Bool.toNat_false, Waiter.holding] at hlocked
      omega
  · intro j d hj r hr
    apply h.settled j d hj
    rwa [hwaiter]
  · intro _
    exact hready

/-- The return from `event.Wait`, once `_is_ready` is seen. -/
theorem Inv.woken (h : Inv w s) {last : Bool}
    (hwaiter : s.waiter = .check last wc rc ∨ s.waiter = .asleep last wc rc)
    (hready : s.isReady = true) (hholding : s.holding = 0) :
    Inv w (s.ret (!last || rc = 0)) := by
  have hwaits : s.returned = false := by
    rcases hwaiter with hwaiter | hwaiter <;> simp [State.returned, hwaiter]
  obtain ⟨hpending, hquiet⟩ := h.set_over hwaits hready hholding
  refine h.ret hpending hquiet ?_ h.count_nonneg rfl ?_ ?_
  · rcases hwaiter with hwaiter | hwaiter <;> rw [hwaiter] <;> rfl
  · intro hfalse
    apply h.timed
    have hpos : 0 < rc := by
      simp only [Bool.or_eq_false_iff, decide_eq_false_iff_not] at hfalse
      omega
    rcases hwaiter with hwaiter | hwaiter <;> rw [hwaiter] <;> exact .inr hpos
  · intro j c hj
    have hsettled : Settled w s j c (if last then rc else 0) := by
      apply h.settled j c hj
      rcases hwaiter with hwaiter | hwaiter <;> rw [hwaiter] <;> rfl
    apply hsettled.mono
    intro hpos
    cases last with
    | false => contradiction
    | true =>
      have hne : rc ≠ 0 := Nat.pos_iff_ne_zero.mp hpos
      simp [hne]

/-- `Reset` of the handle `k` failed: the result is there. -/
theorem Inv.reset_failed (h : Inv w s) (hk : w.handles[k]? = some c)
    (hwaiter : s.waiter = .reset k wc rc ∨ ∃ p, s.waiter = .resetSwap k wc rc p)
    (hword : s.callback c = .kResult) : Inv w (s.goto (.reset (k + 1) wc rc)) := by
  have hwaits : s.returned = false := by
    rcases hwaiter with hwaiter | ⟨p, hwaiter⟩ <;> simp [State.returned, hwaiter]
  refine h.wait ⟨?_, ?_, ?_, Nat.le_refl _, by simp, ?_, trivial⟩ hwaits ?_ ?_ ?_ (by simp)
  · rcases hwaiter with hwaiter | ⟨p, hwaiter⟩ <;> rw [hwaiter] <;> rfl
  · rcases hwaiter with hwaiter | ⟨p, hwaiter⟩ <;> rw [hwaiter] <;> exact Nat.le_refl _
  · rcases hwaiter with hwaiter | ⟨p, hwaiter⟩ <;> rw [hwaiter] <;> exact Nat.le_refl _
  · intro _
    apply h.timed
    rcases hwaiter with hwaiter | ⟨p, hwaiter⟩ <;> rw [hwaiter] <;> trivial
  · rcases hwaiter with hwaiter | ⟨p, hwaiter⟩ <;> rw [hwaiter] <;> rfl
  · rcases hwaiter with hwaiter | ⟨p, hwaiter⟩ <;> rw [hwaiter] <;> rfl
  · intro j d hj r hr
    obtain rfl := Option.some.inj hr
    by_cases hjk : j = k
    · subst hjk
      rw [hk] at hj
      obtain rfl := Option.some.inj hj
      exact .inl hword
    · have hsettled : Settled w s j d (if j < k then rc else 0) := by
        apply h.settled j d hj
        rcases hwaiter with hwaiter | ⟨p, hwaiter⟩ <;> rw [hwaiter] <;> rfl
      apply hsettled.mono
      split <;> split <;> omega

theorem Inv.resetLoad (h : Inv w s) (hk : w.handles[k]? = some c)
    (hwaiter : s.waiter = .reset k wc rc) : Inv w (Wait.reset s k wc rc c) := by
  unfold Wait.reset
  cases hword : s.callback c with
  | kResult => exact h.reset_failed hk (.inl hwaiter) hword
  | ptr p =>
    have hword_eq := h.word_eq_event hk (.inl hwaiter) hword
    refine h.wait ⟨?_, ?_, ?_, Nat.le_refl _, by simp, ?_, ?_⟩ ?_ ?_ ?_ ?_ (by simp)
    · rw [hwaiter]
      rfl
    · rw [hwaiter]
      exact Nat.le_refl _
    · rw [hwaiter]
      exact Nat.le_refl _
    · intro _
      apply h.timed
      rw [hwaiter]
      trivial
    · exact ⟨Call.lt_count hk, hword_eq⟩
    · simp [State.returned, hwaiter]
    · rw [hwaiter]
      rfl
    · rw [hwaiter]
      rfl
    · intro j d hj r hr
      apply h.settled j d hj
      rwa [hwaiter]

theorem Inv.resetSwap [DecidableEq κ] (h : Inv w s) {p : Option Node}
    (hk : w.handles[k]? = some c) (hwaiter : s.waiter = .resetSwap k wc rc p) :
    Inv w (resetSwap s k wc rc c p) := by
  unfold Wait.resetSwap
  split
  · next hword => exact h.reset hk hword hwaiter
  · next hword =>
    apply h.reset_failed hk (.inr ⟨p, hwaiter⟩)
    have hexpects := h.expects
    rw [hwaiter] at hexpects
    obtain ⟨-, rfl⟩ := hexpects
    cases hcallback : s.callback c with
    | kResult => rfl
    | ptr q =>
      obtain rfl := h.word_eq_event hk (.inr ⟨_, hwaiter⟩) hcallback
      contradiction

theorem Inv.resetDone (h : Inv w s) (hwaiter : s.waiter = .reset k wc rc)
    (hk : w.handles[k]? = none) : Inv w (resetDone w s wc rc) := by
  have hwaits : s.returned = false := by simp [State.returned, hwaiter]
  have hbudget := h.budget
  have hcount := fun hatomic => h.count_eq hatomic hwaits
  have hunset := h.unset hwaits
  have hwc := h.waitCount_le
  have htimed : w.timed = true := h.timed (by rw [hwaiter]; trivial)
  have hpassed : s.waiter.passed w.count = w.count := by rw [hwaiter]; rfl
  have hsettled : ∀ j c, w.handles[j]? = some c → Settled w s j c rc := by
    intro j c hj
    have hcredit : Settled w s j c (if j < k then rc else 0) := by
      apply h.settled j c hj
      rw [hwaiter]
      rfl
    have hlast : j < k := Nat.lt_of_lt_of_le (Call.lt_count hj) (List.getElem?_eq_none_iff.mp hk)
    rwa [if_pos hlast] at hcredit
  rw [hwaiter] at hbudget hcount hunset hwc
  simp only [Waiter.own, Waiter.resetCount, Waiter.waitCount, Waiter.passed]
    at hbudget hcount hunset hwc
  -- every callback that was not called is reset
  have hret : ∀ x : Int, 0 ≤ x → s.pending = 0 → 0 < rc →
      Inv w { s with count := x, locked := false, waiter := .done false } := by
    intro x hx hpending hpos
    refine h.ret hpending (hunset (by omega)) hpassed hx rfl (fun _ => htimed) ?_
    intro j c hj
    exact (hsettled j c hj).mono fun _ => Nat.zero_lt_one
  have hmoves : Waiter.Moves w s.waiter (.check true wc rc) := by
    constructor <;> simp [hwaiter, Waiter.waitCount, Waiter.resetCount, Waiter.passed,
      Waiter.Expects, htimed]
  have hlast : ∀ j c, w.handles[j]? = some c → ∀ r ∈ (Waiter.check true wc rc).credit j,
      Settled w s j c r := by
    intro j c hj r hr
    obtain rfl := Option.some.inj hr
    exact hsettled j c hj
  unfold Wait.resetDone
  split
  · next hrc =>
    subst hrc
    refine h.wait hmoves hwaits ?_ ?_ hlast (by simp)
    · simp [hwaiter, Waiter.own]
    · simp [hwaiter, Waiter.holding]
  · next hrc =>
    split
    · next heq => exact hret s.count h.count_nonneg (by omega) (by omega)
    · next hne =>
      cases hatomic : w.atomic with
      | true =>
        have hsum := hcount hatomic
        simp only [State.subEqual, State.fetchSub, hatomic, Bool.true_and, if_true,
          decide_eq_true_eq]
        split
        · next hequal => exact hret (s.count - rc) (by omega) (by omega) (by omega)
        · next hequal =>
          have hpos : 0 < s.pending := by omega
          refine h.sub (p := .check true wc rc) (x := s.count - rc) hmoves hwaits ?_ (by omega) ?_
            ?_ hlast (by simp)
          · intro _
            show s.count - rc = ((0 : Nat) : Int) + _
            omega
          · rw [once_pos (by omega), once_pos (by omega)]
          · simp [hwaiter, Waiter.holding]
      | false =>
        have hone : w.count = 1 := by simpa [Call.atomic] using hatomic
        omega

theorem Inv.attach_end (h : Inv w s) (hwaiter : s.waiter = .attach k wc)
    (hk : w.handles[k]? = none) : k = w.count := by
  have hge : w.count ≤ k := List.getElem?_eq_none_iff.mp hk
  have hle := h.passed_le
  rw [hwaiter] at hle
  exact Nat.le_antisymm hle hge

theorem Inv.wakeUp (h : Inv w s) {giveUp : Bool} (hstep : wakeUp s giveUp = some t) : Inv w t := by
  unfold Wait.wakeUp at hstep
  split at hstep
  · next last wc rc hwaiter =>
    simp only [Option.ite_none_left_eq_some, Bool.not_eq_true] at hstep
    obtain ⟨hfree, hstep⟩ := hstep
    split at hstep
    · next hgive =>
      simp only [Bool.and_eq_true, Bool.not_eq_true'] at hgive
      obtain ⟨-, rfl⟩ := hgive
      split at hstep
      · next hready =>
        cases hstep
        have hlocked := h.locked_eq
        rw [hfree, Bool.toNat_false] at hlocked
        exact h.woken (.inr hwaiter) hready (by omega)
      · next hready =>
        cases hstep
        exact h.giveUp hwaiter hfree
    · cases hstep
      exact h.wake hwaiter hfree
  · contradiction

variable [DecidableEq κ]

theorem Inv.advance (h : Inv w s) {weak : Bool} (hstep : advance w s weak = some t) : Inv w t := by
  unfold Wait.advance at hstep
  cases hwaiter : s.waiter with
  | attach k wc =>
    cases hk : w.handles[k]? with
    | some c =>
      simp only [hwaiter, hk, Option.some.injEq] at hstep
      exact hstep ▸ h.setCallback hk hwaiter
    | none =>
      simp only [hwaiter, hk, Option.some.injEq] at hstep
      obtain rfl := h.attach_end hwaiter hk
      exact hstep ▸ h.join hwaiter
  | attachSwap k wc =>
    simp only [hwaiter, Option.map_eq_some_iff] at hstep
    obtain ⟨c, hk, rfl⟩ := hstep
    have hexpects := h.expects
    rw [hwaiter] at hexpects
    obtain ⟨d, hd, hc⟩ := hexpects
    obtain rfl := Option.some.inj (hk.symm.trans hd)
    exact h.setCallbackSwap hk hc hwaiter
  | attachLoop k wc expected =>
    simp only [hwaiter, Option.map_eq_some_iff] at hstep
    obtain ⟨c, hk, rfl⟩ := hstep
    have hexpects := h.expects
    rw [hwaiter] at hexpects
    obtain ⟨d, hd, hc⟩ := hexpects
    obtain rfl := Option.some.inj (hk.symm.trans hd)
    exact h.setCallbackLoop hk hc hwaiter
  | make wc =>
    simp only [hwaiter, Option.ite_none_left_eq_some, Option.some.injEq] at hstep
    exact hstep.2 ▸ h.make hwaiter (by simpa using hstep.1)
  | check last wc rc =>
    simp only [hwaiter] at hstep
    split at hstep
    · next hready =>
      have hlocked := h.locked_eq
      rw [hwaiter] at hlocked
      have hle := Bool.toNat_le s.locked
      cases hstep
      refine h.woken (.inl hwaiter) hready ?_
      simp only [Waiter.holding] at hlocked
      omega
    · next hready =>
      cases hstep
      exact h.sleep hwaiter (by simpa using hready)
  | asleep last wc rc =>
    simp only [hwaiter, Option.ite_none_left_eq_some, Option.some.injEq] at hstep
    obtain ⟨hfree, rfl⟩ := hstep
    simp only [Bool.or_eq_true, not_or, Bool.not_eq_true] at hfree
    exact h.wake hwaiter hfree.1
  | reset k wc rc =>
    cases hk : w.handles[k]? with
    | some c =>
      simp only [hwaiter, hk, Option.some.injEq] at hstep
      exact hstep ▸ h.resetLoad hk hwaiter
    | none =>
      simp only [hwaiter, hk, Option.some.injEq] at hstep
      exact hstep ▸ h.resetDone hwaiter hk
  | resetSwap k wc rc expected =>
    simp only [hwaiter, Option.map_eq_some_iff] at hstep
    obtain ⟨c, hk, rfl⟩ := hstep
    exact h.resetSwap hk hwaiter
  | done r =>
    simp only [hwaiter] at hstep
    contradiction

end Yaclib.Wait
