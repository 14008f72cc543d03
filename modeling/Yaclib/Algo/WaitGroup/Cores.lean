import Yaclib.Algo.WaitGroup.Counter

/-!
The cores of the futures: a consumed one is released once, by the callback or by
the call that found the result, and an attached one is never released.
-/

namespace Yaclib.WaitGroup

open Concurrency

variable {ι κ χ : Type} [DecidableEq κ]

namespace Place

/-- 1 if the thread, or the call it is in, is to release the core. -/
@[simp] def drops (k : κ) : Place ι κ → Nat
  | insert true cores _ _ => cores.count k
  | insertSwap true core cores _ _ => (core :: cores).count k
  | here core .drop => [core].count k
  | _ => 0

/-- 1 if the exchange of `SetResult` is next. -/
@[simp] def stores (k : κ) : Place ι κ → Nat
  | setResult core => [core].count k
  | _ => 0

end Place

/-- 1 if the callback releases the core. -/
@[simp] def dropping : Callback Hook → Nat
  | .ptr (some .drop) => 1
  | _ => 0

@[simp] def resulted : Callback Hook → Nat
  | .kResult => 1
  | _ => 0

/-- A core whose future was consumed was released, or a thread or its callback is to do that,
once. At most one thread is to attach to a core, which is free then, and its promise is
fulfilled once. -/
structure Cores [Fintype χ] (s : State ι κ χ) : Prop where
  released_eq : ∀ k, s.released k + tally (Place.drops k) s.place + dropping (s.callback k) =
    if s.owned k = true then 0 else 1
  single : ∀ k, tally (fun p : Place ι κ => p.cores.count k) s.place ≤ 1
  free : ∀ c, ∀ k ∈ (s.place c).cores, attached (s.callback k) = 0
  result_eq : ∀ k,
    resulted (s.callback k) + tally (Place.stores k) s.place + (s.promise k).toNat = 1

variable {s t : State ι κ χ} {c : χ} {p : Place ι κ} {k core : κ}
variable {cores : List κ} {move : Bool}

theorem count_cons_le (k : κ) : cores.count k ≤ (core :: cores).count k :=
  List.count_le_count_cons

theorem next_quiet (q : Option ι) : (Place.next q : Place ι κ).cores = [] ∧
    ∀ k, (Place.next q : Place ι κ).drops k = 0 ∧ (Place.next q : Place ι κ).stores k = 0 := by
  cases q <;> exact ⟨rfl, fun _ => ⟨rfl, rfl⟩⟩

theorem count_one (k core : κ) : [core].count k = if k = core then 1 else 0 := by
  rw [List.count_singleton]
  by_cases hk : k = core
  · simp [hk]
  · simp [hk, Ne.symm hk]

variable [DecidableEq χ] [Fintype χ]

/-- A step of one thread. -/
theorem Cores.step_thread (h : Cores s) (hplace : t.place = Function.update s.place c p)
    (howned : t.owned = s.owned)
    (hcores : ∀ k, p.cores.count k ≤ (s.place c).cores.count k)
    (hreleased : ∀ k, t.released k + p.drops k + dropping (t.callback k) =
      s.released k + (s.place c).drops k + dropping (s.callback k))
    (hresult : ∀ k, resulted (t.callback k) + p.stores k + (t.promise k).toNat =
      resulted (s.callback k) + (s.place c).stores k + (s.promise k).toNat)
    (hfree : ∀ k, attached (s.callback k) = 0 → attached (t.callback k) = 0 ∨
      p.cores.count k < (s.place c).cores.count k) : Cores t := by
  have hmem : ∀ k, ∀ d, k ∈ ((Function.update s.place c p) d).cores → k ∈ (s.place d).cores := by
    intro k d hk
    by_cases hdc : d = c
    · rw [hdc, Function.update_self] at hk
      rw [hdc]
      exact List.count_pos_iff.mp ((List.count_pos_iff.mpr hk).trans_le (hcores k))
    · rwa [Function.update_of_ne hdc] at hk
  refine ⟨fun k => ?_, fun k => ?_, fun d k hk => ?_, fun k => ?_⟩
  · have hupdate := tally_update (Place.drops k) s.place c p
    have hold := h.released_eq k
    have hk := hreleased k
    rw [hplace, howned, ← hold]
    omega
  · have hupdate := tally_update (fun p : Place ι κ => p.cores.count k) s.place c p
    have hold := h.single k
    have hk := hcores k
    rw [hplace]
    omega
  · rw [hplace] at hk
    have hin := hmem k d hk
    rcases hfree k (h.free d k hin) with hzero | hlt
    · exact hzero
    · -- the thread gave the core away, and no other thread has it
      have hpos : 0 < (s.place c).cores.count k := by omega
      have hsingle := h.single k
      have hupdate := tally_update (fun p : Place ι κ => p.cores.count k) s.place c p
      have hle := le_tally (fun p : Place ι κ => p.cores.count k) (Function.update s.place c p) d
      have hposd := List.count_pos_iff.mpr hk
      omega
  · have hupdate := tally_update (Place.stores k) s.place c p
    have hold := h.result_eq k
    have hk := hresult k
    rw [hplace, ← hold]
    omega

/-- A step of one thread that leaves the cores. -/
theorem Cores.goto (h : Cores s) (hcores : ∀ k, p.cores.count k ≤ (s.place c).cores.count k)
    (hdrops : ∀ k, p.drops k = (s.place c).drops k)
    (hstores : ∀ k, p.stores k = (s.place c).stores k) : Cores (s.goto c p) :=
  h.step_thread rfl rfl hcores (fun k => by rw [hdrops]; rfl) (fun k => by rw [hstores]; rfl)
    fun k hk => .inl hk

theorem Cores.refuse (h : Cores s) {w n : Nat} (hcores : (s.place c).cores = core :: cores)
    (hdrops : ∀ k, (s.place c).drops k = if move then (core :: cores).count k else 0)
    (hstores : ∀ k, (s.place c).stores k = 0) : Cores (refuse s c move core cores w n) := by
  unfold WaitGroup.refuse
  cases move with
  | false =>
    refine h.goto (fun k => ?_) (fun k => ?_) fun k => (hstores k).symm
    · rw [hcores]
      exact count_cons_le k
    · rw [hdrops]
      rfl
  | true =>
    refine h.step_thread (p := .insert true cores w n) rfl rfl (fun k => ?_) (fun k => ?_)
      (fun k => by rw [hstores]; rfl) fun k hk => .inl hk
    · rw [hcores]
      exact count_cons_le k
    · have hk := hdrops k
      rw [if_pos rfl] at hk
      rw [hk]
      simp only [State.goto, State.decRef, Place.drops, if_true]
      by_cases hcore : k = core
      · subst hcore
        rw [Function.update_self, List.count_cons_self]
        omega
      · rw [Function.update_of_ne hcore, List.count_cons_of_ne (Ne.symm hcore)]

/-- A step to a place that has to do with no core. -/
theorem Cores.leave (h : Cores s) (hp : p.cores = [] ∧ ∀ k, p.drops k = 0 ∧ p.stores k = 0)
    (hplace : ∀ k, (s.place c).drops k = 0 ∧ (s.place c).stores k = 0) : Cores (s.goto c p) := by
  refine h.goto (fun k => ?_) (fun k => ?_) (fun k => ?_)
  · rw [hp.1]
    exact Nat.zero_le _
  · rw [(hp.2 k).1, (hplace k).1]
  · rw [(hp.2 k).2, (hplace k).2]

theorem Cores.sub (h : Cores s) (n : Nat)
    (hplace : ∀ k, (s.place c).drops k = 0 ∧ (s.place c).stores k = 0) : Cores (s.sub c n) := by
  have hleave := h.leave (c := c) (p := if s.count = n then .set else .idle)
    (by split <;> exact ⟨rfl, fun _ => ⟨rfl, rfl⟩⟩) hplace
  exact ⟨hleave.1, hleave.2, hleave.3, hleave.4⟩

/-- `SetCallback` of the next core succeeds. -/
theorem Cores.attach (h : Cores s) {w n : Nat} (hc : s.place c = .insertSwap move core cores w n)
    (hempty : s.callback core = .kEmpty) :
    Cores ({ s with callback := Function.update s.callback core (.ptr (some (hook move))) }.goto c
      (.insert move cores (w + 1) n)) := by
  refine h.step_thread (p := .insert move cores (w + 1) n) rfl rfl (fun k => ?_) (fun k => ?_)
    (fun k => ?_) (fun k hk => ?_)
  · rw [hc]
    exact count_cons_le k
  · rw [hc]
    simp only [State.goto]
    by_cases hcore : k = core
    · subst hcore
      rw [Function.update_self, hempty]
      cases move
      · rfl
      · simp only [Place.drops, List.count_cons_self]
        rfl
    · rw [Function.update_of_ne hcore]
      cases move
      · rfl
      · simp only [Place.drops, List.count_cons_of_ne (Ne.symm hcore)]
  · rw [hc]
    simp only [State.goto]
    by_cases hcore : k = core
    · subst hcore
      rw [Function.update_self, hempty]
      rfl
    · rw [Function.update_of_ne hcore]
      rfl
  · simp only [State.goto]
    by_cases hcore : k = core
    · subst hcore
      right
      rw [hc]
      simp only [Place.cores, List.count_cons_self]
      omega
    · left
      rwa [Function.update_of_ne hcore]

/-- The exchange of `SetResult`. -/
theorem Cores.setResult (h : Cores s) (hc : s.place c = .setResult core) :
    Cores (setResult s c core) := by
  have hresult := h.result_eq core
  have hle := le_tally_of (Place.stores core) hc
  simp only [Place.stores, List.count_singleton_self] at hle
  have hsplit : ∃ p : Place ι κ, WaitGroup.setResult s c core =
      { s with callback := Function.update s.callback core .kResult }.goto c p ∧ p.cores = [] ∧
      ∀ k, p.stores k = 0 ∧ p.drops k = if k = core then dropping (s.callback core) else 0 := by
    unfold WaitGroup.setResult
    cases hcallback : s.callback core with
    | kResult => exact ⟨.idle, rfl, rfl, fun k => ⟨rfl, by simp⟩⟩
    | ptr q =>
      cases q with
      | none => exact ⟨.idle, rfl, rfl, fun k => ⟨rfl, by simp⟩⟩
      | some callback =>
        refine ⟨.here core callback, rfl, rfl, fun k => ⟨rfl, ?_⟩⟩
        cases callback with
        | call => simp
        | drop => exact count_one k core
  obtain ⟨p, hstep, hplace⟩ := hsplit
  rw [hstep]
  refine h.step_thread (p := p) rfl rfl (fun k => ?_) (fun k => ?_) (fun k => ?_) (fun k hk => ?_)
  · rw [hplace.1]
    exact Nat.zero_le _
  · rw [hc, (hplace.2 k).2]
    simp only [State.goto, Place.drops]
    by_cases hcore : k = core
    · subst hcore
      rw [Function.update_self, if_pos rfl]
      rfl
    · rw [Function.update_of_ne hcore, if_neg hcore]
  · rw [hc, (hplace.2 k).1]
    simp only [State.goto, Place.stores]
    by_cases hcore : k = core
    · subst hcore
      have hone : resulted .kResult = 1 := rfl
      rw [Function.update_self, List.count_singleton_self]
      omega
    · rw [Function.update_of_ne hcore, count_one, if_neg hcore]
  · left
    simp only [State.goto]
    by_cases hcore : k = core
    · rw [hcore, Function.update_self]
      rfl
    · rwa [Function.update_of_ne hcore]

/-- `DropCallback` releases the core. -/
theorem Cores.drop (h : Cores s) (hc : s.place c = .here core .drop) (n : Nat) :
    Cores ((s.decRef core).sub c n) := by
  obtain ⟨p, hp⟩ : ∃ p : Place ι κ, p = if s.count = n then .set else .idle := ⟨_, rfl⟩
  have hplace : p.cores = [] ∧ ∀ k, p.drops k = 0 ∧ p.stores k = 0 := by
    rw [hp]
    split <;> exact ⟨rfl, fun _ => ⟨rfl, rfl⟩⟩
  refine h.step_thread (p := p) (by rw [hp]; rfl) rfl (fun k => ?_) (fun k => ?_) (fun k => ?_)
    fun k hk => .inl hk
  · rw [hplace.1]
    exact Nat.zero_le _
  · rw [hc, (hplace.2 k).1]
    simp only [State.sub, State.decRef, State.goto, Place.drops]
    by_cases hcore : k = core
    · subst hcore
      rw [Function.update_self, List.count_singleton_self]
    · rw [Function.update_of_ne hcore, count_one, if_neg hcore]
  · rw [hc, (hplace.2 k).2]
    rfl

theorem Cores.insertRange (h : Cores s) (hc : s.place c = .idle) (hcores : s.canInsert cores)
    (needAdd : Bool) : Cores (insertRange s c move needAdd cores) := by
  obtain ⟨-, hnodup, hfree⟩ := hcores
  refine ⟨fun k => ?_, fun k => ?_, fun d k hk => ?_, fun k => ?_⟩
  · have hold := h.released_eq k
    have hupdate := tally_update (Place.drops k) s.place c (.insert move cores 0 cores.length)
    rw [hc] at hupdate
    simp only [WaitGroup.insertRange, State.goto]
    cases move with
    | false =>
      simp only [Bool.false_and, Bool.not_false, Bool.and_true]
      simp only [Place.drops] at hupdate
      omega
    | true =>
      simp only [Place.drops] at hupdate
      by_cases hk : k ∈ cores
      · rw [if_pos (hfree k hk).1] at hold
        have hone : cores.count k = 1 := List.count_eq_one_of_mem hnodup hk
        simp only [hk, decide_true, Bool.and_true, Bool.not_true, Bool.and_false,
          Bool.false_eq_true, if_false]
        omega
      · have hnone : cores.count k = 0 := List.count_eq_zero.mpr hk
        simp only [hk, decide_false, Bool.and_false, Bool.not_false, Bool.and_true]
        omega
  · have hold := h.single k
    have hupdate := tally_update (fun p : Place ι κ => p.cores.count k) s.place c
      (.insert move cores 0 cores.length)
    rw [hc] at hupdate
    change _ + 0 = _ + cores.count k at hupdate
    simp only [WaitGroup.insertRange, State.goto]
    by_cases hk : k ∈ cores
    · have hone : cores.count k = 1 := List.count_eq_one_of_mem hnodup hk
      have hnone : tally (fun p : Place ι κ => p.cores.count k) s.place = 0 :=
        tally_eq_zero.mpr fun d => List.count_eq_zero.mpr ((hfree k hk).2.2 d)
      omega
    · have hnone : cores.count k = 0 := List.count_eq_zero.mpr hk
      omega
  · simp only [WaitGroup.insertRange, State.goto] at hk ⊢
    by_cases hdc : d = c
    · rw [hdc, Function.update_self] at hk
      rcases (hfree k hk).2.1 with hempty | hresult
      · rw [hempty]
        rfl
      · rw [hresult]
        rfl
    · rw [Function.update_of_ne hdc] at hk
      exact h.free d k hk
  · simp only [WaitGroup.insertRange, State.goto]
    rw [tally_stay (by rw [hc]; rfl)]
    exact h.result_eq k

/-- A promise is fulfilled or dropped. -/
theorem Cores.promise (h : Cores s) (hc : s.place c = .idle) (hpromise : s.promise core = true) :
    Cores ({ s with promise := Function.update s.promise core false }.goto c
      (.setResult core)) := by
  refine h.step_thread (p := .setResult core) rfl rfl (fun k => Nat.zero_le _) (fun k => ?_)
    (fun k => ?_) fun k hk => .inl hk
  · rw [hc]
    rfl
  · rw [hc]
    simp only [State.goto, Place.stores]
    by_cases hcore : k = core
    · subst hcore
      rw [Function.update_self, hpromise, List.count_singleton_self]
      simp only [Bool.toNat_false, Bool.toNat_true]
    · rw [Function.update_of_ne hcore, count_one, if_neg hcore]

variable [DecidableEq ι]

theorem Cores.advance (h : Cores s) (hstep : advance s c = some t) : Cores t := by
  unfold WaitGroup.advance at hstep
  cases hc : s.place c with
  | idle => simp [hc] at hstep
  | insert move cores w n =>
    cases cores with
    | nil =>
      have hquiet : ∀ k, (s.place c).drops k = 0 ∧ (s.place c).stores k = 0 := by
        intro k
        rw [hc]
        cases move <;> exact ⟨rfl, rfl⟩
      simp only [hc, Option.some.injEq] at hstep
      subst hstep
      split
      · exact h.leave ⟨rfl, fun _ => ⟨rfl, rfl⟩⟩ hquiet
      · exact h.sub _ hquiet
    | cons core cores =>
      simp only [hc, Option.some.injEq] at hstep
      subst hstep
      split
      · refine h.goto (fun k => ?_) (fun k => ?_) (fun k => ?_)
        · rw [hc]
          exact Nat.le_refl _
        · rw [hc]
          cases move <;> rfl
        · rw [hc]
          rfl
      · refine h.refuse (by rw [hc]; rfl) (fun k => ?_) (fun k => ?_)
        · rw [hc]
          cases move <;> rfl
        · rw [hc]
          rfl
  | insertSwap move core cores w n =>
    simp only [hc, Option.some.injEq] at hstep
    subst hstep
    split
    · next hempty => exact h.attach hc hempty
    · refine h.refuse (by rw [hc]; rfl) (fun k => ?_) (fun k => ?_)
      · rw [hc]
        cases move <;> rfl
      · rw [hc]
        rfl
  | setResult core =>
    simp only [hc, Option.some.injEq] at hstep
    subst hstep
    exact h.setResult hc
  | here core callback =>
    cases callback with
    | call =>
      simp only [hc, Option.some.injEq] at hstep
      subst hstep
      exact h.sub 1 fun k => by rw [hc]; exact ⟨rfl, rfl⟩
    | drop =>
      simp only [hc, Option.some.injEq] at hstep
      subst hstep
      exact h.drop hc 1
  | set =>
    simp only [hc, Option.some.injEq] at hstep
    subst hstep
    have hleave := h.leave (c := c) (next_quiet (s.event.setImpl .kAllDone).2)
      fun k => by rw [hc]; exact ⟨rfl, rfl⟩
    exact ⟨hleave.1, hleave.2, hleave.3, hleave.4⟩
  | loop job =>
    simp only [hc, Option.some.injEq] at hstep
    subst hstep
    have hleave := h.leave (c := c) (next_quiet (s.event.callJob job).2)
      fun k => by rw [hc]; exact ⟨rfl, rfl⟩
    exact ⟨hleave.1, hleave.2, hleave.3, hleave.4⟩

theorem Cores.step (h : Cores s) {e : Event ι κ χ} (hstep : step s e = some t) : Cores t := by
  cases e with
  | add delta =>
    simp only [WaitGroup.step, Option.ite_none_right_eq_some, Option.some.injEq] at hstep
    obtain ⟨-, rfl⟩ := hstep
    exact ⟨h.1, h.2, h.3, h.4⟩
  | done c delta =>
    simp only [WaitGroup.step, Option.ite_none_right_eq_some, Option.some.injEq] at hstep
    obtain ⟨⟨hc, -, -⟩, rfl⟩ := hstep
    have hsub := h.sub (c := c) delta fun k => by rw [hc]; exact ⟨rfl, rfl⟩
    exact ⟨hsub.1, hsub.2, hsub.3, hsub.4⟩
  | insertRange c move needAdd cores =>
    simp only [WaitGroup.step, Option.ite_none_right_eq_some, Option.some.injEq] at hstep
    obtain ⟨⟨hc, hcores, -⟩, rfl⟩ := hstep
    exact h.insertRange hc hcores needAdd
  | promise c core =>
    simp only [WaitGroup.step, Option.ite_none_right_eq_some, Option.some.injEq] at hstep
    obtain ⟨⟨hc, hpromise⟩, rfl⟩ := hstep
    exact h.promise hc hpromise
  | advance c => exact h.advance hstep
  | wait i ready =>
    simp only [WaitGroup.step, Option.ite_none_right_eq_some, Option.some.injEq] at hstep
    obtain ⟨-, rfl⟩ := hstep
    exact ⟨h.1, h.2, h.3, h.4⟩
  | tryAdd i weak =>
    simp only [WaitGroup.step, Option.map_eq_some_iff] at hstep
    obtain ⟨event, -, rfl⟩ := hstep
    exact ⟨h.1, h.2, h.3, h.4⟩
  | relink i p =>
    simp only [WaitGroup.step, Option.ite_none_right_eq_some, Option.some.injEq] at hstep
    obtain ⟨-, rfl⟩ := hstep
    exact ⟨h.1, h.2, h.3, h.4⟩

end Yaclib.WaitGroup
