import Yaclib.Algo.WaitGroup.Model

/-!
The counter of the group is what was added and not done, plus the futures that
a call has not attached yet or found ready, plus those that are attached, plus
those whose callback is run. `Set` is called once it has returned to zero.
-/

namespace Yaclib.WaitGroup

open Concurrency

variable {ι κ χ : Type}

namespace Place

/-- The share of the counter that the thread still has to subtract or to hand
over to a core. -/
@[simp] def share : Place ι κ → Nat
  | insert _ _ waitCount count | insertSwap _ _ _ waitCount count => count - waitCount
  | here _ _ => 1
  | _ => 0

/-- 1 if `Set` is next. -/
@[simp] def setting : Place ι κ → Nat
  | set => 1
  | _ => 0

/-- `wait_count` and the cores left are at most `count`. -/
@[simp] def Fits : Place ι κ → Prop
  | insert _ cores waitCount count => waitCount + cores.length ≤ count
  | insertSwap _ _ cores waitCount count => waitCount + cores.length + 1 ≤ count
  | _ => True

end Place

/-- 1 if the group's callback hangs on the core. -/
@[simp] def attached : Callback Hook → Nat
  | .ptr (some _) => 1
  | _ => 0

/-- The counter is what was added and is not done, with the shares of the threads and of the
attached cores. `Set` is called or about to be exactly when the counter was raised and is
back at zero. -/
structure Counter [Fintype κ] [Fintype χ] (s : State ι κ χ) : Prop where
  count_eq : s.count = s.adds + tally Place.share s.place + tally attached s.callback
  count_lt : s.count < 2 ^ 64
  raised_eq : s.raised = false → s.count = 0
  fits : ∀ c, (s.place c).Fits
  set_eq : s.event.sets + tally Place.setting s.place =
    if s.raised = true ∧ s.count = 0 then 1 else 0
variable {s t : State ι κ χ} {c : χ} {p : Place ι κ} {n : Nat}

theorem fits_update [DecidableEq χ] (h : ∀ d, (s.place d).Fits) (hp : p.Fits) (d : χ) :
    ((Function.update s.place c p) d).Fits := by
  by_cases hdc : d = c
  · rw [hdc, Function.update_self]
    exact hp
  · rw [Function.update_of_ne hdc]
    exact h d

variable [Fintype κ] [Fintype χ]

theorem fetchAdd_of_lt {count delta : Nat} (h : count + delta < 2 ^ 64) :
    fetchAdd count delta = count + delta :=
  Nat.mod_eq_of_lt h

theorem Counter.share_le (h : Counter s) (c : χ) : s.adds + (s.place c).share ≤ s.count := by
  have hle := le_tally Place.share s.place c
  have hcount := h.count_eq
  omega

/-- `Add`, and `InsertRange` with `NeedAdd`. -/
theorem Counter.add (h : Counter s) (hcan : s.canAdd n) (hcount : t.count = fetchAdd s.count n)
    (hraised : t.raised = (s.raised || decide (0 < n))) (hfits : ∀ c, (t.place c).Fits)
    (hshare : t.adds + tally Place.share t.place = s.adds + tally Place.share s.place + n)
    (hset : tally Place.setting t.place = tally Place.setting s.place)
    (hcallback : t.callback = s.callback) (hevent : t.event = s.event) : Counter t := by
  have hcounts := h.count_eq
  have hset' := h.set_eq
  rw [fetchAdd_of_lt hcan.2] at hcount
  refine ⟨?_, ?_, fun hfalse => ?_, hfits, ?_⟩
  · rw [hcount, hcallback]
    omega
  · rw [hcount]
    exact hcan.2
  · rw [hraised, Bool.or_eq_false_iff, decide_eq_false_iff_not] at hfalse
    have hzero := h.raised_eq hfalse.1
    omega
  · rw [hevent, hset, hset']
    rcases hcan.1 with hzero | hopen
    · rw [hraised, hcount, hzero, Nat.add_zero, decide_eq_false (Nat.lt_irrefl 0), Bool.or_false]
    · have hold : ¬ (s.raised = true ∧ s.count = 0) := by
        rintro ⟨htrue, hzero⟩
        rcases hopen with hfalse | hne
        · rw [hfalse] at htrue
          contradiction
        · exact hne hzero
      have hnew : ¬ (t.raised = true ∧ t.count = 0) := by
        rintro ⟨htrue, hzero⟩
        rw [hraised, Bool.or_eq_true, decide_eq_true_iff] at htrue
        rcases htrue with htrue | hpos
        · exact hold ⟨htrue, by omega⟩
        · omega
      rw [if_neg hold, if_neg hnew]

variable [DecidableEq χ]

theorem fetchSub_of_le {count delta : Nat} (hlt : count < 2 ^ 64) (hle : delta ≤ count) :
    fetchSub count delta = count - delta := by
  have hsum : count + (2 ^ 64 - delta) = count - delta + 2 ^ 64 := by omega
  rw [fetchSub, hsum, Nat.add_mod_right, Nat.mod_eq_of_lt (by omega)]

/-- A step that hands shares over. -/
theorem Counter.move (h : Counter s) (hplace : t.place = Function.update s.place c p)
    (hcount : t.count = s.count ∧ t.raised = s.raised)
    (hset : t.event.sets + p.setting = s.event.sets + (s.place c).setting) (hp : p.Fits)
    (hshare : t.adds + p.share + tally attached t.callback =
      s.adds + (s.place c).share + tally attached s.callback) : Counter t := by
  have hshares := tally_update Place.share s.place c p
  have hsets := tally_update Place.setting s.place c p
  have hcounts := h.count_eq
  have hset' := h.set_eq
  refine ⟨?_, ?_, ?_, ?_, ?_⟩
  · rw [hplace, hcount.1]
    omega
  · rw [hcount.1]
    exact h.count_lt
  · rw [hcount.1, hcount.2]
    exact h.raised_eq
  · rw [hplace]
    exact fits_update h.fits hp
  · rw [hplace, hcount.1, hcount.2, ← hset']
    omega

/-- `Sub` of operations that are counted. -/
theorem Counter.sub (h : Counter s) (hcount : s.count ≠ 0)
    (hidle : (s.place c).setting = 0) (adds : Nat) (hadds : adds + n = s.adds + (s.place c).share) :
    Counter ({ s with adds := adds }.sub c n) := by
  have hle := h.share_le c
  have hsub := fetchSub_of_le h.count_lt (show n ≤ s.count by omega)
  have hraised : s.raised = true := by
    by_contra hfalse
    exact hcount (h.raised_eq (by simpa using hfalse))
  obtain ⟨p, hp⟩ : ∃ p : Place ι κ, p = if s.count = n then .set else .idle := ⟨_, rfl⟩
  have hweights : p.share = 0 ∧ p.Fits ∧ p.setting = if s.count = n then 1 else 0 := by
    rw [hp]
    split <;> exact ⟨rfl, trivial, rfl⟩
  have hshares := tally_update Place.share s.place c p
  have hsets := tally_update Place.setting s.place c p
  have hcounts := h.count_eq
  have hset := h.set_eq
  rw [if_neg (fun hzero => hcount hzero.2)] at hset
  rw [State.sub, ← hp]
  refine ⟨?_, ?_, fun hfalse => ?_, fits_update h.fits hweights.2.1, ?_⟩
  · simp only [State.goto, hsub]
    omega
  · simp only [State.goto, hsub]
    have hlt := h.count_lt
    omega
  · simp only [State.goto, hraised] at hfalse
    contradiction
  · simp only [State.goto, hsub, hraised, true_and]
    by_cases hn : s.count = n
    · rw [if_pos (by omega)]
      rw [if_pos hn] at hweights
      omega
    · rw [if_neg (by omega)]
      rw [if_neg hn] at hweights
      omega

/-! The steps. -/

variable [DecidableEq κ] {k : κ} {cores : List κ} {move needAdd : Bool}

theorem Counter.refuse (h : Counter s) {w : Nat} (hp : w + cores.length ≤ n)
    (hshare : (s.place c).share = n - w) (hset : (s.place c).setting = 0) :
    Counter (refuse s c move k cores w n) := by
  unfold WaitGroup.refuse
  cases move with
  | true =>
    exact h.move (p := .insert true cores w n) rfl ⟨rfl, rfl⟩ (by rw [hset]; rfl) hp
      (by rw [hshare]; rfl)
  | false =>
    exact h.move (p := .insert false cores w n) rfl ⟨rfl, rfl⟩ (by rw [hset]; rfl) hp
      (by rw [hshare]; rfl)

theorem Counter.insertRange (h : Counter s) (hc : s.place c = .idle)
    (hadd : if needAdd then s.canAdd cores.length else cores.length ≤ s.adds)
    (hcores : s.canInsert cores) : Counter (insertRange s c move needAdd cores) := by
  have hpos : 0 < cores.length := List.length_pos_iff.mpr hcores.1
  have hfits : (Place.insert move cores 0 cores.length : Place ι κ).Fits := by
    simp only [Place.Fits]
    omega
  cases needAdd with
  | true =>
    rw [if_pos rfl] at hadd
    have hshares := tally_update Place.share s.place c (.insert move cores 0 cores.length)
    have hsets := tally_update Place.setting s.place c (.insert move cores 0 cores.length)
    rw [hc] at hshares hsets
    simp only [Place.share, Place.setting, Nat.sub_zero] at hshares hsets
    refine h.add hadd rfl ?_ (fits_update h.fits hfits) ?_ hsets rfl rfl
    · simp [WaitGroup.insertRange, State.goto, hpos]
    · simp only [WaitGroup.insertRange, State.goto, if_true]
      omega
  | false =>
    rw [if_neg Bool.false_ne_true] at hadd
    refine h.move (p := .insert move cores 0 cores.length) rfl ⟨rfl, ?_⟩ (by rw [hc]; rfl) hfits ?_
    · simp [WaitGroup.insertRange, State.goto]
    · rw [hc]
      simp only [WaitGroup.insertRange, State.goto, Place.share, Bool.false_eq_true, if_false]
      omega

variable [DecidableEq ι]

theorem Counter.advance (h : Counter s) (hstep : advance s c = some t) : Counter t := by
  unfold WaitGroup.advance at hstep
  have hfits := h.fits c
  have hle := h.share_le c
  cases hc : s.place c with
  | idle => simp [hc] at hstep
  | insert move cores w n =>
    rw [hc] at hfits hle
    simp only [Place.Fits, Place.share] at hfits hle
    cases cores with
    | nil =>
      simp only [hc, Option.some.injEq] at hstep
      subst hstep
      split
      · next hw =>
        exact h.move (p := .idle) rfl ⟨rfl, rfl⟩ (by rw [hc]; rfl) trivial
          (by rw [hc, hw]; simp [State.goto])
      · next hw =>
        have hlength : ([] : List κ).length = 0 := rfl
        refine h.sub (by omega) (by rw [hc]; rfl) s.adds ?_
        rw [hc]
        rfl
    | cons core cores =>
      rw [List.length_cons] at hfits
      simp only [hc, Option.some.injEq] at hstep
      subst hstep
      split
      · exact h.move (p := .insertSwap move core cores w n) rfl ⟨rfl, rfl⟩ (by rw [hc]; rfl)
          (by simp only [Place.Fits]; omega) (by rw [hc]; rfl)
      · exact h.refuse (by omega) (by rw [hc]; rfl) (by rw [hc]; rfl)
  | insertSwap move core cores w n =>
    rw [hc] at hfits hle
    simp only [Place.Fits, Place.share] at hfits hle
    simp only [hc, Option.some.injEq] at hstep
    subst hstep
    split
    · next hempty =>
      have hattached := tally_update attached s.callback core (.ptr (some (hook move)))
      rw [hempty] at hattached
      simp only [attached, Callback.kEmpty] at hattached
      refine h.move (p := .insert move cores (w + 1) n) rfl ⟨rfl, rfl⟩ (by rw [hc]; rfl)
        (by simp only [Place.Fits]; omega) ?_
      rw [hc]
      simp only [State.goto, Place.share]
      omega
    · exact h.refuse (by omega) (by rw [hc]; rfl) (by rw [hc]; rfl)
  | setResult core =>
    simp only [hc, Option.some.injEq] at hstep
    subst hstep
    have hattached := tally_update attached s.callback core .kResult
    unfold WaitGroup.setResult
    cases hcallback : s.callback core with
    | kResult =>
      rw [hcallback] at hattached
      exact h.move (p := .idle) rfl ⟨rfl, rfl⟩ (by rw [hc]; rfl) trivial
        (by rw [hc]; simp only [State.goto, attached, Place.share] at hattached ⊢; omega)
    | ptr p =>
      rw [hcallback] at hattached
      cases p with
      | none =>
        exact h.move (p := .idle) rfl ⟨rfl, rfl⟩ (by rw [hc]; rfl) trivial
          (by rw [hc]; simp only [State.goto, attached, Place.share] at hattached ⊢; omega)
      | some callback =>
        exact h.move (p := .here core callback) rfl ⟨rfl, rfl⟩ (by rw [hc]; rfl) trivial
          (by rw [hc]; simp only [State.goto, attached, Place.share] at hattached ⊢; omega)
  | here core callback =>
    rw [hc] at hle
    simp only [Place.share] at hle
    have hone : s.adds + 1 = s.adds + (s.place c).share := by rw [hc]; rfl
    cases callback with
    | call =>
      simp only [hc, Option.some.injEq] at hstep
      subst hstep
      exact h.sub (by omega) (by rw [hc]; rfl) s.adds hone
    | drop =>
      simp only [hc, Option.some.injEq] at hstep
      subst hstep
      have hrelease : Counter (s.decRef core) := ⟨h.1, h.2, h.3, h.4, h.5⟩
      exact hrelease.sub (show s.count ≠ 0 by omega)
        (show (s.place c).setting = 0 by rw [hc]; rfl) s.adds hone
  | set =>
    simp only [hc, Option.some.injEq] at hstep
    subst hstep
    have hnext : ∀ p : Option ι, (Place.next p : Place ι κ).Fits ∧
        (Place.next p : Place ι κ).setting = 0 ∧ (Place.next p : Place ι κ).share = 0 := by
      intro p
      cases p <;> exact ⟨trivial, rfl, rfl⟩
    have hsets : (s.event.setImpl .kAllDone).1.sets = s.event.sets + 1 := by
      unfold OneShotEvent.setImpl
      cases s.event.head <;> rfl
    refine h.move rfl ⟨rfl, rfl⟩ ?_ (hnext _).1 ?_
    · rw [hc, (hnext _).2.1]
      exact hsets
    · rw [hc, (hnext _).2.2]
      rfl
  | loop job =>
    simp only [hc, Option.some.injEq] at hstep
    subst hstep
    have hnext : ∀ p : Option ι, (Place.next p : Place ι κ).Fits ∧
        (Place.next p : Place ι κ).setting = 0 ∧ (Place.next p : Place ι κ).share = 0 := by
      intro p
      cases p <;> exact ⟨trivial, rfl, rfl⟩
    refine h.move rfl ⟨rfl, rfl⟩ ?_ (hnext _).1 ?_
    · rw [hc, (hnext _).2.1]
      rfl
    · rw [hc, (hnext _).2.2]
      rfl

theorem Counter.step (h : Counter s) {e : Event ι κ χ} (hstep : step s e = some t) :
    Counter t := by
  cases e with
  | add delta =>
    simp only [WaitGroup.step, Option.ite_none_right_eq_some, Option.some.injEq] at hstep
    obtain ⟨hcan, rfl⟩ := hstep
    exact h.add hcan rfl rfl h.fits (Nat.add_right_comm _ _ _) rfl rfl rfl
  | done c delta =>
    simp only [WaitGroup.step, Option.ite_none_right_eq_some, Option.some.injEq] at hstep
    obtain ⟨⟨hc, hle, hcount⟩, rfl⟩ := hstep
    exact h.sub hcount (by rw [hc]; rfl) _ (by rw [hc]; simp only [Place.share]; omega)
  | insertRange c move needAdd cores =>
    simp only [WaitGroup.step, Option.ite_none_right_eq_some, Option.some.injEq] at hstep
    obtain ⟨⟨hc, hcores, hadd⟩, rfl⟩ := hstep
    exact h.insertRange hc hadd hcores
  | promise c core =>
    simp only [WaitGroup.step, Option.ite_none_right_eq_some, Option.some.injEq] at hstep
    obtain ⟨⟨hc, -⟩, rfl⟩ := hstep
    exact h.move (p := .setResult core) rfl ⟨rfl, rfl⟩ (by rw [hc]; rfl) trivial (by rw [hc]; rfl)
  | advance c => exact h.advance hstep
  | wait i ready =>
    simp only [WaitGroup.step, Option.ite_none_right_eq_some, Option.some.injEq] at hstep
    obtain ⟨-, rfl⟩ := hstep
    exact ⟨h.1, h.2, h.3, h.4, h.5⟩
  | tryAdd i weak =>
    simp only [WaitGroup.step, Option.map_eq_some_iff] at hstep
    obtain ⟨event, hevent, rfl⟩ := hstep
    refine ⟨h.1, h.2, h.3, h.4, ?_⟩
    have hsets := (OneShotEvent.Tried.tryAdd hevent).sets_eq
    simp only [hsets]
    exact h.set_eq
  | relink i p =>
    simp only [WaitGroup.step, Option.ite_none_right_eq_some, Option.some.injEq] at hstep
    obtain ⟨-, rfl⟩ := hstep
    exact ⟨h.1, h.2, h.3, h.4, h.5⟩

end Yaclib.WaitGroup
