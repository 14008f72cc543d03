import Yaclib.Algo.WaitGroup.Counter

/-!
Those who wait for the group: nobody goes on before the event is set, and the
thread that sets it calls every job once.
-/

namespace Yaclib.WaitGroup

open Concurrency

variable {ι κ χ : Type}

/-- The job that the loop of `Set` calls next. -/
@[simp] def Place.rest : Place ι κ → Option ι
  | loop job => some job
  | _ => none

def State.rest (s : State ι κ χ) (c : χ) : Option ι :=
  (s.place c).rest

variable {s t : State ι κ χ} {c : χ} {p : Place ι κ}

theorem rest_goto [DecidableEq χ] (s : State ι κ χ) (c : χ) (p : Place ι κ) :
    (s.goto c p).rest = Function.update s.rest c p.rest := by
  funext d
  simp only [State.rest, State.goto]
  by_cases hdc : d = c
  · rw [hdc, Function.update_self, Function.update_self]
  · rw [Function.update_of_ne hdc, Function.update_of_ne hdc]
    rfl

theorem rest_stay [DecidableEq χ]
    (hp : p.rest = (s.place c).rest) : (s.goto c p).rest = s.rest := by
  rw [rest_goto, hp]
  exact Function.update_eq_self c s.rest

variable [DecidableEq ι]

/-- Nobody has passed the event or was woken before it is set, and everybody who was parked
was woken since or still waits in one of its lists. -/
structure Waiting [Fintype χ] (s : State ι κ χ) : Prop where
  linked : s.event.Linked s.rest
  head_iff : s.event.head = .kAllDone ↔ 0 < s.event.sets
  quiet : s.event.sets = 0 →
    (∀ i, s.event.passes i = 0 ∧ s.event.wakes i = 0) ∧ ∀ c, s.rest c = none
  parks_eq : ∀ i, s.event.parks i = s.event.wakes i + (s.event.pc i).waits
  derefs_eq : s.event.derefs = true

variable [Fintype χ]
variable {e : OneShotEvent ι} {i : ι}

/-- A step that leaves the event. -/
theorem Waiting.move (h : Waiting s) (hevent : t.event = s.event) (hrest : t.rest = s.rest) :
    Waiting t := by
  refine ⟨?_, ?_, fun hsets => ?_, ?_, ?_⟩
  · rw [hevent, hrest]
    exact h.linked
  · rw [hevent]
    exact h.head_iff
  · rw [hevent] at hsets ⊢
    rw [hrest]
    exact h.quiet hsets
  · rw [hevent]
    exact h.parks_eq
  · rw [hevent]
    exact h.derefs_eq

theorem Waiting.tryAdd (h : Waiting s) {weak : Bool} (hstep : s.event.tryAdd i weak = some e) :
    Waiting { s with event := e } := by
  have htried := OneShotEvent.Tried.tryAdd hstep
  refine ⟨h.linked.tryAdd hstep, ?_, fun hsets => ?_, fun j => ?_, ?_⟩
  · rw [htried.head_iff, htried.sets_eq]
    exact h.head_iff
  · simp only [htried.sets_eq] at hsets
    have hquiet := h.quiet hsets
    refine ⟨fun j => ⟨?_, ?_⟩, hquiet.2⟩
    · rcases htried.passes_eq with hpasses | hdone
      · simp only [hpasses]
        exact (hquiet.1 j).1
      · have hpos := h.head_iff.mp hdone
        omega
    · simp only [htried.wakes_eq]
      exact (hquiet.1 j).2
  · have hparks := htried.parks_eq j
    have hold := h.parks_eq j
    simp only [htried.wakes_eq]
    omega
  · simp only [htried.derefs_eq]
    exact h.derefs_eq

theorem Waiting.startWait (h : Waiting s) (hpc : s.event.pc i = .idle) {q : OneShotEvent.Pc ι}
    (hq : q.waits = 0) : Waiting { s with event := s.event.goto i q } := by
  have hwaits : q.waits = (s.event.pc i).waits := by
    rw [hq, hpc]
    rfl
  refine ⟨h.linked.goto hwaits, h.head_iff, h.quiet, fun j => ?_, h.derefs_eq⟩
  simp only [OneShotEvent.goto, OneShotEvent.waits_goto hwaits]
  exact h.parks_eq j

variable [DecidableEq χ]

theorem Waiting.goto (h : Waiting s) (hp : p.rest = (s.place c).rest) : Waiting (s.goto c p) :=
  h.move rfl (rest_stay hp)

/-- `Set` by the thread that has brought the counter to zero. -/
theorem Waiting.set (h : Waiting s) (hc : s.place c = .set) (hsets : s.event.sets = 0) :
    Waiting ({ s with event := (s.event.setImpl .kAllDone).1 }.goto c
      (.next (s.event.setImpl .kAllDone).2)) := by
  have hrest : s.rest c = none := by
    rw [State.rest, hc]
    rfl
  have hhead : s.event.head ≠ .kAllDone := by
    intro hdone
    have hpos := h.head_iff.mp hdone
    omega
  have hlinked := h.linked.setImpl hrest .kAllDone rfl
  have hnext : ∀ q : Option ι, (Place.next q : Place ι κ).rest = q := by
    intro q
    cases q <;> rfl
  have hfields : (s.event.setImpl .kAllDone).1 =
      { s.event with head := .kAllDone, sets := s.event.sets + 1 } := by
    unfold OneShotEvent.setImpl
    cases hword : s.event.head with
    | kAllDone => exact absurd hword hhead
    | ptr q => rfl
  refine ⟨?_, ?_, fun hzero => ?_, fun i => ?_, ?_⟩
  · rw [rest_goto, hnext]
    exact hlinked
  · simp only [State.goto, hfields]
    exact ⟨fun _ => Nat.succ_pos _, fun _ => trivial⟩
  · simp only [State.goto, hfields] at hzero
    omega
  · simp only [State.goto, hfields]
    exact h.parks_eq i
  · simp only [State.goto, hfields]
    exact h.derefs_eq

/-- A round of the loop of `Set`. -/
theorem Waiting.loop (h : Waiting s) {job : ι} (hc : s.place c = .loop job) :
    Waiting ({ s with event := (s.event.callJob job).1 }.goto c
      (.next (s.event.callJob job).2)) := by
  have hrest : s.rest c = some job := by
    rw [State.rest, hc]
    rfl
  obtain ⟨hpc, hlinked⟩ := h.linked.callJob hrest
  have hnext : ∀ q : Option ι, (Place.next q : Place ι κ).rest = q := by
    intro q
    cases q <;> rfl
  refine ⟨?_, h.head_iff, fun hzero => ?_, fun i => ?_, h.derefs_eq⟩
  · rw [rest_goto, hnext]
    exact hlinked
  · have hquiet := (h.quiet hzero).2 c
    rw [hrest] at hquiet
    contradiction
  · have hparks := h.parks_eq i
    simp only [State.goto, OneShotEvent.callJob, OneShotEvent.goto]
    by_cases hij : i = job
    · subst hij
      rw [hpc] at hparks
      rw [Function.update_self, Function.update_self]
      simp only [OneShotEvent.Pc.waits] at hparks ⊢
      omega
    · rw [Function.update_of_ne hij, Function.update_of_ne hij]
      exact hparks

/-! The steps. -/

variable [DecidableEq κ] [Fintype κ]

theorem Waiting.advance (h : Waiting s) (hcounter : Counter s) (hstep : advance s c = some t) :
    Waiting t := by
  have hrefuse : ∀ move core cores w n, (s.place c).rest = none →
      Waiting (refuse s c move core cores w n) := by
    intro move core cores w n hrest
    unfold refuse
    cases move
    · exact h.goto hrest.symm
    · exact h.move rfl (rest_stay (s := s) (p := .insert true cores w n) hrest.symm)
  have hsub : ∀ n, (s.place c).rest = none → Waiting (s.sub c n) := by
    intro n hrest
    refine h.move rfl (rest_stay (s := s) ?_)
    rw [hrest]
    split <;> rfl
  unfold WaitGroup.advance at hstep
  cases hc : s.place c with
  | idle => simp [hc] at hstep
  | insert move cores w n =>
    cases cores with
    | nil =>
      simp only [hc, Option.some.injEq] at hstep
      subst hstep
      split
      · exact h.goto (by rw [hc]; rfl)
      · exact hsub _ (by rw [hc]; rfl)
    | cons core cores =>
      simp only [hc, Option.some.injEq] at hstep
      subst hstep
      split
      · exact h.goto (by rw [hc]; rfl)
      · exact hrefuse move core cores w n (by rw [hc]; rfl)
  | insertSwap move core cores w n =>
    simp only [hc, Option.some.injEq] at hstep
    subst hstep
    split
    · exact h.move rfl (rest_stay (s := s) (p := .insert move cores (w + 1) n) (by rw [hc]; rfl))
    · exact hrefuse move core cores w n (by rw [hc]; rfl)
  | setResult core =>
    simp only [hc, Option.some.injEq] at hstep
    subst hstep
    refine h.move rfl (rest_stay (s := s) ?_)
    rw [hc]
    cases (s.callback core).toPtr <;> rfl
  | here core callback =>
    cases callback <;> simp only [hc, Option.some.injEq] at hstep <;> subst hstep
    · exact hsub 1 (by rw [hc]; rfl)
    · exact (hsub 1 (by rw [hc]; rfl)).move rfl rfl
  | set =>
    simp only [hc, Option.some.injEq] at hstep
    subst hstep
    have hle := le_tally_of Place.setting hc
    have hset := hcounter.set_eq
    simp only [Place.setting] at hle
    apply h.set hc
    split at hset <;> omega
  | loop job =>
    simp only [hc, Option.some.injEq] at hstep
    subst hstep
    exact h.loop hc

theorem Waiting.step (h : Waiting s) (hcounter : Counter s) {e : Event ι κ χ}
    (hstep : step s e = some t) : Waiting t := by
  cases e with
  | add delta =>
    simp only [WaitGroup.step, Option.ite_none_right_eq_some, Option.some.injEq] at hstep
    obtain ⟨-, rfl⟩ := hstep
    exact h.move rfl rfl
  | done c delta =>
    simp only [WaitGroup.step, Option.ite_none_right_eq_some, Option.some.injEq] at hstep
    obtain ⟨⟨hc, -, -⟩, rfl⟩ := hstep
    refine h.move rfl (rest_stay (s := s) ?_)
    rw [hc]
    split <;> rfl
  | insertRange c move needAdd cores =>
    simp only [WaitGroup.step, Option.ite_none_right_eq_some, Option.some.injEq] at hstep
    obtain ⟨⟨hc, -, -⟩, rfl⟩ := hstep
    exact h.move rfl (rest_stay (s := s) (p := .insert move cores 0 cores.length)
      (by rw [hc]; rfl))
  | promise c core =>
    simp only [WaitGroup.step, Option.ite_none_right_eq_some, Option.some.injEq] at hstep
    obtain ⟨⟨hc, -⟩, rfl⟩ := hstep
    exact h.move rfl (rest_stay (s := s) (p := .setResult core) (by rw [hc]; rfl))
  | advance c => exact h.advance hcounter hstep
  | wait i ready =>
    simp only [WaitGroup.step, Option.ite_none_right_eq_some, Option.some.injEq] at hstep
    obtain ⟨hpc, rfl⟩ := hstep
    apply h.startWait hpc
    split <;> rfl
  | tryAdd i weak =>
    simp only [WaitGroup.step, Option.map_eq_some_iff] at hstep
    obtain ⟨event, hevent, rfl⟩ := hstep
    exact h.tryAdd hevent
  | relink i p =>
    simp only [WaitGroup.step, Option.ite_none_right_eq_some, Option.some.injEq] at hstep
    obtain ⟨hpc, rfl⟩ := hstep
    exact ⟨h.linked.link (by simp [hpc]) p, h.head_iff, h.quiet, h.parks_eq, h.derefs_eq⟩

end Yaclib.WaitGroup
