import Yaclib.Runtime.FairThreadPool.Jobs

/-!
`_jobs_count` and the wake-ups, for fewer than `2 ^ 62` jobs at a time: the pool
stops neither too early nor too late.
-/

namespace Yaclib.FairThreadPool

open Concurrency

variable {ι κ χ : Type}

namespace Worker

/-- 1 while the worker has a job that it has not counted down yet. -/
@[simp] def runs : Worker ι → Nat
  | call _ | calling _ => 1
  | _ => 0

/-- On its way to look at the queue. -/
@[simp] def awake : Worker ι → Bool
  | lock | call _ | calling _ => true
  | _ => false

end Worker

def State.running [Fintype κ] (s : State ι κ χ) : Nat :=
  tally Worker.runs s.worker

/-- The jobs that the pool holds fit in the counter. -/
abbrev Few [Fintype κ] (s : State ι κ χ) : Prop :=
  s.jobs.length + s.running < 2 ^ 62

/-- All workers wait and nobody is about to notify them. -/
def AllWait (s : State ι κ χ) : Prop :=
  (∀ k, s.worker k = .waiting) ∧
    ∀ c, s.caller c ≠ .notifyOne ∧ ∀ jobs, s.caller c ≠ .notifyAll jobs

/-- `_jobs_count` packs the number of jobs that are queued, run or were seized by `HardStop`
with the two flags. A pool that is to stop softly and has not stopped has a job left. -/
structure Counted [Fintype κ] (s : State ι κ χ) : Prop where
  packed : Packed s.jobsCount (s.jobs.length + s.running + s.seized.length) s.wanted s.stopped
  wanted : s.wanted = true → s.stopped = false → 0 < s.jobs.length + s.running
variable {s t : State ι κ χ} {c : χ} {k : κ} {p : Caller ι κ} {u : Worker ι} {job : ι}

/-- A nonempty queue is in sight of a notification or of a worker. -/
def Seen (s : State ι κ χ) : Prop :=
  s.jobs ≠ [] → (∃ c, s.caller c = .notifyOne) ∨ ∃ k, (s.worker k).awake = true

/-- A caller moves that was not about to notify a worker. -/
theorem Seen.goto [DecidableEq χ] (h : Seen s) (hc : s.caller c ≠ .notifyOne) (p : Caller ι κ) :
    Seen (s.goto c p) := by
  intro hjobs
  rcases h hjobs with ⟨d, hd⟩ | hawake
  · have hdc : d ≠ c := by
      rintro rfl
      exact hc hd
    have hplace : (Function.update s.caller c p) d = .notifyOne := by
      rw [Function.update_of_ne hdc, hd]
    exact .inl ⟨d, hplace⟩
  · exact .inr hawake

theorem Seen.enter [DecidableEq χ] (h : Seen s) {f : Section ι} (hc : s.caller c = .lock f) :
    Seen (f.enter s c) := by
  have hne : s.caller c ≠ .notifyOne := by
    rw [hc]
    nofun
  cases f with
  | submit job =>
    simp only [Section.enter, submit]
    split
    · exact h.goto hne (.drop [job])
    · exact fun _ => .inl ⟨c, Function.update_self _ _ _⟩
  | softStop =>
    simp only [Section.enter, softStop]
    split
    · exact h.goto hne (.notifyAll [])
    · exact h.goto hne .idle
  | stop => exact h.goto hne (.notifyAll [])
  | hardStop => exact fun hjobs => absurd rfl hjobs

/-- A worker in its loop leaves no job unseen: it takes one, or the queue is empty. -/
theorem seen_loop [DecidableEq κ] (s : State ι κ χ) (k : κ) : Seen (loop s k) := by
  intro hjobs
  unfold loop at hjobs ⊢
  cases hs : s.jobs with
  | cons job jobs => exact .inr ⟨k, by simp [State.put]⟩
  | nil =>
    simp only [hs] at hjobs
    split at hjobs
    · exact absurd hs hjobs
    · split at hjobs <;> exact absurd hs hjobs

theorem Seen.notifyAll [DecidableEq ι] (h : Seen s) : Seen s.notifyAll := by
  intro hjobs
  rcases h hjobs with hnotify | ⟨k, hk⟩
  · exact .inl hnotify
  · refine .inr ⟨k, ?_⟩
    simp only [State.notifyAll]
    split
    · rfl
    · exact hk

variable [Fintype κ]

theorem Counted.stop (h : Counted s) : Counted s.stop :=
  ⟨h.packed.setStop, fun _ hstop => by simp [State.stop] at hstop⟩

theorem Counted.put [DecidableEq κ]
    (h : Counted s) (hu : u.runs = (s.worker k).runs) : Counted (s.put k u) := by
  have hrunning : (s.put k u).running = s.running := tally_stay hu
  refine ⟨?_, fun hwant hstop => ?_⟩
  · rw [hrunning]
    exact h.packed
  · rw [hrunning]
    exact h.wanted hwant hstop

variable [DecidableEq ι]

theorem Counted.notifyAll (h : Counted s) : Counted s.notifyAll := by
  have hrunning : s.notifyAll.running = s.running := by
    apply tally_congr
    intro k
    simp only [State.notifyAll]
    split
    · next hwaiting => rw [hwaiting]; rfl
    · rfl
  refine ⟨?_, fun hwant hstop => ?_⟩
  · rw [hrunning]
    exact h.packed
  · rw [hrunning]
    exact h.wanted hwant hstop

variable [Fintype χ]

/-- Nothing was seized before the stopped flag is set. -/
theorem Counted.seized_nil (h : Counted s) (hkept : Kept s) (hs : s.stopped = false) :
    s.hardStopped = false ∧ s.seized = [] := by
  have hopen : s.hardStopped = false := by
    by_contra hhard
    have hstop := (hkept.hardStopped (by simpa using hhard)).1
    rw [h.packed.wasStop_eq, hs] at hstop
    contradiction
  exact ⟨hopen, hkept.seized hopen⟩

theorem Counted.submit [DecidableEq χ]
    (h : Counted s) (hkept : Kept s) (hfew : Few (submit s c job)) :
    Counted (submit s c job) := by
  unfold FairThreadPool.submit at hfew ⊢
  split
  · exact ⟨h.packed, h.wanted⟩
  · next hopen =>
    rw [if_neg hopen] at hfew
    have hlt : (s.jobs ++ [job]).length + s.running < 2 ^ 62 := hfew
    have hstop : s.stopped = false := by
      rw [h.packed.wasStop_eq] at hopen
      simpa using hopen
    have hnil := (h.seized_nil hkept hstop).2
    have hpacked := h.packed
    rw [hnil, List.length_nil, Nat.add_zero] at hpacked
    rw [List.length_append, List.length_singleton] at hlt
    have hadd : Packed (s.jobsCount + 4) ((s.jobs ++ [job]).length + s.running + s.seized.length)
        s.wanted s.stopped := by
      rw [hnil, List.length_append, List.length_singleton, List.length_nil, Nat.add_zero,
        Nat.add_right_comm]
      exact hpacked.add (by omega)
    have hpos : 0 < (s.jobs ++ [job]).length + s.running := by
      rw [List.length_append, List.length_singleton]
      omega
    exact ⟨hadd, fun _ _ => hpos⟩

theorem Counted.enter [DecidableEq χ] (h : Counted s) (hkept : Kept s) {f : Section ι}
    (hfew : Few (f.enter s c)) : Counted (f.enter s c) := by
  cases f with
  | submit job => exact h.submit hkept hfew
  | softStop =>
    simp only [Section.enter, FairThreadPool.softStop]
    split
    · exact ⟨h.stop.packed, h.stop.wanted⟩
    · next hjobs =>
      refine ⟨h.packed.setWant, fun _ hstop => ?_⟩
      have hcount := mt h.packed.noJobs_iff.mpr hjobs
      rw [(h.seized_nil hkept hstop).2, List.length_nil] at hcount
      exact Nat.pos_of_ne_zero hcount
  | stop => exact ⟨h.stop.packed, h.stop.wanted⟩
  | hardStop =>
    have hpacked : Packed (s.jobsCount ||| 1) (0 + s.running + (s.seized ++ s.jobs).length)
        s.wanted true := by
      have hset := h.packed.setStop
      rw [List.length_append]
      rwa [show 0 + s.running + (s.seized.length + s.jobs.length) =
        s.jobs.length + s.running + s.seized.length by omega]
    exact ⟨hpacked, fun _ hstop => by simp [Section.enter, FairThreadPool.hardStop, State.stop,
      State.goto] at hstop⟩

variable [DecidableEq κ]

/-- The end of a critical section of `Loop`; the other workers run `n` jobs. -/
theorem counted_loop (hkept : Kept s) {n : Nat}
    (hrunning : ∀ u, tally Worker.runs (Function.update s.worker k u) = n + u.runs)
    (hpacked : Packed s.jobsCount (s.jobs.length + n + s.seized.length) s.wanted s.stopped) :
    Counted (loop s k) ∧ ((loop s k).worker k = .notifyAll →
      (loop s k).jobs = [] ∧ (loop s k).running = 0) := by
  unfold loop
  cases hjobs : s.jobs with
  | cons job jobs =>
    rw [hjobs, List.length_cons] at hpacked
    refine ⟨⟨?_, fun _ _ => ?_⟩, fun hk => ?_⟩
    · simp only [State.put, State.running, hrunning, Worker.runs]
      rwa [show jobs.length + (n + 1) = jobs.length + 1 + n by omega]
    · simp only [State.put, State.running, hrunning, Worker.runs]
      omega
    · simp [State.put] at hk
  | nil =>
    rw [hjobs, List.length_nil, Nat.zero_add] at hpacked
    have hput : ∀ {v : State ι κ χ} {u : Worker ι}, v.worker = s.worker → v.jobs = [] →
        u.runs = 0 → v.seized = s.seized →
        Packed v.jobsCount (n + s.seized.length) v.wanted v.stopped →
        (v.wanted = true → v.stopped = false → 0 < n) → Counted (v.put k u) := by
      intro v u hworker hnil hu hseized hcount hwanted
      refine ⟨?_, fun hwant hstop => ?_⟩
      · simp only [State.put, State.running, hworker, hrunning, hu, hnil, hseized, List.length_nil,
          Nat.zero_add, Nat.add_zero]
        exact hcount
      · simp only [State.put, State.running, hworker, hrunning, hu, hnil, List.length_nil,
          Nat.zero_add, Nat.add_zero]
        exact hwanted hwant hstop
    simp only
    split
    · next hstop =>
      rw [Bool.and_eq_true] at hstop
      have hzero := hpacked.noJobs_iff.mp hstop.1
      refine ⟨hput rfl hjobs rfl rfl hpacked.setStop fun _ hopen => ?_, fun _ => ⟨hjobs, ?_⟩⟩
      · simp [State.stop] at hopen
      · simp only [State.put, State.stop, State.running, hrunning, Worker.runs]
        omega
    · next hgo =>
      split
      · next hstop =>
        rw [hpacked.wasStop_eq] at hstop
        refine ⟨hput rfl hjobs rfl rfl hpacked fun _ hopen => ?_, fun hk => ?_⟩
        · rw [hstop] at hopen
          contradiction
        · simp [State.put] at hk
      · next hopen =>
        refine ⟨hput rfl hjobs rfl rfl hpacked fun hwant hstop => ?_, fun hk => ?_⟩
        · have hhard : s.hardStopped = false := by
            by_contra hhard
            exact hopen (hkept.hardStopped (by simpa using hhard)).1
          have hnoJobs : ¬ noJobs s.jobsCount = true := by
            intro hzero
            rw [hzero, hpacked.wantStop_eq, hwant] at hgo
            exact hgo rfl
          have hcount := mt hpacked.noJobs_iff.mpr hnoJobs
          rw [hkept.seized hhard, List.length_nil] at hcount
          omega
        · simp [State.put] at hk

theorem Counted.work (h : Counted s) (hkept : Kept s) (hstep : work s k = some t) :
    Counted t ∧ (t.worker k = .notifyAll → t.jobs = [] ∧ t.running = 0) := by
  have hupdate := tally_update Worker.runs s.worker k
  unfold FairThreadPool.work at hstep
  cases hk : s.worker k with
  | lock =>
    simp only [hk, Option.some.injEq] at hstep
    subst hstep
    refine counted_loop hkept (n := s.running) (fun u => ?_) h.packed
    have hu := hupdate u
    rwa [hk] at hu
  | call job =>
    simp only [hk, Option.some.injEq] at hstep
    subst hstep
    have hput := h.put (k := k) (u := .calling job) (by rw [hk]; rfl)
    refine ⟨⟨hput.packed, hput.wanted⟩, fun hnotify => ?_⟩
    simp [State.put] at hnotify
  | calling job =>
    simp only [hk, Option.some.injEq] at hstep
    subst hstep
    -- the worker counts its job down before it looks at the queue
    have hle := le_tally Worker.runs s.worker k
    rw [hk] at hle
    simp only [Worker.runs] at hle
    have hpos : 0 < s.running := hle
    refine counted_loop (hkept.recount (wasStop_sub _)) (n := s.running - 1) (fun u => ?_) ?_
    · have hu := hupdate u
      rw [hk] at hu
      simp only [State.running, Worker.runs] at hu hpos ⊢
      omega
    · apply Packed.sub
      rw [show s.jobs.length + (s.running - 1) + s.seized.length + 1 =
        s.jobs.length + s.running + s.seized.length by omega]
      exact h.packed
  | waiting | exited => simp [hk] at hstep
  | notifyAll =>
    simp only [hk, Option.some.injEq] at hstep
    subst hstep
    refine ⟨h.notifyAll.put (by simp [State.notifyAll, hk]), fun hnotify => ?_⟩
    simp [State.put] at hnotify

theorem Seen.work (hkept : Kept s) (hstep : work s k = some t) : Seen t := by
  unfold FairThreadPool.work at hstep
  cases hk : s.worker k with
  | lock =>
    simp only [hk, Option.some.injEq] at hstep
    subst hstep
    exact seen_loop s k
  | call job =>
    simp only [hk, Option.some.injEq] at hstep
    subst hstep
    exact fun _ => .inr ⟨k, by simp [State.put]⟩
  | calling job =>
    simp only [hk, Option.some.injEq] at hstep
    subst hstep
    exact seen_loop _ k
  | waiting | exited => simp [hk] at hstep
  | notifyAll =>
    simp only [hk, Option.some.injEq] at hstep
    subst hstep
    exact fun hjobs => absurd (hkept.ended k (by rw [hk]; rfl)).2 hjobs

variable [DecidableEq χ]

theorem Counted.advance (h : Counted s) (hkept : Kept s) {woken : Option κ}
    (hstep : advance s c woken = some t) (hfew : Few t) : Counted t := by
  unfold FairThreadPool.advance at hstep
  cases hc : s.caller c with
  | idle => simp [hc] at hstep
  | lock f =>
    simp only [hc, Option.some.injEq] at hstep
    subst hstep
    exact h.enter hkept hfew
  | notifyOne =>
    cases woken with
    | none =>
      simp only [hc, Option.ite_none_right_eq_some, Option.some.injEq] at hstep
      obtain ⟨-, rfl⟩ := hstep
      exact ⟨h.packed, h.wanted⟩
    | some k =>
      simp only [hc, Option.ite_none_right_eq_some, Option.some.injEq] at hstep
      obtain ⟨hk, rfl⟩ := hstep
      have hput := h.put (k := k) (u := .lock) (by rw [hk]; rfl)
      exact ⟨hput.packed, hput.wanted⟩
  | notifyAll jobs =>
    simp only [hc, Option.some.injEq] at hstep
    subst hstep
    exact ⟨h.notifyAll.packed, h.notifyAll.wanted⟩
  | drop jobs =>
    cases jobs <;> simp only [hc, Option.some.injEq] at hstep <;> subst hstep <;>
      exact ⟨h.packed, h.wanted⟩
  | join workers =>
    cases workers with
    | nil =>
      simp only [hc, Option.some.injEq] at hstep
      subst hstep
      exact ⟨h.packed, h.wanted⟩
    | cons l workers =>
      simp only [hc, Option.ite_none_right_eq_some, Option.some.injEq] at hstep
      obtain ⟨-, rfl⟩ := hstep
      exact ⟨h.packed, h.wanted⟩

theorem Counted.step (h : Counted s) (hkept : Kept s) {e : Event ι κ χ}
    (hstep : step s e = some t) (hfew : Few t) : Counted t := by
  cases e with
  | call c f =>
    cases f <;>
      simp only [FairThreadPool.step, Option.ite_none_right_eq_some, Option.some.injEq] at hstep <;>
      obtain ⟨-, rfl⟩ := hstep <;> exact ⟨h.packed, h.wanted⟩
  | wait c =>
    simp only [FairThreadPool.step, Option.ite_none_right_eq_some, Option.some.injEq] at hstep
    obtain ⟨-, rfl⟩ := hstep
    exact ⟨h.packed, h.wanted⟩
  | advance c woken => exact h.advance hkept hstep hfew
  | work k => exact (h.work hkept hstep).1
  | wake k =>
    simp only [FairThreadPool.step, Option.ite_none_right_eq_some, Option.some.injEq] at hstep
    obtain ⟨hk, rfl⟩ := hstep
    exact h.put (by rw [hk]; rfl)

theorem counted_of_reachable
    (hs : (system ι κ χ).ReachableIf (fun _ _ (t : State ι κ χ) => Few t) s) : Counted s := by
  induction hs with
  | init hi =>
    obtain ⟨workers, -, rfl⟩ := hi
    have hrunning : ({ workers := workers } : State ι κ χ).running = 0 := by
      simp [State.running, tally_const]
    refine ⟨?_, fun hwant => absurd hwant Bool.false_ne_true⟩
    rw [hrunning]
    rfl
  | step hs hstep hfew ih => exact ih.step (kept_of_reachable hs) hstep hfew

/-! The wake-ups. -/

theorem Seen.advance [Nonempty κ] (h : Seen s) (hkept : Kept s) {woken : Option κ}
    (hstep : advance s c woken = some t) : Seen t := by
  unfold FairThreadPool.advance at hstep
  cases hc : s.caller c with
  | idle => simp [hc] at hstep
  | lock f =>
    simp only [hc, Option.some.injEq] at hstep
    subst hstep
    exact h.enter hc
  | notifyOne =>
    cases woken with
    | none =>
      simp only [hc, Option.ite_none_right_eq_some, Option.some.injEq] at hstep
      obtain ⟨hbusy, rfl⟩ := hstep
      -- no worker waits: one that has left `Loop` left the queue empty
      intro hjobs
      obtain ⟨k⟩ := ‹Nonempty κ›
      refine .inr ⟨k, ?_⟩
      have hended := hkept.ended k
      have hwaiting := hbusy k
      simp only [State.goto] at hjobs ⊢
      cases hk : s.worker k with
      | lock | call _ | calling _ => rfl
      | waiting => exact absurd hk hwaiting
      | notifyAll | exited => exact absurd (hended (by rw [hk]; rfl)).2 hjobs
    | some k =>
      simp only [hc, Option.ite_none_right_eq_some, Option.some.injEq] at hstep
      obtain ⟨-, rfl⟩ := hstep
      exact fun _ => .inr ⟨k, by simp [State.goto, State.put]⟩
  | notifyAll jobs =>
    simp only [hc, Option.some.injEq] at hstep
    subst hstep
    exact h.notifyAll.goto (by simp [State.notifyAll, hc]) _
  | drop jobs =>
    have hne : s.caller c ≠ .notifyOne := by simp [hc]
    cases jobs <;> simp only [hc, Option.some.injEq] at hstep <;> subst hstep <;>
      exact h.goto hne _
  | join workers =>
    have hne : s.caller c ≠ .notifyOne := by simp [hc]
    cases workers with
    | nil =>
      simp only [hc, Option.some.injEq] at hstep
      subst hstep
      exact h.goto hne _
    | cons l workers =>
      simp only [hc, Option.ite_none_right_eq_some, Option.some.injEq] at hstep
      obtain ⟨-, rfl⟩ := hstep
      exact h.goto hne _

theorem Seen.step [Nonempty κ] (h : Seen s) (hkept : Kept s) {e : Event ι κ χ}
    (hstep : step s e = some t) : Seen t := by
  have hidle : ∀ c, s.caller c = .idle → s.caller c ≠ .notifyOne := by
    intro c hc
    rw [hc]
    nofun
  cases e with
  | call c f =>
    cases f with
    | submit job =>
      simp only [FairThreadPool.step, Option.ite_none_right_eq_some, Option.some.injEq] at hstep
      obtain ⟨⟨hc, -⟩, rfl⟩ := hstep
      exact h.goto (hidle c hc) _
    | softStop | stop | hardStop =>
      simp only [FairThreadPool.step, Option.ite_none_right_eq_some, Option.some.injEq] at hstep
      obtain ⟨hc, rfl⟩ := hstep
      exact h.goto (hidle c hc) _
  | wait c =>
    simp only [FairThreadPool.step, Option.ite_none_right_eq_some, Option.some.injEq] at hstep
    obtain ⟨⟨hc, -⟩, rfl⟩ := hstep
    exact h.goto (hidle c hc) _
  | advance c woken => exact h.advance hkept hstep
  | work k => exact Seen.work hkept hstep
  | wake k =>
    simp only [FairThreadPool.step, Option.ite_none_right_eq_some, Option.some.injEq] at hstep
    obtain ⟨-, rfl⟩ := hstep
    exact fun _ => .inr ⟨k, by simp [State.put]⟩

theorem seen_of_reachable [Nonempty κ]
    {C : State ι κ χ → Event ι κ χ → State ι κ χ → Prop}
    (hs : (system ι κ χ).ReachableIf C s) : Seen s := by
  induction hs with
  | init hi =>
    obtain ⟨workers, -, rfl⟩ := hi
    exact fun hjobs => absurd rfl hjobs
  | step hs hstep _ ih => exact ih.step (kept_of_reachable hs) hstep

/-- In every reachable state of the pool that holds fewer than `2 ^ 62` jobs at
a time: until `HardStop` the counter is the number of queued and running jobs,
and its two flags are those that were set; a worker that stops the pool leaves
no job queued or running; and the workers never all wait, with nobody about to
notify them, while a job is queued or while a wanted stop is due. -/
theorem job_count [Nonempty κ] (s : State ι κ χ)
    (hs : (system ι κ χ).ReachableIf (fun _ _ (t : State ι κ χ) => Few t) s) :
    (s.hardStopped = false → (s.jobsCount >>> 2).toNat = s.jobs.length + s.running ∧
      wantStop s.jobsCount = s.wanted ∧ wasStop s.jobsCount = s.stopped) ∧
    (∀ k t, step s (.work k) = some t → t.worker k = .notifyAll →
      t.jobs = [] ∧ t.running = 0) ∧
    ¬ (AllWait s ∧ s.jobs ≠ []) ∧
    ¬ (AllWait s ∧ wantStop s.jobsCount = true ∧ noJobs s.jobsCount = true ∧
      wasStop s.jobsCount = false) := by
  have hkept := kept_of_reachable hs
  have h := counted_of_reachable hs
  refine ⟨fun hhard => ⟨?_, h.packed.wantStop_eq, h.packed.wasStop_eq⟩, fun k t hstep => ?_, ?_, ?_⟩
  · rw [h.packed.shift_eq, hkept.seized hhard, List.length_nil, Nat.add_zero]
  · exact (h.work hkept hstep).2
  · rintro ⟨⟨hworkers, hcallers⟩, hjobs⟩
    rcases seen_of_reachable hs hjobs with ⟨c, hc⟩ | ⟨k, hk⟩
    · exact (hcallers c).1 hc
    · rw [hworkers k] at hk
      contradiction
  · rintro ⟨-, hwant, hzero, hopen⟩
    rw [h.packed.wantStop_eq] at hwant
    rw [h.packed.wasStop_eq] at hopen
    have hpos := h.wanted hwant hopen
    have hcount := h.packed.noJobs_iff.mp hzero
    omega

theorem job_count_softly :
    let s := ((system (Fin 3) (Fin 1) (Fin 1)).runIf (fun _ _ t => Few t) { workers := [0] }
      (softly.take 10)).get (by decide)
    s.jobs = [1] ∧ s.worker 0 = .calling 0 ∧ (s.jobsCount >>> 2).toNat = 1 + s.running := by
  refine ⟨by decide, by decide, ?_⟩
  have hinit : (system (Fin 3) (Fin 1) (Fin 1)).ReachableIf (fun _ _ t => Few t)
      { workers := [0] } := .init ⟨_, by decide, rfl⟩
  exact ((job_count _ (hinit.runIf (Option.some_get _).symm)).1 (by decide)).1

end Yaclib.FairThreadPool
