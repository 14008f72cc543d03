import Yaclib.Concurrency.Tally
import Yaclib.Runtime.FairThreadPool.Count

/-!
No job is lost and none runs twice: each one that was submitted is with a
caller, in the queue or with a worker until its `Call` or `Drop`.
-/

namespace Yaclib.FairThreadPool

open Concurrency

variable {ι κ χ : Type}
variable {s t : State ι κ χ} {c : χ} {k : κ} {p : Caller ι κ} {u : Worker ι} {job : ι}

/-- A pool that has stopped stays so, and a worker in its loop accepts no job. -/
theorem loop_stopped [DecidableEq κ] (hs : wasStop s.jobsCount = true) :
    wasStop (loop s k).jobsCount = true ∧ (loop s k).accepted = s.accepted := by
  unfold loop
  cases s.jobs with
  | cons job jobs => exact ⟨hs, rfl⟩
  | nil =>
    simp only
    split
    · exact ⟨wasStop_stop _, rfl⟩
    · exact ⟨hs, rfl⟩

theorem enter_stopped [DecidableEq χ] (hs : wasStop s.jobsCount = true) (f : Section ι) :
    wasStop (f.enter s c).jobsCount = true ∧ (f.enter s c).accepted = s.accepted := by
  cases f with
  | submit job =>
    simp only [Section.enter, submit, hs, if_true]
    exact ⟨hs, rfl⟩
  | softStop =>
    simp only [Section.enter, softStop]
    split
    · exact ⟨wasStop_stop _, rfl⟩
    · exact ⟨(wasStop_want _).trans hs, rfl⟩
  | stop | hardStop => exact ⟨wasStop_stop _, rfl⟩

variable [DecidableEq ι]

namespace Worker

@[simp] def holds (i : ι) : Worker ι → Nat
  | call job => [job].count i
  | _ => 0

/-- Set the stopped flag or saw it, and left `Loop`. -/
@[simp] def ended : Worker ι → Bool
  | notifyAll | exited => true
  | _ => false

end Worker

namespace Caller

@[simp] def asks (i : ι) : Caller ι κ → Nat
  | lock (.submit job) => [job].count i
  | _ => 0

/-- How often the caller has to drop the job. -/
@[simp] def drops (i : ι) : Caller ι κ → Nat
  | notifyAll jobs | drop jobs => jobs.count i
  | _ => 0

end Caller

/-- Where the jobs are. A job that was popped or dropped is accounted for, and
the queue is closed once a worker or `HardStop` has set the stopped flag. -/
structure Kept [Fintype κ] [Fintype χ] (s : State ι κ χ) : Prop where
  submitted_eq : ∀ i, s.submitted.count i =
    s.accepted.count i + s.refused.count i + tally (Caller.asks i) s.caller
  accepted_eq : s.accepted = s.popped ++ s.seized ++ s.jobs
  popped_eq : ∀ i, s.popped.count i = s.called.count i + tally (Worker.holds i) s.worker
  dropped_eq : ∀ i, s.refused.count i + s.seized.count i =
    s.dropped.count i + tally (Caller.drops i) s.caller
  ended : ∀ k, (s.worker k).ended = true → wasStop s.jobsCount = true ∧ s.jobs = []
  hardStopped : s.hardStopped = true → wasStop s.jobsCount = true ∧ s.jobs = []
  seized : s.hardStopped = false → s.seized = []

/-- No step of a worker accepts a job, or takes the stop back. -/
theorem work_stopped [DecidableEq κ] (hs : wasStop s.jobsCount = true) (hstep : work s k = some t) :
    wasStop t.jobsCount = true ∧ t.accepted = s.accepted := by
  unfold work at hstep
  split at hstep
  · cases hstep
    exact loop_stopped hs
  · cases hstep
    exact ⟨hs, rfl⟩
  · cases hstep
    exact loop_stopped ((wasStop_sub _).trans hs)
  · contradiction
  · contradiction
  · cases hstep
    exact ⟨hs, rfl⟩

theorem Caller.asks_of_returned (p : Caller ι κ) (hp : p.returned = true) (i : ι) :
    p.asks i = 0 := by
  cases p with
  | lock f => cases f <;> simp [Caller.returned] at hp ⊢
  | idle | notifyOne | notifyAll _ | drop _ | join _ => rfl

theorem Caller.drops_of_returned (p : Caller ι κ) (hp : p.returned = true) (i : ι) :
    p.drops i = 0 := by
  cases p with
  | notifyAll jobs | drop jobs => cases jobs <;> simp [Caller.returned] at hp ⊢
  | idle | lock _ | notifyOne | join _ => rfl

variable [Fintype κ]

/-- No step of a caller accepts a job once the pool has stopped. -/
theorem advance_stopped [DecidableEq κ] [DecidableEq χ]
    (hs : wasStop s.jobsCount = true) {woken : Option κ}
    (hstep : advance s c woken = some t) :
    wasStop t.jobsCount = true ∧ t.accepted = s.accepted := by
  unfold advance at hstep
  split at hstep
  · contradiction
  · cases hstep
    exact enter_stopped hs _
  · split at hstep <;> split at hstep <;> cases hstep <;> exact ⟨hs, rfl⟩
  · cases hstep
    exact ⟨hs, rfl⟩
  · cases hstep
    exact ⟨hs, rfl⟩
  · cases hstep
    exact ⟨hs, rfl⟩
  · split at hstep
    · cases hstep
      exact ⟨hs, rfl⟩
    · contradiction
  · cases hstep
    exact ⟨hs, rfl⟩

variable [Fintype χ]

theorem Kept.notifyAll (h : Kept s) : Kept s.notifyAll := by
  have hworker : ∀ w : Worker ι → Nat, w .lock = w .waiting →
      tally w s.notifyAll.worker = tally w s.worker := by
    intro w hw
    apply tally_congr
    intro k
    simp only [State.notifyAll]
    split
    · next hwaiting => rw [hwaiting, hw]
    · rfl
  refine ⟨h.submitted_eq, h.accepted_eq, fun i => ?_, h.dropped_eq, fun l hl => ?_,
    h.hardStopped, h.seized⟩
  · rw [hworker (Worker.holds i) rfl]
    exact h.popped_eq i
  · apply h.ended l
    simp only [State.notifyAll] at hl
    split at hl
    · contradiction
    · exact hl

/-- The counter changes, but not the stopped flag. -/
theorem Kept.recount (h : Kept s) {n : UInt64} (hn : wasStop n = wasStop s.jobsCount) :
    Kept { s with jobsCount := n } := by
  refine ⟨h.submitted_eq, h.accepted_eq, h.popped_eq, h.dropped_eq, fun k hk => ?_, fun hhard => ?_,
    h.seized⟩
  · exact ⟨hn.trans (h.ended k hk).1, (h.ended k hk).2⟩
  · exact ⟨hn.trans (h.hardStopped hhard).1, (h.hardStopped hhard).2⟩

theorem Kept.stop (h : Kept s) : Kept s.stop :=
  ⟨h.submitted_eq, h.accepted_eq, h.popped_eq, h.dropped_eq,
    fun k hk => ⟨wasStop_stop _, (h.ended k hk).2⟩,
    fun hhard => ⟨wasStop_stop _, (h.hardStopped hhard).2⟩, h.seized⟩

theorem Kept.init (workers : List κ) : Kept ({ workers := workers } : State ι κ χ) := by
  refine ⟨fun i => ?_, rfl, fun i => ?_, fun i => ?_, fun k hk => ?_, fun hhard => ?_, fun _ => rfl⟩
  · simp [tally_const]
  · simp [tally_const]
  · simp [tally_const]
  · exact absurd hk Bool.false_ne_true
  · exact absurd hhard Bool.false_ne_true

/-- Once all workers have exited and the calls have returned. -/
theorem Kept.finished [Nonempty κ] (h : Kept s) (hf : Finished s) (i : ι) :
    s.submitted.count i = s.accepted.count i + s.refused.count i ∧
      s.accepted.count i = s.called.count i + s.seized.count i ∧
      s.dropped.count i = s.refused.count i + s.seized.count i := by
  obtain ⟨hworker, hcaller⟩ := hf
  obtain ⟨k⟩ := ‹Nonempty κ›
  have hnil := (h.ended k (by rw [hworker k]; rfl)).2
  have hasks : tally (Caller.asks i) s.caller = 0 :=
    tally_eq_zero.mpr fun c => (s.caller c).asks_of_returned (hcaller c) i
  have hdrops : tally (Caller.drops i) s.caller = 0 :=
    tally_eq_zero.mpr fun c => (s.caller c).drops_of_returned (hcaller c) i
  have hholds : tally (Worker.holds i) s.worker = 0 :=
    tally_eq_zero.mpr fun k => by rw [hworker k]; rfl
  have hsubmitted := h.submitted_eq i
  have hpopped := h.popped_eq i
  have hdropped := h.dropped_eq i
  have haccepted : s.accepted.count i = s.popped.count i + s.seized.count i := by
    rw [h.accepted_eq, hnil, List.append_nil, List.count_append]
  omega

/-! Moves that leave the jobs where they are. -/

theorem Kept.goto [DecidableEq χ] (h : Kept s) (hasks : ∀ i, p.asks i = (s.caller c).asks i)
    (hdrops : ∀ i, p.drops i = (s.caller c).drops i) : Kept (s.goto c p) := by
  refine ⟨fun i => ?_, h.accepted_eq, h.popped_eq, fun i => ?_, h.ended, h.hardStopped, h.seized⟩
  · rw [State.goto, tally_stay (hasks i)]
    exact h.submitted_eq i
  · rw [State.goto, tally_stay (hdrops i)]
    exact h.dropped_eq i

/-! Moves of a job. -/

theorem Kept.call [DecidableEq χ]
    (h : Kept s) (hc : s.caller c = .idle) (job : ι) (busy : ι → Bool) :
    Kept ({ s with busy := busy, submitted := s.submitted ++ [job] }.goto c
      (.lock (.submit job))) := by
  refine ⟨fun i => ?_, h.accepted_eq, h.popped_eq, fun i => ?_, h.ended, h.hardStopped, h.seized⟩
  · have hi := h.submitted_eq i
    have hupdate := tally_update (Caller.asks i) s.caller c (.lock (.submit job))
    rw [hc] at hupdate
    simp only [Caller.asks] at hupdate
    simp only [State.goto, List.count_append]
    omega
  · rw [State.goto, tally_stay (by rw [hc]; rfl)]
    exact h.dropped_eq i

/-- `Submit` puts the job in the queue, or is about to drop it because the pool has stopped.
-/
theorem Kept.submit [DecidableEq χ] (h : Kept s) (hc : s.caller c = .lock (.submit job)) :
    Kept (submit s c job) := by
  unfold FairThreadPool.submit
  split
  · refine ⟨fun i => ?_, h.accepted_eq, h.popped_eq, fun i => ?_, h.ended, h.hardStopped, h.seized⟩
    · have hi := h.submitted_eq i
      have hupdate := tally_update (Caller.asks i) s.caller c (.drop [job])
      rw [hc] at hupdate
      simp only [Caller.asks] at hupdate
      simp only [State.goto, List.count_append]
      omega
    · have hi := h.dropped_eq i
      have hupdate := tally_update (Caller.drops i) s.caller c (.drop [job])
      rw [hc] at hupdate
      simp only [Caller.drops] at hupdate
      simp only [State.goto, List.count_append]
      omega
  · next hstop =>
    have hopen : ¬ wasStop (s.jobsCount + 4) = true := by rwa [wasStop_add]
    refine ⟨fun i => ?_, ?_, h.popped_eq, fun i => ?_, fun k hk => ?_, fun hhard => ?_, h.seized⟩
    · have hi := h.submitted_eq i
      have hupdate := tally_update (Caller.asks i) s.caller c .notifyOne
      rw [hc] at hupdate
      simp only [Caller.asks] at hupdate
      simp only [State.goto, List.count_append]
      omega
    · simp only [State.goto, h.accepted_eq, List.append_assoc]
    · rw [State.goto, tally_stay (by rw [hc]; rfl)]
      exact h.dropped_eq i
    · exact absurd (h.ended k hk).1 hstop
    · exact absurd (h.hardStopped hhard).1 hstop

/-- `HardStop` takes the queue and sets the stopped flag, and is to drop what it took. -/
theorem Kept.hardStop [DecidableEq χ] (h : Kept s) (hc : s.caller c = .lock .hardStop) :
    Kept (hardStop s c) := by
  refine ⟨fun i => ?_, ?_, h.popped_eq, fun i => ?_, fun k hk => ?_, fun _ => ?_, fun hhard => ?_⟩
  · simp only [FairThreadPool.hardStop, State.goto, State.stop]
    rw [tally_stay (by rw [hc]; rfl)]
    exact h.submitted_eq i
  · simp only [FairThreadPool.hardStop, State.goto, State.stop, List.append_nil, h.accepted_eq,
      List.append_assoc]
  · have hi := h.dropped_eq i
    have hupdate := tally_update (Caller.drops i) s.caller c (.notifyAll s.jobs)
    rw [hc] at hupdate
    simp only [Caller.drops] at hupdate
    simp only [FairThreadPool.hardStop, State.goto, State.stop, List.count_append]
    omega
  · exact ⟨wasStop_stop _, rfl⟩
  · exact ⟨wasStop_stop _, rfl⟩
  · simp [FairThreadPool.hardStop, State.goto, State.stop] at hhard

/-- From its `Drop` on a job may be submitted again. -/
theorem Kept.drop [DecidableEq χ]
    (h : Kept s) {jobs : List ι} (hc : s.caller c = .drop (job :: jobs)) :
    Kept ({ s with dropped := s.dropped ++ [job] }.release job |>.goto c (.drop jobs)) := by
  refine ⟨fun i => ?_, h.accepted_eq, h.popped_eq, fun i => ?_, h.ended, h.hardStopped, h.seized⟩
  · simp only [State.goto, State.release]
    rw [tally_stay (by rw [hc]; rfl)]
    exact h.submitted_eq i
  · have hi := h.dropped_eq i
    have hupdate := tally_update (Caller.drops i) s.caller c (.drop jobs)
    rw [hc] at hupdate
    simp only [Caller.drops, List.count_cons] at hupdate
    simp only [State.goto, State.release, List.count_append, List.count_singleton]
    omega

theorem Kept.enter [DecidableEq χ] (h : Kept s) {f : Section ι} (hc : s.caller c = .lock f) :
    Kept (f.enter s c) := by
  cases f with
  | submit job => exact h.submit hc
  | softStop =>
    simp only [Section.enter, FairThreadPool.softStop]
    split
    · exact h.stop.goto (fun i => by rw [State.stop, hc]; rfl)
        (fun i => by rw [State.stop, hc]; rfl)
    · have hwant := h.recount (n := s.jobsCount ||| 2) (wasStop_want _)
      have hgoto := hwant.goto (c := c) (p := .idle) (fun i => by simp [hc]) (fun i => by simp [hc])
      exact ⟨hgoto.1, hgoto.2, hgoto.3, hgoto.4, hgoto.5, hgoto.6, hgoto.7⟩
  | stop =>
    exact h.stop.goto (fun i => by rw [State.stop, hc]; rfl) (fun i => by rw [State.stop, hc]; rfl)
  | hardStop => exact h.hardStop hc

variable [DecidableEq κ]

theorem Kept.put (h : Kept s) (hholds : ∀ i, u.holds i = (s.worker k).holds i)
    (hended : u.ended = true → wasStop s.jobsCount = true ∧ s.jobs = []) : Kept (s.put k u) := by
  refine ⟨h.submitted_eq, h.accepted_eq, fun i => ?_, h.dropped_eq, fun l hl => ?_,
    h.hardStopped, h.seized⟩
  · rw [State.put, tally_stay (hholds i)]
    exact h.popped_eq i
  · by_cases hlk : l = k
    · subst hlk
      simp only [State.put, Function.update_self] at hl
      exact hended hl
    · simp only [State.put, Function.update_of_ne hlk] at hl
      exact h.ended l hl

/-- A worker takes the first job of the queue. -/
theorem Kept.pop (h : Kept s) {jobs : List ι} (hjobs : s.jobs = job :: jobs)
    (hholds : ∀ i, (s.worker k).holds i = 0) :
    Kept ({ s with jobs := jobs, popped := s.popped ++ [job] }.put k (.call job)) := by
  have hopen : s.hardStopped = false := by
    by_contra hhard
    have hnil := (h.hardStopped (by simpa using hhard)).2
    rw [hjobs] at hnil
    contradiction
  refine ⟨h.submitted_eq, ?_, fun i => ?_, h.dropped_eq, fun l hl => ?_, fun hhard => ?_, h.seized⟩
  · simp only [State.put, h.accepted_eq, h.seized hopen, hjobs, List.append_nil, List.append_assoc,
      List.singleton_append]
  · have hi := h.popped_eq i
    have hupdate := tally_update (Worker.holds i) s.worker k (.call job)
    rw [hholds i] at hupdate
    simp only [Worker.holds] at hupdate
    simp only [State.put, List.count_append]
    omega
  · by_cases hlk : l = k
    · subst hlk
      simp only [State.put, Function.update_self, Worker.ended] at hl
      contradiction
    · simp only [State.put, Function.update_of_ne hlk] at hl
      have hnil := (h.ended l hl).2
      rw [hjobs] at hnil
      contradiction
  · simp only [State.put] at hhard
    rw [hopen] at hhard
    contradiction

/-- From its `Call` on a job may be submitted again. -/
theorem Kept.callJob (h : Kept s) (hk : s.worker k = .call job) :
    Kept ({ s with called := s.called ++ [job] }.release job |>.put k (.calling job)) := by
  refine ⟨h.submitted_eq, h.accepted_eq, fun i => ?_, h.dropped_eq, fun l hl => ?_,
    h.hardStopped, h.seized⟩
  · have hi := h.popped_eq i
    have hupdate := tally_update (Worker.holds i) s.worker k (.calling job)
    rw [hk] at hupdate
    simp only [Worker.holds] at hupdate
    simp only [State.put, State.release, List.count_append]
    omega
  · by_cases hlk : l = k
    · subst hlk
      simp only [State.put, Function.update_self, Worker.ended] at hl
      contradiction
    · simp only [State.put, Function.update_of_ne hlk] at hl
      exact h.ended l hl

/-- A worker without a job takes one, waits, or ends, the last of which closes the queue. -/
theorem Kept.loop (h : Kept s) (hholds : ∀ i, (s.worker k).holds i = 0) : Kept (loop s k) := by
  unfold FairThreadPool.loop
  cases hjobs : s.jobs with
  | cons job jobs => exact h.pop hjobs hholds
  | nil =>
    simp only
    split
    · exact h.stop.put (fun i => (hholds i).symm) fun _ => ⟨wasStop_stop _, hjobs⟩
    · split
      · next hstop => exact h.put (fun i => (hholds i).symm) fun _ => ⟨hstop, hjobs⟩
      · exact h.put (fun i => (hholds i).symm) fun hended => absurd hended Bool.false_ne_true

/-- Every step of a worker keeps the jobs. -/
theorem Kept.work (h : Kept s) (hstep : work s k = some t) : Kept t := by
  unfold FairThreadPool.work at hstep
  cases hk : s.worker k with
  | lock =>
    simp only [hk, Option.some.injEq] at hstep
    subst hstep
    exact h.loop fun i => by rw [hk]; rfl
  | call job =>
    simp only [hk, Option.some.injEq] at hstep
    subst hstep
    exact h.callJob hk
  | calling job =>
    simp only [hk, Option.some.injEq] at hstep
    subst hstep
    exact (h.recount (wasStop_sub _)).loop fun i => by simp [hk]
  | waiting | exited => simp [hk] at hstep
  | notifyAll =>
    simp only [hk, Option.some.injEq] at hstep
    subst hstep
    have hstop := h.ended k (by rw [hk]; rfl)
    exact h.notifyAll.put (fun i => by simp [State.notifyAll, hk]) fun _ => hstop

variable [DecidableEq χ]

/-! The steps. -/

/-- Every step of a caller keeps the jobs. -/
theorem Kept.advance (h : Kept s) {woken : Option κ} (hstep : advance s c woken = some t) :
    Kept t := by
  unfold FairThreadPool.advance at hstep
  cases hc : s.caller c with
  | idle => simp [hc] at hstep
  | lock f =>
    simp only [hc, Option.some.injEq] at hstep
    subst hstep
    exact h.enter hc
  | notifyOne =>
    cases woken with
    | none =>
      simp only [hc, Option.ite_none_right_eq_some, Option.some.injEq] at hstep
      obtain ⟨-, rfl⟩ := hstep
      exact h.goto (fun i => by rw [hc]; rfl) (fun i => by rw [hc]; rfl)
    | some k =>
      simp only [hc, Option.ite_none_right_eq_some, Option.some.injEq] at hstep
      obtain ⟨hk, rfl⟩ := hstep
      have hput := h.put (k := k) (u := .lock) (fun i => by rw [hk]; rfl)
        fun hended => absurd hended Bool.false_ne_true
      exact hput.goto (fun i => by simp [State.put, hc]) (fun i => by simp [State.put, hc])
  | notifyAll jobs =>
    simp only [hc, Option.some.injEq] at hstep
    subst hstep
    exact h.notifyAll.goto (fun i => by simp [State.notifyAll, hc])
      (fun i => by simp [State.notifyAll, hc])
  | drop jobs =>
    cases jobs with
    | nil =>
      simp only [hc, Option.some.injEq] at hstep
      subst hstep
      exact h.goto (fun i => by rw [hc]; rfl) (fun i => by rw [hc]; rfl)
    | cons job jobs =>
      simp only [hc, Option.some.injEq] at hstep
      subst hstep
      exact h.drop hc
  | join workers =>
    cases workers with
    | nil =>
      simp only [hc, Option.some.injEq] at hstep
      subst hstep
      have hgoto := h.goto (c := c) (p := .idle) (fun i => by rw [hc]; rfl) (fun i => by rw [hc]; rfl)
      exact ⟨hgoto.1, hgoto.2, hgoto.3, hgoto.4, hgoto.5, hgoto.6, hgoto.7⟩
    | cons l workers =>
      simp only [hc, Option.ite_none_right_eq_some, Option.some.injEq] at hstep
      obtain ⟨-, rfl⟩ := hstep
      exact h.goto (fun i => by rw [hc]; rfl) (fun i => by rw [hc]; rfl)

/-- Every step of the pool keeps the jobs. -/
theorem Kept.step {e : Event ι κ χ} (h : Kept s) (hstep : step s e = some t) : Kept t := by
  cases e with
  | call c f =>
    have hplain : ∀ f, (∀ i : ι, (Caller.lock f : Caller ι κ).asks i = 0) → s.caller c = .idle →
        Kept (s.goto c (.lock f)) := fun f hf hc =>
      h.goto (fun i => by rw [hc, hf]; rfl) (fun i => by rw [hc]; rfl)
    cases f with
    | submit job =>
      simp only [FairThreadPool.step, Option.ite_none_right_eq_some, Option.some.injEq] at hstep
      obtain ⟨⟨hc, -⟩, rfl⟩ := hstep
      exact h.call hc job _
    | softStop | stop | hardStop =>
      simp only [FairThreadPool.step, Option.ite_none_right_eq_some, Option.some.injEq] at hstep
      obtain ⟨hc, rfl⟩ := hstep
      exact hplain _ (fun i => rfl) hc
  | wait c =>
    simp only [FairThreadPool.step, Option.ite_none_right_eq_some, Option.some.injEq] at hstep
    obtain ⟨⟨hc, -⟩, rfl⟩ := hstep
    exact h.goto (fun i => by rw [hc]; rfl) (fun i => by rw [hc]; rfl)
  | advance c woken => exact h.advance hstep
  | work k => exact h.work hstep
  | wake k =>
    simp only [FairThreadPool.step, Option.ite_none_right_eq_some, Option.some.injEq] at hstep
    obtain ⟨hk, rfl⟩ := hstep
    exact h.put (fun i => by rw [hk]; rfl) fun hended => absurd hended Bool.false_ne_true

theorem kept_of_reachable {C : State ι κ χ → Event ι κ χ → State ι κ χ → Prop}
    (hs : (system ι κ χ).ReachableIf C s) : Kept s := by
  refine System.Inductive.reachable ⟨?_, ?_⟩ hs
  · rintro s ⟨workers, -, rfl⟩
    exact .init workers
  · intro s e t h hstep _
    exact h.step hstep

/-! The stopped flag is final. -/

/-- Once the stopped flag is set it stays, and no job is accepted. -/
theorem step_stopped (hs : wasStop s.jobsCount = true) {e : Event ι κ χ}
    (hstep : step s e = some t) : wasStop t.jobsCount = true ∧ t.accepted = s.accepted := by
  cases e with
  | call c f =>
    cases f <;> simp only [step, Option.ite_none_right_eq_some, Option.some.injEq] at hstep <;>
      obtain ⟨-, rfl⟩ := hstep <;> exact ⟨hs, rfl⟩
  | wait c =>
    simp only [step, Option.ite_none_right_eq_some, Option.some.injEq] at hstep
    obtain ⟨-, rfl⟩ := hstep
    exact ⟨hs, rfl⟩
  | advance c woken => exact advance_stopped hs hstep
  | work k => exact work_stopped hs hstep
  | wake k =>
    simp only [step, Option.ite_none_right_eq_some, Option.some.injEq] at hstep
    obtain ⟨-, rfl⟩ := hstep
    exact ⟨hs, rfl⟩

/-- After a stop nothing is accepted any more. -/
theorem run_stopped (hs : wasStop s.jobsCount = true) {es : List (Event ι κ χ)}
    (hrun : (system ι κ χ).run s es = some t) : t.accepted = s.accepted := by
  have hkeep : wasStop t.jobsCount = true ∧ t.accepted = s.accepted := by
    refine System.run_keeps (P := fun u => wasStop u.jobsCount = true ∧ u.accepted = s.accepted)
      (fun u e v _ hu hstep => ?_) ⟨hs, rfl⟩ hrun
    obtain ⟨hstop, haccepted⟩ := step_stopped hu.1 hstep
    exact ⟨hstop, haccepted.trans hu.2⟩
  exact hkeep.2

/-- In every reachable state of the pool: jobs were popped in the order in which
they were accepted; from a state with the stopped flag no run accepts another
job; and when all workers have exited and `Submit` and `HardStop` have returned,
every job was called or dropped as often as it was submitted, the refused ones
were dropped, and unless `HardStop` was called every accepted job was called. -/
theorem every_job [Nonempty κ] (s : State ι κ χ) (hs : (system ι κ χ).Reachable s) :
    s.popped <+: s.accepted ∧
    (wasStop s.jobsCount = true → ∀ es t, (system ι κ χ).run s es = some t →
      t.accepted = s.accepted) ∧
    (Finished s → ∀ i,
      s.submitted.count i = s.called.count i + s.dropped.count i ∧
      s.submitted.count i = s.accepted.count i + s.refused.count i ∧
      s.dropped.count i = s.refused.count i + s.seized.count i ∧
      (s.hardStopped = false → s.called.count i = s.accepted.count i)) := by
  have h := kept_of_reachable hs
  refine ⟨⟨s.seized ++ s.jobs, ?_⟩, fun hstop es t => run_stopped hstop, fun hf i => ?_⟩
  · rw [h.accepted_eq, List.append_assoc]
  · obtain ⟨hsubmitted, haccepted, hdropped⟩ := h.finished hf i
    refine ⟨by omega, hsubmitted, hdropped, fun hsoft => ?_⟩
    rw [h.seized hsoft, List.count_nil] at haccepted
    omega

/-- Job 0 submits job 1 while it runs and `SoftStop` waits for both; job 2 is
submitted after that. -/
def softly : List (Event (Fin 3) (Fin 1) (Fin 1)) :=
  [.call 0 (.submit 0), .advance 0 none, .advance 0 none, .work 0, .work 0,
    .call 0 .softStop, .advance 0 none, .call 0 (.submit 1), .advance 0 none, .advance 0 none,
    .work 0, .work 0, .work 0, .work 0, .call 0 (.submit 2), .advance 0 none, .advance 0 none,
    .advance 0 none]

theorem every_job_softly :
    let s := ((system (Fin 3) (Fin 1) (Fin 1)).run { workers := [0] } softly).get (by decide)
    s.called = [0, 1] ∧ s.dropped = [2] ∧ s.called.count 1 = s.accepted.count 1 := by
  refine ⟨by decide, by decide, ?_⟩
  have hinit : (system (Fin 3) (Fin 1) (Fin 1)).Reachable { workers := [0] } :=
    .init ⟨_, by decide, rfl⟩
  have hf : Finished (((system (Fin 3) (Fin 1) (Fin 1)).run { workers := [0] } softly).get
      (by decide)) := ⟨by decide, by decide⟩
  exact ((every_job _ (hinit.run (fun _ _ _ _ => trivial)
    (Option.some_get _).symm)).2.2 hf 1).2.2.2 (by decide)

end Yaclib.FairThreadPool
