import Mathlib.Data.Fintype.Defs
import Mathlib.Logic.Function.Basic
import Yaclib.Concurrency.System

/-!
`FairThreadPool` of `runtime/fair_thread_pool.cpp`.

One step of the model is one critical section of `_m`, or one operation outside
of it: a notification, or the `Call` or `Drop` of a job. `ι` are the jobs, `κ`
the workers, and `χ` the threads that call the pool; a running job that calls
the pool is one of `χ` for as long. A job is submitted again only after its
`Call` or `Drop` has begun.

Left out are `Alive`, `Tag` and what a job does, except that it may call the pool. The
wake-ups are any: without a notification too.
-/

namespace Yaclib.FairThreadPool

open Concurrency

/-! The bits of `_jobs_count`. -/

def wasStop (jobsCount : UInt64) : Bool :=
  jobsCount &&& 1 != 0

def wantStop (jobsCount : UInt64) : Bool :=
  jobsCount &&& 2 != 0

def noJobs (jobsCount : UInt64) : Bool :=
  jobsCount >>> 2 == 0

inductive Worker (ι : Type) where
  /-- about to lock `_m`, at the start of `Loop` or after a wake-up -/
  | lock
  /-- has popped a job and unlocked `_m`; its `Call` is next -/
  | call (job : ι)
  /-- in `job.Call()` -/
  | calling (job : ι)
  /-- in `_idle.wait` -/
  | waiting
  /-- has set the stopped flag; `_idle.notify_all` is next -/
  | notifyAll
  | exited
  deriving DecidableEq

/-- The functions of the pool that have a critical section of their own. -/
inductive Section (ι : Type) where
  | submit (job : ι)
  | softStop
  | stop
  | hardStop
  deriving DecidableEq

inductive Caller (ι κ : Type) where
  | idle
  /-- about to lock `_m` -/
  | lock (f : Section ι)
  | notifyOne
  /-- `_idle.notify_all` is next, and then the `Drop` of `jobs` -/
  | notifyAll (jobs : List ι)
  /-- these jobs are dropped before the call returns -/
  | drop (jobs : List ι)
  /-- the loop of `Wait`, with the workers it has left -/
  | join (workers : List κ)
  deriving DecidableEq

/-- The fields of the pool, the places of the workers and of the callers, and
the jobs that must not be submitted now. The rest are ghosts: the jobs that were
submitted, accepted and popped, in this order; those that `Submit` refused and
those that `HardStop` took; those that were called and dropped; and which of the
flags were set. -/
structure State (ι κ χ : Type) where
  jobsCount : UInt64 := 0
  jobs : List ι := []
  workers : List κ
  worker : κ → Worker ι := fun _ => .lock
  caller : χ → Caller ι κ := fun _ => .idle
  busy : ι → Bool := fun _ => false
  submitted : List ι := []
  accepted : List ι := []
  popped : List ι := []
  refused : List ι := []
  seized : List ι := []
  called : List ι := []
  dropped : List ι := []
  wanted : Bool := false
  stopped : Bool := false
  hardStopped : Bool := false

variable {ι κ χ : Type} [DecidableEq ι] [DecidableEq κ] [DecidableEq χ]

namespace State

def goto (s : State ι κ χ) (c : χ) (p : Caller ι κ) : State ι κ χ :=
  { s with caller := Function.update s.caller c p }

def put (s : State ι κ χ) (k : κ) (u : Worker ι) : State ι κ χ :=
  { s with worker := Function.update s.worker k u }

def notifyAll (s : State ι κ χ) : State ι κ χ :=
  { s with worker := fun k => if s.worker k = .waiting then .lock else s.worker k }

/-- `Stop(lock)` up to its `unlock`. -/
def stop (s : State ι κ χ) : State ι κ χ :=
  { s with jobsCount := s.jobsCount ||| 1, stopped := true }

/-- The `Call` or `Drop` of a job begins. -/
def release (s : State ι κ χ) (job : ι) : State ι κ χ :=
  { s with busy := Function.update s.busy job false }

end State

/-! The critical sections. -/

def submit (s : State ι κ χ) (c : χ) (job : ι) : State ι κ χ :=
  if wasStop s.jobsCount then { s with refused := s.refused ++ [job] }.goto c (.drop [job])
  else
    { s with
      jobs := s.jobs ++ [job]
      jobsCount := s.jobsCount + 4
      accepted := s.accepted ++ [job] }.goto c .notifyOne

def softStop (s : State ι κ χ) (c : χ) : State ι κ χ :=
  if noJobs s.jobsCount then s.stop.goto c (.notifyAll [])
  else { s with jobsCount := s.jobsCount ||| 2, wanted := true }.goto c .idle

def hardStop (s : State ι κ χ) (c : χ) : State ι κ χ :=
  { s with
    jobs := []
    seized := s.seized ++ s.jobs
    hardStopped := true }.stop.goto c (.notifyAll s.jobs)

def Section.enter (f : Section ι) (s : State ι κ χ) (c : χ) : State ι κ χ :=
  match f with
  | submit job => FairThreadPool.submit s c job
  | softStop => FairThreadPool.softStop s c
  | stop => s.stop.goto c (.notifyAll [])
  | hardStop => FairThreadPool.hardStop s c

/-- The outer loop of `Loop` from its head, with `_m` locked, up to the next
unlock of `_m`. -/
def loop (s : State ι κ χ) (k : κ) : State ι κ χ :=
  match s.jobs with
  | job :: jobs => { s with jobs := jobs, popped := s.popped ++ [job] }.put k (.call job)
  | [] =>
    if noJobs s.jobsCount && wantStop s.jobsCount then s.stop.put k .notifyAll
    else if wasStop s.jobsCount then s.put k .exited
    else s.put k .waiting

/-! The steps. -/

def work (s : State ι κ χ) (k : κ) : Option (State ι κ χ) :=
  match s.worker k with
  | .lock => some (loop s k)
  | .call job =>
    some ({ s with called := s.called ++ [job] }.release job |>.put k (.calling job))
  | .calling _ => some (loop { s with jobsCount := s.jobsCount - 4 } k)
  | .waiting | .exited => none
  | .notifyAll => some (s.notifyAll.put k .exited)

/-- The next step of a caller; `woken` is the worker that `notify_one` wakes, if
one waits. -/
def advance [Fintype κ] (s : State ι κ χ) (c : χ) (woken : Option κ) : Option (State ι κ χ) :=
  match s.caller c with
  | .idle => none
  | .lock f => some (f.enter s c)
  | .notifyOne =>
    match woken with
    | some k => if s.worker k = .waiting then some (s.put k .lock |>.goto c .idle) else none
    | none => if ∀ k, s.worker k ≠ .waiting then some (s.goto c .idle) else none
  | .notifyAll jobs => some (s.notifyAll.goto c (.drop jobs))
  | .drop (job :: jobs) =>
    some ({ s with dropped := s.dropped ++ [job] }.release job |>.goto c (.drop jobs))
  | .drop [] => some (s.goto c .idle)
  | .join (k :: workers) =>
    if s.worker k = .exited then some (s.goto c (.join workers)) else none
  | .join [] => some ({ s with workers := [] }.goto c .idle)

/-- What the scheduler chooses: a call of the pool, the next step of a caller or
of a worker, or a wake-up without a notification. -/
inductive Event (ι κ χ : Type) where
  | call (c : χ) (f : Section ι)
  | wait (c : χ)
  | advance (c : χ) (woken : Option κ)
  | work (k : κ)
  | wake (k : κ)

def step [Fintype κ] [Fintype χ] (s : State ι κ χ) : Event ι κ χ → Option (State ι κ χ)
  | .call c (.submit job) =>
    if s.caller c = .idle ∧ s.busy job = false then
      some ({ s with
        busy := Function.update s.busy job true
        submitted := s.submitted ++ [job] }.goto c (.lock (.submit job)))
    else none
  | .call c f => if s.caller c = .idle then some (s.goto c (.lock f)) else none
  | .wait c =>
    -- `Wait` joins the threads, so its calls must not overlap
    if s.caller c = .idle ∧ ∀ d, ¬ (s.caller d) matches .join _ then
      some (s.goto c (.join s.workers))
    else none
  | .advance c woken => advance s c woken
  | .work k => work s k
  | .wake k => if s.worker k = .waiting then some (s.put k .lock) else none

/-- The constructor has started all workers. -/
def system (ι κ χ : Type) [DecidableEq ι] [DecidableEq κ] [DecidableEq χ] [Fintype κ]
    [Fintype χ] : System (State ι κ χ) (Event ι κ χ) where
  Init s := ∃ workers : List κ, (∀ k, k ∈ workers) ∧ s = { workers := workers }
  step := step

/-- Neither in `Submit` nor in a `HardStop` that has a job to drop. -/
def Caller.returned : Caller ι κ → Bool
  | lock (.submit _) | lock .hardStop | notifyOne | notifyAll (_ :: _) | drop (_ :: _) => false
  | _ => true

/-- All workers have exited, and all calls of `Submit` and `HardStop` have
returned. -/
def Finished (s : State ι κ χ) : Prop :=
  (∀ k, s.worker k = .exited) ∧ ∀ c, (s.caller c).returned = true

end Yaclib.FairThreadPool
