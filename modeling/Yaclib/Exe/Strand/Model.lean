import Mathlib.Data.Fintype.Card
import Yaclib.Concurrency.Chain
import Yaclib.Concurrency.System

/-!
`Strand` of `exe/strand.cpp`: jobs are pushed on the stack `_jobs`, and the
strand, which is a job itself, is submitted to the executor it decorates.

One step of the model is one atomic operation together with the plain
operations up to the next one, or one `Call` or `Drop` of a job. `ι` are the
jobs and `κ` the threads on which the underlying executor runs the strand; an
executor that runs it inside of `Submit` uses a thread of its own for that. A
job may be submitted again as soon as its `Call` or `Drop` has begun, also from
inside of it.

Left out are `Alive` and `Tag`, which ask the underlying executor, and what a job does,
except that it may submit again.
-/

namespace Yaclib.Strand

open Concurrency

inductive Word (ι : Type) where
  | mark
  | ptr (p : Option ι)
  deriving DecidableEq

/-- `expected == Mark() ? nullptr : expected` -/
def Word.toPtr {ι : Type} : Word ι → Option ι
  | mark => none
  | ptr p => p

inductive Pc (ι : Type) where
  | idle
  /-- the loop of `Submit`, with its `expected` -/
  | loop (expected : Word ι)
  /-- pushed on `Mark()`; `IncRef` is next -/
  | incRef
  /-- `_executor->Submit(*this)` is next -/
  | submit
  | queued
  deriving DecidableEq

inductive Run (ι : Type) where
  | idle
  /-- the exchange of `Call` -/
  | call
  /-- the second loop of `Call`: its `prev` is called next -/
  | batch (prev : ι)
  /-- in `prev->Call()`, with the `next` of the loop -/
  | calling (job : ι) (next : Option ι)
  | load
  | swap
  /-- `_executor->Submit(*this)` of `Call` -/
  | resubmit
  /-- the exchange of `Drop` -/
  | drop
  /-- the loop of `Drop`: its `node` is dropped next -/
  | dropBatch (node : ι)
  /-- in `node->Drop()`, with the `next` of the loop -/
  | dropping (job : ι) (next : Option ι)
  /-- the `DecRef` of `Call`, or of `Drop` -/
  | decRef (call : Bool)
  deriving DecidableEq

/-- The stack, the links of the jobs, the places of the jobs and of the threads,
and how often the strand is in the queue of the underlying executor. The rest
are ghosts: the pushes that each exchange took, in their order, and whether
`Call` made it; the pushes since the last exchange; the jobs that were called
and dropped; how often the strand was referenced and released; and whether every
pointer that was dereferenced led to a job. -/
structure State (ι κ : Type) where
  jobs : Word ι := .mark
  next : ι → Option ι
  pc : ι → Pc ι := fun _ => .idle
  worker : κ → Run ι := fun _ => .idle
  executor : Nat := 0
  taken : List (Bool × List ι) := []
  current : List ι := []
  called : List ι := []
  dropped : List ι := []
  incRefs : Nat := 0
  decRefs : Nat := 0
  derefs : Bool := true

variable {ι κ : Type} [DecidableEq ι] [DecidableEq κ]

namespace State

def goto (s : State ι κ) (i : ι) (p : Pc ι) : State ι κ :=
  { s with pc := Function.update s.pc i p }

def put (s : State ι κ) (k : κ) (u : Run ι) : State ι κ :=
  { s with worker := Function.update s.worker k u }

/-- All jobs that were pushed, in the order of their pushes. -/
def pushes (s : State ι κ) : List ι :=
  (s.taken.map Prod.snd).flatten ++ s.current

end State

/-- A round of the loop of `Submit`; `weak`: the swap fails spuriously. -/
def submitSwap (s : State ι κ) (i : ι) (expected : Word ι) (weak : Bool) : State ι κ :=
  let s := { s with next := Function.update s.next i expected.toPtr }
  if s.jobs = expected ∧ weak = false then
    { s with jobs := .ptr (some i), current := s.current ++ [i] }.goto i
      (if expected = Word.mark then .incRef else .queued)
  else s.goto i (.loop s.jobs)

def advance (s : State ι κ) (i : ι) (weak : Bool) : Option (State ι κ) :=
  match s.pc i with
  | .idle | .queued => none
  | .loop expected => some (submitSwap s i expected weak)
  | .incRef => some ({ s with incRefs := s.incRefs + 1 }.goto i .submit)
  | .submit => some ({ s with executor := s.executor + 1 }.goto i .queued)

/-- The exchange of `Call`, and the loop that turns the list around. A chain
without a cycle has at most one node for each job. -/
def callExchange [Fintype ι] (s : State ι κ) (k : κ) : State ι κ :=
  let t := { s with jobs := .ptr none, taken := s.taken ++ [(true, s.current)], current := [] }
  match s.jobs with
  | .ptr (some node) =>
    match reverseLoop s.next (Fintype.card ι) node none with
    | some (next, prev) => { t with next := next }.put k (.batch prev)
    | none => { t with derefs := false }.put k .idle
  | _ => { t with derefs := false }.put k .idle

def dropExchange (s : State ι κ) (k : κ) : State ι κ :=
  let t := { s with jobs := .mark, taken := s.taken ++ [(false, s.current)], current := [] }
  match s.jobs with
  | .ptr (some node) => t.put k (.dropBatch node)
  | _ => { t with derefs := false }.put k .idle

def work [Fintype ι] (s : State ι κ) (k : κ) : Option (State ι κ) :=
  match s.worker k with
  | .idle => none
  | .call => some (callExchange s k)
  | .batch job =>
    some ({ s with called := s.called ++ [job] }.goto job .idle |>.put k (.calling job (s.next job)))
  | .calling _ (some prev) => some (s.put k (.batch prev))
  | .calling _ none => some (s.put k .load)
  | .load => some (s.put k (if s.jobs = .ptr none then .swap else .resubmit))
  | .swap =>
    some (if s.jobs = .ptr none then { s with jobs := .mark }.put k (.decRef true)
      else s.put k .resubmit)
  | .resubmit => some ({ s with executor := s.executor + 1 }.put k .idle)
  | .drop => some (dropExchange s k)
  | .dropBatch job =>
    some ({ s with dropped := s.dropped ++ [job] }.goto job .idle |>.put k
      (.dropping job (s.next job)))
  | .dropping _ (some node) => some (s.put k (.dropBatch node))
  | .dropping _ none => some (s.put k (.decRef false))
  | .decRef _ => some ({ s with decRefs := s.decRefs + 1 }.put k .idle)

/-- What the scheduler chooses: a `Submit` of a job, its next step (`weak` fails
a weak compare-and-swap), a thread that calls or drops the strand for the
underlying executor, its next step, or another use of the `next` field of a job
that the strand does not hold. -/
inductive Event (ι κ : Type) where
  | submit (i : ι)
  | advance (i : ι) (weak : Bool)
  | execute (k : κ) (drop : Bool)
  | work (k : κ)
  | relink (i : ι) (p : Option ι)

def step [Fintype ι] (s : State ι κ) : Event ι κ → Option (State ι κ)
  | .submit i => if s.pc i = .idle then some (s.goto i (.loop s.jobs)) else none
  | .advance i weak => advance s i weak
  | .execute k drop =>
    if 0 < s.executor ∧ s.worker k = .idle then
      some ({ s with executor := s.executor - 1 }.put k (if drop then .drop else .call))
    else none
  | .work k => work s k
  | .relink i p =>
    if s.pc i = .idle then some { s with next := Function.update s.next i p } else none

def system (ι κ : Type) [DecidableEq ι] [DecidableEq κ] [Fintype ι] :
    System (State ι κ) (Event ι κ) where
  Init s := ∃ next, s = { next := next }
  step := step

namespace Run

/-- In `Strand::Call`, up to its last access to `_jobs` or the resubmission. -/
def inCall : Run ι → Bool
  | call | batch _ | calling _ _ | load | swap | resubmit => true
  | _ => false

/-- In `Strand::Call`, or in a `Strand::Drop` that has not exchanged yet. -/
def running : Run ι → Nat
  | idle | dropBatch _ | dropping _ _ | decRef false => 0
  | _ => 1

/-- The same, without a `Call` that has put `Mark` in. -/
@[simp] def token : Run ι → Nat
  | call | batch _ | calling _ _ | load | swap | resubmit | drop => 1
  | _ => 0

end Run

/-- The underlying executor has run out of jobs, and no `Submit` is about to
give it one. -/
def Quiescent (s : State ι κ) : Prop :=
  s.executor = 0 ∧ (∀ k, s.worker k = .idle) ∧ ∀ i, s.pc i ≠ .incRef ∧ s.pc i ≠ .submit

end Yaclib.Strand
