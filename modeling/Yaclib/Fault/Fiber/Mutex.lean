import Yaclib.Concurrency.System
import Yaclib.Fault.Fiber.Queue

/-!
`Mutex`, `TimedMutex` and `ConditionVariable` of `fault/detail/fiber`: one mutex and the
condition variables whose waits take it. `TimedMutex` is derived from `Mutex`, so timed and
plain locks may meet at one mutex.

`φ` are the fibers and `γ` the condition variables.
-/

namespace Yaclib.Fault.Fiber.Mutex

open Concurrency

/-- `_queue` of the mutex and of each condition variable. -/
inductive Queue (γ : Type) where
  | mutex
  | cv (c : γ)
  deriving DecidableEq

/-- Outside of `Wait`: in the caller's code, or before one of the two `predicate()` of
`WaitImplWithPredicate`, the one of the loop and the one of a timed `return`. -/
inductive Point (γ : Type) where
  | client
  | loop (c : γ) (timed : Bool)
  | result
  deriving DecidableEq

/-- The calls of `Wait`: of `lock`, `TimedWaitHelper` and `WaitImpl`, and of the `lock.lock()`
in `WaitImpl`; `loops` if `WaitImplWithPredicate` called that. -/
inductive Call (γ : Type) where
  | lock
  | timedWaitHelper
  | waitImpl (c : γ) (timed loops : Bool)
  | relock (c : γ) (timed loops : Bool) (status : WaitStatus)
  deriving DecidableEq

/-- `holds` is true of a fiber from its `_occupied = true` to its `unlock`. -/
structure State (φ γ : Type) extends Fibers φ (Queue γ) (Point γ) (Call γ) where
  occupied : Bool := false
  holds : φ → Bool := fun _ => false

/-- Whether a step ends a call, and what that returns. -/
inductive Outcome where
  | pending
  | done
  | locked
  | tried (r : Bool)
  | waited (status : WaitStatus)
  | satisfied (r : Bool)
  deriving DecidableEq

/-- A lock or a condition wait has returned, or a timed lock or `try_lock` returned true. -/
def Outcome.locks : Outcome → Bool
  | locked | waited _ | satisfied _ => true
  | tried r => r
  | pending | done => false

variable {φ γ : Type}

section

variable [DecidableEq φ]

namespace State

/-- `_occupied = true` -/
def acquire (s : State φ γ) (f : φ) : State φ γ :=
  { s with occupied := true, holds := Function.update s.holds f true }

def goto (s : State φ γ) (f : φ) (a : Point γ) : State φ γ :=
  { s with toFibers := s.toFibers.goto f a }

variable [DecidableEq γ]

def wait (s : State φ γ) (f : φ) (k : Queue γ) (timed : Bool) (call : Call γ) :
    State φ γ × Outcome :=
  ({ s with toFibers := s.toFibers.wait f k timed call }, .pending)

/-- `Mutex::lock` from the condition of its loop on, with the rest of its caller. -/
def lock (s : State φ γ) (f : φ) (call : Call γ) (rest : State φ γ → State φ γ × Outcome) :
    State φ γ × Outcome :=
  if s.occupied then s.wait f .mutex false call else rest (s.acquire f)

def tryLock (s : State φ γ) (f : φ) : State φ γ × Outcome :=
  if s.occupied then (s, .tried false) else (s.acquire f, .tried true)

/-- `TimedWaitHelper` up to its `Wait` -/
def timedWaitHelper (s : State φ γ) (f : φ) : State φ γ × Outcome :=
  if s.occupied then s.wait f .mutex true .timedWaitHelper else (s.acquire f, .tried true)

def unlock (s : State φ γ) (f : φ) (w : Option φ) : Option (State φ γ) :=
  (s.toFibers.notifyOne .mutex w).map fun q =>
    { s with toFibers := q, occupied := false, holds := Function.update s.holds f false }

/-- `WaitImpl` up to its `Wait` -/
def waitImpl (s : State φ γ) (f : φ) (c : γ) (timed loops : Bool) (w : Option φ) :
    Option (State φ γ × Outcome) :=
  (s.unlock f w).map fun s => s.wait f (.cv c) timed (.waitImpl c timed loops)

def afterLoop (s : State φ γ) (f : φ) (timed : Bool) : State φ γ × Outcome :=
  if timed then (s.goto f .result, .pending) else (s.goto f .client, .satisfied true)

/-- `WaitImpl` after its `lock.lock()`, and the loop around it. -/
def afterWait (f : φ) (c : γ) (timed loops : Bool) (status : WaitStatus) (s : State φ γ) :
    State φ γ × Outcome :=
  match loops, status with
  | false, _ => (s, .waited status)
  | true, .Ready => (s.goto f (.loop c timed), .pending)
  | true, .Timeout => s.afterLoop f timed

def resumed (s : State φ γ) (f : φ) (status : WaitStatus) : Call γ → State φ γ × Outcome
  | .lock => s.lock f .lock fun s => (s, .locked)
  | .timedWaitHelper => if status = .Ready then (s.acquire f, .tried true) else (s, .tried false)
  | .waitImpl c timed loops =>
    s.lock f (.relock c timed loops status) (afterWait f c timed loops status)
  | .relock c timed loops status =>
    s.lock f (.relock c timed loops status) (afterWait f c timed loops status)

end State

/-- The calls of a fiber with the choices of the scheduler: whom `NotifyOne` picks, the value
of a predicate, the end of a sleep and the next fiber that resumes. -/
inductive Op (φ γ : Type) where
  | lock
  | tryLock
  | tryLockUntil
  | unlock (w : Option φ)
  | wait (c : γ) (timed : Bool) (w : Option φ)
  | waitWithPredicate (c : γ) (timed : Bool)
  | predicate (value : Bool) (w : Option φ)
  | notifyOne (c : γ) (w : Option φ)
  | notifyAll (c : γ)
  | timeOut
  | resume
  deriving DecidableEq

variable [DecidableEq γ]

/-- One step of a fiber. Only a holder unlocks, and waits on a condition variable. -/
def exec (s : State φ γ) (f : φ) (op : Op φ γ) : Option (State φ γ × Outcome) :=
  match op, s.place f with
  | .lock, .runs .client => some (s.lock f .lock fun s => (s, .locked))
  | .tryLock, .runs .client => some (s.tryLock f)
  | .tryLockUntil, .runs .client => some (s.timedWaitHelper f)
  | .unlock w, .runs .client =>
    if s.holds f then (s.unlock f w).map fun s => (s, .done) else none
  | .wait c timed w, .runs .client => if s.holds f then s.waitImpl f c timed false w else none
  | .waitWithPredicate c timed, .runs .client =>
    if s.holds f then some (s.goto f (.loop c timed), .pending) else none
  | .predicate value w, .runs (.loop c timed) =>
    if value then some (s.afterLoop f timed) else s.waitImpl f c timed true w
  | .predicate value _, .runs .result => some (s.goto f .client, .satisfied value)
  | .notifyOne c w, .runs _ =>
    (s.toFibers.notifyOne (.cv c) w).map fun q => ({ s with toFibers := q }, .done)
  | .notifyAll c, .runs _ => some ({ s with toFibers := s.toFibers.notifyAll (.cv c) }, .done)
  | .timeOut, .waits _ _ _ =>
    (s.toFibers.timeOut f).map fun q => ({ s with toFibers := q }, .pending)
  | .resume, .waits _ _ _ =>
    (s.toFibers.resume f .client).map fun (call, status, q) =>
      State.resumed { s with toFibers := q } f status call
  | _, _ => none

def system : System (State φ γ) (φ × Op φ γ) where
  Init s := s = { place := fun _ => .runs .client }
  step s e := (exec s e.1 e.2).map Prod.fst

/-- A timed lock that was notified finds the mutex free when it resumes. -/
def Unbarged (s : State φ γ) (e : φ × Op φ γ) : Prop :=
  match s.place e.1 with
  | .waits k _ .timedWaitHelper => e.2 = .resume → e.1 ∉ s.queue k → s.occupied = false
  | _ => True

end

/-! ### The invariant -/

/-- One fiber holds the mutex while it is occupied; within `WaitImplWithPredicate` the
predicate is called by the holder. -/
structure Core (s : State φ γ) : Prop where
  sound : s.toFibers.Sound
  occupied : s.occupied = true ↔ ∃ f, s.holds f = true
  sole : ∀ f g, s.holds f = true → s.holds g = true → f = g
  inside : ∀ f a, s.place f = .runs a → a ≠ .client → s.holds f = true

/-- The invariant of the mutex: what `Core` says of its owner, and if it is free while fibers
wait for it, one of them was notified. -/
structure Inv (s : State φ γ) : Prop extends Core s where
  handed : s.occupied = false → s.queue .mutex ≠ [] → ∃ f, s.Notified .mutex f

/-- What a step of `f` ends in. -/
def Kept (f : φ) (p : State φ γ × Outcome) : Prop :=
  Inv p.1 ∧ (p.2.locks = true → p.1.holds f = true)

variable {s t : State φ γ} {f g : φ} {w : Option φ} {c : γ} {k : Queue γ} {timed loops : Bool}
  {status : WaitStatus} {a b : Point γ} {call : Call γ}

theorem Inv.init : Inv ({ place := fun _ => .runs .client } : State φ γ) := by
  refine ⟨⟨.init _, ?_, ?_, ?_⟩, ?_⟩
  · simp
  · intro f g hf
    cases hf
  · intro f a hplace hne
    injection hplace with ha
    exact absurd ha.symm hne
  · intro _ hne
    exact absurd rfl hne

theorem Core.nobody (h : Core s) (hfree : s.occupied = false) (g : φ) : s.holds g = false := by
  by_contra hg
  have hocc := h.occupied.mpr ⟨g, by simpa using hg⟩
  rw [hfree] at hocc
  cases hocc

/-- While the mutex is occupied nobody needs to be notified. -/
theorem Core.inv (h : Core s) (hocc : s.occupied = true) : Inv s := by
  refine ⟨h, ?_⟩
  intro hfree
  rw [hocc] at hfree
  cases hfree

theorem Inv.inside_sole (h : Inv s) (hholds : s.holds f = true) (hgf : g ≠ f)
    (hplace : s.place g = .runs a) : a = .client := by
  by_contra hne
  exact hgf (h.sole g f (h.inside g a hplace hne) hholds)

/-- A notification of a condition variable, or the end of a sleep. -/
theorem Inv.still (h : Inv s) {q : Fibers φ (Queue γ) (Point γ) (Call γ)} (hsound : q.Sound)
    (hplace : q.place = s.place) (hqueue : q.queue .mutex = s.queue .mutex)
    (hnotified : ∀ g, s.Notified .mutex g → q.Notified .mutex g) :
    Inv { s with toFibers := q } := by
  refine ⟨⟨hsound, h.occupied, h.sole, ?_⟩, ?_⟩
  · intro g a hg
    exact h.inside g a (hplace ▸ hg)
  · intro hfree hne
    obtain ⟨g, hg⟩ := h.handed hfree (hqueue ▸ hne)
    exact ⟨g, hnotified g hg⟩

variable [DecidableEq φ]

theorem Inv.goto (h : Inv s) (hplace : s.place f = .runs b)
    (hholds : a ≠ .client → s.holds f = true) : Inv (s.goto f a) := by
  refine ⟨⟨h.sound.goto hplace, h.occupied, h.sole, ?_⟩, ?_⟩
  · intro g a' hg hne
    by_cases hgf : g = f
    · subst hgf
      have hself : (s.goto g a).place g = .runs a := Function.update_self g _ _
      rw [hself] at hg
      injection hg with ha
      exact hholds (ha ▸ hne)
    · have hother : (s.goto f a).place g = s.place g := Function.update_of_ne hgf _ _
      rw [hother] at hg
      exact h.inside g a' hg hne
  · intro hfree hne
    obtain ⟨g, hg⟩ := h.handed hfree hne
    exact ⟨g, (Fibers.notified_goto hplace).mpr hg⟩

/-- `_occupied = true` when nobody holds the mutex. -/
theorem Core.acquire (h : Core s) (hfree : s.occupied = false) : Inv (s.acquire f) := by
  have hsole : ∀ g, (s.acquire f).holds g = true → g = f := by
    intro g hg
    by_contra hne
    have hold : s.holds g = true := by simpa [State.acquire, Function.update_of_ne hne] using hg
    rw [h.nobody hfree g] at hold
    cases hold
  refine Core.inv ⟨h.sound, ?_, ?_, ?_⟩ rfl
  · exact iff_of_true rfl ⟨f, Function.update_self f _ _⟩
  · intro g g' hg hg'
    rw [hsole g hg, hsole g' hg']
  · intro g a hg hne
    have hold := h.inside g a hg hne
    rw [h.nobody hfree g] at hold
    cases hold

@[simp] theorem acquire_holds : (s.acquire f).holds f = true := Function.update_self f _ _

theorem Inv.afterLoop (h : Inv s) (hplace : s.place f = .runs a) (hholds : s.holds f = true) :
    Kept f (s.afterLoop f timed) := by
  unfold State.afterLoop
  cases timed with
  | true => exact ⟨h.goto hplace fun _ => hholds, fun _ => hholds⟩
  | false => exact ⟨h.goto hplace fun _ => hholds, fun _ => hholds⟩

theorem Inv.afterWait (h : Inv s) (hplace : s.place f = .runs a) (hholds : s.holds f = true) :
    Kept f (State.afterWait f c timed loops status s) := by
  unfold State.afterWait
  cases loops with
  | false => exact ⟨h, fun _ => hholds⟩
  | true =>
    cases status with
    | Ready => exact ⟨h.goto hplace fun _ => hholds, fun _ => hholds⟩
    | Timeout => exact h.afterLoop hplace hholds

theorem Inv.tryLock (h : Inv s) : Kept f (s.tryLock f) := by
  unfold State.tryLock
  cases hocc : s.occupied with
  | true => exact ⟨h, fun hlocks => nomatch hlocks⟩
  | false => exact ⟨h.acquire hocc, fun _ => acquire_holds⟩

variable [DecidableEq γ]

theorem Core.wait (h : Core s) (hplace : s.place f = .runs a) :
    Core (s.wait f k timed call).1 := by
  refine ⟨h.sound.wait hplace, h.occupied, h.sole, ?_⟩
  intro g a' hg hne
  by_cases hgf : g = f
  · subst hgf
    have hself : (s.wait g k timed call).1.place g = .waits k timed call :=
      Function.update_self g _ _
    rw [hself] at hg
    cases hg
  · have hother : (s.wait f k timed call).1.place g = s.place g := Function.update_of_ne hgf _ _
    rw [hother] at hg
    exact h.inside g a' hg hne

/-- The loop of `lock`, whatever was notified before. -/
theorem Core.lock (h : Core s) (hplace : s.place f = .runs a)
    {rest : State φ γ → State φ γ × Outcome}
    (hrest : ∀ u, Inv u → u.place f = .runs a → u.holds f = true → Kept f (rest u)) :
    Kept f (s.lock f call rest) := by
  unfold State.lock
  cases hocc : s.occupied with
  | true =>
    refine ⟨(h.wait hplace).inv hocc, ?_⟩
    intro hlocks
    cases hlocks
  | false => exact hrest _ (h.acquire hocc) hplace acquire_holds

theorem Core.locked (h : Core s) (hplace : s.place f = .runs a) :
    Kept f (s.lock f .lock fun s => (s, .locked)) := by
  apply h.lock hplace
  intro u hu _ hholds
  exact ⟨hu, fun _ => hholds⟩

/-- `unlock` by the holder leaves the mutex free, with a waiter notified if there was one. -/
theorem Inv.unlock (h : Inv s) (hholds : s.holds f = true) (hunlock : s.unlock f w = some t) :
    t.place = s.place ∧ t.toFibers.Sound ∧ t.occupied = false ∧ (∀ g, t.holds g = false) ∧
      (t.queue .mutex ≠ [] → ∃ g, t.Notified .mutex g) := by
  obtain ⟨q, hq, rfl⟩ := Option.map_eq_some_iff.mp hunlock
  refine ⟨Fibers.notifyOne_place hq, h.sound.notifyOne hq, rfl, ?_, ?_⟩
  · intro g
    by_cases hgf : g = f
    · subst hgf
      exact Function.update_self g _ _
    · have hother : Function.update s.holds f false g = s.holds g := Function.update_of_ne hgf _ _
      show Function.update s.holds f false g = false
      rw [hother]
      by_contra hg
      exact hgf (h.sole g f (by simpa using hg) hholds)
  · intro hne
    rcases h.sound.exists_notified_notifyOne hq with ⟨hempty, rfl⟩ | hnotified
    · exact absurd hempty hne
    · exact hnotified

theorem Inv.unlock_client (h : Inv s) (hholds : s.holds f = true)
    (hplace : s.place f = .runs .client) (hunlock : s.unlock f w = some t) : Inv t := by
  obtain ⟨hsame, hsound, hfree, hnobody, hhanded⟩ := h.unlock hholds hunlock
  refine ⟨⟨hsound, ?_, ?_, ?_⟩, fun _ => hhanded⟩
  · simp [hfree, hnobody]
  · intro g g' hg
    rw [hnobody g] at hg
    cases hg
  · intro g a hg hne
    rw [hsame] at hg
    by_cases hgf : g = f
    · subst hgf
      rw [hplace] at hg
      injection hg with ha
      exact absurd ha.symm hne
    · exact absurd (h.inside_sole hholds hgf hg) hne

/-- `WaitImpl` unlocks and is in the queue of the condition variable before anyone else
runs. -/
theorem Inv.waitImpl (h : Inv s) (hholds : s.holds f = true) (hplace : s.place f = .runs a)
    {p : State φ γ × Outcome} (hwait : s.waitImpl f c timed loops w = some p) : Kept f p := by
  obtain ⟨u, hunlock, rfl⟩ := Option.map_eq_some_iff.mp hwait
  obtain ⟨hsame, hsound, hfree, hnobody, hhanded⟩ := h.unlock hholds hunlock
  have hu : u.place f = .runs a := by rw [hsame, hplace]
  refine ⟨⟨⟨hsound.wait hu, ?_, ?_, ?_⟩, ?_⟩, ?_⟩
  · show u.occupied = true ↔ ∃ g, u.holds g = true
    simp [hfree, hnobody]
  · intro g g' hg
    have hnot := hnobody g
    rw [show u.holds g = true from hg] at hnot
    cases hnot
  · intro g a' hg hne
    by_cases hgf : g = f
    · subst hgf
      have hself : (u.wait g (.cv c) timed (.waitImpl c timed loops)).1.place g =
          .waits (.cv c) timed (.waitImpl c timed loops) := Function.update_self g _ _
      rw [hself] at hg
      cases hg
    · have hother : (u.wait f (.cv c) timed (.waitImpl c timed loops)).1.place g = u.place g :=
        Fibers.wait_place_of_ne hgf
      rw [hother, hsame] at hg
      exact absurd (h.inside_sole hholds hgf hg) hne
  · intro _ hne
    have hqueue : (u.toFibers.wait f (.cv c) timed (Call.waitImpl c timed loops)).queue .mutex =
        u.queue .mutex := Fibers.wait_queue_of_ne (by simp)
    obtain ⟨g, hg⟩ := hhanded (hqueue ▸ hne)
    exact ⟨g, (Fibers.notified_wait hu).mpr hg⟩
  · intro hlocks
    cases hlocks

theorem Inv.timedWaitHelper (h : Inv s) (hplace : s.place f = .runs a) :
    Kept f (s.timedWaitHelper f) := by
  unfold State.timedWaitHelper
  cases hocc : s.occupied with
  | true => exact ⟨(h.wait hplace).inv hocc, fun hlocks => nomatch hlocks⟩
  | false => exact ⟨h.acquire hocc, fun _ => acquire_holds⟩

/-! ### Every step -/

theorem Inv.leave (h : Inv s) (hplace : s.place f = .waits k timed call) :
    Core { s with toFibers := s.toFibers.leave f k (.client : Point γ) } := by
  refine ⟨h.sound.leave hplace, h.occupied, h.sole, ?_⟩
  intro g a hg hne
  by_cases hgf : g = f
  · subst hgf
    rw [Fibers.leave_place_self] at hg
    injection hg with ha
    exact absurd ha.symm hne
  · rw [Fibers.leave_place_of_ne hgf] at hg
    exact h.inside g a hg hne

/-- A fiber is back from `Wait`; a timed lock that timed out was not the one notified. -/
theorem Inv.resumed (h : Inv s) (hplace : s.place f = .waits k timed call)
    (hstatus : status = .Timeout ↔ f ∈ s.queue k)
    (hunbarged : call = .timedWaitHelper → status = .Ready → s.occupied = false) :
    Kept f (State.resumed { s with toFibers := s.toFibers.leave f k .client } f status call) := by
  have hcore := h.leave hplace
  have hclient : (s.toFibers.leave f k (.client : Point γ)).place f = .runs .client :=
    Fibers.leave_place_self
  cases call with
  | lock => exact hcore.locked hclient
  | timedWaitHelper =>
    cases status with
    | Ready => exact ⟨hcore.acquire (hunbarged rfl rfl), fun _ => acquire_holds⟩
    | Timeout =>
      refine ⟨⟨hcore, ?_⟩, fun hlocks => nomatch hlocks⟩
      intro hfree hne
      have hlink : f ∈ s.queue k := hstatus.mp rfl
      have hwaiting : s.queue .mutex ≠ [] := by
        intro hempty
        apply hne
        apply List.eq_nil_iff_forall_not_mem.mpr
        intro g hg
        have hold := ((h.sound.mem_leave hplace).mp hg).1
        rw [hempty] at hold
        cases hold
      obtain ⟨g, hg⟩ := h.handed hfree hwaiting
      refine ⟨g, (h.sound.notified_leave hplace).mpr ⟨hg, ?_⟩⟩
      rintro rfl
      obtain ⟨⟨timed', call', hg⟩, hnot⟩ := hg
      rw [hplace] at hg
      injection hg with hk
      exact hnot (hk ▸ hlink)
  | waitImpl c timed loops =>
    apply hcore.lock hclient
    intro u hu hplace hholds
    exact hu.afterWait hplace hholds
  | relock c timed loops status =>
    apply hcore.lock hclient
    intro u hu hplace hholds
    exact hu.afterWait hplace hholds

/-- Each step keeps the invariant, and what it returns is true. -/
theorem Inv.exec (h : Inv s) {op : Op φ γ} {p : State φ γ × Outcome}
    (hunbarged : Unbarged s (f, op)) (hexec : exec s f op = some p) : Kept f p := by
  unfold Mutex.exec at hexec
  split at hexec
  · rename_i hplace
    cases hexec
    exact h.locked hplace
  · cases hexec
    exact h.tryLock
  · rename_i hplace
    cases hexec
    exact h.timedWaitHelper hplace
  · rename_i hplace
    rw [Option.ite_none_right_eq_some] at hexec
    obtain ⟨hholds, hexec⟩ := hexec
    obtain ⟨u, hunlock, rfl⟩ := Option.map_eq_some_iff.mp hexec
    exact ⟨h.unlock_client hholds hplace hunlock, fun hlocks => nomatch hlocks⟩
  · rename_i hplace
    rw [Option.ite_none_right_eq_some] at hexec
    exact h.waitImpl hexec.1 hplace hexec.2
  · rename_i hplace
    rw [Option.ite_none_right_eq_some, Option.some.injEq] at hexec
    obtain ⟨hholds, rfl⟩ := hexec
    exact ⟨h.goto hplace fun _ => hholds, fun hlocks => nomatch hlocks⟩
  · rename_i hplace
    have hholds := h.inside f _ hplace (by simp)
    split at hexec
    · cases hexec
      exact h.afterLoop hplace hholds
    · exact h.waitImpl hholds hplace hexec
  · rename_i hplace
    cases hexec
    have hholds := h.inside f _ hplace (by simp)
    exact ⟨h.goto hplace fun _ => hholds, fun _ => hholds⟩
  · obtain ⟨q, hq, rfl⟩ := Option.map_eq_some_iff.mp hexec
    refine ⟨?_, fun hlocks => nomatch hlocks⟩
    exact h.still (h.sound.notifyOne hq) (Fibers.notifyOne_place hq)
      (Fibers.notifyOne_queue_of_ne hq (by simp)) fun g => h.sound.notified_notifyOne hq
  · cases hexec
    refine ⟨?_, fun hlocks => nomatch hlocks⟩
    apply h.still h.sound.notifyAll rfl
    · exact Fibers.notifyAll_queue_of_ne (by simp)
    · intro g hg
      exact h.sound.notified_notifyAll.mpr (.inl hg)
  · obtain ⟨q, hq, rfl⟩ := Option.map_eq_some_iff.mp hexec
    refine ⟨?_, fun hlocks => nomatch hlocks⟩
    have hsound := h.sound.timeOut hq
    obtain ⟨-, -, rfl⟩ := Fibers.timeOut_cases hq
    exact h.still hsound rfl rfl fun g hg => hg
  · obtain ⟨⟨call, status, q⟩, hq, rfl⟩ := Option.map_eq_some_iff.mp hexec
    obtain ⟨k, timed, hplace, -, rfl, hstatus, -⟩ := h.sound.resume_cases hq
    apply h.resumed hplace hstatus
    rintro rfl rfl
    unfold Unbarged at hunbarged
    simp only [hplace] at hunbarged
    apply hunbarged trivial
    intro hlink
    cases hstatus.mpr hlink
  · cases hexec

/-- In every run in which a notified timed lock finds the mutex free: one fiber at most holds
the mutex, and exactly while it is occupied; a lock or a condition wait that returns does so
with its caller as the holder; and if the mutex is free and every fiber that waits for it is
still to be notified or to time out, none does. -/
theorem mutex_handed (s : State φ γ) (hs : system.ReachableIf (fun s e _ => Unbarged s e) s) :
    (∀ f g, s.holds f = true → s.holds g = true → f = g) ∧
      (s.occupied = true ↔ ∃ f, s.holds f = true) ∧
      (∀ f op t out, exec s f op = some (t, out) → Unbarged s (f, op) → out.locks = true →
        t.holds f = true ∧ ∀ g, t.holds g = true → g = f) ∧
      ((∀ f, s.holds f = false) →
        (∀ f timed call, s.place f = .waits .mutex timed call → s.runnable f = false) →
        s.queue .mutex = []) := by
  have h : Inv s := by
    refine System.Inductive.reachable (P := Inv) ⟨?_, ?_⟩ hs
    · rintro s rfl
      exact .init
    · rintro s ⟨f, op⟩ t h hstep hunbarged
      obtain ⟨p, hexec, rfl⟩ := Option.map_eq_some_iff.mp hstep
      exact (h.exec hunbarged hexec).1
  refine ⟨h.sole, h.occupied, ?_, ?_⟩
  · intro f op t out hexec hunbarged hlocks
    obtain ⟨ht, hholds⟩ := h.exec hunbarged hexec
    refine ⟨hholds hlocks, ?_⟩
    intro g hg
    exact ht.sole g f hg (hholds hlocks)
  · intro hnobody hnone
    have hfree : s.occupied = false := by
      rw [Bool.eq_false_iff, ne_eq, h.occupied]
      simp [hnobody]
    by_contra hne
    obtain ⟨f, hf⟩ := h.handed hfree hne
    obtain ⟨⟨timed, call, hplace⟩, -⟩ := id hf
    have hrun := h.sound.notified .mutex f hf
    rw [hnone f timed call hplace] at hrun
    cases hrun

instance (s : State φ γ) (e : φ × Op φ γ) : Decidable (Unbarged s e) := by
  unfold Unbarged
  split <;> infer_instance

/-- Fiber 1 waits with a time point for fiber 0, which unlocks. -/
def handOver : List (Fin 3 × Op (Fin 3) (Fin 1)) :=
  [(0, .lock), (1, .tryLockUntil), (0, .unlock (some 1))]

def start : State (Fin 3) (Fin 1) := { place := fun _ => .runs .client }

/-- It resumes as the holder, and fiber 2 waits for it. -/
theorem mutex_handed_timed :
    let s := (system.runIf (fun s e _ => Unbarged s e) start
      (handOver ++ [(1, .resume), (2, .lock)])).get (by decide)
    s.holds 1 = true ∧ s.queue .mutex = [2] ∧ ∀ g, s.holds 1 = true → s.holds g = true → 1 = g := by
  refine ⟨by decide, by decide, ?_⟩
  intro g
  exact (mutex_handed _ (System.ReachableIf.runIf (.init rfl) (Option.some_get _).symm)).1 1 g

/-- Fiber 2 locks before fiber 1 resumes, and both hold the mutex. -/
theorem not_mutex_handed :
    ∃ s : State (Fin 3) (Fin 1), system.Reachable s ∧ s.holds 1 = true ∧ s.holds 2 = true := by
  have hs : system.Reachable ((system.run start (handOver ++ [(2, .tryLock), (1, .resume)])).get
      (by decide)) :=
    System.ReachableIf.run (fun _ _ _ _ => trivial) (.init rfl) (Option.some_get _).symm
  exact ⟨_, hs, by decide, by decide⟩

end Yaclib.Fault.Fiber.Mutex
