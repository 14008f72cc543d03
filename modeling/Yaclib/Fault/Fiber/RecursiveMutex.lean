import Yaclib.Concurrency.System
import Yaclib.Fault.Fiber.Queue
import Yaclib.Util.Counter

/-!
`RecursiveMutex` and `RecursiveTimedMutex` of `fault/detail/fiber`. `unlock` notifies nobody,
so a fiber in the queue leaves it only when its time is over.
-/

namespace Yaclib.Fault.Fiber.RecursiveMutex

open Concurrency

/-- `GetId` of the fibers: `++sNextId` gives each its own, and none is the 0 of no owner. -/
structure Ids (φ : Type) where
  id : φ → UInt64
  injective : Function.Injective id
  ne_zero : ∀ f, id f ≠ 0

inductive Call where
  | lock
  | timedWaitHelper
  deriving DecidableEq

/-- `depth` counts what a fiber has acquired and not released. -/
structure State (φ : Type) extends Fibers φ Unit Unit Call where
  owner_id : UInt64 := 0
  occupied_count : UInt32 := 0
  depth : φ → Nat := fun _ => 0

/-- The calls of a fiber with the choices of the scheduler. -/
inductive Op where
  | lock
  | tryLock
  | tryLockUntil
  | unlock
  | timeOut
  | resume
  deriving DecidableEq

variable {φ : Type} (ids : Ids φ)

section

variable [DecidableEq φ]

namespace State

/-- `_occupied_count != 0 && _owner_id != GetId()` -/
def blocked (s : State φ) (f : φ) : Bool :=
  s.occupied_count != 0 && s.owner_id != ids.id f

def lockHelper (s : State φ) (f : φ) : State φ :=
  { s with
    occupied_count := s.occupied_count + 1
    owner_id := ids.id f
    depth := Function.update s.depth f (s.depth f + 1) }

def wait (s : State φ) (f : φ) (timed : Bool) (call : Call) : State φ :=
  { s with toFibers := s.toFibers.wait f () timed call }

/-- `RecursiveMutex::lock` up to its `Wait` -/
def lock (s : State φ) (f : φ) : State φ :=
  if s.blocked ids f then s.wait f false .lock else s.lockHelper ids f

def tryLock (s : State φ) (f : φ) : State φ :=
  if s.blocked ids f then s else s.lockHelper ids f

/-- `TimedWaitHelper` up to its `Wait` -/
def timedWaitHelper (s : State φ) (f : φ) : State φ :=
  if s.blocked ids f then s.wait f true .timedWaitHelper else s.lockHelper ids f

def unlock (s : State φ) (f : φ) : State φ :=
  { s with
    occupied_count := s.occupied_count - 1
    owner_id := if s.occupied_count - 1 = 0 then 0 else s.owner_id
    depth := Function.update s.depth f (s.depth f - 1) }

def resumed (s : State φ) (f : φ) (status : WaitStatus) : Call → State φ
  | .lock => s.lockHelper ids f
  | .timedWaitHelper => if status = .Ready then s.lockHelper ids f else s

end State

/-- One step of a fiber. It unlocks only what it has locked. -/
def step (s : State φ) (e : φ × Op) : Option (State φ) :=
  match e.2, s.place e.1 with
  | .lock, .runs _ => some (s.lock ids e.1)
  | .tryLock, .runs _ => some (s.tryLock ids e.1)
  | .tryLockUntil, .runs _ => some (s.timedWaitHelper ids e.1)
  | .unlock, .runs _ => if s.depth e.1 = 0 then none else some (s.unlock e.1)
  | .timeOut, .waits _ _ _ => (s.toFibers.timeOut e.1).map fun q => { s with toFibers := q }
  | .resume, .waits _ _ _ =>
    (s.toFibers.resume e.1 ()).map fun (call, status, q) =>
      State.resumed ids { s with toFibers := q } e.1 status call
  | _, _ => none

def start : State φ := { place := fun _ => .runs () }

def system : System (State φ) (φ × Op) where
  Init s := s = start
  step := step ids

/-- One fiber at most owns the mutex, as often as `_occupied_count` says and under its id; and
if it is free and nobody was notified, then nobody is parked. -/
structure Held (s : State φ) : Prop where
  sole : ∀ f g, s.depth f ≠ 0 → s.depth g ≠ 0 → f = g
  count : ∀ f, s.depth f ≠ 0 → s.occupied_count.toNat = s.depth f ∧ s.owner_id = ids.id f
  free : (∀ f, s.depth f = 0) → s.occupied_count = 0 ∧ s.owner_id = 0
  woken : s.occupied_count = 0 → (∀ f, ¬ s.Notified () f) → ∀ f, ¬ s.Parked () f

/-- The last `unlock` finds nobody parked, and the count does not wrap. -/
def Prompt (s : State φ) (e : φ × Op) : Prop :=
  match e.2 with
  | .unlock => s.occupied_count = 1 → ∀ f, ¬ s.Parked () f
  | .lock | .tryLock | .tryLockUntil => s.blocked ids e.1 = false → s.occupied_count + 1 ≠ 0
  | .timeOut | .resume => True

end

/-! ### The invariant -/

/-- No fiber is ever notified, so no `lock` resumes. -/
structure Inv (s : State φ) : Prop where
  sound : s.toFibers.Sound
  unnotified : ∀ f, ¬ s.Notified () f
  plain : ∀ f, s.place f ≠ .waits () true .lock
  held : Held ids s

variable {ids} {s t : State φ} {f g : φ}

theorem Inv.init : Inv ids (start : State φ) := by
  refine ⟨.init (), ?_, ?_, ?_, ?_, ?_, ?_⟩
  · rintro f ⟨⟨timed, call, hplace⟩, -⟩
    cases hplace
  · intro f hplace
    cases hplace
  · intro f g hf
    exact absurd rfl hf
  · intro f hf
    exact absurd rfl hf
  · intro _
    exact ⟨rfl, rfl⟩
  · rintro - - f ⟨hlink, -⟩
    cases hlink

/-- A fiber that is not blocked owns the mutex or nobody does. -/
theorem Held.unblocked (h : Held ids s) (hfree : s.blocked ids f = false) :
    s.occupied_count.toNat = s.depth f ∧ ∀ g, g ≠ f → s.depth g = 0 := by
  simp only [State.blocked, Bool.and_eq_false_iff, bne_eq_false_iff_eq] at hfree
  by_cases hdepth : s.depth f = 0
  · have hnobody : ∀ g, s.depth g = 0 := by
      intro g
      by_contra hg
      obtain ⟨hcount, howner⟩ := h.count g hg
      rcases hfree with hzero | howns
      · rw [hzero] at hcount
        exact hg hcount.symm
      · have hgf : g = f := ids.injective (howner.symm.trans howns)
        exact hg (hgf ▸ hdepth)
    obtain ⟨hzero, -⟩ := h.free hnobody
    rw [hzero, hdepth]
    exact ⟨rfl, fun g _ => hnobody g⟩
  · refine ⟨(h.count f hdepth).1, ?_⟩
    intro g hgf
    by_contra hg
    exact hgf (h.sole g f hg hdepth)

/-- The end of a sleep, and a fiber that leaves its timed wait. -/
theorem Inv.still (h : Inv ids s) {q : Fibers φ Unit Unit Call} (hsound : q.Sound)
    (hnotified : ∀ g, ¬ q.Notified () g) (hplain : ∀ g, q.place g ≠ .waits () true .lock)
    (hparked : ∀ g, q.Parked () g → s.Parked () g) : Inv ids { s with toFibers := q } := by
  refine ⟨hsound, hnotified, hplain, h.held.sole, h.held.count, h.held.free, ?_⟩
  intro hzero _ g hg
  exact h.held.woken hzero h.unnotified g (hparked g hg)

variable [DecidableEq φ]

/-- `LockHelper` keeps everything in step unless the count wraps. -/
theorem Inv.lockHelper (h : Inv ids s) (hfree : s.blocked ids f = false)
    (hwrap : s.occupied_count + 1 ≠ 0) : Inv ids (s.lockHelper ids f) := by
  obtain ⟨hcount, hothers⟩ := h.held.unblocked hfree
  have hself : (s.lockHelper ids f).depth f = s.depth f + 1 := Function.update_self f _ _
  have hother : ∀ g, (s.lockHelper ids f).depth g ≠ 0 → g = f := by
    intro g hg
    by_contra hgf
    have hsame : (s.lockHelper ids f).depth g = s.depth g := Function.update_of_ne hgf _ _
    exact hg (hsame.trans (hothers g hgf))
  refine ⟨h.sound, h.unnotified, h.plain, ?_, ?_, ?_, ?_⟩
  · intro g g' hg hg'
    rw [hother g hg, hother g' hg']
  · intro g hg
    obtain rfl := hother g hg
    refine ⟨?_, rfl⟩
    rw [hself, ← hcount]
    exact Counter.toNat_add_one hwrap
  · intro hnobody
    have hzero := hnobody f
    rw [hself] at hzero
    omega
  · intro hzero
    exact absurd hzero hwrap

/-- Where the count wraps, it is not the depth of the owner. -/
theorem not_held_of_wrap (hwrap : s.occupied_count + 1 = 0) :
    ¬ Held ids (s.lockHelper ids f) := by
  intro h
  have hself : (s.lockHelper ids f).depth f = s.depth f + 1 := Function.update_self f _ _
  have hdepth : (s.lockHelper ids f).depth f ≠ 0 := by omega
  have hcount := (h.count f hdepth).1
  have hzero : (s.lockHelper ids f).occupied_count = 0 := hwrap
  rw [hzero] at hcount
  exact hdepth hcount.symm

theorem Inv.wait (h : Inv ids s) {timed : Bool} {call : Call} (hplace : s.place f = .runs ())
    (hcall : timed = true → call ≠ .lock) (hblocked : s.blocked ids f = true) :
    Inv ids (s.wait f timed call) := by
  have hoccupied : s.occupied_count ≠ 0 := by
    rintro hzero
    simp [State.blocked, hzero] at hblocked
  refine ⟨h.sound.wait hplace, ?_, ?_, h.held.sole, h.held.count, h.held.free, ?_⟩
  · intro g hg
    exact h.unnotified g ((Fibers.notified_wait hplace).mp hg)
  · intro g hg
    by_cases hgf : g = f
    · subst hgf
      have hself : (s.wait g timed call).place g = .waits () timed call := Function.update_self g _ _
      rw [hself] at hg
      injection hg with _ htimed hlock
      exact hcall htimed hlock
    · have hother : (s.wait f timed call).place g = s.place g := Fibers.wait_place_of_ne hgf
      rw [hother] at hg
      exact h.plain g hg
  · intro hzero
    exact absurd hzero hoccupied

/-- `unlock` keeps everything in step unless it frees the mutex while a fiber is parked. -/
theorem Inv.unlock (h : Inv ids s) (hdepth : s.depth f ≠ 0)
    (hlast : s.occupied_count = 1 → ∀ g, ¬ s.Parked () g) : Inv ids (s.unlock f) := by
  obtain ⟨hcount, howner⟩ := h.held.count f hdepth
  have hpositive : s.occupied_count ≠ 0 := by
    intro hzero
    rw [hzero] at hcount
    exact hdepth hcount.symm
  have hpred : (s.unlock f).occupied_count.toNat = s.occupied_count.toNat - 1 :=
    Counter.toNat_sub_one hpositive
  have hself : (s.unlock f).depth f = s.depth f - 1 := Function.update_self f _ _
  have hother : ∀ g, (s.unlock f).depth g ≠ 0 → g = f := by
    intro g hg
    by_contra hgf
    have hsame : (s.unlock f).depth g = s.depth g := Function.update_of_ne hgf _ _
    exact hgf (h.held.sole g f (hsame ▸ hg) hdepth)
  have hzero_iff : (s.unlock f).occupied_count = 0 ↔ s.depth f = 1 := by
    rw [← UInt32.toNat_inj, hpred, hcount]
    show s.depth f - 1 = 0 ↔ s.depth f = 1
    omega
  refine ⟨h.sound, h.unnotified, h.plain, ?_, ?_, ?_, ?_⟩
  · intro g g' hg hg'
    rw [hother g hg, hother g' hg']
  · intro g hg
    obtain rfl := hother g hg
    refine ⟨by rw [hpred, hself, hcount], ?_⟩
    have hne : ¬ (s.unlock g).occupied_count = 0 := by
      rw [hzero_iff]
      intro hone
      exact hg (by rw [hself, hone])
    exact (if_neg hne).trans howner
  · intro hnobody
    have hgone := hnobody f
    have hzero := hzero_iff.mpr (by omega)
    exact ⟨hzero, if_pos hzero⟩
  · intro hzero _
    apply hlast
    apply UInt32.toNat_inj.mp
    rw [hcount]
    exact hzero_iff.mp hzero

/-- The last `unlock` leaves a parked fiber where it is. -/
theorem Inv.parked_of_unlock (h : Inv ids s) (hheld : Held ids (s.unlock f))
    (hlast : s.occupied_count = 1) : ∀ g, ¬ s.Parked () g := by
  have hzero : (s.unlock f).occupied_count = 0 := by
    show s.occupied_count - 1 = 0
    rw [hlast]
    rfl
  exact hheld.woken hzero h.unnotified

theorem Inv.timeOut (h : Inv ids s) {q : Fibers φ Unit Unit Call}
    (htimeOut : s.toFibers.timeOut f = some q) : Inv ids { s with toFibers := q } := by
  have hsound := h.sound.timeOut htimeOut
  obtain ⟨-, -, rfl⟩ := Fibers.timeOut_cases htimeOut
  refine h.still hsound h.unnotified h.plain ?_
  rintro g ⟨hlink, hrun⟩
  refine ⟨hlink, ?_⟩
  by_cases hgf : g = f
  · subst hgf
    simp at hrun
  · simpa [Function.update_of_ne hgf] using hrun

/-- Only a fiber whose time is over resumes, and it gives up. -/
theorem Inv.resumed (h : Inv ids s) {call : Call} {status : WaitStatus}
    {q : Fibers φ Unit Unit Call} (hresume : s.toFibers.resume f () = some (call, status, q)) :
    Inv ids (State.resumed ids { s with toFibers := q } f status call) := by
  obtain ⟨k, timed, hplace, hrun, rfl, hstatus, htimed⟩ := h.sound.resume_cases hresume
  have hlink : f ∈ s.queue k := by
    by_contra hnot
    exact h.unnotified f ⟨⟨timed, call, hplace⟩, hnot⟩
  have htimeout := hstatus.mpr hlink
  have hcall : call = .timedWaitHelper := by
    cases call with
    | timedWaitHelper => rfl
    | lock =>
      rw [htimed htimeout] at hplace
      exact absurd hplace (h.plain f)
  subst hcall htimeout
  refine h.still (h.sound.leave hplace) ?_ ?_ ?_
  · intro g hg
    exact h.unnotified g ((h.sound.notified_leave hplace).mp hg).1
  · intro g hg
    by_cases hgf : g = f
    · subst hgf
      rw [Fibers.leave_place_self] at hg
      cases hg
    · rw [Fibers.leave_place_of_ne hgf] at hg
      exact h.plain g hg
  · rintro g ⟨hlink, hparked⟩
    exact ⟨((h.sound.mem_leave hplace).mp hlink).1, hparked⟩

/-- An acquisition either blocks or counts. -/
theorem Inv.acquire (h : Inv ids s) {blocked : State φ}
    (hblocked : s.blocked ids f = true → Inv ids blocked)
    (ht : t = if s.blocked ids f then blocked else s.lockHelper ids f) :
    (Held ids t ↔ (s.blocked ids f = false → s.occupied_count + 1 ≠ 0)) ∧
      ((s.blocked ids f = false → s.occupied_count + 1 ≠ 0) → Inv ids t) := by
  cases hb : s.blocked ids f with
  | true =>
    rw [hb, if_pos rfl] at ht
    subst ht
    exact ⟨iff_of_true (hblocked hb).held (fun hfalse => nomatch hfalse), fun _ => hblocked hb⟩
  | false =>
    rw [hb] at ht
    subst ht
    refine ⟨⟨?_, ?_⟩, ?_⟩
    · intro hheld _ hwrap
      exact not_held_of_wrap hwrap hheld
    · intro hcond
      exact (h.lockHelper hb (hcond rfl)).held
    · intro hcond
      exact h.lockHelper hb (hcond rfl)

/-- What a step leaves in step, and when. -/
theorem Inv.of_step (h : Inv ids s) {e : φ × Op} (hstep : step ids s e = some t) :
    (Held ids t ↔ Prompt ids s e) ∧ (Prompt ids s e → Inv ids t) := by
  obtain ⟨f, op⟩ := e
  unfold step at hstep
  split at hstep
  · rename_i _ _ hop hplace
    obtain rfl : op = .lock := hop
    have hwait : s.blocked ids f = true → Inv ids (s.wait f false .lock) :=
      h.wait hplace (by simp)
    exact h.acquire hwait (Option.some.inj hstep).symm
  · rename_i _ _ hop hplace
    obtain rfl : op = .tryLock := hop
    exact h.acquire (fun _ => h) (Option.some.inj hstep).symm
  · rename_i _ _ hop hplace
    obtain rfl : op = .tryLockUntil := hop
    have hwait : s.blocked ids f = true → Inv ids (s.wait f true .timedWaitHelper) :=
      h.wait hplace (by simp)
    exact h.acquire hwait (Option.some.inj hstep).symm
  · rename_i _ _ hop hplace
    obtain rfl : op = .unlock := hop
    rw [Option.ite_none_left_eq_some, Option.some.injEq] at hstep
    obtain ⟨hdepth, rfl⟩ := hstep
    exact ⟨⟨h.parked_of_unlock, fun hlast => (h.unlock hdepth hlast).held⟩, h.unlock hdepth⟩
  · rename_i _ _ hop hplace
    obtain rfl : op = .timeOut := hop
    obtain ⟨q, hq, rfl⟩ := Option.map_eq_some_iff.mp hstep
    have ht := h.timeOut hq
    exact ⟨iff_of_true ht.held trivial, fun _ => ht⟩
  · rename_i _ _ hop hplace
    obtain rfl : op = .resume := hop
    obtain ⟨⟨call, status, q⟩, hq, rfl⟩ := Option.map_eq_some_iff.mp hstep
    have ht := h.resumed hq
    exact ⟨iff_of_true ht.held trivial, fun _ => ht⟩
  · cases hstep

/-- Owner, depth and queue are in step all along a run exactly if every last `unlock` of the run
finds nobody parked and no acquisition wraps the count. -/
theorem recursive_held (ids : Ids φ) (es : List (φ × Op)) :
    (system ids).Always (Held ids) start es ↔ (system ids).Each (Prompt ids) start es :=
  System.always_iff_each_of_inv (I := Inv ids) (fun _ h => h.held)
    (fun _ _ _ h hstep => (h.of_step hstep).1) (fun _ _ _ h hstep hcond => (h.of_step hstep).2 hcond)
    .init

def twoIds : Ids (Fin 2) where
  id f := if f = 0 then 2 else 3
  injective := by
    unfold Function.Injective
    decide
  ne_zero := by decide

/-- Fiber 1 waits for fiber 0, which locks twice and unlocks twice: nobody is notified. -/
theorem not_recursive_held :
    ∃ s : State (Fin 2), (system twoIds).Reachable s ∧ s.occupied_count = 0 ∧
      (∀ f, ¬ s.Notified () f) ∧ s.Parked () 1 := by
  have hs : (system twoIds).Reachable (((system twoIds).run start
      [(0, .lock), (1, .lock), (0, .lock), (0, .unlock), (0, .unlock)]).get (by decide)) :=
    System.ReachableIf.run (fun _ _ _ _ => trivial) (.init rfl) (Option.some_get _).symm
  exact ⟨_, hs, by decide, by decide, by decide⟩

end Yaclib.Fault.Fiber.RecursiveMutex
