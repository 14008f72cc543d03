import Yaclib.Concurrency.System
import Yaclib.Concurrency.Tally
import Yaclib.Fault.Fiber.Queue
import Yaclib.Util.Counter

/-!
`SharedMutex` and `SharedTimedMutex` of `fault/detail/fiber`. A `lock` or `lock_shared` that
was notified takes the mutex without another look at it; `lock_shared` waits in the exclusive
queue, a timed shared lock in the shared one; a timed exclusive lock ends in
`SharedLockHelper`.
-/

namespace Yaclib.Fault.Fiber.SharedMutex

open Concurrency

inductive Queue where
  | shared
  | exclusive
  deriving DecidableEq

inductive Call where
  | lock
  | lockShared
  | timedWaitHelper (exclusive : Bool)
  deriving DecidableEq

/-- `holds` and `shares` are what the fibers have locked exclusively and shared, by what the
calls told them. -/
structure State (φ : Type) extends Fibers φ Queue Unit Call where
  shared_owners_count : UInt32 := 0
  occupied : Bool := false
  exclusive_mode : Bool := false
  holds : φ → Bool := fun _ => false
  shares : φ → Nat := fun _ => 0

/-- The calls of a fiber with the choices of the scheduler, `first` of `GetRandNumber(2)`. -/
inductive Op (φ : Type) where
  | lock
  | tryLock
  | tryLockUntil
  | unlock (first : Bool) (w : Option φ)
  | lockShared
  | tryLockShared
  | tryLockSharedUntil
  | unlockShared (w : Option φ)
  | timeOut
  | resume
  deriving DecidableEq

variable {φ : Type}

section

variable [DecidableEq φ]

namespace State

def lockHelper (s : State φ) (f : φ) : State φ :=
  { s with occupied := true, exclusive_mode := true, holds := Function.update s.holds f true }

def sharedLockHelper (s : State φ) : State φ :=
  { s with
    occupied := true
    exclusive_mode := false
    shared_owners_count := s.shared_owners_count + 1 }

/-- `SharedLockHelper` for a shared lock. -/
def share (s : State φ) (f : φ) : State φ :=
  { s.sharedLockHelper with shares := Function.update s.shares f (s.shares f + 1) }

/-- The end of `TimedWaitHelper`. -/
def timed (s : State φ) (f : φ) (exclusive : Bool) : State φ :=
  if exclusive then { s.sharedLockHelper with holds := Function.update s.holds f true }
  else s.share f

def wait (s : State φ) (f : φ) (k : Queue) (timed : Bool) (call : Call) : State φ :=
  { s with toFibers := s.toFibers.wait f k timed call }

/-- `lock` up to its `Wait` -/
def lock (s : State φ) (f : φ) : State φ :=
  if s.occupied then s.wait f .exclusive false .lock else s.lockHelper f

def tryLock (s : State φ) (f : φ) : State φ :=
  if s.occupied then s else s.lockHelper f

def unlock (s : State φ) (f : φ) (first : Bool) (w : Option φ) : Option (State φ) :=
  let unlock_shared := s.queue .shared ≠ [] ∧ (s.queue .exclusive = [] ∨ first = true)
  let t := { s with occupied := false, holds := Function.update s.holds f false }
  if unlock_shared then some { t with toFibers := s.toFibers.notifyAll .shared }
  else (s.toFibers.notifyOne .exclusive w).map fun q => { t with toFibers := q }

/-- `lock_shared` up to its `Wait` -/
def lockShared (s : State φ) (f : φ) : State φ :=
  if s.occupied && s.exclusive_mode then s.wait f .exclusive false .lockShared else s.share f

def tryLockShared (s : State φ) (f : φ) : State φ :=
  if s.occupied && s.exclusive_mode then s else s.share f

def unlockShared (s : State φ) (f : φ) (w : Option φ) : Option (State φ) :=
  let t := { s with
    shared_owners_count := s.shared_owners_count - 1
    shares := Function.update s.shares f (s.shares f - 1) }
  if t.shared_owners_count = 0 then
    (s.toFibers.notifyOne .exclusive w).map fun q => { t with toFibers := q, occupied := false }
  else some t

/-- `TimedWaitHelper` up to its `Wait` -/
def timedWaitHelper (s : State φ) (f : φ) (exclusive : Bool) : State φ :=
  if s.occupied && (exclusive || s.exclusive_mode) then
    s.wait f (if exclusive then .exclusive else .shared) true (.timedWaitHelper exclusive)
  else s.timed f exclusive

def resumed (s : State φ) (f : φ) (status : WaitStatus) : Call → State φ
  | .lock => s.lockHelper f
  | .lockShared => s.share f
  | .timedWaitHelper exclusive => if status = .Ready then s.timed f exclusive else s

end State

/-- One step of a fiber. It unlocks only what it has locked. -/
def step (s : State φ) (e : φ × Op φ) : Option (State φ) :=
  match e.2, s.place e.1 with
  | .lock, .runs _ => some (s.lock e.1)
  | .tryLock, .runs _ => some (s.tryLock e.1)
  | .tryLockUntil, .runs _ => some (s.timedWaitHelper e.1 true)
  | .unlock first w, .runs _ => if s.holds e.1 then s.unlock e.1 first w else none
  | .lockShared, .runs _ => some (s.lockShared e.1)
  | .tryLockShared, .runs _ => some (s.tryLockShared e.1)
  | .tryLockSharedUntil, .runs _ => some (s.timedWaitHelper e.1 false)
  | .unlockShared w, .runs _ => if s.shares e.1 = 0 then none else s.unlockShared e.1 w
  | .timeOut, .waits _ _ _ => (s.toFibers.timeOut e.1).map fun q => { s with toFibers := q }
  | .resume, .waits _ _ _ =>
    (s.toFibers.resume e.1 ()).map fun (call, status, q) =>
      State.resumed { s with toFibers := q } e.1 status call
  | _, _ => none

def start : State φ := { place := fun _ => .runs () }

def system : System (State φ) (φ × Op φ) where
  Init s := s = start
  step := step

end

variable [Fintype φ]

/-- The fields say who holds the mutex; `_exclusive_mode` is read only while the mutex is
occupied. -/
structure Matches (s : State φ) : Prop where
  sole : ∀ f g, s.holds f = true → s.holds g = true → f = g
  apart : ∀ f g, s.holds f = true → s.shares g = 0
  occupied : s.occupied = true ↔ ∃ f, s.holds f = true ∨ s.shares f ≠ 0
  mode : s.occupied = true → (s.exclusive_mode = true ↔ ∃ f, s.holds f = true)
  count : s.shared_owners_count.toNat = tally id s.shares

/-- Also, if nobody holds the mutex and nobody was notified, then nobody is parked. -/
structure Held (s : State φ) : Prop extends Matches s where
  woken : (∀ f, s.holds f = false ∧ s.shares f = 0) → (∀ k f, ¬ s.Notified k f) →
    ∀ k f, ¬ s.Parked k f

/-- A shared lock may be had, and counted. -/
def Shareable (s : State φ) : Prop :=
  (s.occupied && s.exclusive_mode) = false ∧ s.shared_owners_count + 1 ≠ 0

/-- The last `unlock_shared` has somebody to notify, or need not. -/
def Relieved (s : State φ) : Prop :=
  s.queue .exclusive ≠ [] ∨ (∀ f, ¬ s.Parked .shared f) ∨ ∃ k f, s.Notified k f

/-- A notified fiber finds the mutex as it was when it was notified, an exclusive timed lock
never gets it, no parked fiber is overlooked and the count does not wrap. -/
def Apt (s : State φ) (e : φ × Op φ) : Prop :=
  match e.2 with
  | .lock | .tryLock | .unlock _ _ | .timeOut => True
  | .tryLockUntil => s.occupied = true
  | .lockShared | .tryLockShared | .tryLockSharedUntil =>
    (s.occupied && s.exclusive_mode) = false → s.shared_owners_count + 1 ≠ 0
  | .unlockShared _ => s.shared_owners_count = 1 → Relieved s
  | .resume =>
    match s.place e.1 with
    | .waits _ _ .lock => s.occupied = false
    | .waits _ _ .lockShared => Shareable s
    | .waits k _ (.timedWaitHelper exclusive) => e.1 ∉ s.queue k → exclusive = false ∧ Shareable s
    | .runs _ => True

/-- No fiber that holds the mutex is notified, even if it waits for it. -/
structure Inv (s : State φ) : Prop where
  sound : s.toFibers.Sound
  plain : ∀ k f, s.place f ≠ .waits k true .lock
  busy : ∀ k f, s.holds f = true → ¬ s.Notified k f
  held : Held s

variable {s t : State φ} {f g : φ} {k : Queue}

theorem Inv.init : Inv (start : State φ) := by
  refine ⟨.init (), ?_, ?_, ⟨?_, ?_, ?_, ?_, ?_⟩, ?_⟩
  · intro k f hplace
    cases hplace
  · intro k f hf
    cases hf
  · intro f g hf
    cases hf
  · intro f g hf
    cases hf
  · simp [start]
  · intro hocc
    cases hocc
  · symm
    apply tally_eq_zero.mpr
    intro f
    rfl
  · rintro - - k f ⟨hlink, -⟩
    cases hlink

theorem Matches.nobody (h : Matches s) (hfree : s.occupied = false) (g : φ) :
    s.holds g = false ∧ s.shares g = 0 := by
  have hnone : ¬ ∃ g, s.holds g = true ∨ s.shares g ≠ 0 := by
    rw [← h.occupied, hfree]
    simp
  rw [not_exists] at hnone
  have hg := hnone g
  rw [not_or] at hg
  exact ⟨by simpa using hg.1, by simpa using hg.2⟩

theorem Matches.held (h : Matches s) (hf : s.holds f = true ∨ s.shares f ≠ 0) : Held s := by
  refine ⟨h, ?_⟩
  intro hnobody
  rw [(hnobody f).1, (hnobody f).2] at hf
  simp at hf

theorem Matches.held_of_occupied (h : Matches s) (hocc : s.occupied = true) : Held s := by
  obtain ⟨f, hf⟩ := h.occupied.mp hocc
  exact h.held hf

/-- What holds when the fiber `f` runs or has left its `Wait`, but for who may be parked. -/
structure Awake (s : State φ) (f : φ) : Prop where
  sound : s.toFibers.Sound
  plain : ∀ k g, s.place g ≠ .waits k true .lock
  fields : Matches s
  busy : ∀ k g, s.holds g = true → ¬ s.Notified k g
  unnotified : ∀ k, ¬ s.Notified k f

theorem Inv.awake (h : Inv s) (hplace : s.place f = .runs ()) : Awake s f := by
  refine ⟨h.sound, h.plain, h.held.toMatches, h.busy, ?_⟩
  rintro k ⟨⟨timed, call, hwaits⟩, -⟩
  rw [hplace] at hwaits
  cases hwaits

/-- A fiber whose time is over leaves its queue, and the end of a sleep. -/
theorem Inv.still (h : Inv s) {q : Fibers φ Queue Unit Call} (hsound : q.Sound)
    (hplain : ∀ k g, q.place g ≠ .waits k true .lock)
    (hnotified : ∀ k g, q.Notified k g ↔ s.Notified k g)
    (hparked : ∀ k g, q.Parked k g → s.Parked k g) : Inv { s with toFibers := q } := by
  refine ⟨hsound, hplain, ?_,
    ⟨h.held.sole, h.held.apart, h.held.occupied, h.held.mode, h.held.count⟩, ?_⟩
  · intro k g hg hnot
    exact h.busy k g hg ((hnotified k g).mp hnot)
  · intro hnobody hnone k g hg
    apply h.held.woken hnobody _ k g (hparked k g hg)
    intro l g' hg'
    exact hnone l g' ((hnotified l g').mpr hg')

variable [DecidableEq φ]

/-! ### Acquisitions -/

theorem Matches.lockHelper (h : Matches s) (hfree : s.occupied = false) :
    Matches (s.lockHelper f) := by
  have hself : (s.lockHelper f).holds f = true := Function.update_self f _ _
  have hother : ∀ g, (s.lockHelper f).holds g = true → g = f := by
    intro g hg
    by_contra hgf
    have hsame : (s.lockHelper f).holds g = s.holds g := Function.update_of_ne hgf _ _
    rw [hsame, (h.nobody hfree g).1] at hg
    cases hg
  refine ⟨?_, ?_, ?_, ?_, h.count⟩
  · intro g g' hg hg'
    rw [hother g hg, hother g' hg']
  · intro g g' _
    exact (h.nobody hfree g').2
  · exact iff_of_true rfl ⟨f, .inl hself⟩
  · intro _
    exact iff_of_true rfl ⟨f, hself⟩

/-- `LockHelper` while somebody else holds the mutex. -/
theorem not_matches_lockHelper (h : Matches s) (hf : s.holds f = false)
    (hocc : s.occupied = true) : ¬ Matches (s.lockHelper f) := by
  intro ht
  have hself : (s.lockHelper f).holds f = true := Function.update_self f _ _
  obtain ⟨g, hg | hg⟩ := h.occupied.mp hocc
  · have hgf : g ≠ f := by
      rintro rfl
      rw [hf] at hg
      cases hg
    have hsame : (s.lockHelper f).holds g = s.holds g := Function.update_of_ne hgf _ _
    exact hgf (ht.sole g f (hsame.trans hg) hself)
  · exact hg (ht.apart f g hself)

theorem Matches.share (h : Matches s) (hs : Shareable s) : Matches (s.share f) := by
  obtain ⟨hmode, hwrap⟩ := hs
  have hnone : ∀ g, ¬ s.holds g = true := by
    intro g hg
    have hocc := h.occupied.mpr ⟨g, .inl hg⟩
    rw [hocc, (h.mode hocc).mpr ⟨g, hg⟩] at hmode
    cases hmode
  have hself : (s.share f).shares f = s.shares f + 1 := Function.update_self f _ _
  refine ⟨h.sole, ?_, ?_, ?_, ?_⟩
  · intro g g' hg
    exact absurd hg (hnone g)
  · exact iff_of_true rfl ⟨f, .inr (by omega)⟩
  · intro _
    apply iff_of_false (by simp [State.share, State.sharedLockHelper])
    rintro ⟨g, hg⟩
    exact hnone g hg
  · have hupdate := tally_update id s.shares f (s.shares f + 1)
    have hcount := Counter.toNat_add_one hwrap
    have hold := h.count
    show (s.shared_owners_count + 1).toNat = tally id (Function.update s.shares f (s.shares f + 1))
    simp only [id_eq] at hupdate
    omega

/-- `SharedLockHelper` while somebody holds the mutex exclusively, or where the count
wraps. -/
theorem not_matches_share (h : Matches s) (hs : ¬ Shareable s) : ¬ Matches (s.share f) := by
  intro ht
  have hself : (s.share f).shares f = s.shares f + 1 := Function.update_self f _ _
  apply hs
  constructor
  · by_contra hmode
    have hboth : (s.occupied && s.exclusive_mode) = true := by simpa using hmode
    rw [Bool.and_eq_true] at hboth
    obtain ⟨g, hg⟩ := (h.mode hboth.1).mp hboth.2
    have hzero := ht.apart g f hg
    omega
  · intro hwrap
    have hcount : (s.share f).shared_owners_count.toNat = tally id (s.share f).shares := ht.count
    have hle := le_tally id (s.share f).shares f
    have hzero : (s.share f).shared_owners_count = 0 := hwrap
    rw [hzero] at hcount
    rw [id_eq, hself] at hle
    have hnil : (0 : UInt32).toNat = 0 := rfl
    omega

/-- `SharedLockHelper` for an exclusive lock. -/
theorem not_matches_timed : ¬ Matches (s.timed f true) := by
  intro ht
  have hself : (s.timed f true).holds f = true := Function.update_self f _ _
  have hmode := (ht.mode rfl).mpr ⟨f, hself⟩
  cases hmode

theorem Inv.plain_leave (h : Inv s) {l : Queue} :
    (s.toFibers.leave f k ()).place g ≠ .waits l true .lock := by
  by_cases hgf : g = f
  · subst hgf
    rw [Fibers.leave_place_self]
    exact fun hplace => nomatch hplace
  · rw [Fibers.leave_place_of_ne hgf]
    exact h.plain l g

theorem Inv.awake_leave (h : Inv s) {timed : Bool} {call : Call}
    (hplace : s.place f = .waits k timed call) :
    Awake { s with toFibers := s.toFibers.leave f k () } f := by
  refine ⟨h.sound.leave hplace, fun l g => h.plain_leave, ⟨h.held.sole, h.held.apart, h.held.occupied,
    h.held.mode, h.held.count⟩, ?_, ?_⟩
  · intro l g hg hnotified
    exact h.busy l g hg ((h.sound.notified_leave hplace).mp hnotified).1
  · intro l hnotified
    exact ((h.sound.notified_leave hplace).mp hnotified).2 rfl

theorem Awake.lockHelper (h : Awake s f) (hfree : s.occupied = false) : Inv (s.lockHelper f) := by
  refine ⟨h.sound, h.plain, ?_, (h.fields.lockHelper hfree).held (.inl (Function.update_self f _ _))⟩
  intro k g hg
  by_cases hgf : g = f
  · subst hgf
    exact h.unnotified k
  · have hsame : (s.lockHelper f).holds g = s.holds g := Function.update_of_ne hgf _ _
    exact h.busy k g (hsame ▸ hg)

theorem Awake.share (h : Awake s f) (hs : Shareable s) : Inv (s.share f) :=
  ⟨h.sound, h.plain, h.busy, (h.fields.share hs).held_of_occupied rfl⟩

/-- A shared lock taken without another look. -/
theorem Awake.share_iff (h : Awake s f) :
    (Held (s.share f) ↔ Shareable s) ∧ (Shareable s → Inv (s.share f)) := by
  refine ⟨⟨?_, ?_⟩, h.share⟩
  · intro hheld
    by_contra hs
    exact not_matches_share h.fields hs hheld.toMatches
  · intro hs
    exact (h.share hs).held

/-- An exclusive lock taken without another look. -/
theorem Awake.lockHelper_iff (h : Awake s f) (hf : s.holds f = false) :
    (Held (s.lockHelper f) ↔ s.occupied = false) ∧
      (s.occupied = false → Inv (s.lockHelper f)) := by
  refine ⟨⟨?_, ?_⟩, h.lockHelper⟩
  · intro hheld
    by_contra hocc
    exact not_matches_lockHelper h.fields hf (by simpa using hocc) hheld.toMatches
  · intro hfree
    exact (h.lockHelper hfree).held

/-- A shared lock that looks first. -/
theorem Awake.tryShare (h : Awake s f) {blocked : State φ}
    (hblocked : (s.occupied && s.exclusive_mode) = true → Inv blocked)
    (ht : t = if s.occupied && s.exclusive_mode then blocked else s.share f) :
    (Held t ↔ ((s.occupied && s.exclusive_mode) = false → s.shared_owners_count + 1 ≠ 0)) ∧
      (((s.occupied && s.exclusive_mode) = false → s.shared_owners_count + 1 ≠ 0) → Inv t) := by
  cases hb : s.occupied && s.exclusive_mode with
  | true =>
    rw [hb, if_pos rfl] at ht
    subst ht
    exact ⟨iff_of_true (hblocked hb).held (fun hfalse => nomatch hfalse), fun _ => hblocked hb⟩
  | false =>
    rw [hb] at ht
    subst ht
    obtain ⟨hiff, hinv⟩ := h.share_iff
    refine ⟨⟨?_, ?_⟩, ?_⟩
    · intro hheld _
      exact (hiff.mp hheld).2
    · intro hcond
      exact hiff.mpr ⟨hb, hcond rfl⟩
    · intro hcond
      exact hinv ⟨hb, hcond rfl⟩

/-! ### Waiting and unlocking -/

theorem Inv.wait (h : Inv s) {timed : Bool} {call : Call} (hplace : s.place f = .runs ())
    (hcall : timed = true → call ≠ .lock) (hocc : s.occupied = true) :
    Inv (s.wait f k timed call) := by
  refine ⟨h.sound.wait hplace, ?_, ?_, ?_⟩
  · intro l g hg
    by_cases hgf : g = f
    · subst hgf
      have hself : (s.wait g k timed call).place g = .waits k timed call :=
        Function.update_self g _ _
      rw [hself] at hg
      injection hg with _ htimed hlock
      exact hcall htimed hlock
    · have hother : (s.wait f k timed call).place g = s.place g := Fibers.wait_place_of_ne hgf
      rw [hother] at hg
      exact h.plain l g hg
  · intro l g hg hnotified
    exact h.busy l g hg ((Fibers.notified_wait hplace).mp hnotified)
  · have hfields : Matches (s.wait f k timed call) :=
      ⟨h.held.sole, h.held.apart, h.held.occupied, h.held.mode, h.held.count⟩
    exact hfields.held_of_occupied hocc

/-- The fields after an exclusive `unlock`. -/
theorem Matches.unlock (h : Matches s) (hf : s.holds f = true) (q : Fibers φ Queue Unit Call) :
    let t := { s with toFibers := q, occupied := false, holds := Function.update s.holds f false }
    Matches t ∧ ∀ g, t.holds g = false ∧ t.shares g = 0 := by
  intro t
  have hnobody : ∀ g, t.holds g = false ∧ t.shares g = 0 := by
    intro g
    refine ⟨?_, h.apart f g hf⟩
    by_cases hgf : g = f
    · subst hgf
      exact Function.update_self g _ _
    · have hsame : t.holds g = s.holds g := Function.update_of_ne hgf _ _
      rw [hsame]
      by_contra hg
      exact hgf (h.sole g f (by simpa using hg) hf)
  refine ⟨⟨?_, ?_, ?_, ?_, h.count⟩, hnobody⟩
  · intro g g' hg
    rw [(hnobody g).1] at hg
    cases hg
  · intro g g' _
    exact (hnobody g').2
  · apply iff_of_false
    · intro hocc
      cases hocc
    · rintro ⟨g, hg⟩
      rw [(hnobody g).1, (hnobody g).2] at hg
      simp at hg
  · intro hocc
    cases hocc

/-- An exclusive `unlock` notifies somebody if anybody waits. -/
theorem Inv.unlock (h : Inv s) (hf : s.holds f = true) {first : Bool} {w : Option φ}
    (hunlock : s.unlock f first w = some t) : Inv t := by
  dsimp only [State.unlock] at hunlock
  split at hunlock
  · rename_i hshared
    rw [Option.some.injEq] at hunlock
    subst hunlock
    obtain ⟨hfields, hnobody⟩ := h.held.unlock hf (s.toFibers.notifyAll .shared)
    refine ⟨h.sound.notifyAll, h.plain, ?_, hfields, ?_⟩
    · intro k g hg
      rw [(hnobody g).1] at hg
      cases hg
    · intro _ hnone
      exfalso
      obtain ⟨g, hg⟩ := List.exists_mem_of_ne_nil _ hshared.1
      exact hnone .shared g (h.sound.notified_notifyAll.mpr (.inr ⟨hg, rfl⟩))
  · rename_i hexclusive
    obtain ⟨q, hq, rfl⟩ := Option.map_eq_some_iff.mp hunlock
    obtain ⟨hfields, hnobody⟩ := h.held.unlock hf q
    refine ⟨h.sound.notifyOne hq, Fibers.notifyOne_place hq ▸ h.plain, ?_, hfields, ?_⟩
    · intro k g hg
      rw [(hnobody g).1] at hg
      cases hg
    · intro _ hnone k g hparked
      rcases h.sound.exists_notified_notifyOne hq with ⟨hempty, rfl⟩ | ⟨w, hw⟩
      · have hlink : g ∈ s.queue k := hparked.1
        cases k with
        | exclusive =>
          rw [hempty] at hlink
          cases hlink
        | shared => exact hexclusive ⟨List.ne_nil_of_mem hlink, .inl hempty⟩
      · exact hnone .exclusive w hw

/-- The last `unlock_shared` notifies in the exclusive queue only. -/
theorem Inv.lastUnlockShared (h : Inv s) (hexclusive : ∀ g, ¬ s.holds g = true)
    {q : Fibers φ Queue Unit Call} {w : Option φ} {count : UInt32} {shares : φ → Nat}
    (hnobody : ∀ g, shares g = 0) (hcount : count.toNat = tally id shares)
    (hq : s.toFibers.notifyOne .exclusive w = some q) :
    let t := { s with
      toFibers := q, shared_owners_count := count, occupied := false, shares := shares }
    (Held t ↔ Relieved s) ∧ (Relieved s → Inv t) := by
  intro t
  have hfields : Matches t := by
    refine ⟨h.held.sole, fun g g' _ => hnobody g', ?_, ?_, hcount⟩
    · apply iff_of_false
      · intro hocc
        cases hocc
      · rintro ⟨g, hg | hg⟩
        · exact hexclusive g hg
        · exact hg (hnobody g)
    · intro hocc
      cases hocc
  have hfree : ∀ g, t.holds g = false ∧ t.shares g = 0 := by
    intro g
    exact ⟨by simpa using hexclusive g, hnobody g⟩
  have hinv : Relieved s → Inv t := by
    intro hrelieved
    refine ⟨h.sound.notifyOne hq, Fibers.notifyOne_place hq ▸ h.plain, ?_, hfields, ?_⟩
    · intro k g hg
      exact absurd hg (hexclusive g)
    · intro _ hnone k g hparked
      rcases h.sound.exists_notified_notifyOne hq with ⟨hempty, rfl⟩ | ⟨w, hw⟩
      · rcases hrelieved with hne | hshared | ⟨l, g', hg'⟩
        · exact hne hempty
        · cases k with
          | shared => exact hshared g hparked
          | exclusive =>
            have hlink : g ∈ s.queue .exclusive := hparked.1
            rw [hempty] at hlink
            cases hlink
        · exact hnone l g' hg'
      · exact hnone .exclusive w hw
  refine ⟨⟨?_, fun hrelieved => (hinv hrelieved).held⟩, hinv⟩
  intro hheld
  by_contra hrelieved
  unfold Relieved at hrelieved
  rw [not_or, not_or, not_not, not_exists] at hrelieved
  obtain ⟨hempty, hparked, hnone⟩ := hrelieved
  rcases h.sound.exists_notified_notifyOne hq with ⟨-, rfl⟩ | ⟨w, hw⟩
  · apply hparked
    intro g hg
    exact hheld.woken hfree (fun k g hg => hnone k ⟨g, hg⟩) .shared g hg
  · rcases Fibers.notifyOne_cases hq with ⟨-, rfl⟩ | ⟨w, hw, -⟩
    · exact hnone .exclusive ⟨w, hw⟩
    · rw [hempty] at hw
      cases hw

/-- `unlock_shared` that is not the last one leaves the mutex with its owners. -/
theorem Inv.unlockShared (h : Inv s) (hf : s.shares f ≠ 0) {w : Option φ}
    (hunlock : s.unlockShared f w = some t) :
    (Held t ↔ (s.shared_owners_count = 1 → Relieved s)) ∧
      ((s.shared_owners_count = 1 → Relieved s) → Inv t) := by
  have hexclusive : ∀ g, ¬ s.holds g = true := by
    intro g hg
    exact hf (h.held.apart g f hg)
  have hle : s.shares f ≤ tally id s.shares := le_tally id s.shares f
  have hcount := h.held.count
  have hpositive : s.shared_owners_count ≠ 0 := by
    intro hzero
    rw [hzero] at hcount
    have hnil : (0 : UInt32).toNat = 0 := rfl
    omega
  have hpred := Counter.toNat_sub_one hpositive
  have hupdate := tally_update id s.shares f (s.shares f - 1)
  simp only [id_eq] at hupdate
  have hcount' : (s.shared_owners_count - 1).toNat =
      tally id (Function.update s.shares f (s.shares f - 1)) := by omega
  have hone : s.shared_owners_count - 1 = 0 ↔ s.shared_owners_count = 1 := by
    rw [← UInt32.toNat_inj, ← UInt32.toNat_inj, hpred]
    show s.shared_owners_count.toNat - 1 = 0 ↔ s.shared_owners_count.toNat = 1
    omega
  dsimp only [State.unlockShared] at hunlock
  split at hunlock
  · rename_i hlast
    obtain ⟨q, hq, rfl⟩ := Option.map_eq_some_iff.mp hunlock
    have hnobody : ∀ g, Function.update s.shares f (s.shares f - 1) g = 0 := by
      rw [hlast] at hcount'
      exact tally_eq_zero.mp hcount'.symm
    obtain ⟨hiff, hinv⟩ := h.lastUnlockShared hexclusive hnobody hcount' hq
    have hcond : (s.shared_owners_count = 1 → Relieved s) ↔ Relieved s :=
      ⟨fun hrelieved => hrelieved (hone.mp hlast), fun hrelieved _ => hrelieved⟩
    rw [hcond]
    exact ⟨hiff, hinv⟩
  · rename_i hmore
    rw [Option.some.injEq] at hunlock
    subst hunlock
    have hcond : s.shared_owners_count = 1 → Relieved s := fun hlast => absurd (hone.mpr hlast) hmore
    have hocc : s.occupied = true := h.held.occupied.mpr ⟨f, .inr hf⟩
    have howner : ∃ g, Function.update s.shares f (s.shares f - 1) g ≠ 0 := by
      by_contra hnone
      rw [not_exists] at hnone
      apply hmore
      apply UInt32.toNat_inj.mp
      rw [hcount']
      apply tally_eq_zero.mpr
      intro g
      exact not_not.mp (hnone g)
    obtain ⟨g, hg⟩ := howner
    have ht : Inv { s with
        shared_owners_count := s.shared_owners_count - 1
        shares := Function.update s.shares f (s.shares f - 1) } := by
      refine ⟨h.sound, h.plain, h.busy, Matches.held ⟨h.held.sole, ?_, ?_, h.held.mode, hcount'⟩ (.inr hg)⟩
      · intro g g' hg
        exact absurd hg (hexclusive g)
      · exact iff_of_true hocc ⟨g, .inr hg⟩
    exact ⟨iff_of_true ht.held hcond, fun _ => ht⟩

/-! ### Every step -/

theorem Inv.timeOut (h : Inv s) {q : Fibers φ Queue Unit Call}
    (htimeOut : s.toFibers.timeOut f = some q) : Inv { s with toFibers := q } := by
  have hsound := h.sound.timeOut htimeOut
  obtain ⟨-, -, rfl⟩ := Fibers.timeOut_cases htimeOut
  refine h.still hsound h.plain (fun k g => Iff.rfl) ?_
  rintro k g ⟨hlink, hrun⟩
  refine ⟨hlink, ?_⟩
  by_cases hgf : g = f
  · subst hgf
    simp at hrun
  · simpa [Function.update_of_ne hgf] using hrun

/-- A timed lock gives up. -/
theorem Inv.leave (h : Inv s) {timed : Bool} {call : Call}
    (hplace : s.place f = .waits k timed call) (hlink : f ∈ s.queue k) :
    Inv { s with toFibers := s.toFibers.leave f k () } := by
  apply h.still (h.sound.leave hplace) fun l g => h.plain_leave
  · intro l g
    rw [h.sound.notified_leave hplace]
    refine ⟨And.left, fun hg => ⟨hg, ?_⟩⟩
    rintro rfl
    obtain ⟨⟨timed', call', hg⟩, hnot⟩ := hg
    rw [hplace] at hg
    injection hg with hk
    exact hnot (hk ▸ hlink)
  · rintro l g ⟨hg, hrun⟩
    exact ⟨((h.sound.mem_leave hplace).mp hg).1, hrun⟩

theorem Inv.resumed (h : Inv s) {call : Call} {status : WaitStatus}
    {q : Fibers φ Queue Unit Call} (hresume : s.toFibers.resume f () = some (call, status, q)) :
    let t := State.resumed { s with toFibers := q } f status call
    (Held t ↔ Apt s (f, .resume)) ∧ (Apt s (f, .resume) → Inv t) := by
  intro t
  obtain ⟨k, timed, hplace, -, rfl, hstatus, htimed⟩ := h.sound.resume_cases hresume
  have hawake := h.awake_leave hplace
  unfold Apt
  simp only [hplace]
  have hlinked : f ∈ s.queue k → timed = true := fun hlink => htimed (hstatus.mpr hlink)
  cases call with
  | lock =>
    apply hawake.lockHelper_iff
    by_contra hf
    apply h.busy k f (by simpa using hf)
    refine ⟨⟨timed, .lock, hplace⟩, ?_⟩
    intro hlink
    rw [hlinked hlink] at hplace
    exact h.plain k f hplace
  | lockShared => exact hawake.share_iff
  | timedWaitHelper exclusive =>
    by_cases hlink : f ∈ s.queue k
    · obtain rfl := hstatus.mpr hlink
      have ht := h.leave hplace hlink
      exact ⟨iff_of_true ht.held (fun hnot => absurd hlink hnot), fun _ => ht⟩
    · have hready : status = .Ready := by
        cases status with
        | Ready => rfl
        | Timeout => exact absurd (hstatus.mp rfl) hlink
      subst hready
      cases exclusive with
      | true =>
        refine ⟨iff_of_false ?_ ?_, ?_⟩
        · intro hheld
          exact not_matches_timed hheld.toMatches
        · intro hcond
          cases (hcond hlink).1
        · intro hcond
          cases (hcond hlink).1
      | false =>
        obtain ⟨hiff, hinv⟩ := hawake.share_iff
        refine ⟨⟨?_, ?_⟩, ?_⟩
        · intro hheld _
          exact ⟨rfl, hiff.mp hheld⟩
        · intro hcond
          exact hiff.mpr (hcond hlink).2
        · intro hcond
          exact hinv (hcond hlink).2

/-- A lock, with or without waiting. -/
theorem Inv.lockOr (h : Inv s) {blocked : State φ} (hplace : s.place f = .runs ())
    (hblocked : s.occupied = true → Inv blocked)
    (ht : t = if s.occupied then blocked else s.lockHelper f) : Inv t := by
  cases hocc : s.occupied with
  | true =>
    rw [hocc, if_pos rfl] at ht
    subst ht
    exact hblocked hocc
  | false =>
    rw [hocc] at ht
    subst ht
    exact (h.awake hplace).lockHelper hocc

/-- What a step leaves as it should be, and when. -/
theorem Inv.of_step (h : Inv s) {e : φ × Op φ} (hstep : step s e = some t) :
    (Held t ↔ Apt s e) ∧ (Apt s e → Inv t) := by
  obtain ⟨f, op⟩ := e
  have hkept : Inv t → Apt s (f, op) → (Held t ↔ Apt s (f, op)) ∧ (Apt s (f, op) → Inv t) :=
    fun ht hcond => ⟨iff_of_true ht.held hcond, fun _ => ht⟩
  unfold step at hstep
  split at hstep
  · rename_i _ _ hop hplace
    obtain rfl : op = .lock := hop
    have hwait : s.occupied = true → Inv (s.wait f .exclusive false .lock) :=
      h.wait hplace (by simp)
    exact hkept (h.lockOr hplace hwait (Option.some.inj hstep).symm) trivial
  · rename_i _ _ hop hplace
    obtain rfl : op = .tryLock := hop
    exact hkept (h.lockOr hplace (fun _ => h) (Option.some.inj hstep).symm) trivial
  · rename_i _ _ hop hplace
    obtain rfl : op = .tryLockUntil := hop
    rw [Option.some.injEq] at hstep
    subst hstep
    unfold State.timedWaitHelper at hkept ⊢
    cases hocc : s.occupied with
    | true =>
      rw [hocc] at hkept
      exact hkept (h.wait hplace (by simp) hocc) hocc
    | false =>
      have hnot : ¬ Apt s (f, .tryLockUntil) := by
        intro hcond
        rw [show s.occupied = true from hcond] at hocc
        cases hocc
      exact ⟨iff_of_false (fun hheld => not_matches_timed hheld.toMatches) hnot,
        fun hcond => absurd hcond hnot⟩
  · rename_i first w _ hop hplace
    rw [Option.ite_none_right_eq_some] at hstep
    obtain rfl : op = .unlock first w := hop
    exact hkept (h.unlock hstep.1 hstep.2) trivial
  · rename_i _ _ hop hplace
    obtain rfl : op = .lockShared := hop
    have hwait : (s.occupied && s.exclusive_mode) = true →
        Inv (s.wait f .exclusive false .lockShared) :=
      fun hb => h.wait hplace (by simp) (Bool.and_eq_true _ _ ▸ hb).1
    exact (h.awake hplace).tryShare hwait (Option.some.inj hstep).symm
  · rename_i _ _ hop hplace
    obtain rfl : op = .tryLockShared := hop
    exact (h.awake hplace).tryShare (fun _ => h) (Option.some.inj hstep).symm
  · rename_i _ _ hop hplace
    obtain rfl : op = .tryLockSharedUntil := hop
    have hwait : (s.occupied && s.exclusive_mode) = true →
        Inv (s.wait f .shared true (.timedWaitHelper false)) :=
      fun hb => h.wait hplace (by simp) (Bool.and_eq_true _ _ ▸ hb).1
    exact (h.awake hplace).tryShare hwait (Option.some.inj hstep).symm
  · rename_i w _ hop hplace
    obtain rfl : op = .unlockShared w := hop
    rw [Option.ite_none_left_eq_some] at hstep
    exact h.unlockShared hstep.1 hstep.2
  · rename_i _ _ hop hplace
    obtain rfl : op = .timeOut := hop
    obtain ⟨q, hq, rfl⟩ := Option.map_eq_some_iff.mp hstep
    exact hkept (h.timeOut hq) trivial
  · rename_i _ _ hop hplace
    obtain rfl : op = .resume := hop
    obtain ⟨⟨call, status, q⟩, hq, rfl⟩ := Option.map_eq_some_iff.mp hstep
    exact h.resumed hq
  · cases hstep

/-- The fields and the holders match and no parked fiber is forgotten, all along a run, exactly
if each step of it is apt. -/
theorem shared_held (es : List (φ × Op φ)) :
    system.Always Held start es ↔ system.Each Apt start es :=
  System.always_iff_each_of_inv (I := Inv) (fun _ h => h.held)
    (fun _ _ _ h hstep => (h.of_step hstep).1) (fun _ _ _ h hstep hcond => (h.of_step hstep).2 hcond)
    .init

/-- Fiber 1 waits for fiber 0, which unlocks; fiber 2 locks before fiber 1 resumes. -/
theorem not_shared_held :
    ∃ s : State (Fin 3), system.Reachable s ∧ s.holds 1 = true ∧ s.holds 2 = true := by
  have hs : system.Reachable ((system.run start [(0, .lock), (1, .lock), (0, .unlock true (some 1)),
      (2, .tryLock), (1, .resume)]).get (by decide) : State (Fin 3)) :=
    System.ReachableIf.run (fun _ _ _ _ => trivial) (.init rfl) (Option.some_get _).symm
  exact ⟨_, hs, by decide, by decide⟩

end Yaclib.Fault.Fiber.SharedMutex
