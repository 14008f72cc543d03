import Mathlib.Data.List.Nodup
import Mathlib.Logic.Function.Basic

/-!
`FiberQueue` of `fault/detail/fiber/queue.hpp` as the callers of `Wait` see it. One thread
runs all fibers and a fiber runs until it suspends, so everything between two suspensions is
one step. Which fiber is resumed next, which one `NotifyOne` picks and when a sleep ends are
choices.

`φ` are the fibers, `κ` the queues, `α` the places outside of `Wait` and `ρ` the calls of
`Wait` in the code of the callers.

Left out are the pointers of the lists and the time: these are in `Fault.Fiber.Scheduler`.
-/

namespace Yaclib.Fault.Fiber

inductive WaitStatus where
  | Ready
  | Timeout
  deriving DecidableEq

/-- A fiber runs, or it is in a `Wait`, with or without a time point. -/
inductive Place (κ α ρ : Type) where
  | runs (a : α)
  | waits (queue : κ) (timed : Bool) (call : ρ)
  deriving DecidableEq

/-- The wait queues, and whether the scheduler may resume a fiber: it was notified, its sleep
is over or it has not suspended. -/
structure Fibers (φ κ α ρ : Type) where
  queue : κ → List φ := fun _ => []
  runnable : φ → Bool := fun _ => true
  place : φ → Place κ α ρ

namespace Fibers

variable {φ κ α ρ : Type}

/-- In a `Wait`, and no longer in its queue. -/
def Notified (s : Fibers φ κ α ρ) (k : κ) (f : φ) : Prop :=
  (∃ timed r, s.place f = .waits k timed r) ∧ f ∉ s.queue k

/-- In the queue, and not to be resumed. -/
def Parked (s : Fibers φ κ α ρ) (k : κ) (f : φ) : Prop :=
  f ∈ s.queue k ∧ s.runnable f = false

section

variable [DecidableEq φ] [DecidableEq κ]

instance (s : Fibers φ κ α ρ) (k : κ) (f : φ) :
    Decidable (∃ timed r, s.place f = .waits k timed r) :=
  match h : s.place f with
  | .runs _ => isFalse (by rintro ⟨_, _, hplace⟩; cases hplace)
  | .waits l timed r =>
    if hl : l = k then isTrue ⟨timed, r, by rw [hl]⟩
    else isFalse (by
      rintro ⟨_, _, hplace⟩
      injection hplace with hk
      exact hl hk)

instance (s : Fibers φ κ α ρ) (k : κ) (f : φ) : Decidable (s.Notified k f) :=
  inferInstanceAs (Decidable (_ ∧ _))

instance (s : Fibers φ κ α ρ) (k : κ) (f : φ) : Decidable (s.Parked k f) :=
  inferInstanceAs (Decidable (_ ∧ _))

def goto (s : Fibers φ κ α ρ) (f : φ) (a : α) : Fibers φ κ α ρ :=
  { s with place := Function.update s.place f (.runs a) }

/-- `Wait` up to its suspension: `PushBack` of the node of the fiber. -/
def wait (s : Fibers φ κ α ρ) (f : φ) (k : κ) (timed : Bool) (r : ρ) : Fibers φ κ α ρ where
  queue := Function.update s.queue k (s.queue k ++ [f])
  runnable := Function.update s.runnable f false
  place := Function.update s.place f (.waits k timed r)

/-- `Erase` of the node and `ScheduleAndRemove`. -/
def scheduleAndRemove (s : Fibers φ κ α ρ) (k : κ) (w : φ) : Fibers φ κ α ρ :=
  { s with
    queue := Function.update s.queue k ((s.queue k).erase w)
    runnable := Function.update s.runnable w true }

/-- `NotifyOne`; `w` is what `PollRandomElementFromList` picks, if there is anything. -/
def notifyOne (s : Fibers φ κ α ρ) (k : κ) (w : Option φ) : Option (Fibers φ κ α ρ) :=
  match w with
  | none => if s.queue k = [] then some s else none
  | some w => if w ∈ s.queue k then some (s.scheduleAndRemove k w) else none

def notifyAll (s : Fibers φ κ α ρ) (k : κ) : Fibers φ κ α ρ :=
  { s with
    queue := Function.update s.queue k []
    runnable := fun f => s.runnable f || decide (f ∈ s.queue k) }

def timeOut (s : Fibers φ κ α ρ) (f : φ) : Option (Fibers φ κ α ρ) :=
  match s.place f, s.runnable f with
  | .waits _ true _, false => some { s with runnable := Function.update s.runnable f true }
  | _, _ => none

/-- The fiber is back from its suspension and leaves `Wait`, to run on at `a`. -/
def leave (s : Fibers φ κ α ρ) (f : φ) (k : κ) (a : α) : Fibers φ κ α ρ :=
  { s with
    queue := Function.update s.queue k ((s.queue k).erase f)
    place := Function.update s.place f (.runs a) }

/-- The rest of a `Wait`: a timed one calls `Erase` and returns `Timeout` if the node was
still linked. -/
def resume (s : Fibers φ κ α ρ) (f : φ) (a : α) : Option (ρ × WaitStatus × Fibers φ κ α ρ) :=
  match s.place f, s.runnable f with
  | .waits k true r, true =>
    some (r, if f ∈ s.queue k then .Timeout else .Ready, s.leave f k a)
  | .waits _ false r, true => some (r, .Ready, s.goto f a)
  | _, _ => none

end

/-! ### Every fiber is where its place says -/

/-- A linked fiber is in a `Wait` of that queue, and linked once; one that was unlinked is
to be resumed; one that waits without a time point is resumed only if it was unlinked. -/
structure Sound (s : Fibers φ κ α ρ) : Prop where
  linked : ∀ k f, f ∈ s.queue k → ∃ timed r, s.place f = .waits k timed r
  nodup : ∀ k, (s.queue k).Nodup
  notified : ∀ k f, s.Notified k f → s.runnable f = true
  plain : ∀ k f r, s.place f = .waits k false r → f ∈ s.queue k → s.runnable f = false

variable {s t : Fibers φ κ α ρ} {f g w : φ} {k l : κ} {a b : α} {r : ρ} {timed : Bool}

theorem Sound.init (a : α) : Sound ({ place := fun _ => .runs a } : Fibers φ κ α ρ) := by
  constructor
  · intro k f hf
    cases hf
  · intro k
    exact List.nodup_nil
  · rintro k f ⟨⟨timed, r, hplace⟩, -⟩
    cases hplace
  · intro k f r hplace
    cases hplace

/-- A fiber that is in no `Wait` is in no queue. -/
theorem Sound.not_linked (h : Sound s) (hplace : s.place f = .runs a) : f ∉ s.queue k := by
  intro hf
  obtain ⟨timed, r, hwaits⟩ := h.linked k f hf
  rw [hplace] at hwaits
  cases hwaits

/-- A fiber is in no other queue than the one it waits in. -/
theorem Sound.same_queue (h : Sound s) (hplace : s.place f = .waits k timed r)
    (hf : f ∈ s.queue l) : l = k := by
  obtain ⟨timed', r', hwaits⟩ := h.linked l f hf
  rw [hplace] at hwaits
  injection hwaits with hk
  exact hk.symm

variable [DecidableEq φ]

/-! ### Running on -/

@[simp] theorem goto_queue : (s.goto f a).queue = s.queue := rfl

@[simp] theorem goto_runnable : (s.goto f a).runnable = s.runnable := rfl

theorem goto_waits_iff {p : ρ} (hplace : s.place f = .runs b) :
    (s.goto f a).place g = .waits k timed p ↔ s.place g = .waits k timed p := by
  by_cases hg : g = f
  · subst hg
    simp [goto, hplace]
  · simp [goto, Function.update_of_ne hg]

/-- The code of a fiber outside of `Wait` notifies nobody. -/
theorem notified_goto (hplace : s.place f = .runs b) :
    (s.goto f a).Notified k g ↔ s.Notified k g := by
  unfold Notified
  simp only [goto_waits_iff hplace, goto_queue]

theorem Sound.goto (h : Sound s) (hplace : s.place f = .runs b) : Sound (s.goto f a) := by
  constructor
  · intro k g hg
    obtain ⟨timed, r, hwaits⟩ := h.linked k g hg
    exact ⟨timed, r, (goto_waits_iff hplace).mpr hwaits⟩
  · exact h.nodup
  · intro k g hg
    exact h.notified k g ((notified_goto hplace).mp hg)
  · intro k g r hg
    exact h.plain k g r ((goto_waits_iff hplace).mp hg)

/-! ### The end of a sleep -/

/-- The sleep of a timed wait ends once, and makes its fiber runnable. -/
theorem timeOut_cases (h : s.timeOut f = some t) :
    (∃ k r, s.place f = .waits k true r) ∧ s.runnable f = false ∧
      t = { s with runnable := Function.update s.runnable f true } := by
  unfold timeOut at h
  split at h
  · rename_i k r hplace hrun
    simp only [Option.some.injEq] at h
    exact ⟨⟨k, r, hplace⟩, hrun, h.symm⟩
  · cases h

/-- A fiber whose sleep is over is still linked, until it is resumed. -/
theorem Sound.timeOut (hs : Sound s) (h : s.timeOut f = some t) : Sound t := by
  obtain ⟨⟨k, r, hplace⟩, -, rfl⟩ := timeOut_cases h
  constructor
  · exact hs.linked
  · exact hs.nodup
  · intro l g hg
    by_cases hne : g = f
    · subst hne
      exact Function.update_self g _ _
    · have hrun : s.runnable g = true := hs.notified l g hg
      simpa [Function.update_of_ne hne] using hrun
  · intro l g p hg hlink
    have hne : g ≠ f := by
      rintro rfl
      rw [show s.place g = .waits l false p from hg] at hplace
      cases hplace
    have hparked : s.runnable g = false := hs.plain l g p hg hlink
    simpa [Function.update_of_ne hne] using hparked

variable [DecidableEq κ]

/-! ### Waiting -/

theorem mem_wait_queue : g ∈ (s.wait f k timed r).queue l ↔ g ∈ s.queue l ∨ g = f ∧ l = k := by
  by_cases hl : l = k
  · subst hl
    simp [wait]
  · simp [wait, hl]

theorem wait_queue_of_ne (h : l ≠ k) : (s.wait f k timed r).queue l = s.queue l := by
  simp [wait, h]

theorem wait_place_of_ne (h : g ≠ f) : (s.wait f k timed r).place g = s.place g :=
  Function.update_of_ne h _ _

theorem wait_runnable_of_ne (h : g ≠ f) : (s.wait f k timed r).runnable g = s.runnable g :=
  Function.update_of_ne h _ _

/-- Nobody is notified when its wait begins. -/
theorem not_notified_wait : ¬ (s.wait f k timed r).Notified l f := by
  rintro ⟨⟨timed', r', hplace⟩, hlink⟩
  have hself : (s.wait f k timed r).place f = .waits k timed r := Function.update_self f _ _
  rw [hself] at hplace
  injection hplace with hk
  exact hlink (mem_wait_queue.mpr (.inr ⟨rfl, hk.symm⟩))

theorem notified_wait_of_ne (hg : g ≠ f) :
    (s.wait f k timed r).Notified l g ↔ s.Notified l g := by
  unfold Notified
  simp only [wait_place_of_ne hg, mem_wait_queue, hg, false_and, or_false]

theorem notified_wait (hplace : s.place f = .runs a) :
    (s.wait f k timed r).Notified l g ↔ s.Notified l g := by
  by_cases hg : g = f
  · subst hg
    apply iff_of_false not_notified_wait
    rintro ⟨⟨timed', r', hwaits⟩, -⟩
    rw [hplace] at hwaits
    cases hwaits
  · exact notified_wait_of_ne hg

/-- A fiber that runs is linked nowhere, so its wait links it once. -/
theorem Sound.wait (h : Sound s) (hplace : s.place f = .runs a) :
    Sound (s.wait f k timed r) := by
  have hself : (s.wait f k timed r).place f = .waits k timed r := Function.update_self f _ _
  constructor
  · intro l g hg
    rcases mem_wait_queue.mp hg with hold | ⟨rfl, rfl⟩
    · have hne : g ≠ f := by
        rintro rfl
        exact h.not_linked hplace hold
      rw [wait_place_of_ne hne]
      exact h.linked l g hold
    · exact ⟨timed, r, hself⟩
  · intro l
    by_cases hl : l = k
    · subst hl
      simp only [Fibers.wait, Function.update_self]
      exact List.nodup_append.mpr ⟨h.nodup l, List.nodup_singleton f, by
        intro x hx y hy hxy
        rw [List.mem_singleton.mp hy] at hxy
        exact h.not_linked hplace (hxy ▸ hx)⟩
    · rw [wait_queue_of_ne hl]
      exact h.nodup l
  · intro l g hg
    have hne : g ≠ f := by
      rintro rfl
      exact not_notified_wait hg
    rw [wait_runnable_of_ne hne]
    exact h.notified l g ((notified_wait hplace).mp hg)
  · intro l g p hg hlink
    by_cases hne : g = f
    · subst hne
      exact Function.update_self g _ _
    · rw [wait_place_of_ne hne] at hg
      rw [wait_runnable_of_ne hne]
      rcases mem_wait_queue.mp hlink with hlink | ⟨hgf, -⟩
      · exact h.plain l g p hg hlink
      · exact absurd hgf hne

/-! ### Notifying -/

/-- Only the fiber that is scheduled leaves its queue. -/
theorem Sound.mem_scheduleAndRemove (h : Sound s) :
    g ∈ (s.scheduleAndRemove k w).queue l ↔ g ∈ s.queue l ∧ (l = k → g ≠ w) := by
  by_cases hl : l = k
  · subst hl
    simp [scheduleAndRemove, (h.nodup l).mem_erase_iff, and_comm]
  · simp [scheduleAndRemove, hl]

@[simp] theorem scheduleAndRemove_place : (s.scheduleAndRemove k w).place = s.place := rfl

/-- Only the fiber that is scheduled becomes runnable. -/
theorem runnable_scheduleAndRemove :
    (s.scheduleAndRemove k w).runnable g = true ↔ s.runnable g = true ∨ g = w := by
  by_cases hg : g = w
  · subst hg
    simp [scheduleAndRemove]
  · simp [scheduleAndRemove, hg]

/-- The fiber that leaves the queue is notified, and no other one. -/
theorem Sound.notified_scheduleAndRemove (h : Sound s) (hw : w ∈ s.queue k) :
    (s.scheduleAndRemove k w).Notified l g ↔ s.Notified l g ∨ g = w ∧ l = k := by
  unfold Notified
  rw [h.mem_scheduleAndRemove, scheduleAndRemove_place]
  constructor
  · rintro ⟨hplace, hlink⟩
    by_cases hg : g ∈ s.queue l
    · right
      by_contra hne
      exact hlink ⟨hg, fun hl hgw => hne ⟨hgw, hl⟩⟩
    · exact .inl ⟨hplace, hg⟩
  · rintro (⟨hplace, hlink⟩ | ⟨rfl, rfl⟩)
    · exact ⟨hplace, fun hg => hlink hg.1⟩
    · exact ⟨h.linked l g hw, fun hg => hg.2 rfl rfl⟩

theorem Sound.scheduleAndRemove (h : Sound s) (hw : w ∈ s.queue k) :
    Sound (s.scheduleAndRemove k w) := by
  constructor
  · intro l g hg
    exact h.linked l g (h.mem_scheduleAndRemove.mp hg).1
  · intro l
    by_cases hl : l = k
    · subst hl
      simp only [Fibers.scheduleAndRemove, Function.update_self]
      exact (h.nodup l).erase w
    · simp only [Fibers.scheduleAndRemove, Function.update_of_ne hl]
      exact h.nodup l
  · intro l g hg
    rw [runnable_scheduleAndRemove]
    rcases (h.notified_scheduleAndRemove hw).mp hg with hg | ⟨rfl, -⟩
    · exact .inl (h.notified l g hg)
    · exact .inr rfl
  · intro l g p hg hlink
    obtain ⟨hlink, hne⟩ := h.mem_scheduleAndRemove.mp hlink
    have hgw : g ≠ w := by
      rintro rfl
      exact hne (h.same_queue hg hw).symm rfl
    rw [Bool.eq_false_iff, ne_eq, runnable_scheduleAndRemove, not_or]
    exact ⟨by simp [h.plain l g p hg hlink], hgw⟩

/-- What `NotifyOne` does: nothing if the queue is empty, else one fiber leaves it. -/
theorem notifyOne_cases {w : Option φ} (h : s.notifyOne k w = some t) :
    s.queue k = [] ∧ t = s ∨ ∃ w, w ∈ s.queue k ∧ t = s.scheduleAndRemove k w := by
  unfold notifyOne at h
  cases w with
  | none =>
    simp only [Option.ite_none_right_eq_some, Option.some.injEq] at h
    exact .inl ⟨h.1, h.2.symm⟩
  | some w =>
    simp only [Option.ite_none_right_eq_some, Option.some.injEq] at h
    exact .inr ⟨w, h.1, h.2.symm⟩

theorem notifyOne_place {w : Option φ} (h : s.notifyOne k w = some t) : t.place = s.place := by
  rcases notifyOne_cases h with ⟨-, rfl⟩ | ⟨w, -, rfl⟩ <;> rfl

/-- `NotifyOne` takes nobody from an empty queue. -/
theorem Sound.notifyOne (hs : Sound s) {w : Option φ} (h : s.notifyOne k w = some t) :
    Sound t := by
  rcases notifyOne_cases h with ⟨-, rfl⟩ | ⟨w, hw, rfl⟩
  · exact hs
  · exact hs.scheduleAndRemove hw

/-- Who was notified still is. -/
theorem Sound.notified_notifyOne (hs : Sound s) {w : Option φ} (h : s.notifyOne k w = some t)
    (hg : s.Notified l g) : t.Notified l g := by
  rcases notifyOne_cases h with ⟨-, rfl⟩ | ⟨w, hw, rfl⟩
  · exact hg
  · exact (hs.notified_scheduleAndRemove hw).mpr (.inl hg)

/-- If there was a fiber in the queue, one is notified. -/
theorem Sound.exists_notified_notifyOne (hs : Sound s) {w : Option φ}
    (h : s.notifyOne k w = some t) : s.queue k = [] ∧ t = s ∨ ∃ w, t.Notified k w := by
  rcases notifyOne_cases h with ⟨hempty, rfl⟩ | ⟨w, hw, rfl⟩
  · exact .inl ⟨hempty, rfl⟩
  · exact .inr ⟨w, (hs.notified_scheduleAndRemove hw).mpr (.inr ⟨rfl, rfl⟩)⟩

theorem notifyOne_queue_of_ne {w : Option φ} (h : s.notifyOne k w = some t) (hl : l ≠ k) :
    t.queue l = s.queue l := by
  rcases notifyOne_cases h with ⟨-, rfl⟩ | ⟨w, -, rfl⟩
  · rfl
  · simp [scheduleAndRemove, hl]

/-- `NotifyAll` empties the queue, and no other. -/
theorem mem_notifyAll_queue : g ∈ (s.notifyAll k).queue l ↔ g ∈ s.queue l ∧ l ≠ k := by
  by_cases hl : l = k
  · subst hl
    simp [notifyAll]
  · simp [notifyAll, hl]

theorem notifyAll_queue_of_ne (h : l ≠ k) : (s.notifyAll k).queue l = s.queue l := by
  simp [notifyAll, h]

@[simp] theorem notifyAll_place : (s.notifyAll k).place = s.place := rfl

/-- `NotifyAll` notifies those who were in the queue. -/
theorem Sound.notified_notifyAll (h : Sound s) :
    (s.notifyAll k).Notified l g ↔ s.Notified l g ∨ g ∈ s.queue k ∧ l = k := by
  unfold Notified
  rw [mem_notifyAll_queue, notifyAll_place]
  constructor
  · rintro ⟨hplace, hlink⟩
    by_cases hg : g ∈ s.queue l
    · have hl : l = k := by
        by_contra hl
        exact hlink ⟨hg, hl⟩
      exact .inr ⟨hl ▸ hg, hl⟩
    · exact .inl ⟨hplace, hg⟩
  · rintro (⟨hplace, hlink⟩ | ⟨hg, rfl⟩)
    · exact ⟨hplace, fun hg => hlink hg.1⟩
    · exact ⟨h.linked l g hg, fun hg => hg.2 rfl⟩

theorem Sound.notifyAll (h : Sound s) : Sound (s.notifyAll k) := by
  constructor
  · intro l g hg
    exact h.linked l g (mem_notifyAll_queue.mp hg).1
  · intro l
    by_cases hl : l = k
    · subst hl
      simp [Fibers.notifyAll]
    · simp only [Fibers.notifyAll, Function.update_of_ne hl]
      exact h.nodup l
  · intro l g hg
    simp only [Fibers.notifyAll, Bool.or_eq_true, decide_eq_true_eq]
    rcases h.notified_notifyAll.mp hg with hg | ⟨hg, -⟩
    · exact .inl (h.notified l g hg)
    · exact .inr hg
  · intro l g p hg hlink
    obtain ⟨hlink, hl⟩ := mem_notifyAll_queue.mp hlink
    have hnot : g ∉ s.queue k := fun hk => hl (h.same_queue hg hk).symm
    simp [Fibers.notifyAll, h.plain l g p hg hlink, hnot]

/-! ### Resuming -/

theorem leave_place_of_ne (h : g ≠ f) : (s.leave f k a).place g = s.place g :=
  Function.update_of_ne h _ _

@[simp] theorem leave_place_self : (s.leave f k a).place f = .runs a :=
  Function.update_self f _ _

@[simp] theorem leave_runnable : (s.leave f k a).runnable = s.runnable := rfl

/-- Who leaves its wait is in no queue afterwards. -/
theorem Sound.mem_leave (h : Sound s) (hplace : s.place f = .waits k timed r) :
    g ∈ (s.leave f k a).queue l ↔ g ∈ s.queue l ∧ g ≠ f := by
  by_cases hl : l = k
  · subst hl
    simp [leave, (h.nodup l).mem_erase_iff, and_comm]
  · simp only [leave, Function.update_of_ne hl]
    constructor
    · intro hg
      refine ⟨hg, ?_⟩
      rintro rfl
      exact hl (h.same_queue hplace hg)
    · exact And.left

/-- A notification is over when its fiber leaves the wait. -/
theorem Sound.notified_leave (h : Sound s) (hplace : s.place f = .waits k timed r) :
    (s.leave f k a).Notified l g ↔ s.Notified l g ∧ g ≠ f := by
  unfold Notified
  rw [h.mem_leave hplace]
  by_cases hg : g = f
  · subst hg
    simp
  · simp [leave_place_of_ne hg, hg]

theorem Sound.leave (h : Sound s) (hplace : s.place f = .waits k timed r) :
    Sound (s.leave f k a) := by
  constructor
  · intro l g hg
    obtain ⟨hlink, hne⟩ := (h.mem_leave hplace).mp hg
    rw [leave_place_of_ne hne]
    exact h.linked l g hlink
  · intro l
    by_cases hl : l = k
    · subst hl
      simp only [Fibers.leave, Function.update_self]
      exact (h.nodup l).erase f
    · simp only [Fibers.leave, Function.update_of_ne hl]
      exact h.nodup l
  · intro l g hg
    exact h.notified l g ((h.notified_leave hplace).mp hg).1
  · intro l g p hg hlink
    obtain ⟨hlink, hne⟩ := (h.mem_leave hplace).mp hlink
    rw [leave_place_of_ne hne] at hg
    exact h.plain l g p hg hlink

/-- What a resumed fiber finds: `Timeout` if nobody had notified it. -/
theorem Sound.resume_cases (h : Sound s) {status : WaitStatus}
    (hresume : s.resume f a = some (r, status, t)) :
    ∃ k timed, s.place f = .waits k timed r ∧ s.runnable f = true ∧ t = s.leave f k a ∧
      (status = .Timeout ↔ f ∈ s.queue k) ∧ (status = .Timeout → timed = true) := by
  unfold resume at hresume
  split at hresume
  · rename_i k r' hplace hrun
    simp only [Option.some.injEq, Prod.mk.injEq] at hresume
    obtain ⟨rfl, rfl, rfl⟩ := hresume
    refine ⟨k, true, hplace, hrun, rfl, ?_, fun _ => rfl⟩
    split <;> simp_all
  · rename_i k r' hplace hrun
    simp only [Option.some.injEq, Prod.mk.injEq] at hresume
    obtain ⟨rfl, rfl, rfl⟩ := hresume
    have hlink : f ∉ s.queue k := by
      intro hlink
      rw [h.plain k f r' hplace hlink] at hrun
      cases hrun
    refine ⟨k, false, hplace, hrun, ?_, iff_of_false (by simp) hlink, by simp⟩
    unfold Fibers.goto Fibers.leave
    rw [List.erase_of_not_mem hlink, Function.update_eq_self]
  · cases hresume

end Fibers

end Yaclib.Fault.Fiber
