import Mathlib.Data.List.Nodup
import Yaclib.Algo.Core.Model

/-!
What holds between the cores of a pipeline: the fields of a step by how far it is, the
lists of callbacks, who took over which core, what a core is called back with, the chains
of tasks, the executors, and the values.
-/

namespace Yaclib.Core

variable {ν ι ε α : Type}

namespace Instantiable

variable {type : CoreType}

theorem detach_of_toShared (h : Instantiable type) (hshared : type.toShared = true) :
    type.detach = false := by
  cases h with
  | run | attached | attachedLazy => rfl
  | runShared => rfl
  | detach => cases hshared

/-- The first step is submitted, and takes no reference. -/
theorem call_of_run (h : Instantiable type) (hrun : type.run = true) : type.call = true := by
  cases h with
  | run | runShared => rfl
  | attached | attachedLazy | detach => cases hrun

theorem not_detach_of_run (h : Instantiable type) (hrun : type.run = true) :
    type.detach = false := by
  cases h with
  | run | runShared => rfl
  | attached | attachedLazy | detach => cases hrun

/-- No step that is attached to another makes a shared future. -/
theorem not_shared_of_attached (h : Instantiable type) (hrun : type.run = false) :
    type.toShared = false := by
  cases h with
  | run | runShared => cases hrun
  | attached | attachedLazy | detach => rfl

/-- A step that is attached is so to a unique core or to a shared one. -/
theorem unique_iff (h : Instantiable type) (hrun : type.run = false) :
    type.fromUnique = !type.fromShared := by
  cases h with
  | run | runShared => cases hrun
  | attached | attachedLazy | detach => rfl

/-- There is no shared task. -/
theorem unique_of_lazy (h : Instantiable type) (hlazy : type.lazy = true) :
    type.fromShared = false := by
  cases h with
  | run | runShared | attached | detach => cases hlazy
  | attachedLazy => rfl

end Instantiable

namespace Node

def previous : Node ν ι ε α → Option ν
  | core _ step => step.previous
  | _ => none

def isCoroutine : Node ν ι ε α → Bool
  | promiseType _ => true
  | _ => false

def detached : Node ν ι ε α → Bool
  | core _ step => step.type.detach
  | _ => false

theorem detached_of_shared {node : Node ν ι ε α} (h : node.shared = true) :
    node.detached = false := by
  cases node with
  | core sch step =>
    exact step.instantiable.detach_of_toShared h
  | _ => rfl

end Node

/-- `h` is where the pipeline of `m` begins. -/
inductive Root (prog : ν → Node ν ι ε α) : ν → ν → Prop
  | refl (h : ν) : Root prog h h
  | step {m p h : ν} : (prog m).previous = some p → Root prog p h → Root prog m h

/-- The result of `p` is stored and its callbacks are handed over. -/
def Final (s : State ν ι ε α) (p : ν) (r : Except ε α) : Prop :=
  (s.cores p).callback = none ∧ (s.cores p).slot = .result r

namespace Step

variable (step : Step ν ι ε α)

def accepts : Except ε α → Bool
  | .ok _ => step.param ≠ .error
  | .error _ => step.param ≠ .value

/-- What a step makes of its input: a result, or the core whose result is its own. A
callback that does not take the input is skipped. -/
def reference (r : Except ε α) : Except ε α ⊕ ν :=
  if step.accepts r then
    match step.func r with
    | .error e => .inl (.error e)
    | .ok x => x
  else .inl r

end Step

/-- What a step is given: the `StopTag` error if it was dropped. -/
def Input (cfg : Config ν ι ε α) (s : State ν ι ε α) (step : Step ν ι ε α) (dropped : Bool)
    (r : Except ε α) : Prop :=
  if dropped then r = .error cfg.stopTag
  else match step.previous with
  | none => r = .ok cfg.unit
  | some p => Final s p r

/-! The fields of a step. -/

/-- Nothing has happened to the core yet. -/
structure Untouched (c : CoreState ν ι ε α) : Prop where
  slot : c.slot = .self {}
  submits : c.submits = []
  runs : c.runs = 0
  dropped : c.dropped = false
  acquired : c.acquired = []
  released : c.released = []
  destroyed : c.destroyed = 0
  inner : c.inner = none
  head : c.head = none

/-- The step was reached: it took what it needs and was submitted, if it has to be. -/
structure Begun (step : Step ν ι ε α) (c : CoreState ν ι ε α) : Prop where
  on : c.on ≠ none
  given : step.previous ≠ none → ∀ e, step.executor = some e → c.on = some e
  submits : c.submits = if step.type.call then c.on.toList else []
  acquired : c.acquired = if step.acquires then step.previous.toList else []

/-- The callback of the step is next. -/
structure Entered (step : Step ν ι ε α) (c : CoreState ν ι ε α) : Prop
    extends Begun step c where
  slot : c.slot = .self { caller := step.previous }
  executor : c.executor = c.on
  runs : c.runs = 0
  released : c.released = []
  destroyed : c.destroyed = 0
  inner : c.inner = none
  head : c.head = none

/-- The callback returned the core `m`. -/
structure Unwrapping (step : Step ν ι ε α) (c : CoreState ν ι ε α) (m : ν) : Prop
    extends Begun step c where
  slot : c.slot = .self { caller := some m, unwrapping := !step.type.run }
  inner : c.inner = some m
  runs : c.runs = 1
  released : c.released = if step.releases then step.previous.toList else []
  destroyed : c.destroyed = 1
  async : step.returns ≠ .plain

/-- The step is done: its result is stored, unless nobody can ask for it, its functor is
destroyed, and what it took is released. -/
structure Finished (step : Step ν ι ε α) (c : CoreState ν ι ε α) : Prop
    extends Begun step c where
  slot : step.type.detach = true ∨ ∃ r, c.slot = .result r
  runs : c.runs ≤ 1
  released : c.released =
    (if step.releases then step.previous.toList else []) ++ c.inner.toList
  destroyed : c.destroyed = 1

/-- A step that waits for the core it is attached to, or for its inner core. -/
structure Pending (step : Step ν ι ε α) (c : CoreState ν ι ε α) : Prop where
  fresh : c.inner = none → Untouched c
  head : c.inner = none → step.previous = none → c.on ≠ none
  on : c.inner = none → step.previous ≠ none → c.on = none
  executor : c.inner = none → step.previous ≠ none → c.executor = step.executor
  unwrapping : ∀ m, c.inner = some m → Unwrapping step c m

/-- The fields that the shape of a step is about, but the phase, are the same. -/
structure SameInside (b c : CoreState ν ι ε α) : Prop where
  slot : c.slot = b.slot
  executor : c.executor = b.executor
  on : c.on = b.on
  submits : c.submits = b.submits
  runs : c.runs = b.runs
  dropped : c.dropped = b.dropped
  acquired : c.acquired = b.acquired
  released : c.released = b.released
  destroyed : c.destroyed = b.destroyed
  inner : c.inner = b.inner
  head : c.head = b.head

section

variable {step : Step ν ι ε α} {b c : CoreState ν ι ε α}

theorem Untouched.same (h : Untouched b) (hs : SameInside b c) : Untouched c where
  slot := hs.slot.trans h.slot
  submits := hs.submits.trans h.submits
  runs := hs.runs.trans h.runs
  dropped := hs.dropped.trans h.dropped
  acquired := hs.acquired.trans h.acquired
  released := hs.released.trans h.released
  destroyed := hs.destroyed.trans h.destroyed
  inner := hs.inner.trans h.inner
  head := hs.head.trans h.head

theorem Begun.same (h : Begun step b) (hs : SameInside b c) : Begun step c where
  on := hs.on ▸ h.on
  given := hs.on ▸ h.given
  submits := by rw [hs.submits, hs.on, h.submits]
  acquired := hs.acquired.trans h.acquired

theorem Entered.same (h : Entered step b) (hs : SameInside b c) : Entered step c where
  toBegun := h.toBegun.same hs
  slot := hs.slot.trans h.slot
  executor := by rw [hs.executor, hs.on, h.executor]
  runs := hs.runs.trans h.runs
  released := hs.released.trans h.released
  destroyed := hs.destroyed.trans h.destroyed
  inner := hs.inner.trans h.inner
  head := hs.head.trans h.head

theorem Unwrapping.same {m : ν} (h : Unwrapping step b m) (hs : SameInside b c) :
    Unwrapping step c m where
  toBegun := h.toBegun.same hs
  slot := hs.slot.trans h.slot
  inner := hs.inner.trans h.inner
  runs := hs.runs.trans h.runs
  released := hs.released.trans h.released
  destroyed := hs.destroyed.trans h.destroyed
  async := h.async

theorem Finished.same (h : Finished step b) (hs : SameInside b c) : Finished step c where
  toBegun := h.toBegun.same hs
  slot := hs.slot ▸ h.slot
  runs := hs.runs ▸ h.runs
  released := by rw [hs.released, hs.inner, h.released]
  destroyed := hs.destroyed.trans h.destroyed

theorem Pending.same (h : Pending step b) (hs : SameInside b c) : Pending step c where
  fresh hinner := (h.fresh (hs.inner ▸ hinner)).same hs
  head hinner := hs.on ▸ h.head (hs.inner ▸ hinner)
  on hinner hprevious := hs.on.trans (h.on (hs.inner ▸ hinner) hprevious)
  executor hinner hprevious := hs.executor.trans (h.executor (hs.inner ▸ hinner) hprevious)
  unwrapping m hinner := (h.unwrapping m (hs.inner ▸ hinner)).same hs

end

def StepShape (step : Step ν ι ε α) (c : CoreState ν ι ε α) : Prop :=
  match c.phase with
  | .idle => step.previous = none ∧ Untouched c ∧ c.on ≠ none ∧ c.executor = c.on
  | .waiting _ | .here _ => Pending step c
  | .submitted => Entered step c ∧ c.dropped = false ∧ step.type.call = true
  | .running => Entered step c ∧ c.dropped = false ∧ step.type.call = false
  | .done => Finished step c

/-- The fields of a coroutine. -/
structure CoroutineShape (cfg : Config ν ι ε α) (c : CoreState ν ι ε α) : Prop where
  inner : c.runs = 0 → c.inner = none
  running : c.runs = 0 → c.phase ≠ .running
  waiting : c.runs = 0 → ∀ m, c.phase ≠ .waiting m
  idle : c.phase = .idle → c.runs = 0 ∧ c.executor = some cfg.inline
  here : c.runs = 0 → ∀ m, c.phase = .here m → c.executor = some cfg.inline
  slot : c.phase ≠ .done → c.slot = .self {}

/-- The result that a core was made with, or that it got from `Drop`. -/
structure Stored (cfg : Config ν ι ε α) (node : Node ν ι ε α) (c : CoreState ν ι ε α) : Prop where
  ready : ∀ r, node.stored = some r → c.dropped = false → c.slot = .result r
  dropped : c.dropped = true → c.phase = .done ∧ c.slot = .result (.error cfg.stopTag)
  ended : ∀ r, node = .ready r → c.phase = .done

/-- A result that was stored is not replaced. -/
theorem Stored.mono {cfg : Config ν ι ε α} {node : Node ν ι ε α} {b c : CoreState ν ι ε α}
    (h : Stored cfg node b) (hslot : c.slot = b.slot) (hdropped : c.dropped = b.dropped)
    (hphase : b.phase = .done → c.phase = .done) : Stored cfg node c where
  ready := hslot ▸ hdropped ▸ h.ready
  dropped hc := by
    obtain ⟨hdone, hb⟩ := h.dropped (hdropped ▸ hc)
    exact ⟨hphase hdone, hslot.trans hb⟩
  ended r hr := hphase (h.ended r hr)

/-- The fields of any other core. -/
structure OtherShape (cfg : Config ν ι ε α) (node : Node ν ι ε α) (c : CoreState ν ι ε α) :
    Prop where
  on : c.on ≠ none
  done : c.phase = .done → ∃ r, c.slot = .result r
  stored : Stored cfg node c
  coroutine : node.isCoroutine = true → CoroutineShape cfg c
  inner : node.isCoroutine = false → c.inner = none
  waiting : node.isCoroutine = false → ∀ m, c.phase ≠ .waiting m

def Shape (cfg : Config ν ι ε α) (n : ν) (c : CoreState ν ι ε α) : Prop :=
  match cfg.prog n with
  | .core _ step => StepShape step c
  | node => OtherShape cfg node c

/-! What the fields of several cores say together. -/

/-- The list of a core that is not done has each core that waits for it, once, and nobody
waits for a core that is done. -/
structure Links (s : State ν ι ε α) : Prop where
  nodup : ∀ p cs, (s.cores p).callback = some cs → cs.Nodup
  mem : ∀ p cs, (s.cores p).callback = some cs → ∀ j, j ∈ cs ↔ (s.cores j).phase = .waiting p
  closed : ∀ p, (s.cores p).callback = none → ∀ j, (s.cores j).phase ≠ .waiting p

/-- The core that `j` is attached to, or that it unwraps or awaits. -/
def Uses (cfg : Config ν ι ε α) (s : State ν ι ε α) (j p : ν) : Prop :=
  (s.cores j).inner = some p ∨ ((s.cores j).made = true ∧ (cfg.prog j).previous = some p)

/-- A unique core has one user at most, who took it from its handle; it was made, and is not
detached. A coroutine awaits unique cores only. -/
structure Owned (cfg : Config ν ι ε α) (s : State ν ι ε α) : Prop where
  taken : ∀ j p, Uses cfg s j p → (cfg.prog p).shared = false → (s.cores p).taken = some j
  attached : ∀ j p, Uses cfg s j p → (s.cores p).made = true ∧ (cfg.prog p).detached = false
  handle : ∀ p, (s.cores p).handle ≠ none →
    (s.cores p).taken = none ∧ (s.cores p).made = true ∧ (cfg.prog p).shared = false ∧
      (cfg.prog p).detached = false
  kind : ∀ n sch step p, cfg.prog n = .core sch step → (s.cores n).made = true →
    step.previous = some p → step.type.fromShared = (cfg.prog p).shared
  awaits : ∀ n p, (cfg.prog n).isCoroutine = true → (s.cores n).inner = some p →
    (cfg.prog p).shared = false
  free : ∀ p, (cfg.prog p).shared = true → (s.cores p).taken = none

/-- The head of a task is where its pipeline begins, and nothing has happened to it as long
as the task has its handle. -/
structure Chains (cfg : Config ν ι ε α) (s : State ν ι ε α) : Prop where
  root : ∀ m, Root cfg.prog m ((s.cores m).headOf m)
  task : ∀ m, (s.cores m).handle = some .task →
    (s.cores ((s.cores m).headOf m)).made = true ∧
      (s.cores ((s.cores m).headOf m)).phase = .idle ∧
      (s.cores ((s.cores m).headOf m)).last = some m
  head : ∀ n h, (s.cores n).head = some h → ∃ m, (s.cores n).inner = some m ∧ Root cfg.prog m h

/-- How the core `n` comes to be called with `p`. -/
inductive CalledBy (cfg : Config ν ι ε α) (s : State ν ι ε α) (n p : ν) : Prop
  /-- the core that it unwraps or awaits is done -/
  | unwrapped (r : Except ε α) : (s.cores n).inner = some p → Final s p r → CalledBy cfg s n p
  /-- the core that it is attached to is done -/
  | attached (r : Except ε α) : (s.cores n).inner = none → (cfg.prog n).previous = some p →
      Final s p r → CalledBy cfg s n p
  /-- it is the head of the task that `p` waits for -/
  | started (m : ν) : (s.cores n).inner = none → (cfg.prog n).previous = none →
      (s.cores p).head = some n → (s.cores p).phase = .waiting m →
      ((cfg.prog n).isCoroutine = true → (s.cores n).runs = 0) → CalledBy cfg s n p

/-- What a callback waits for, and what it is called with. -/
structure Callers (cfg : Config ν ι ε α) (s : State ν ι ε α) : Prop where
  waiting : ∀ n p, (s.cores n).phase = .waiting p → (s.cores n).inner = some p ∨
    ((s.cores n).inner = none ∧ (cfg.prog n).previous = some p)
  here : ∀ n p, (s.cores n).phase = .here p → CalledBy cfg s n p
  previous : ∀ n p, (s.cores n).on ≠ none → (cfg.prog n).previous = some p → ∃ r, Final s p r

/-- `k` is attached to `n` and was reached. -/
def Reached (cfg : Config ν ι ε α) (s : State ν ι ε α) (k n : ν) : Prop :=
  (cfg.prog k).previous = some n ∧ (s.cores k).on ≠ none

/-- The head of the task that `n` unwraps is a coroutine. -/
def Swaps (cfg : Config ν ι ε α) (s : State ν ι ε α) (n : ν) : Prop :=
  ∃ h, (s.cores n).head = some h ∧ (cfg.prog h).isCoroutine = true

/-- A step that was reached and is not taken over has an executor: the one it works `on`, or
the inline one if a coroutine at the head of the task it unwraps left that behind. A step
without an executor of its own works on that of the step before it, or on the one left behind
there. -/
structure Executors (cfg : Config ν ι ε α) (s : State ν ι ε α) : Prop where
  kept : ∀ n, (s.cores n).on ≠ none → (s.cores n).executor ≠ none ∨
    ((cfg.prog n).shared = false ∧ ∃ k, (s.cores n).taken = some k ∧ Reached cfg s k n)
  own : ∀ n, (cfg.prog n).isCoroutine = false → (s.cores n).on ≠ none →
    (∃ c, (s.cores n).taken = some c ∧ (cfg.prog c).isCoroutine = true) ∨
    (s.cores n).executor = none ∨ (s.cores n).executor = (s.cores n).on ∨
    ((s.cores n).executor = some cfg.inline ∧ Swaps cfg s n)
  swapped : ∀ n h, (s.cores n).head = some h → (cfg.prog h).isCoroutine = true →
    (s.cores h).phase = .here n ∨ (s.cores h).runs ≠ 0
  inline : ∀ n h, (cfg.prog n).isCoroutine = false → (s.cores n).head = some h →
    (cfg.prog h).isCoroutine = true → (s.cores h).runs ≠ 0 →
    (∃ c, (s.cores n).taken = some c ∧ (cfg.prog c).isCoroutine = true) ∨
    (s.cores n).executor = none ∨ (s.cores n).executor = some cfg.inline
  inherits : ∀ k sch step n, cfg.prog k = .core sch step → step.previous = some n →
    (cfg.prog n).isCoroutine = false → step.executor = none → (s.cores k).on ≠ none →
    ((s.cores k).on = (s.cores n).on ∧ ¬ Swaps cfg s n) ∨
      ((s.cores k).on = some cfg.inline ∧ Swaps cfg s n)

/-- The callback returned the core `m`. -/
def Unwraps (cfg : Config ν ι ε α) (s : State ν ι ε α) (step : Step ν ι ε α)
    (c : CoreState ν ι ε α) (m : ν) : Prop :=
  ∃ r, Input cfg s step c.dropped r ∧ step.accepts r = true ∧ step.reference r = .inr m

/-- The step has the result that the reference gives it. -/
structure Settled (cfg : Config ν ι ε α) (s : State ν ι ε α) (step : Step ν ι ε α)
    (c : CoreState ν ι ε α) : Prop where
  plain : c.inner = none → ∃ r x, Input cfg s step c.dropped r ∧ step.reference r = .inl x ∧
    c.runs = (if step.accepts r then 1 else 0) ∧
      ((step.type.detach = true ∧ ∀ y, c.slot ≠ .result y) ∨ c.slot = .result x)
  unwrapped : ∀ m, c.inner = some m → c.runs = 1 ∧ ∃ x, Final s m x ∧ c.slot = .result x

/-- A step unwraps the core that its callback returned for the input it got, and one that is
done has the result of the reference. -/
structure Values (cfg : Config ν ι ε α) (s : State ν ι ε α) : Prop where
  inner : ∀ n sch step m, cfg.prog n = .core sch step → (s.cores n).inner = some m →
    Unwraps cfg s step (s.cores n) m
  done : ∀ n sch step, cfg.prog n = .core sch step → (s.cores n).phase = .done →
    Settled cfg s step (s.cores n)

/-- The invariant of the cores, in every state between two steps of a run. A core is done
when its callbacks were handed over; its own fields are as its `Shape` says for how far it
is, and the other parts relate it to the cores around it. -/
structure Inv (cfg : Config ν ι ε α) (s : State ν ι ε α) : Prop where
  unmade : ∀ n, (s.cores n).made = false → s.cores n = {}
  cell : ∀ n, (s.cores n).callback = none ↔ (s.cores n).phase = .done
  shape : ∀ n, (s.cores n).made = true → Shape cfg n (s.cores n)
  links : Links s
  owned : Owned cfg s
  chains : Chains cfg s
  callers : Callers cfg s
  executors : Executors cfg s
  values : Values cfg s

/-- A core that is done is only taken over, started from, or asked for its executor. -/
def Kept (b c : CoreState ν ι ε α) : Prop :=
  c = { b with
    executor := c.executor
    handle := c.handle
    next := c.next
    taken := c.taken
    last := c.last }

/-- The cores that are done in `s` are kept in `t`. -/
def Frame (s t : State ν ι ε α) : Prop :=
  ∀ n, (s.cores n).phase = .done → Kept (s.cores n) (t.cores n)

/-- What a core that is done depends on was done before: the core that it is attached to, and
the core that its callback returned. -/
structure Grounded (cfg : Config ν ι ε α) (s t : State ν ι ε α) (n : ν) : Prop where
  previous : ∀ p, (cfg.prog n).previous = some p → ∃ r, Final s p r
  inner : (cfg.prog n).isCoroutine = false → ∀ m, (t.cores n).inner = some m → ∃ r, Final s m r

/-- A stretch of code that ends at most one core. -/
structure Move (cfg : Config ν ι ε α) (s t : State ν ι ε α) : Prop where
  inv : Inv cfg t
  frame : Frame s t
  grounded : ∀ n, (t.cores n).phase = .done → (s.cores n).phase = .done ∨ Grounded cfg s t n

/-- What happens in one step of the machine. -/
inductive Next (cfg : Config ν ι ε α) : State ν ι ε α → State ν ι ε α → Prop
  | move {s t : State ν ι ε α} : Move cfg s t → Next cfg s t
  | trans {s t u : State ν ι ε α} : Next cfg s t → Next cfg t u → Next cfg s u

/-! Consequences. -/

section

variable {cfg : Config ν ι ε α} {s t : State ν ι ε α}

/-- A core that is done has a result, unless it is a detached step. -/
theorem Shape.result {n : ν} {c : CoreState ν ι ε α}
    (h : Shape cfg n { c with callback := none, phase := .done })
    (hdetached : (cfg.prog n).detached = false) : ∃ r, c.slot = .result r := by
  unfold Shape at h
  cases hn : cfg.prog n with
  | core sch step =>
    rw [hn] at h hdetached
    rcases h.slot with hdetach | hslot
    · rw [Node.detached, hdetach] at hdetached
      cases hdetached
    · exact hslot
  | _ =>
    rw [hn] at h
    exact h.done rfl

theorem Input.mono (hfinal : ∀ p r, Final s p r → Final t p r) {step : Step ν ι ε α}
    {dropped : Bool} {r : Except ε α} (h : Input cfg s step dropped r) :
    Input cfg t step dropped r := by
  unfold Input at h ⊢
  split
  · simpa only [if_pos ‹dropped = true›] using h
  · rw [if_neg ‹_›] at h
    cases hprevious : step.previous with
    | none => simpa only [hprevious] using h
    | some p =>
      rw [hprevious] at h
      exact hfinal p r h

theorem Unwraps.mono (hfinal : ∀ p r, Final s p r → Final t p r) {step : Step ν ι ε α}
    {c : CoreState ν ι ε α} {m : ν} (h : Unwraps cfg s step c m) : Unwraps cfg t step c m := by
  obtain ⟨r, hinput, haccepts, hreference⟩ := h
  exact ⟨r, hinput.mono hfinal, haccepts, hreference⟩

/-- A step that is settled stays so as long as what is done keeps its result. -/
theorem Settled.mono (hfinal : ∀ p r, Final s p r → Final t p r) {step : Step ν ι ε α}
    {c : CoreState ν ι ε α} (h : Settled cfg s step c) : Settled cfg t step c := by
  constructor
  · intro hinner
    obtain ⟨r, x, hinput, hrest⟩ := h.plain hinner
    exact ⟨r, x, hinput.mono hfinal, hrest⟩
  · intro m hinner
    obtain ⟨hruns, x, hx, hslot⟩ := h.unwrapped m hinner
    exact ⟨hruns, x, hfinal m x hx, hslot⟩

theorem Kept.of_eq {b c : CoreState ν ι ε α} (h : c = b) : Kept b c := by
  subst h
  rfl

theorem Kept.phase {b c : CoreState ν ι ε α} (h : Kept b c) : c.phase = b.phase := by
  rw [h]

theorem Kept.trans {b c d : CoreState ν ι ε α} (h : Kept b c) (h' : Kept c d) : Kept b d := by
  rw [Kept, h', h]

/-- The cores that are done are kept along a run. -/
theorem Frame.trans {u : State ν ι ε α} (h : Frame s t) (h' : Frame t u) : Frame s u := by
  intro n hn
  have hkept := h n hn
  exact hkept.trans (h' n (hkept.phase.trans hn))

theorem Next.inv (h : Next cfg s t) : Inv cfg t := by
  induction h with
  | move h => exact h.inv
  | trans _ _ _ ih => exact ih

theorem Next.frame (h : Next cfg s t) : Frame s t := by
  induction h with
  | move h => exact h.frame
  | trans _ _ ih ih' => exact ih.trans ih'

theorem Links.congr (h : Links s)
    (hcallback : ∀ p, (t.cores p).callback = (s.cores p).callback)
    (hphase : ∀ j p, (t.cores j).phase = .waiting p ↔ (s.cores j).phase = .waiting p) :
    Links t where
  nodup p cs hcs := h.nodup p cs (hcallback p ▸ hcs)
  mem p cs hcs j := (h.mem p cs (hcallback p ▸ hcs) j).trans (hphase j p).symm
  closed p hp j := fun hj => h.closed p (hcallback p ▸ hp) j ((hphase j p).mp hj)

/-- The callback `n` is put in the list of `m`, unless `m` is done. -/
theorem Links.push [DecidableEq ν] (h : Links s) {n m : ν}
    (hcallback : ∀ p, (t.cores p).callback =
      if p = m then (s.cores m).callback.map (n :: ·) else (s.cores p).callback)
    (hn : ∀ p, (s.cores n).phase ≠ .waiting p)
    (hwaiting : ∀ j p, (t.cores j).phase = .waiting p ↔
      (j = n ∧ p = m ∧ (s.cores m).callback ≠ none) ∨ (s.cores j).phase = .waiting p) :
    Links t := by
  refine ⟨?_, ?_, ?_⟩
  · intro p cs hcs
    rw [hcallback] at hcs
    split at hcs
    · obtain ⟨cs', hcs', rfl⟩ := Option.map_eq_some_iff.mp hcs
      refine List.nodup_cons.mpr ⟨?_, h.nodup m cs' hcs'⟩
      intro hmem
      exact hn m ((h.mem m cs' hcs' n).mp hmem)
    · exact h.nodup p cs hcs
  · intro p cs hcs j
    rw [hcallback] at hcs
    rw [hwaiting]
    split at hcs
    · subst p
      obtain ⟨cs', hcs', rfl⟩ := Option.map_eq_some_iff.mp hcs
      have hmem := h.mem m cs' hcs' j
      simp only [List.mem_cons, hcs']
      tauto
    · have hmem := h.mem p cs hcs j
      tauto
  · intro p hp j hj
    rw [hcallback] at hp
    rcases (hwaiting j p).mp hj with ⟨-, rfl, hsome⟩ | hj
    · rw [if_pos rfl] at hp
      exact hsome (Option.map_eq_none_iff.mp hp)
    · refine h.closed p ?_ j hj
      split at hp
      · subst p
        exact Option.map_eq_none_iff.mp hp
      · exact hp

theorem Uses.congr (hmade : ∀ j, (t.cores j).made = (s.cores j).made)
    (hinner : ∀ j, (t.cores j).inner = (s.cores j).inner) {j p : ν} :
    Uses cfg t j p ↔ Uses cfg s j p := by
  rw [Uses, Uses, hmade, hinner]

theorem Owned.congr (h : Owned cfg s) (hmade : ∀ j, (t.cores j).made = (s.cores j).made)
    (hinner : ∀ j, (t.cores j).inner = (s.cores j).inner)
    (htaken : ∀ j, (t.cores j).taken = (s.cores j).taken)
    (hhandle : ∀ j, (t.cores j).handle = (s.cores j).handle) : Owned cfg t := by
  refine ⟨?_, ?_, ?_, ?_, ?_, ?_⟩
  · intro j p huses
    rw [htaken]
    exact h.taken j p ((Uses.congr hmade hinner).mp huses)
  · intro j p huses
    rw [hmade]
    exact h.attached j p ((Uses.congr hmade hinner).mp huses)
  · intro p
    rw [hhandle, htaken, hmade]
    exact h.handle p
  · intro n sch step p hn hm
    rw [hmade] at hm
    exact h.kind n sch step p hn hm
  · intro n p hn
    rw [hinner]
    exact h.awaits n p hn
  · intro p
    rw [htaken]
    exact h.free p

theorem Chains.congr (h : Chains cfg s) (hmade : ∀ j, (t.cores j).made = (s.cores j).made)
    (hinner : ∀ j, (t.cores j).inner = (s.cores j).inner)
    (hhead : ∀ j, (t.cores j).head = (s.cores j).head)
    (hhandle : ∀ j, (t.cores j).handle = (s.cores j).handle)
    (hnext : ∀ j, (t.cores j).next = (s.cores j).next)
    (hlast : ∀ j, (t.cores j).last = (s.cores j).last)
    (hidle : ∀ j, (s.cores j).phase = .idle → (t.cores j).phase = .idle) : Chains cfg t := by
  have hheadOf : ∀ m, (t.cores m).headOf m = (s.cores m).headOf m := by
    intro m
    rw [CoreState.headOf, CoreState.headOf, hnext]
  refine ⟨?_, ?_, ?_⟩
  · intro m
    rw [hheadOf]
    exact h.root m
  · intro m hm
    rw [hhandle] at hm
    rw [hheadOf, hmade, hlast]
    obtain ⟨hmade, hphase, hlast⟩ := h.task m hm
    exact ⟨hmade, hidle _ hphase, hlast⟩
  · intro n x hx
    rw [hhead] at hx
    rw [hinner]
    exact h.head n x hx

theorem Reached.congr (hon : ∀ j, (t.cores j).on = (s.cores j).on) {k n : ν} :
    Reached cfg t k n ↔ Reached cfg s k n := by
  rw [Reached, Reached, hon]

theorem Swaps.congr (hhead : ∀ j, (t.cores j).head = (s.cores j).head) {n : ν} :
    Swaps cfg t n ↔ Swaps cfg s n := by
  rw [Swaps, Swaps, hhead]

theorem Executors.congr (h : Executors cfg s) (hon : ∀ j, (t.cores j).on = (s.cores j).on)
    (hexecutor : ∀ j, (t.cores j).executor = (s.cores j).executor)
    (htaken : ∀ j, (t.cores j).taken = (s.cores j).taken)
    (hhead : ∀ j, (t.cores j).head = (s.cores j).head)
    (hruns : ∀ j, (cfg.prog j).isCoroutine = true → (t.cores j).runs = (s.cores j).runs)
    (hhere : ∀ j n, (cfg.prog j).isCoroutine = true → (s.cores j).phase = .here n →
      (t.cores j).phase = .here n) : Executors cfg t := by
  refine ⟨?_, ?_, ?_, ?_, ?_⟩
  · intro n
    simp only [hon, hexecutor, htaken, Reached.congr hon]
    exact h.kept n
  · intro n hn
    rw [hon, hexecutor, htaken, Swaps.congr hhead]
    exact h.own n hn
  · intro n x hx hcoroutine
    rw [hhead] at hx
    rw [hruns x hcoroutine]
    exact (h.swapped n x hx hcoroutine).imp_left (hhere x n hcoroutine)
  · intro n x hn hx hcoroutine hx'
    rw [hhead] at hx
    rw [hruns x hcoroutine] at hx'
    rw [htaken, hexecutor]
    exact h.inline n x hn hx hcoroutine hx'
  · intro k sch step n hk hprevious hn hnone
    rw [hon, hon, Swaps.congr hhead]
    exact h.inherits k sch step n hk hprevious hn hnone

/-- What the value of a step depends on is the same. -/
structure SameValue (b c : CoreState ν ι ε α) : Prop where
  inner : c.inner = b.inner
  dropped : c.dropped = b.dropped
  runs : c.runs = b.runs
  slot : c.slot = b.slot

theorem Unwraps.same {step : Step ν ι ε α} {b c : CoreState ν ι ε α} {m : ν}
    (h : Unwraps cfg s step b m) (hsame : SameValue b c) : Unwraps cfg s step c m := by
  rw [Unwraps, hsame.dropped]
  exact h

theorem Settled.same {step : Step ν ι ε α} {b c : CoreState ν ι ε α}
    (h : Settled cfg s step b) (hsame : SameValue b c) : Settled cfg s step c := by
  constructor
  · rw [hsame.inner, hsame.dropped, hsame.runs, hsame.slot]
    exact h.plain
  · rw [hsame.inner, hsame.runs, hsame.slot]
    exact h.unwrapped

/-- The values of all cores but one are kept. -/
theorem Values.other (h : Values cfg s) (hfinal : ∀ p r, Final s p r → Final t p r) {n : ν}
    (hother : ∀ j, j ≠ n → SameValue (s.cores j) (t.cores j) ∧
      ((t.cores j).phase = .done → (s.cores j).phase = .done))
    (hinner : ∀ sch step m, cfg.prog n = .core sch step → (t.cores n).inner = some m →
      Unwraps cfg t step (t.cores n) m)
    (hdone : ∀ sch step, cfg.prog n = .core sch step → (t.cores n).phase = .done →
      Settled cfg t step (t.cores n)) : Values cfg t := by
  constructor
  · intro j sch step m hj hm
    by_cases hjn : j = n
    · subst hjn
      exact hinner sch step m hj hm
    · have hsame := (hother j hjn).1
      exact ((h.inner j sch step m hj (hsame.inner ▸ hm)).mono hfinal).same hsame
  · intro j sch step hj hphase
    by_cases hjn : j = n
    · subst hjn
      exact hdone sch step hj hphase
    · obtain ⟨hsame, hback⟩ := hother j hjn
      exact ((h.done j sch step hj (hback hphase)).mono hfinal).same hsame

theorem StepShape.same {step : Step ν ι ε α} {b c : CoreState ν ι ε α} (h : StepShape step b)
    (hs : SameInside b c) (hphase : c.phase = b.phase) : StepShape step c := by
  rw [StepShape] at h ⊢
  rw [hphase]
  cases hb : b.phase with
  | idle =>
    rw [hb] at h
    obtain ⟨hprevious, huntouched, hon, hexecutor⟩ := h
    exact ⟨hprevious, huntouched.same hs, hs.on ▸ hon, by rw [hs.executor, hs.on, hexecutor]⟩
  | waiting p | here p =>
    rw [hb] at h
    exact h.same hs
  | submitted | running =>
    rw [hb] at h
    obtain ⟨hentered, hdropped, hcall⟩ := h
    exact ⟨hentered.same hs, hs.dropped.trans hdropped, hcall⟩
  | done =>
    rw [hb] at h
    exact h.same hs

/-- A callback that waited can be called. -/
theorem Shape.handed {n p q : ν} {c : CoreState ν ι ε α} (h : Shape cfg n c)
    (hphase : c.phase = .waiting p) : Shape cfg n { c with phase := .here q } := by
  unfold Shape at h ⊢
  cases hn : cfg.prog n with
  | core sch step =>
    simp only [hn, StepShape, hphase] at h ⊢
    exact h.same ⟨rfl, rfl, rfl, rfl, rfl, rfl, rfl, rfl, rfl, rfl, rfl⟩
  | _ =>
    simp only [hn] at h ⊢
    refine ⟨h.on, by simp, h.stored.mono rfl rfl (by simp [hphase]), ?_, h.inner, by simp⟩
    intro hcoroutine
    have hc := h.coroutine hcoroutine
    exact ⟨hc.inner, by simp, by simp, by simp, fun hruns _ _ => absurd hphase (hc.waiting hruns p),
      fun _ => hc.slot (by simp [hphase])⟩

theorem Shape.same {n : ν} {b c : CoreState ν ι ε α} (h : Shape cfg n b) (hs : SameInside b c)
    (hphase : c.phase = b.phase) : Shape cfg n c := by
  unfold Shape at h ⊢
  cases hn : cfg.prog n with
  | core sch step =>
    rw [hn] at h
    exact StepShape.same h hs hphase
  | _ =>
    rw [hn] at h
    refine ⟨hs.on ▸ h.on, hphase ▸ hs.slot ▸ h.done,
      h.stored.mono hs.slot hs.dropped (fun hb => hphase.trans hb), ?_, hs.inner ▸ h.inner,
      hphase ▸ h.waiting⟩
    intro hcoroutine
    have hc := h.coroutine hcoroutine
    exact ⟨hs.runs ▸ hs.inner ▸ hc.inner, hs.runs ▸ hphase ▸ hc.running,
      hs.runs ▸ hphase ▸ hc.waiting, hs.runs ▸ hphase ▸ hs.executor ▸ hc.idle,
      hs.runs ▸ hphase ▸ hs.executor ▸ hc.here, hphase ▸ hs.slot ▸ hc.slot⟩

/-- The head of a task that another core enters. -/
theorem Shape.enter {n p : ν} {b c : CoreState ν ι ε α} (h : Shape cfg n b) (hs : SameInside b c)
    (hidle : b.phase = .idle) (hphase : c.phase = .here p) : Shape cfg n c := by
  unfold Shape at h ⊢
  cases hn : cfg.prog n with
  | core sch step =>
    simp only [hn, StepShape, hidle] at h
    obtain ⟨hprevious, huntouched, hon, -⟩ := h
    simp only [StepShape, hphase]
    refine ⟨fun _ => huntouched.same hs, fun _ _ => hs.on ▸ hon, fun _ h => absurd hprevious h,
      fun _ h => absurd hprevious h, ?_⟩
    intro m hm
    rw [hs.inner, huntouched.inner] at hm
    cases hm
  | _ =>
    rw [hn] at h
    refine ⟨hs.on ▸ h.on, by simp [hphase],
      h.stored.mono hs.slot hs.dropped (by simp [hidle]), ?_, hs.inner ▸ h.inner,
      by simp [hphase]⟩
    intro hcoroutine
    have hc := h.coroutine hcoroutine
    obtain ⟨hruns, hexecutor⟩ := hc.idle hidle
    exact ⟨hs.runs ▸ hs.inner ▸ hc.inner, by simp [hphase], by simp [hphase], by simp [hphase],
      fun _ _ _ => hs.executor.trans hexecutor, fun _ => hs.slot.trans (hc.slot (by simp [hidle]))⟩

/-- The executor of a core that is done is read by others only. -/
theorem Shape.executor_of_done {n : ν} {c : CoreState ν ι ε α} {e : Option ι} (h : Shape cfg n c)
    (hphase : c.phase = .done) : Shape cfg n { c with executor := e } := by
  unfold Shape at h ⊢
  cases hn : cfg.prog n with
  | core sch step =>
    simp only [hn, StepShape, hphase] at h ⊢
    exact ⟨⟨h.on, h.given, h.submits, h.acquired⟩, h.slot, h.runs, h.released, h.destroyed⟩
  | _ =>
    simp only [hn] at h ⊢
    refine ⟨h.on, h.done, h.stored.mono rfl rfl id, ?_, h.inner, h.waiting⟩
    intro hcoroutine
    have hc := h.coroutine hcoroutine
    exact ⟨hc.inner, hc.running, hc.waiting, by simp [hphase], by simp [hphase], hc.slot⟩

/-- The executor of a core that waits for its inner core is not its own any more. -/
theorem Shape.executor_of_waiting {n m : ν} {c : CoreState ν ι ε α} {e : Option ι}
    (h : Shape cfg n c) (hphase : c.phase = .waiting m) (hinner : c.inner ≠ none) :
    Shape cfg n { c with executor := e } := by
  unfold Shape at h ⊢
  cases hn : cfg.prog n with
  | core sch step =>
    simp only [hn, StepShape, hphase] at h ⊢
    refine ⟨fun hnone => absurd hnone hinner, fun hnone => absurd hnone hinner,
      fun hnone => absurd hnone hinner, fun hnone => absurd hnone hinner, ?_⟩
    intro x hx
    have hu := h.unwrapping x hx
    exact ⟨⟨hu.on, hu.given, hu.submits, hu.acquired⟩, hu.slot, hu.inner, hu.runs, hu.released,
      hu.destroyed, hu.async⟩
  | _ =>
    simp only [hn] at h ⊢
    refine ⟨h.on, h.done, h.stored.mono rfl rfl id, ?_, h.inner, h.waiting⟩
    intro hcoroutine
    have hc := h.coroutine hcoroutine
    exact ⟨hc.inner, hc.running, hc.waiting, by simp [hphase], by simp [hphase], hc.slot⟩

namespace Inv

theorem made_of_callback (hi : Inv cfg s) {p : ν} (h : (s.cores p).callback = none) :
    (s.cores p).made = true := by
  by_contra hmade
  rw [hi.unmade p (by simpa using hmade)] at h
  cases h

theorem stepShape (hi : Inv cfg s) {n : ν} {sch : Bool} {step : Step ν ι ε α}
    (hn : cfg.prog n = .core sch step) (hmade : (s.cores n).made = true) :
    StepShape step (s.cores n) := by
  have hshape := hi.shape n hmade
  rwa [Shape, hn] at hshape

/-- A core that is done had an executor. -/
theorem on_of_final (hi : Inv cfg s) {p : ν} {r : Except ε α} (h : Final s p r) :
    (s.cores p).on ≠ none := by
  have hdone := (hi.cell p).mp h.1
  have hshape := hi.shape p (hi.made_of_callback h.1)
  unfold Shape at hshape
  cases hp : cfg.prog p with
  | core sch step =>
    simp only [hp, StepShape, hdone] at hshape
    exact hshape.on
  | _ =>
    simp only [hp] at hshape
    exact hshape.on

/-- A core whose list is closed has its result, unless it is detached and stores none. -/
theorem final_of_callback (hi : Inv cfg s) {p : ν} (h : (s.cores p).callback = none)
    (hdetached : (cfg.prog p).detached = false) : ∃ r, Final s p r := by
  have hshape := hi.shape p (hi.made_of_callback h)
  have hdone := (hi.cell p).mp h
  obtain ⟨r, hr⟩ := Shape.result (hshape.same ⟨rfl, rfl, rfl, rfl, rfl, rfl, rfl, rfl, rfl, rfl, rfl⟩
    hdone.symm) hdetached
  exact ⟨r, h, hr⟩

/-- The head of a task that is not started. -/
theorem idle_shape (hi : Inv cfg s) {h : ν} (hmade : (s.cores h).made = true)
    (hidle : (s.cores h).phase = .idle) : (cfg.prog h).previous = none ∧
      (s.cores h).inner = none ∧ ((cfg.prog h).isCoroutine = true → (s.cores h).runs = 0) := by
  have hshape := hi.shape h hmade
  unfold Shape at hshape
  cases hh : cfg.prog h with
  | core sch step =>
    simp only [hh, StepShape, hidle] at hshape
    obtain ⟨hprevious, huntouched, -⟩ := hshape
    exact ⟨hprevious, huntouched.inner, by simp [Node.isCoroutine]⟩
  | promiseType =>
    rw [hh] at hshape
    have hc := hshape.coroutine rfl
    obtain ⟨hruns, -⟩ := hc.idle hidle
    exact ⟨rfl, hc.inner hruns, fun _ => hruns⟩
  | _ =>
    rw [hh] at hshape
    exact ⟨rfl, hshape.inner rfl, by simp [Node.isCoroutine]⟩

/-- A step that is done was reached, and so the core before it was done. -/
theorem final_previous (hi : Inv cfg s) {k p : ν} (hphase : (s.cores k).phase = .done)
    (hprevious : (cfg.prog k).previous = some p) : ∃ r, Final s p r := by
  cases hk : cfg.prog k with
  | core sch step =>
    have hshape := hi.stepShape hk (hi.made_of_callback ((hi.cell k).mpr hphase))
    rw [StepShape, hphase] at hshape
    exact hi.callers.previous k p hshape.on hprevious
  | _ => simp [hk, Node.previous] at hprevious

/-- The whole pipeline before a core that is done is done. -/
theorem root_done (hi : Inv cfg s) {m h : ν} (hroot : Root cfg.prog m h)
    (hphase : (s.cores m).phase = .done) : (s.cores h).phase = .done := by
  induction hroot with
  | refl => exact hphase
  | step hprevious _ ih =>
    obtain ⟨r, hr⟩ := hi.final_previous hphase hprevious
    exact ih ((hi.cell _).mp hr.1)

/-- The head that a waiting core was the caller of is where the task begins that it waits
for. -/
theorem root_of_waiting (hi : Inv cfg s) {p j m : ν} (hhead : (s.cores p).head = some j)
    (hm : (s.cores p).phase = .waiting m) : Root cfg.prog m j := by
  obtain ⟨m', hinner, hroot⟩ := hi.chains.head p j hhead
  rcases hi.callers.waiting p m hm with h | ⟨h, -⟩
  · cases hinner.symm.trans h
    exact hroot
  · cases hinner.symm.trans h

end Inv

end

end Yaclib.Core
