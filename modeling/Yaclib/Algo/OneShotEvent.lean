import Mathlib.Data.Fintype.Card
import Yaclib.Concurrency.Chain
import Yaclib.Concurrency.Tally

/-!
`OneShotEvent` of `algo/one_shot_event.hpp`: a stack of jobs in one word, that
`Call` and `Set` take as a whole.

`ι` are the jobs of those that wait: a thread in `Wait`, or a coroutine in one of
the awaiters. One step is one atomic operation on `_head`, or the `Call` of a
job together with the read of its link before.

Left out are `Reset`, for which nobody may use the event, and what a job does when it is
called. Who keeps a job alive is in `Algo.OneShotEvent.Jobs`.
-/

namespace Yaclib

open Concurrency

namespace OneShotEvent

inductive Head (ι : Type) where
  | kAllDone
  /-- `reinterpret_cast` of a `Job*` -/
  | ptr (p : Option ι)
  deriving DecidableEq

/-- The word 0 is the null pointer. -/
def Head.kEmpty {ι : Type} : Head ι := .ptr none

def Head.toPtr {ι : Type} : Head ι → Option ι
  | kAllDone => none
  | ptr p => p

inductive Pc (ι : Type) where
  | idle
  /-- `Ready` of an `await_ready` is next -/
  | ready
  /-- the load of `TryAdd` -/
  | load
  /-- the loop of `TryAdd`, with its `head` -/
  | loop (head : Option ι)
  /-- `TryAdd` returned true -/
  | waiting
  deriving DecidableEq

@[simp] def Pc.waits {ι : Type} : Pc ι → Nat
  | waiting => 1
  | _ => 0

end OneShotEvent

/-- The word, the links of the jobs, and the places of the waiters. The rest are
ghosts: how often each waiter was added, was called, and went on without, how
often `kAllDone` was put in, and whether only jobs were dereferenced. -/
structure OneShotEvent (ι : Type) where
  head : OneShotEvent.Head ι := .kEmpty
  next : ι → Option ι
  pc : ι → OneShotEvent.Pc ι := fun _ => .idle
  parks : ι → Nat := fun _ => 0
  wakes : ι → Nat := fun _ => 0
  passes : ι → Nat := fun _ => 0
  sets : Nat := 0
  derefs : Bool := true

namespace OneShotEvent

variable {ι : Type}

variable {e f : OneShotEvent ι} {i : ι} {p : Pc ι}

theorem waits_zero (hpc : e.pc i ≠ .waiting) : (e.pc i).waits = 0 := by
  cases hi : e.pc i <;> simp [hi] at hpc ⊢

variable {τ : Type} {rest : τ → Option ι} {xs : List ι} {todo : τ → List ι} {t : τ}

variable [DecidableEq ι]

def goto (e : OneShotEvent ι) (i : ι) (p : Pc ι) : OneShotEvent ι :=
  { e with pc := Function.update e.pc i p }

/-- The event is set, and the waiter does not wait. -/
def pass (e : OneShotEvent ι) (i : ι) : OneShotEvent ι :=
  { e with passes := Function.update e.passes i (e.passes i + 1) }.goto i .idle

def observe (e : OneShotEvent ι) (i : ι) : OneShotEvent ι :=
  match e.head with
  | .kAllDone => e.pass i
  | .ptr p => e.goto i (.loop p)

/-- A round of the loop of `TryAdd`; `weak`: the swap fails spuriously. -/
def tryAddSwap (e : OneShotEvent ι) (i : ι) (head : Option ι) (weak : Bool) : OneShotEvent ι :=
  let e := { e with next := Function.update e.next i head }
  if e.head = .ptr head ∧ weak = false then
    { e with
      head := .ptr (some i)
      parks := Function.update e.parks i (e.parks i + 1) }.goto i .waiting
  else e.observe i

/-- The next step of a waiter: of its `await_ready`, or of `TryAdd`. -/
def tryAdd (e : OneShotEvent ι) (i : ι) (weak : Bool) : Option (OneShotEvent ι) :=
  match e.pc i with
  | .idle | .waiting => none
  | .ready =>
    some (match e.head with
      | .kAllDone => e.pass i
      | .ptr _ => e.goto i .load)
  | .load => some (e.observe i)
  | .loop head => some (tryAddSwap e i head weak)

/-- The exchange of `SetImpl`, and the first job of its loop. -/
def setImpl (e : OneShotEvent ι) (value : Head ι) : OneShotEvent ι × Option ι :=
  let f := { e with
    head := value
    sets := if value = .kAllDone then e.sets + 1 else e.sets }
  match e.head with
  | .kAllDone => ({ f with derefs := false }, none)
  | .ptr p => (f, p)

/-- A round of the loop of `SetImpl`, and the next job. -/
def callJob (e : OneShotEvent ι) (job : ι) : OneShotEvent ι × Option ι :=
  ({ e with wakes := Function.update e.wakes job (e.wakes job + 1) }.goto job .idle, e.next job)

/-! The steps of the waiters. -/

theorem waits_goto (hp : p.waits = (e.pc i).waits) (j : ι) :
    ((Function.update e.pc i p) j).waits = (e.pc j).waits := by
  by_cases hji : j = i
  · rw [hji, Function.update_self, hp]
  · rw [Function.update_of_ne hji]

/-- What a step of a waiter can do: it neither sets the event nor calls a job, it
goes on without waiting only if the event is set, and a job is added for every
waiter that starts to wait. -/
structure Tried (e f : OneShotEvent ι) : Prop where
  sets_eq : f.sets = e.sets
  wakes_eq : f.wakes = e.wakes
  derefs_eq : f.derefs = e.derefs
  head_iff : f.head = .kAllDone ↔ e.head = .kAllDone
  passes_eq : f.passes = e.passes ∨ e.head = .kAllDone
  parks_eq : ∀ j, f.parks j + (e.pc j).waits = e.parks j + (f.pc j).waits

theorem Tried.goto (hp : p.waits = (e.pc i).waits) : Tried e (e.goto i p) :=
  ⟨rfl, rfl, rfl, Iff.rfl, .inl rfl, fun j => by
    rw [OneShotEvent.goto, waits_goto hp]⟩

theorem Tried.observe (hpc : e.pc i ≠ .waiting) : Tried e (e.observe i) := by
  unfold OneShotEvent.observe
  cases hhead : e.head with
  | kAllDone =>
    refine ⟨rfl, rfl, rfl, Iff.rfl, .inr hhead, fun j => ?_⟩
    rw [OneShotEvent.pass, OneShotEvent.goto]
    simp only [waits_goto (p := .idle) (waits_zero hpc).symm]
  | ptr q => exact .goto (waits_zero hpc).symm

theorem Tried.push {q : Option ι} (hpc : e.pc i ≠ .waiting) (hhead : e.head = .ptr q) :
    Tried e ({ e with
      next := Function.update e.next i q
      head := .ptr (some i)
      parks := Function.update e.parks i (e.parks i + 1) }.goto i .waiting) := by
  refine ⟨rfl, rfl, rfl, ?_, .inl rfl, fun j => ?_⟩
  · rw [hhead]
    exact ⟨nofun, nofun⟩
  · simp only [OneShotEvent.goto]
    by_cases hji : j = i
    · rw [hji, Function.update_self, Function.update_self, waits_zero hpc]
      rfl
    · rw [Function.update_of_ne hji, Function.update_of_ne hji]

theorem Tried.tryAdd {weak : Bool} (hstep : e.tryAdd i weak = some f) : Tried e f := by
  unfold OneShotEvent.tryAdd at hstep
  cases hpc : e.pc i with
  | idle | waiting => simp [hpc] at hstep
  | ready =>
    simp only [hpc, Option.some.injEq] at hstep
    subst hstep
    have hobserve := Tried.observe (e := e) (i := i) (by rw [hpc]; nofun)
    unfold OneShotEvent.observe at hobserve
    cases hhead : e.head with
    | kAllDone => simpa only [hhead] using hobserve
    | ptr q => exact .goto (by rw [hpc]; rfl)
  | load =>
    simp only [hpc, Option.some.injEq] at hstep
    subst hstep
    exact .observe (by rw [hpc]; nofun)
  | loop q =>
    simp only [hpc, Option.some.injEq] at hstep
    subst hstep
    unfold OneShotEvent.tryAddSwap
    simp only
    split
    · next hswap => exact .push (by rw [hpc]; nofun) hswap.1
    · have hobserve := Tried.observe (e := { e with next := Function.update e.next i q })
        (i := i) (by simp [hpc])
      exact ⟨hobserve.1, hobserve.2, hobserve.3, hobserve.4, hobserve.5, hobserve.6⟩

/-- A step of `TryAdd` that pushes nothing. -/
structure Looked (e f : OneShotEvent ι) (i : ι) : Prop where
  head : f.head = e.head
  begun : e.pc i ≠ .idle
  pc : e.pc i ≠ .waiting
  others : ∀ j, j ≠ i → f.next j = e.next j ∧ f.pc j = e.pc j
  now : f.pc i = .idle ∨ f.pc i = .load ∧ e.pc i = .ready ∨ ∃ q, f.pc i = .loop q

/-- A step of `TryAdd` pushes the job, or leaves the word and the waiting jobs as they are. -/
theorem tryAdd_cases {weak : Bool} (hstep : e.tryAdd i weak = some f) :
    (∃ q, e.pc i = .loop q ∧ e.head = .ptr q ∧ f = { e with
      next := Function.update e.next i q
      head := .ptr (some i)
      parks := Function.update e.parks i (e.parks i + 1) }.goto i .waiting) ∨
    Looked e f i := by
  have hobserve : ∀ g : OneShotEvent ι, (g.observe i).head = g.head ∧
      (∀ j, j ≠ i → (g.observe i).next j = g.next j ∧ (g.observe i).pc j = g.pc j) ∧
      ((g.observe i).pc i = .idle ∨ ∃ q, (g.observe i).pc i = .loop q) := by
    intro g
    unfold OneShotEvent.observe
    cases hhead : g.head with
    | kAllDone =>
      exact ⟨hhead, fun j hj => ⟨rfl, Function.update_of_ne hj _ _⟩, .inl (Function.update_self _ _ _)⟩
    | ptr q =>
      exact ⟨hhead, fun j hj => ⟨rfl, Function.update_of_ne hj _ _⟩,
        .inr ⟨q, Function.update_self _ _ _⟩⟩
  have hbusy : ∀ p, e.pc i = p → p ≠ .idle → p ≠ .waiting → e.pc i ≠ .idle ∧ e.pc i ≠ .waiting := by
    rintro p rfl hidle hwaiting
    exact ⟨hidle, hwaiting⟩
  unfold OneShotEvent.tryAdd at hstep
  cases hpc : e.pc i with
  | idle | waiting => simp [hpc] at hstep
  | ready =>
    obtain ⟨hidle, hwaiting⟩ := hbusy _ hpc nofun nofun
    simp only [hpc, Option.some.injEq] at hstep
    subst hstep
    right
    cases hhead : e.head with
    | kAllDone =>
      exact ⟨rfl, hidle, hwaiting, fun j hj => ⟨rfl, Function.update_of_ne hj _ _⟩,
        .inl (Function.update_self _ _ _)⟩
    | ptr q =>
      exact ⟨rfl, hidle, hwaiting, fun j hj => ⟨rfl, Function.update_of_ne hj _ _⟩,
        .inr (.inl ⟨Function.update_self _ _ _, hpc⟩)⟩
  | load =>
    obtain ⟨hidle, hwaiting⟩ := hbusy _ hpc nofun nofun
    simp only [hpc, Option.some.injEq] at hstep
    subst hstep
    obtain ⟨hhead, hothers, hnow⟩ := hobserve e
    exact .inr ⟨hhead, hidle, hwaiting, hothers, hnow.imp_right .inr⟩
  | loop q =>
    obtain ⟨hidle, hwaiting⟩ := hbusy _ hpc nofun nofun
    simp only [hpc, Option.some.injEq] at hstep
    subst hstep
    unfold OneShotEvent.tryAddSwap
    dsimp only
    split
    · next hswap => exact .inl ⟨q, rfl, hswap.1, rfl⟩
    · obtain ⟨hhead, hothers, hnow⟩ := hobserve { e with next := Function.update e.next i q }
      refine .inr ⟨hhead, hidle, hwaiting, ?_, hnow.imp_right .inr⟩
      intro j hj
      exact ⟨(hothers j hj).1.trans (Function.update_of_ne hj _ _), (hothers j hj).2⟩

/-! The lists of the waiting jobs: one hangs on the word, and one on every
thread that is in the loop of `SetImpl`, at its `rest`. -/

/-- Every waiting job is in one of the lists, once. -/
structure Lists [Fintype τ] (e : OneShotEvent ι) (rest : τ → Option ι) (xs : List ι)
    (todo : τ → List ι) : Prop where
  head : Chain e.next e.head.toPtr xs
  rest : ∀ t, Chain e.next (rest t) (todo t)
  count : ∀ i, xs.count i + tally (fun l => l.count i) todo = (e.pc i).waits

def Linked [Fintype τ] (e : OneShotEvent ι) (rest : τ → Option ι) : Prop :=
  ∃ xs todo, Lists e rest xs todo

variable [Fintype τ]

/-- A job that does not wait is in no list, and may be linked. -/
theorem Lists.fresh (h : Lists e rest xs todo) (hpc : e.pc i ≠ .waiting) :
    i ∉ xs ∧ ∀ t, i ∉ todo t := by
  have hcount := h.count i
  have hzero := waits_zero hpc
  refine ⟨List.count_eq_zero.mp (by omega), fun t ht => ?_⟩
  have hle := le_tally (fun l : List ι => l.count i) todo t
  have hpos := List.count_pos_iff.mpr ht
  omega

theorem Linked.init (next : ι → Option ι) :
    Linked ({ next := next } : OneShotEvent ι) (fun _ : τ => none) := by
  refine ⟨[], fun _ => [], .nil, fun _ => .nil, fun i => ?_⟩
  simp [tally_const]

/-- A step that leaves the word and the waiting jobs. -/
theorem Lists.keep (h : Lists e rest xs todo) (hhead : f.head = e.head)
    (hnext : ∀ i, e.pc i = .waiting → f.next i = e.next i)
    (hwaits : ∀ i, (f.pc i).waits = (e.pc i).waits) : Lists f rest xs todo := by
  have hwaiting : ∀ i, i ∈ xs ∨ (∃ t, i ∈ todo t) → e.pc i = .waiting := by
    intro i hi
    by_contra hpc
    have hfresh := h.fresh hpc
    rcases hi with hi | ⟨t, hi⟩
    · exact hfresh.1 hi
    · exact hfresh.2 t hi
  refine ⟨?_, fun t => ?_, fun i => ?_⟩
  · rw [hhead]
    exact h.head.frame fun i hi => hnext i (hwaiting i (.inl hi))
  · exact (h.rest t).frame fun i hi => hnext i (hwaiting i (.inr ⟨t, hi⟩))
  · rw [hwaits]
    exact h.count i

/-- The successful swap of `TryAdd`. -/
theorem Lists.push (h : Lists e rest xs todo) {p : Option ι} (hpc : e.pc i = .loop p)
    (hhead : e.head = .ptr p) :
    Lists ({ e with
      next := Function.update e.next i p
      head := .ptr (some i)
      parks := Function.update e.parks i (e.parks i + 1) }.goto i .waiting) rest (i :: xs) todo := by
  have hfresh := h.fresh (i := i) (by rw [hpc]; nofun)
  refine ⟨?_, fun t => (h.rest t).update (hfresh.2 t) p, fun j => ?_⟩
  · have hchain := h.head
    rw [hhead] at hchain
    exact hchain.push hfresh.1
  · have hcount := h.count j
    simp only [OneShotEvent.goto, List.count_cons]
    by_cases hji : j = i
    · subst hji
      rw [hpc] at hcount
      rw [Function.update_self]
      simp only [Pc.waits, beq_self_eq_true, if_true] at hcount ⊢
      omega
    · rw [Function.update_of_ne hji]
      simp only [beq_iff_eq, Ne.symm hji, if_false]
      omega

theorem Linked.keep (h : Linked e rest) (hhead : f.head = e.head)
    (hnext : ∀ i, e.pc i = .waiting → f.next i = e.next i)
    (hwaits : ∀ i, (f.pc i).waits = (e.pc i).waits) : Linked f rest := by
  obtain ⟨xs, todo, hl⟩ := h
  exact ⟨xs, todo, hl.keep hhead hnext hwaits⟩

theorem Linked.goto (h : Linked e rest) (hp : p.waits = (e.pc i).waits) :
    Linked (e.goto i p) rest :=
  h.keep rfl (fun _ _ => rfl) (waits_goto hp)

/-- The link of a job that does not wait may change. -/
theorem Linked.link (h : Linked e rest) (hpc : e.pc i ≠ .waiting) (p : Option ι) :
    Linked { e with next := Function.update e.next i p } rest := by
  refine h.keep rfl (fun j hj => ?_) (fun _ => rfl)
  apply Function.update_of_ne
  rintro rfl
  exact hpc hj

theorem Lists.look (h : Lists e rest xs todo) (hlook : Looked e f i) : Lists f rest xs todo := by
  refine h.keep hlook.head (fun j hj => ?_) (fun j => ?_)
  · refine (hlook.others j ?_).1
    rintro rfl
    exact hlook.pc hj
  · by_cases hji : j = i
    · subst hji
      rw [waits_zero hlook.pc]
      rcases hlook.now with hnow | ⟨hnow, -⟩ | ⟨q, hnow⟩ <;> rw [hnow] <;> rfl
    · rw [(hlook.others j hji).2]

theorem Linked.tryAdd (h : Linked e rest) {weak : Bool} (hstep : e.tryAdd i weak = some f) :
    Linked f rest := by
  obtain ⟨xs, todo, hl⟩ := h
  rcases tryAdd_cases hstep with ⟨q, hpc, hhead, rfl⟩ | hlook
  · exact ⟨i :: xs, todo, hl.push hpc hhead⟩
  · exact ⟨xs, todo, hl.look hlook⟩

/-- The job that a thread in the loop of `SetImpl` is at. -/
theorem Lists.current (h : Lists e rest xs todo) (ht : rest t = some i) :
    e.pc i = .waiting ∧ ∃ ys, todo t = i :: ys ∧ Chain e.next (e.next i) ys := by
  have hchain := h.rest t
  rw [ht] at hchain
  obtain ⟨ys, htodo, hys⟩ := hchain.of_some
  have hcount := h.count i
  have hle := le_tally (fun l : List ι => l.count i) todo t
  simp only [htodo, List.count_cons_self] at hle
  refine ⟨?_, ys, htodo, hys⟩
  cases hi : e.pc i <;> simp [hi] at hcount ⊢ <;> omega

/-- The waiting jobs are the ones on the lists: none waits once the word is empty
and no thread is in the loop of `SetImpl`. -/
theorem Linked.empty (h : Linked e rest) (hhead : e.head.toPtr = none) (hrest : ∀ t, rest t = none)
    (i : ι) : e.pc i ≠ .waiting := by
  obtain ⟨xs, todo, hl⟩ := h
  intro hpc
  have hchain := hl.head
  rw [hhead] at hchain
  have htodo : tally (fun l : List ι => l.count i) todo = 0 := by
    apply tally_eq_zero.mpr
    intro t
    have hchain := hl.rest t
    rw [hrest t] at hchain
    rw [hchain.of_none, List.count_nil]
  have hcount := hl.count i
  rw [hchain.of_none, List.count_nil, htodo, hpc] at hcount
  exact absurd hcount Nat.zero_ne_one

variable [DecidableEq τ]

/-- The exchange of `SetImpl`, by a thread that is not in its loop yet. -/
theorem Lists.setImpl (h : Lists e rest xs todo) (ht : rest t = none) (value : Head ι)
    (hvalue : value.toPtr = none) :
    Lists (e.setImpl value).1 (Function.update rest t (e.setImpl value).2) []
      (Function.update todo t xs) := by
  have hnil : todo t = [] := by
    have hchain := h.rest t
    rw [ht] at hchain
    exact hchain.of_none
  have hfields : (e.setImpl value).1.next = e.next ∧ (e.setImpl value).1.pc = e.pc ∧
      (e.setImpl value).1.head = value ∧ (e.setImpl value).2 = e.head.toPtr := by
    unfold OneShotEvent.setImpl
    cases e.head <;> exact ⟨rfl, rfl, rfl, rfl⟩
  obtain ⟨hnext, hpc, hhead, hrest⟩ := hfields
  refine ⟨?_, fun u => ?_, fun i => ?_⟩
  · rw [hhead, hvalue]
    exact .nil
  · rw [hnext, hrest]
    by_cases hut : u = t
    · rw [hut, Function.update_self, Function.update_self]
      exact h.head
    · rw [Function.update_of_ne hut, Function.update_of_ne hut]
      exact h.rest u
  · have hcount := h.count i
    have hupdate := tally_update (fun l : List ι => l.count i) todo t xs
    rw [hnil] at hupdate
    rw [hpc]
    simp only [List.count_nil] at hupdate ⊢
    omega

/-- The exchange hands the list of the word to its thread. -/
theorem Linked.setImpl (h : Linked e rest) (ht : rest t = none) (value : Head ι)
    (hvalue : value.toPtr = none) :
    Linked (e.setImpl value).1 (Function.update rest t (e.setImpl value).2) := by
  obtain ⟨xs, todo, hl⟩ := h
  exact ⟨[], Function.update todo t xs, hl.setImpl ht value hvalue⟩

/-- A thread in the loop of `SetImpl` calls its job. -/
theorem Lists.callJob (h : Lists e rest xs todo) {ys : List ι} (htodo : todo t = i :: ys)
    (hpc : e.pc i = .waiting) (hys : Chain e.next (e.next i) ys) :
    Lists (e.callJob i).1 (Function.update rest t (e.callJob i).2) xs
      (Function.update todo t ys) := by
  have hcount := h.count i
  have hupdate := tally_update (fun l : List ι => l.count i) todo t ys
  simp only [htodo, List.count_cons_self] at hupdate
  rw [hpc] at hcount
  simp only [Pc.waits] at hcount
  refine ⟨h.head, fun u => ?_, fun j => ?_⟩
  · by_cases hut : u = t
    · rw [hut, Function.update_self, Function.update_self]
      exact hys
    · rw [Function.update_of_ne hut, Function.update_of_ne hut]
      exact h.rest u
  · have hcountj := h.count j
    have hupdatej := tally_update (fun l : List ι => l.count j) todo t ys
    simp only [htodo, List.count_cons] at hupdatej
    simp only [OneShotEvent.callJob, OneShotEvent.goto]
    by_cases hji : j = i
    · subst hji
      rw [Function.update_self]
      simp only [beq_self_eq_true, if_true, Pc.waits] at hupdatej ⊢
      omega
    · rw [Function.update_of_ne hji]
      simp only [beq_iff_eq, Ne.symm hji, if_false] at hupdatej
      omega

/-- The job that the loop is at waits, and is called by nobody else. -/
theorem Linked.callJob (h : Linked e rest) (ht : rest t = some i) :
    e.pc i = .waiting ∧
      Linked (e.callJob i).1 (Function.update rest t (e.callJob i).2) := by
  obtain ⟨xs, todo, hl⟩ := h
  obtain ⟨hpc, ys, htodo, hys⟩ := hl.current ht
  exact ⟨hpc, xs, Function.update todo t ys, hl.callJob htodo hpc hys⟩

end OneShotEvent

end Yaclib
