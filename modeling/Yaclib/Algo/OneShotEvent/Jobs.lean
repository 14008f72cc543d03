import Yaclib.Algo.OneShotEvent
import Yaclib.Concurrency.System

/-!
The jobs of a `OneShotEvent`, from `TryAdd` to their `Call`. A job is gone when it was called:
its memory may be in use again at once. A `TimedWaiter` is on the heap, with one reference of
the thread in `TimedWait` and one of the event; its index is free again when it was deleted.

`ι` are the jobs, and `τ` the threads that `Call` or `Set`. The loop of `SetImpl` reads the
link of a job in one step and calls the job in the next.
-/

namespace Yaclib.OneShotEvent.Jobs

open Concurrency

inductive Place (ι : Type) where
  | idle
  /-- `job->next` is next -/
  | job (job : ι)
  /-- `job->Call()` is next -/
  | call (job : ι) (next : Option ι)
  /-- `DecRef` of `TimedWaiter::Call` is next -/
  | decRef (job : ι) (next : Option ι)
  deriving DecidableEq

/-- `while (job != nullptr)` -/
def Place.enter {ι : Type} : Option ι → Place ι
  | none => .idle
  | some j => .job j

/-- Where the thread in `TimedWait` of a timed waiter is. -/
inductive Thread where
  | out
  | adding
  /-- in `Wait` of the event of the waiter -/
  | waiting
  /-- `delete waiter.Release()` is next -/
  | failed
  deriving DecidableEq

/-- The event, the places of the threads, and the counts of the timed waiters. The rest are
ghosts: the number of exchanges and of the one that each thread made, the jobs that were
pushed and those that were called, each with the number of an exchange, and how often each
timed waiter was made and deleted. -/
structure State (ι τ : Type) where
  event : OneShotEvent ι
  place : τ → Place ι := fun _ => .idle
  thread : ι → Thread := fun _ => .out
  refs : ι → Nat := fun _ => 0
  exchanges : Nat := 0
  number : τ → Nat := fun _ => 0
  pushes : List (ι × Nat) := []
  calls : List (ι × Nat) := []
  news : ι → Nat := fun _ => 0
  frees : ι → Nat := fun _ => 0

inductive Op where
  | call
  | set

inductive Event (ι τ : Type) where
  | add (i : ι)
  | tryAdd (i : ι) (weak : Bool)
  /-- the wait is over, or timed out; or `TryAdd` was false -/
  | leave (i : ι)
  | exchange (t : τ) (op : Op)
  | drain (t : τ)
  /-- another use of the link of a job that does not wait -/
  | relink (i : ι) (p : Option ι)

variable {ι τ : Type}

section

variable [DecidableEq ι] [DecidableEq τ]

def Op.value : Op → Head ι
  | .call => .kEmpty
  | .set => .kAllDone

/-- A dereferenced pointer leads to a job. -/
def deref (e : OneShotEvent ι) (b : Bool) : OneShotEvent ι :=
  { e with derefs := e.derefs && b }

def State.goto (s : State ι τ) (t : τ) (p : Place ι) : State ι τ :=
  { s with place := Function.update s.place t p }

def State.stand (s : State ι τ) (i : ι) (w : Thread) : State ι τ :=
  { s with thread := Function.update s.thread i w }

/-- `Sub(1)` -/
def State.decRef (s : State ι τ) (i : ι) : State ι τ :=
  { s with
    refs := Function.update s.refs i (s.refs i - 1)
    frees := if s.refs i = 1 then Function.update s.frees i (s.frees i + 1) else s.frees }

variable (timed : ι → Bool)

/-- A thread calls `TryAdd`. `TimedWait` makes its waiter before. -/
def add (s : State ι τ) (i : ι) : Option (State ι τ) :=
  match s.event.pc i, s.refs i with
  | .idle, 0 =>
    let s := { s with event := s.event.goto i .load }
    some (if timed i then { s with
      refs := Function.update s.refs i 2
      news := Function.update s.news i (s.news i + 1) }.stand i .adding else s)
  | _, _ => none

/-- Where `TryAdd` leads the thread of a timed waiter. -/
def tried (w : Thread) : Pc ι → Thread
  | .waiting => .waiting
  | .idle => .failed
  | _ => w

def State.after (s : State ι τ) (i : ι) (e : OneShotEvent ι) : State ι τ :=
  let s := { s with
    event := e
    pushes := match e.pc i with
      | .waiting => s.pushes ++ [(i, s.exchanges)]
      | _ => s.pushes }
  if timed i then s.stand i (tried (s.thread i) (e.pc i)) else s

def tryAdd (s : State ι τ) (i : ι) (weak : Bool) : Option (State ι τ) :=
  (s.event.tryAdd i weak).map (s.after timed i)

def leave (s : State ι τ) (i : ι) : Option (State ι τ) :=
  match s.thread i with
  | .waiting => some ((s.decRef i).stand i .out)
  | .failed => some ({ s with
      refs := Function.update s.refs i 0
      frees := Function.update s.frees i (s.frees i + 1) }.stand i .out)
  | _ => none

/-- The exchange of `SetImpl`; nothing follows that of `Set`. -/
def exchange (s : State ι τ) (t : τ) (op : Op) : Option (State ι τ) :=
  match s.place t, s.event.sets with
  | .idle, 0 =>
    let (e, job) := s.event.setImpl op.value
    some ({ s with
      event := e
      exchanges := s.exchanges + 1
      number := Function.update s.number t s.exchanges }.goto t (.enter job))
  | _, _ => none

/-- A job is alive as long as it waits, and a timed waiter as long as it has a reference. -/
def alive (s : State ι τ) (job : ι) : Bool :=
  s.event.pc job = .waiting && (!timed job || 0 < s.refs job)

/-- The next step of the loop of `SetImpl`. -/
def drain (s : State ι τ) (t : τ) : Option (State ι τ) :=
  match s.place t with
  | .idle => none
  | .job job =>
    some ({ s with event := deref s.event (alive timed s job) }.goto t
      (.call job (s.event.next job)))
  | .call job next =>
    let s := { s with
      event := ((deref s.event (alive timed s job)).callJob job).1
      calls := s.calls ++ [(job, s.number t)] }
    some (s.goto t (if timed job then .decRef job next else .enter next))
  | .decRef job next =>
    some (({ s with event := deref s.event (0 < s.refs job) }.decRef job).goto t (.enter next))

def step (s : State ι τ) : Event ι τ → Option (State ι τ)
  | .add i => add timed s i
  | .tryAdd i weak => tryAdd timed s i weak
  | .leave i => leave s i
  | .exchange t op => exchange s t op
  | .drain t => drain timed s t
  | .relink i p =>
    match s.event.pc i with
    | .waiting => none
    | _ => some { s with event := { s.event with next := Function.update s.event.next i p } }

def system : System (State ι τ) (Event ι τ) where
  Init s := ∃ next, s = { event := { next := next } }
  step := step timed

end

/-! ### The invariant -/

/-- The job that the loop is at, or the next one if it was called. -/
def Place.rest : Place ι → Option ι
  | .idle => none
  | .job j | .call j _ => some j
  | .decRef _ next => next

section

variable [DecidableEq ι]

/-- 1 if the thread is about to give up the reference of the event to `i`. -/
def Place.owes (i : ι) : Place ι → Nat
  | .decRef j _ => if j = i then 1 else 0
  | _ => 0

/-- The references to a timed waiter: one of its thread, and one of the event as long as the
job waits or its `DecRef` is to come. -/
def Fits : Thread → Nat → Nat → Pc ι → Prop
  | .out, refs, owes, p => (p = .idle ∨ p = .waiting) ∧ refs = p.waits + owes
  | .adding, refs, owes, p => (p = .load ∨ ∃ q, p = .loop q) ∧ refs = 2 ∧ owes = 0
  | .waiting, refs, owes, p => (p = .idle ∨ p = .waiting) ∧ refs = 1 + p.waits + owes
  | .failed, refs, owes, p => p = .idle ∧ refs = 2 ∧ owes = 0

variable [Fintype τ] (timed : ι → Bool)

def State.owes (s : State ι τ) (i : ι) : Nat := tally (Place.owes i) s.place

/-- The lists of the waiting jobs, each with the number of the exchange that takes it. -/
structure Tracked (s : State ι τ) (xs : List ι) (todo : τ → List ι) : Prop where
  lists : Lists s.event (fun t => (s.place t).rest) xs todo
  read : ∀ t j next, s.place t = .call j next → s.event.next j = next
  count : ∀ p, s.pushes.count p = s.calls.count p + (xs.map (·, s.exchanges)).count p +
    tally (fun l => l.count p) fun t => (todo t).map (·, s.number t)
  past : ∀ p ∈ s.calls, p.2 < s.exchanges
  number : ∀ t, todo t ≠ [] → s.number t < s.exchanges

/-- Every job that was pushed was called, once, or is in one list. The event is set once at
most, and `kAllDone` is in its word only from then on. A timed waiter has as many references
as its thread and the event hold, and is freed with the last one. -/
structure Inv (s : State ι τ) : Prop where
  tracked : ∃ xs todo, Tracked s xs todo
  once : s.pushes.Nodup
  unset : s.event.sets = 0 → s.event.head ≠ .kAllDone
  sets_le : s.event.sets ≤ 1
  passes : ∀ i, 0 < s.event.passes i → s.event.sets = 1
  fits : ∀ i, timed i = true → Fits (s.thread i) (s.refs i) (s.owes i) (s.event.pc i)
  frees : ∀ i, timed i = true → s.frees i + (if s.refs i = 0 then 0 else 1) = s.news i
  derefs : s.event.derefs = true
  kind : ∀ t j next, s.place t = .decRef j next → timed j = true

end
variable {timed : ι → Bool} {s u : State ι τ} {i : ι} {t : τ} {xs : List ι} {todo : τ → List ι}

@[simp] theorem rest_enter (p : Option ι) : (Place.enter p).rest = p := by
  cases p <;> rfl

theorem rest_goto [DecidableEq τ] (p : Place ι) : (fun v => ((s.goto t p).place v).rest) =
    Function.update (fun v => (s.place v).rest) t p.rest := by
  funext v
  by_cases hv : v = t
  · subst hv
    simp [State.goto]
  · simp [State.goto, hv]

/-- The numbered lists when thread `t` takes another list. -/
theorem numbered_update [DecidableEq τ]
    (todo : τ → List ι) (t : τ) (number : τ → Nat) (n : Nat) (ys : List ι) :
    (fun v => (Function.update todo t ys v).map (·, Function.update number t n v)) =
      Function.update (fun v => (todo v).map (·, number v)) t (ys.map (·, n)) := by
  funext v
  by_cases hv : v = t
  · subst hv
    simp
  · simp [hv]

theorem deref_true (e : OneShotEvent ι) : deref e true = e := by
  simp [deref]

variable [DecidableEq ι]

section After

variable {e : OneShotEvent ι}

theorem after_fields (timed : ι → Bool) (s : State ι τ) (i : ι) (e : OneShotEvent ι) :
    (s.after timed i e).event = e ∧ (s.after timed i e).place = s.place ∧
    (s.after timed i e).refs = s.refs ∧ (s.after timed i e).calls = s.calls ∧
    (s.after timed i e).exchanges = s.exchanges ∧ (s.after timed i e).number = s.number ∧
    (s.after timed i e).news = s.news ∧ (s.after timed i e).frees = s.frees := by
  unfold State.after
  dsimp only
  split <;> exact ⟨rfl, rfl, rfl, rfl, rfl, rfl, rfl, rfl⟩

theorem after_thread : (s.after timed i e).thread = if timed i = true then
    Function.update s.thread i (tried (s.thread i) (e.pc i)) else s.thread := by
  unfold State.after
  dsimp only
  split <;> rfl

theorem after_pushes : (s.after timed i e).pushes = match e.pc i with
    | .waiting => s.pushes ++ [(i, s.exchanges)]
    | _ => s.pushes := by
  unfold State.after
  dsimp only
  split <;> rfl

end After

theorem decRef_of_ne {j : ι} (hji : j ≠ i) :
    (s.decRef i).refs j = s.refs j ∧ (s.decRef i).frees j = s.frees j := by
  refine ⟨Function.update_of_ne hji _ _, ?_⟩
  unfold State.decRef
  dsimp only
  split
  · exact Function.update_of_ne hji _ _
  · rfl

/-- The last reference deletes the waiter. -/
theorem decRef_frees (hpos : 0 < s.refs i)
    (h : s.frees i + (if s.refs i = 0 then 0 else 1) = s.news i) :
    (s.decRef i).frees i + (if (s.decRef i).refs i = 0 then 0 else 1) = s.news i := by
  have hrefs : (s.decRef i).refs i = s.refs i - 1 := Function.update_self _ _ _
  rw [if_neg (by omega)] at h
  rw [hrefs]
  by_cases hone : s.refs i = 1
  · have hfrees : (s.decRef i).frees i = s.frees i + 1 := by
      simp only [State.decRef, if_pos hone, Function.update_self]
    rw [hfrees, if_pos (by omega)]
    exact h
  · have hfrees : (s.decRef i).frees i = s.frees i := by
      simp only [State.decRef, if_neg hone]
    rw [hfrees, if_neg (by omega)]
    exact h

@[simp] theorem owes_enter (p : Option ι) : (Place.enter p).owes i = 0 := by
  cases p <;> rfl

/-- The thread can go on until its loop is over. -/
def Ends [DecidableEq τ] (timed : ι → Bool) (s : State ι τ) (t : τ) : Prop :=
  ∃ n u, (system timed).run s (List.replicate n (.drain t)) = some u ∧ u.place t = .idle

theorem Ends.step [DecidableEq τ]
    (hstep : drain timed s t = some u) (h : Ends timed u t) : Ends timed s t := by
  obtain ⟨n, v, hrun, hplace⟩ := h
  refine ⟨n + 1, v, ?_, hplace⟩
  rw [List.replicate_succ, System.run_cons]
  have hfirst : (system timed).step s (.drain t) = some u := hstep
  rw [hfirst]
  exact hrun

/-- The links stay as they are, so every round leaves one job less. -/
theorem ends_enter [DecidableEq τ] {p : Option ι} (hchain : Chain s.event.next p xs)
    (hplace : s.place t = .enter p) : Ends timed s t := by
  induction xs generalizing s p with
  | nil =>
    cases hchain
    exact ⟨0, s, rfl, hplace⟩
  | cons i ys ih =>
    cases hchain with
    | cons htail =>
      have hjob : s.place t = .job i := hplace
      refine Ends.step (by rw [drain, hjob]) ?_
      refine Ends.step (by rw [drain]; simp only [State.goto, Function.update_self]; rfl) ?_
      cases hi : timed i with
      | false =>
        refine ih (p := s.event.next i) htail ?_
        simp
      | true =>
        refine Ends.step (by
          rw [drain]
          simp only [State.goto, Function.update_self, if_true]
          rfl) ?_
        exact ih (p := s.event.next i) htail (Function.update_self _ _ _)

variable [Fintype τ]

/-- A step that leaves the waiting jobs, the loops and the records as they are. -/
theorem Tracked.keep (h : Tracked s xs todo)
    (hlists : Lists u.event (fun t => (s.place t).rest) xs todo)
    (hnext : ∀ j, s.event.pc j = .waiting → u.event.next j = s.event.next j)
    (hplace : u.place = s.place) (hpushes : u.pushes = s.pushes) (hcalls : u.calls = s.calls)
    (hexchanges : u.exchanges = s.exchanges) (hnumber : u.number = s.number) :
    Tracked u xs todo := by
  refine ⟨?_, ?_, ?_, ?_, ?_⟩
  · rw [hplace]
    exact hlists
  · intro t j next ht
    rw [hplace] at ht
    have hwaits := (h.lists.current (t := t) (i := j) (by rw [ht]; rfl)).1
    rw [hnext j hwaits]
    exact h.read t j next ht
  · rw [hpushes, hcalls, hexchanges, hnumber]
    exact h.count
  · rw [hcalls, hexchanges]
    exact h.past
  · rw [hnumber, hexchanges]
    exact h.number

/-- A job that waits is on one list, once, and its push is recorded with the number of the
exchange that takes it. -/
theorem Tracked.fresh (h : Tracked s xs todo) (hpc : s.event.pc i ≠ .waiting) :
    (i, s.exchanges) ∉ s.pushes := by
  obtain ⟨hxs, htodo⟩ := h.lists.fresh hpc
  have hcalls : s.calls.count (i, s.exchanges) = 0 := by
    refine List.count_eq_zero.mpr ?_
    intro hmem
    exact absurd (h.past _ hmem) (Nat.lt_irrefl _)
  have hword : (xs.map (·, s.exchanges)).count (i, s.exchanges) = 0 := by
    refine List.count_eq_zero.mpr ?_
    intro hmem
    obtain ⟨j, hj, heq⟩ := List.mem_map.mp hmem
    have hji : j = i := congrArg Prod.fst heq
    exact hxs (hji ▸ hj)
  have hloops : tally (fun l : List (ι × Nat) => l.count (i, s.exchanges))
      (fun t => (todo t).map (·, s.number t)) = 0 := by
    refine tally_eq_zero.mpr ?_
    intro t
    refine List.count_eq_zero.mpr ?_
    intro hmem
    obtain ⟨j, hj, heq⟩ := List.mem_map.mp hmem
    have hji : j = i := congrArg Prod.fst heq
    exact htodo t (hji ▸ hj)
  have hcount := h.count (i, s.exchanges)
  exact List.count_eq_zero.mp (by omega)

/-- The links of jobs that do not wait are free for other uses. -/
theorem Inv.relink (h : Inv timed s) (hpc : s.event.pc i ≠ .waiting) (q : Option ι) :
    Inv timed { s with event := { s.event with next := Function.update s.event.next i q } } := by
  obtain ⟨xs, todo, ht⟩ := h.tracked
  have hnext : ∀ j, s.event.pc j = .waiting →
      Function.update s.event.next i q j = s.event.next j := by
    intro j hj
    refine Function.update_of_ne ?_ _ _
    rintro rfl
    exact hpc hj
  have hlists := ht.lists.keep (f := { s.event with next := Function.update s.event.next i q }) rfl
    hnext (fun _ => rfl)
  exact ⟨⟨xs, todo, ht.keep hlists hnext rfl rfl rfl rfl rfl⟩, h.once, h.unset, h.sets_le,
    h.passes, h.fits, h.frees, h.derefs, h.kind⟩

theorem Inv.add (h : Inv timed s) (hstep : add timed s i = some u) : Inv timed u := by
  obtain ⟨xs, todo, ht⟩ := h.tracked
  unfold Jobs.add at hstep
  split at hstep
  · next hpc hrefs =>
    have hlists : Lists (s.event.goto i .load) (fun t => (s.place t).rest) xs todo :=
      ht.lists.keep rfl (fun _ _ => rfl) (waits_goto (by rw [hpc]; rfl))
    have hothers : ∀ j, j ≠ i → (s.event.goto i .load).pc j = s.event.pc j :=
      fun j hj => Function.update_of_ne hj _ _
    have hself : (s.event.goto i .load).pc i = .load := Function.update_self _ _ _
    cases htimed : timed i with
    | false =>
      simp only [htimed, Bool.false_eq_true, if_false, Option.some.injEq] at hstep
      subst hstep
      refine ⟨⟨xs, todo, ht.keep hlists (fun _ _ => rfl) rfl rfl rfl rfl rfl⟩, h.once, h.unset,
        h.sets_le, h.passes, ?_, h.frees, h.derefs, h.kind⟩
      intro j hj
      have hji : j ≠ i := by
        rintro rfl
        rw [htimed] at hj
        cases hj
      rw [hothers j hji]
      exact h.fits j hj
    | true =>
      simp only [htimed, if_true, Option.some.injEq] at hstep
      subst hstep
      refine ⟨⟨xs, todo, ht.keep hlists (fun _ _ => rfl) rfl rfl rfl rfl rfl⟩, h.once, h.unset,
        h.sets_le, h.passes, ?_, ?_, h.derefs, h.kind⟩
      · intro j hj
        have hfits := h.fits j hj
        by_cases hji : j = i
        · subst hji
          have howes : s.owes j = 0 := by
            rw [hrefs] at hfits
            cases hthread : s.thread j <;> rw [hthread] at hfits <;> unfold Fits at hfits <;> omega
          simp only [State.stand, Function.update_self, hself]
          exact ⟨.inl rfl, rfl, howes⟩
        · simp only [State.stand, Function.update_of_ne hji, hothers j hji]
          exact hfits
      · intro j hj
        have hfrees := h.frees j hj
        simp only [State.stand]
        by_cases hji : j = i
        · subst hji
          rw [hrefs] at hfrees
          simp only [Function.update_self]
          simp only [if_true] at hfrees
          simp only [Nat.succ_ne_zero, if_false]
          omega
        · simp only [Function.update_of_ne hji]
          exact hfrees
  · cases hstep

/-- The thread of a timed waiter in `TryAdd`. -/
theorem Inv.adding (h : Inv timed s) (hi : timed i = true) (hbegun : s.event.pc i ≠ .idle)
    (hpc : s.event.pc i ≠ .waiting) :
    s.thread i = .adding ∧ s.event.pc i ≠ .ready ∧ s.refs i = 2 ∧ s.owes i = 0 := by
  have hfits := h.fits i hi
  cases hthread : s.thread i with
  | out | waiting =>
    rw [hthread] at hfits
    rcases hfits.1 with heq | heq
    · exact absurd heq hbegun
    · exact absurd heq hpc
  | failed =>
    rw [hthread] at hfits
    exact absurd hfits.1 hbegun
  | adding =>
    rw [hthread] at hfits
    refine ⟨rfl, ?_, hfits.2⟩
    intro heq
    rcases hfits.1 with hload | ⟨q, hloop⟩
    · rw [hload] at heq
      cases heq
    · rw [hloop] at heq
      cases heq

section After

variable {e : OneShotEvent ι}

/-- What is left to show of a step of `TryAdd`. -/
theorem Inv.after {weak : Bool} (h : Inv timed s) (he : s.event.tryAdd i weak = some e)
    (htracked : ∃ xs todo, Tracked (s.after timed i e) xs todo)
    (honce : (s.after timed i e).pushes.Nodup)
    (hothers : ∀ j, j ≠ i → e.pc j = s.event.pc j)
    (hself : timed i = true → s.thread i = .adding →
      Fits (tried .adding (e.pc i)) (s.refs i) (s.owes i) (e.pc i))
    (hbegun : s.event.pc i ≠ .idle) (hpc : s.event.pc i ≠ .waiting) :
    Inv timed (s.after timed i e) := by
  have htried := Tried.tryAdd he
  obtain ⟨hevent, hplace, hrefs, hcalls, hexchanges, hnumber, hnews, hfrees⟩ :=
    after_fields timed s i e
  refine ⟨htracked, honce, ?_, ?_, ?_, ?_, ?_, ?_, ?_⟩
  · rw [hevent, htried.sets_eq, ne_eq, htried.head_iff]
    exact h.unset
  · rw [hevent, htried.sets_eq]
    exact h.sets_le
  · rw [hevent]
    intro j hj
    rw [htried.sets_eq]
    rcases htried.passes_eq with heq | hdone
    · rw [heq] at hj
      exact h.passes j hj
    · have hsets := h.sets_le
      have hpos : s.event.sets ≠ 0 := fun hzero => h.unset hzero hdone
      omega
  · intro j hj
    have howes : (s.after timed i e).owes j = s.owes j := by
      rw [State.owes, State.owes, hplace]
    rw [hevent, hrefs, howes, after_thread]
    by_cases hji : j = i
    · subst hji
      obtain ⟨hthread, -⟩ := h.adding hj hbegun hpc
      rw [if_pos hj, Function.update_self, hthread]
      exact hself hj hthread
    · rw [hothers j hji]
      split
      · rw [Function.update_of_ne hji]
        exact h.fits j hj
      · exact h.fits j hj
  · rw [hrefs, hnews, hfrees]
    exact h.frees
  · rw [hevent, htried.derefs_eq]
    exact h.derefs
  · rw [hplace]
    exact h.kind

end After

theorem Inv.tryAdd {weak : Bool} (h : Inv timed s) (hstep : tryAdd timed s i weak = some u) :
    Inv timed u := by
  obtain ⟨xs, todo, ht⟩ := h.tracked
  obtain ⟨e, he, rfl⟩ := Option.map_eq_some_iff.mp hstep
  obtain ⟨hevent, hplace, hrefs, hcalls, hexchanges, hnumber, -⟩ :=
    after_fields timed s i e
  rcases tryAdd_cases he with ⟨q, hpc, hhead, heq⟩ | hlook
  · have hbegun : s.event.pc i ≠ .idle := by rw [hpc]; nofun
    have hnot : s.event.pc i ≠ .waiting := by rw [hpc]; nofun
    have hnow : e.pc i = .waiting := by
      rw [heq]
      exact Function.update_self _ _ _
    have hpushes : (s.after timed i e).pushes = s.pushes ++ [(i, s.exchanges)] := by
      rw [after_pushes, hnow]
    refine h.after he ⟨i :: xs, todo, ?_⟩ ?_ ?_ ?_ hbegun hnot
    · have hlists := ht.lists.push hpc hhead
      rw [← heq] at hlists
      refine ⟨?_, ?_, ?_, ?_, ?_⟩
      · rw [hevent, hplace]
        exact hlists
      · rw [hevent, hplace]
        intro t j next hcall
        have hwaits := (ht.lists.current (t := t) (i := j) (by rw [hcall]; rfl)).1
        have hji : j ≠ i := by
          rintro rfl
          exact hnot hwaits
        rw [heq]
        exact (Function.update_of_ne hji _ _).trans (ht.read t j next hcall)
      · rw [hpushes, hcalls, hexchanges, hnumber]
        intro p
        have hcount := ht.count p
        simp only [List.count_append, List.map_cons, List.count_cons, List.count_nil]
        omega
      · rw [hcalls, hexchanges]
        exact ht.past
      · rw [hnumber, hexchanges]
        exact ht.number
    · rw [hpushes]
      exact List.Nodup.append h.once (List.nodup_singleton _)
        (List.disjoint_singleton.mpr (ht.fresh hnot))
    · intro j hj
      rw [heq]
      exact Function.update_of_ne hj _ _
    · intro hi hthread
      have hfits := h.fits i hi
      rw [hthread] at hfits
      rw [hnow]
      refine ⟨.inr rfl, ?_⟩
      rw [hfits.2.1, hfits.2.2]
      rfl
  · have hnow : e.pc i ≠ .waiting := by
      rcases hlook.now with hnow | ⟨hnow, -⟩ | ⟨q, hnow⟩ <;> rw [hnow] <;> nofun
    have hpushes : (s.after timed i e).pushes = s.pushes := by
      rw [after_pushes]
      split
      · next hwaiting => exact absurd hwaiting hnow
      · rfl
    refine h.after he ⟨xs, todo, ?_⟩ ?_ (fun j hj => (hlook.others j hj).2) ?_ hlook.begun hlook.pc
    · refine ht.keep ?_ ?_ hplace hpushes hcalls hexchanges hnumber
      · rw [hevent]
        exact ht.lists.look hlook
      · rw [hevent]
        intro j hj
        refine (hlook.others j ?_).1
        rintro rfl
        exact hlook.pc hj
    · rw [hpushes]
      exact h.once
    · intro hi hthread
      obtain ⟨-, hready, hrefs, howes⟩ := h.adding hi hlook.begun hlook.pc
      rcases hlook.now with hnow | ⟨-, hwas⟩ | ⟨q, hnow⟩
      · rw [hnow]
        exact ⟨rfl, hrefs, howes⟩
      · exact absurd hwas hready
      · rw [hnow]
        exact ⟨.inr ⟨q, rfl⟩, hrefs, howes⟩

/-- The thread of a timed waiter is done with it. -/
theorem Inv.leave (h : Inv timed s) (hstep : leave s i = some u) : Inv timed u := by
  obtain ⟨xs, todo, ht⟩ := h.tracked
  unfold Jobs.leave at hstep
  split at hstep
  · next hthread =>
    simp only [Option.some.injEq] at hstep
    subst hstep
    refine ⟨⟨xs, todo, ht.keep ht.lists (fun _ _ => rfl) rfl rfl rfl rfl rfl⟩, h.once, h.unset,
      h.sets_le, h.passes, ?_, ?_, h.derefs, h.kind⟩
    · intro j hj
      have hfits := h.fits j hj
      have howes : ((s.decRef i).stand i .out).owes j = s.owes j := rfl
      rw [howes]
      by_cases hji : j = i
      · subst hji
        rw [hthread] at hfits
        simp only [State.stand, State.decRef, Function.update_self]
        refine ⟨hfits.1, ?_⟩
        have hrefs := hfits.2
        omega
      · simp only [State.stand, State.decRef, Function.update_of_ne hji]
        exact hfits
    · intro j hj
      have hfrees := h.frees j hj
      by_cases hji : j = i
      · subst hji
        have hfits := h.fits j hj
        rw [hthread] at hfits
        have hrefs := hfits.2
        exact decRef_frees (by omega) hfrees
      · simp only [State.stand, decRef_of_ne hji]
        exact hfrees
  · next hthread =>
    simp only [Option.some.injEq] at hstep
    subst hstep
    refine ⟨⟨xs, todo, ht.keep ht.lists (fun _ _ => rfl) rfl rfl rfl rfl rfl⟩, h.once, h.unset,
      h.sets_le, h.passes, ?_, ?_, h.derefs, h.kind⟩
    · intro j hj
      have hfits := h.fits j hj
      by_cases hji : j = i
      · subst hji
        rw [hthread] at hfits
        simp only [State.stand, Function.update_self]
        refine ⟨.inl hfits.1, ?_⟩
        rw [hfits.1]
        exact (congrArg (0 + ·) hfits.2.2).symm
      · simp only [State.stand, Function.update_of_ne hji]
        exact hfits
    · intro j hj
      have hfrees := h.frees j hj
      by_cases hji : j = i
      · subst hji
        have hfits := h.fits j hj
        rw [hthread] at hfits
        rw [hfits.2.1] at hfrees
        simp only [State.stand, Function.update_self]
        exact hfrees
      · simp only [State.stand, Function.update_of_ne hji]
        exact hfrees
  · cases hstep

/-- A job that waits is alive. -/
theorem Inv.alive (h : Inv timed s) (hpc : s.event.pc i = .waiting) : alive timed s i = true := by
  unfold Jobs.alive
  cases hi : timed i with
  | false => simp [hpc]
  | true =>
    have hfits := h.fits i hi
    rw [hpc] at hfits
    have hpos : 0 < s.refs i := by
      cases hthread : s.thread i with
      | out | waiting =>
        rw [hthread] at hfits
        have hrefs := hfits.2
        simp only [Pc.waits] at hrefs
        omega
      | adding | failed =>
        rw [hthread] at hfits
        have hrefs := hfits.2.1
        omega
    simp [hpc, hpos]

/-- Somebody holds a reference to the timed waiter: its thread, or the event. -/
def Held (s : State ι τ) (i : ι) : Prop :=
  s.thread i ≠ .out ∨ s.event.pc i = .waiting ∨ ∃ t next, s.place t = .decRef i next

theorem Inv.held_iff (h : Inv timed s) (hi : timed i = true) : Held s i ↔ s.refs i ≠ 0 := by
  have howes : s.owes i ≠ 0 ↔ ∃ t next, s.place t = .decRef i next := by
    rw [ne_eq, State.owes, tally_eq_zero, not_forall]
    constructor
    · rintro ⟨t, ht⟩
      refine ⟨t, ?_⟩
      cases hplace : s.place t with
      | decRef j next =>
        rw [hplace] at ht
        by_cases hji : j = i
        · exact ⟨next, by rw [hji]⟩
        · exact absurd (if_neg hji) ht
      | idle | job _ | call _ _ =>
        rw [hplace] at ht
        exact absurd rfl ht
    · rintro ⟨t, next, ht⟩
      refine ⟨t, ?_⟩
      rw [ht]
      simp [Place.owes]
  have hfits := h.fits i hi
  unfold Held
  rw [← howes]
  cases hthread : s.thread i with
  | out =>
    rw [hthread] at hfits
    obtain ⟨hpc, hrefs⟩ := hfits
    rw [hrefs]
    rcases hpc with hpc | hpc <;> rw [hpc] <;> simp
  | waiting =>
    rw [hthread] at hfits
    refine iff_of_true (.inl nofun) ?_
    have hrefs := hfits.2
    omega
  | adding | failed =>
    rw [hthread] at hfits
    refine iff_of_true (.inl nofun) ?_
    have hrefs := hfits.2.1
    omega

variable [DecidableEq τ]

/-- A thread moves. -/
theorem owes_move {p : Place ι} (hu : u.place = Function.update s.place t p) (j : ι) :
    u.owes j + (s.place t).owes j = s.owes j + p.owes j := by
  unfold State.owes
  rw [hu]
  exact tally_update (Place.owes j) s.place t p

/-- The exchange of `Call` or `Set` takes the whole list. -/
theorem Inv.exchange {op : Op} (h : Inv timed s) (hstep : exchange s t op = some u) :
    Inv timed u := by
  obtain ⟨xs, todo, ht⟩ := h.tracked
  unfold Jobs.exchange at hstep
  split at hstep
  · next hplace hsets =>
    simp only [Option.some.injEq] at hstep
    subst hstep
    obtain ⟨p, hhead⟩ : ∃ p, s.event.head = .ptr p := by
      cases hhead : s.event.head with
      | kAllDone => exact absurd hhead (h.unset hsets)
      | ptr p => exact ⟨p, rfl⟩
    have hset : s.event.setImpl op.value = ({ s.event with
        head := op.value
        sets := if (op.value : Head ι) = .kAllDone then s.event.sets + 1 else s.event.sets }, p) := by
      simp [OneShotEvent.setImpl, hhead]
    have hrest : (s.place t).rest = none := by
      rw [hplace]
      rfl
    have hnil : todo t = [] := by
      have hchain := ht.lists.rest t
      rw [hrest] at hchain
      exact hchain.of_none
    have hvalue : op.value.toPtr = (none : Option ι) := by cases op <;> rfl
    have hlists := ht.lists.setImpl hrest op.value hvalue
    rw [hset] at hlists ⊢
    dsimp only at hlists ⊢
    refine ⟨⟨[], Function.update todo t xs, ?_, ?_, ?_, ?_, ?_⟩, h.once, ?_, ?_, ?_, ?_, h.frees,
      h.derefs, ?_⟩
    · rw [rest_goto, rest_enter]
      exact hlists
    · intro v j next hcall
      refine ht.read v j next ?_
      by_cases hv : v = t
      · subst hv
        simp only [State.goto, Function.update_self] at hcall
        cases p <;> cases hcall
      · simpa only [State.goto, Function.update_of_ne hv] using hcall
    · intro q
      have hcount := ht.count q
      have hupdate := tally_update (fun l : List (ι × Nat) => l.count q)
        (fun v => (todo v).map (·, s.number v)) t (xs.map (·, s.exchanges))
      rw [hnil] at hupdate
      simp only [State.goto, numbered_update, List.map_nil, List.count_nil] at hupdate ⊢
      omega
    · exact fun q hq => Nat.lt_succ_of_lt (ht.past q hq)
    · intro v hv
      by_cases hvt : v = t
      · subst hvt
        simp [State.goto]
      · simp only [State.goto, Function.update_of_ne hvt] at hv ⊢
        exact Nat.lt_succ_of_lt (ht.number v hv)
    · cases op
      · exact fun _ => nofun
      · simp [State.goto, Op.value]
    · cases op
      · simp [State.goto, Op.value, Head.kEmpty, hsets]
      · simp [State.goto, Op.value, hsets]
    · intro j hj
      have hone := h.passes j hj
      omega
    · intro j hj
      have howes : ∀ v : State ι τ, v.place = Function.update s.place t (.enter p) →
          v.owes j = s.owes j := by
        intro v hv
        have hmove := owes_move hv j
        rw [hplace, owes_enter] at hmove
        exact hmove
      rw [howes _ rfl]
      exact h.fits j hj
    · intro v j next hdec
      refine h.kind v j next ?_
      by_cases hv : v = t
      · subst hv
        simp only [State.goto, Function.update_self] at hdec
        cases p <;> cases hdec
      · simpa only [State.goto, Function.update_of_ne hv] using hdec
  · cases hstep

/-- The loop reads the link of its job. -/
theorem Inv.drain_job (h : Inv timed s) (hplace : s.place t = .job i) :
    Inv timed ({ s with event := deref s.event (Jobs.alive timed s i) }.goto t
      (.call i (s.event.next i))) := by
  obtain ⟨xs, todo, ht⟩ := h.tracked
  have hpc := (ht.lists.current (t := t) (i := i) (by rw [hplace]; rfl)).1
  rw [h.alive hpc, deref_true]
  have hrest : (fun v => ((s.goto t (.call i (s.event.next i))).place v).rest) =
      fun v => (s.place v).rest := by
    rw [rest_goto]
    refine Function.update_eq_iff.mpr ⟨?_, fun _ _ => rfl⟩
    rw [hplace]
    rfl
  have howes : ∀ j, (s.goto t (.call i (s.event.next i))).owes j = s.owes j := by
    intro j
    have hmove := owes_move (u := s.goto t (.call i (s.event.next i))) rfl j
    rw [hplace] at hmove
    exact hmove
  refine ⟨⟨xs, todo, ?_, ?_, ht.count, ht.past, ht.number⟩, h.once, h.unset, h.sets_le, h.passes,
    ?_, h.frees, h.derefs, ?_⟩
  · change Lists s.event (fun v => ((s.goto t (.call i (s.event.next i))).place v).rest) xs todo
    rw [hrest]
    exact ht.lists
  · intro v j next hcall
    by_cases hv : v = t
    · subst hv
      simp only [State.goto, Function.update_self] at hcall
      cases hcall
      rfl
    · simp only [State.goto, Function.update_of_ne hv] at hcall
      exact ht.read v j next hcall
  · intro j hj
    have hfits := h.fits j hj
    rw [← howes] at hfits
    exact hfits
  · intro v j next hdec
    by_cases hv : v = t
    · subst hv
      simp only [State.goto, Function.update_self] at hdec
      cases hdec
    · simp only [State.goto, Function.update_of_ne hv] at hdec
      exact h.kind v j next hdec

/-- The loop calls its job. -/
theorem Inv.drain_call (h : Inv timed s) {next : Option ι} (hplace : s.place t = .call i next) :
    Inv timed ({ s with
      event := ((deref s.event (Jobs.alive timed s i)).callJob i).1
      calls := s.calls ++ [(i, s.number t)] }.goto t
        (if timed i then .decRef i next else .enter next)) := by
  obtain ⟨xs, todo, ht⟩ := h.tracked
  obtain ⟨hpc, ys, htodo, hys⟩ := ht.lists.current (t := t) (i := i) (by rw [hplace]; rfl)
  have hread := ht.read t i next hplace
  have hlists := ht.lists.callJob htodo hpc hys
  have hsecond : (s.event.callJob i).2 = next := hread
  rw [hsecond] at hlists
  rw [h.alive hpc, deref_true]
  have hothers : ∀ j, j ≠ i → (s.event.callJob i).1.pc j = s.event.pc j :=
    fun j hj => Function.update_of_ne hj _ _
  have hself : (s.event.callJob i).1.pc i = .idle := Function.update_self _ _ _
  have hnext : (if timed i then Place.decRef i next else .enter next).rest = next := by
    split
    · rfl
    · exact rest_enter next
  have hnotcall : ∀ j n, (if timed i then Place.decRef i next else .enter next) ≠ .call j n := by
    intro j n
    split
    · nofun
    · cases next <;> nofun
  refine ⟨⟨xs, Function.update todo t ys, ?_, ?_, ?_, ?_, ?_⟩, h.once, h.unset, h.sets_le,
    h.passes, ?_, h.frees, h.derefs, ?_⟩
  · rw [rest_goto, hnext]
    exact hlists
  · intro v j n hcall
    by_cases hv : v = t
    · subst hv
      simp only [State.goto, Function.update_self] at hcall
      exact absurd hcall (hnotcall j n)
    · simp only [State.goto, Function.update_of_ne hv] at hcall
      exact ht.read v j n hcall
  · intro q
    have hcount := ht.count q
    have hupdate := tally_update (fun l : List (ι × Nat) => l.count q)
      (fun v => (todo v).map (·, s.number v)) t (ys.map (·, s.number t))
    have hnumbered := numbered_update todo t s.number (s.number t) ys
    rw [Function.update_eq_self] at hnumbered
    rw [htodo] at hupdate
    simp only [State.goto, hnumbered, List.count_append, List.map_cons, List.count_cons,
      List.count_nil] at hupdate ⊢
    omega
  · intro q hq
    rcases List.mem_append.mp hq with hq | hq
    · exact ht.past q hq
    · rw [List.mem_singleton.mp hq]
      exact ht.number t (by rw [htodo]; exact List.cons_ne_nil _ _)
  · intro v hv
    by_cases hvt : v = t
    · subst hvt
      exact ht.number v (by rw [htodo]; exact List.cons_ne_nil _ _)
    · simp only [Function.update_of_ne hvt] at hv
      exact ht.number v hv
  · intro j hj
    have hfits := h.fits j hj
    have howes : ∀ v : State ι τ, v.place = Function.update s.place t
        (if timed i then .decRef i next else .enter next) →
        v.owes j = s.owes j + if j = i then 1 else 0 := by
      intro v hv
      have hmove := owes_move hv j
      rw [hplace] at hmove
      by_cases hji : j = i
      · subst hji
        rw [if_pos hj] at hmove
        simpa [Place.owes] using hmove
      · have hzero : (if timed i then Place.decRef i next else .enter next).owes j = 0 := by
          split
          · exact if_neg (Ne.symm hji)
          · exact owes_enter next
        rw [hzero] at hmove
        simpa [Place.owes, hji] using hmove
    rw [howes _ rfl]
    by_cases hji : j = i
    · subst hji
      rw [hpc] at hfits
      change Fits (s.thread j) (s.refs j) _ ((s.event.callJob j).1.pc j)
      rw [hself, if_pos rfl]
      cases hthread : s.thread j with
      | out | waiting =>
        rw [hthread] at hfits
        have hrefs := hfits.2
        refine ⟨.inl rfl, ?_⟩
        simp only [Pc.waits] at hrefs ⊢
        omega
      | adding =>
        rw [hthread] at hfits
        rcases hfits.1 with heq | ⟨q, heq⟩ <;> cases heq
      | failed =>
        rw [hthread] at hfits
        cases hfits.1
    · change Fits (s.thread j) (s.refs j) _ ((s.event.callJob i).1.pc j)
      rw [hothers j hji, if_neg hji]
      exact hfits
  · intro v j n hdec
    by_cases hv : v = t
    · subst hv
      simp only [State.goto, Function.update_self] at hdec
      split at hdec
      · next hi =>
        cases hdec
        exact hi
      · cases next <;> cases hdec
    · simp only [State.goto, Function.update_of_ne hv] at hdec
      exact h.kind v j n hdec

/-- `DecRef` after `Set`, in the call of a timed waiter. -/
theorem Inv.drain_decRef (h : Inv timed s) {next : Option ι} (hplace : s.place t = .decRef i next) :
    Inv timed (({ s with event := deref s.event (0 < s.refs i) }.decRef i).goto t (.enter next)) := by
  obtain ⟨xs, todo, ht⟩ := h.tracked
  have hi := h.kind t i next hplace
  have howes : 1 ≤ s.owes i := by
    have hle := le_tally_of (Place.owes i) hplace
    simp only [Place.owes, if_true] at hle
    exact hle
  have hpos : 0 < s.refs i := by
    have hfits := h.fits i hi
    cases hthread : s.thread i with
    | out | waiting =>
      rw [hthread] at hfits
      have hrefs := hfits.2
      omega
    | adding | failed =>
      rw [hthread] at hfits
      have hrefs := hfits.2.1
      omega
  rw [decide_eq_true hpos, deref_true]
  have hrest : (fun v => (((s.decRef i).goto t (.enter next)).place v).rest) =
      fun v => (s.place v).rest := by
    rw [rest_goto]
    refine Function.update_eq_iff.mpr ⟨?_, fun _ _ => rfl⟩
    rw [rest_enter, hplace]
    rfl
  refine ⟨⟨xs, todo, ?_, ?_, ht.count, ht.past, ht.number⟩, h.once, h.unset, h.sets_le, h.passes,
    ?_, ?_, h.derefs, ?_⟩
  · change Lists s.event (fun v => (((s.decRef i).goto t (.enter next)).place v).rest) xs todo
    rw [hrest]
    exact ht.lists
  · intro v j n hcall
    by_cases hv : v = t
    · subst hv
      simp only [State.goto, Function.update_self] at hcall
      cases next <;> cases hcall
    · simp only [State.goto, Function.update_of_ne hv] at hcall
      exact ht.read v j n hcall
  · intro j hj
    have hfits := h.fits j hj
    have howes : ∀ v : State ι τ, v.place = Function.update s.place t (.enter next) →
        v.owes j + (if i = j then 1 else 0) = s.owes j := by
      intro v hv
      have hmove := owes_move hv j
      rw [hplace, owes_enter] at hmove
      exact hmove
    have howes' := howes ((s.decRef i).goto t (.enter next)) rfl
    change Fits (s.thread j) ((s.decRef i).refs j) (((s.decRef i).goto t (.enter next)).owes j)
      (s.event.pc j)
    by_cases hji : j = i
    · subst hji
      have hrefs : (s.decRef j).refs j = s.refs j - 1 := Function.update_self _ _ _
      rw [if_pos rfl] at howes'
      rw [hrefs]
      cases hthread : s.thread j with
      | out | waiting =>
        rw [hthread] at hfits
        refine ⟨hfits.1, ?_⟩
        have hcount := hfits.2
        omega
      | adding | failed =>
        rw [hthread] at hfits
        have hzero := hfits.2.2
        omega
    · rw [(decRef_of_ne hji).1]
      rw [if_neg (Ne.symm hji), Nat.add_zero] at howes'
      rw [howes']
      exact hfits
  · intro j hj
    have hfrees := h.frees j hj
    change (s.decRef i).frees j + (if (s.decRef i).refs j = 0 then 0 else 1) = s.news j
    by_cases hji : j = i
    · subst hji
      exact decRef_frees hpos hfrees
    · rw [(decRef_of_ne hji).1, (decRef_of_ne hji).2]
      exact hfrees
  · intro v j n hdec
    by_cases hv : v = t
    · subst hv
      simp only [State.goto, Function.update_self] at hdec
      cases next <;> cases hdec
    · simp only [State.goto, Function.update_of_ne hv] at hdec
      exact h.kind v j n hdec

theorem Inv.of_step {ev : Event ι τ} (h : Inv timed s) (hstep : step timed s ev = some u) :
    Inv timed u := by
  cases ev with
  | add i => exact h.add hstep
  | tryAdd i weak => exact h.tryAdd hstep
  | leave i => exact h.leave hstep
  | exchange t op => exact h.exchange hstep
  | drain t =>
    simp only [step, drain] at hstep
    split at hstep
    · cases hstep
    · next hplace =>
      cases hstep
      exact h.drain_job hplace
    · next hplace =>
      cases hstep
      exact h.drain_call hplace
    · next hplace =>
      cases hstep
      exact h.drain_decRef hplace
  | relink i q =>
    simp only [step] at hstep
    split at hstep
    · cases hstep
    · next hpc =>
      cases hstep
      exact h.relink hpc q

theorem inv_of_reachable (hs : (system (τ := τ) timed).Reachable s) : Inv timed s := by
  refine System.Inductive.reachable (P := Inv timed) ⟨?_, ?_⟩ hs
  · rintro s ⟨next, rfl⟩
    refine ⟨⟨[], fun _ => [], ⟨.nil, fun _ => .nil, ?_⟩, nofun, ?_, nofun, ?_⟩, .nil, ?_, ?_, ?_,
      ?_, ?_, rfl, nofun⟩
    · intro i
      simp [tally_const]
    · intro p
      simp [tally_const]
    · exact fun t hnil => absurd rfl hnil
    · exact fun _ => nofun
    · exact Nat.zero_le _
    · exact fun i hi => absurd hi (Nat.lt_irrefl _)
    · intro i _
      refine ⟨.inl rfl, ?_⟩
      simp [State.owes, tally_const, Place.owes]
    · exact fun _ _ => rfl
  · intro s ev u h hstep _
    exact h.of_step hstep

/-! ### The loop ends -/

theorem Inv.ends (h : Inv timed s) (t : τ) : Ends timed s t := by
  obtain ⟨xs, todo, ht⟩ := h.tracked
  have hchain := ht.lists.rest t
  cases hplace : s.place t with
  | idle => exact ⟨0, s, rfl, hplace⟩
  | job i =>
    rw [hplace] at hchain
    exact ends_enter (p := some i) hchain hplace
  | call i next =>
    obtain ⟨-, ys, -, hys⟩ := ht.lists.current (t := t) (i := i) (by rw [hplace]; rfl)
    rw [ht.read t i next hplace] at hys
    refine Ends.step (by rw [drain, hplace]) ?_
    cases hi : timed i with
    | false =>
      refine ends_enter (p := next) hys ?_
      simp [State.goto]
    | true =>
      refine Ends.step (by
        rw [drain]
        simp only [State.goto, Function.update_self, if_true]
        rfl) ?_
      exact ends_enter (p := next) hys (Function.update_self _ _ _)
  | decRef i next =>
    rw [hplace] at hchain
    refine Ends.step (by rw [drain, hplace]) ?_
    exact ends_enter (p := next) hchain (Function.update_self _ _ _)

/-! ### What the jobs can rely on -/

/-- In every run, of any number of jobs and of threads that `Call`, until one of them calls
`Set`: a job that was pushed is called at most once, in the loop of the first exchange after
its push, and has been called when that loop is over, which the thread in it gets to; `TryAdd`
is false only after the exchange of `Set`; no pointer is followed that does not lead to a job
that is alive; and a timed waiter is deleted once nobody holds a reference to it. -/
theorem jobs_called_once (timed : ι → Bool) (s : State ι τ) (hs : (system timed).Reachable s) :
    (s.pushes.Nodup ∧ s.calls.Nodup ∧ ∀ p ∈ s.calls, p ∈ s.pushes ∧ p.2 < s.exchanges) ∧
    (∀ i n, (i, n) ∈ s.pushes → n < s.exchanges → (∀ t, s.number t = n → s.place t = .idle) →
      (i, n) ∈ s.calls) ∧
    (∀ t, Ends timed s t) ∧
    (∀ i, 0 < s.event.passes i → s.event.sets = 1) ∧
    s.event.derefs = true ∧
    ∀ i, timed i = true →
      (Held s i → s.frees i + 1 = s.news i) ∧ (¬ Held s i → s.frees i = s.news i) := by
  have h := inv_of_reachable hs
  obtain ⟨xs, todo, ht⟩ := h.tracked
  have hcount : ∀ p, s.calls.count p ≤ s.pushes.count p := by
    intro p
    have hcount := ht.count p
    omega
  have honce := List.nodup_iff_count_le_one.mp h.once
  refine ⟨⟨h.once, ?_, ?_⟩, ?_, h.ends, h.passes, h.derefs, ?_⟩
  · exact List.nodup_iff_count_le_one.mpr fun p => (hcount p).trans (honce p)
  · intro p hp
    have hpos := List.count_pos_iff.mpr hp
    exact ⟨List.count_pos_iff.mp (hpos.trans_le (hcount p)), ht.past p hp⟩
  · intro i n hpush hn hidle
    have hpos := List.count_pos_iff.mpr hpush
    have hsum := ht.count (i, n)
    have hword : (xs.map (·, s.exchanges)).count (i, n) = 0 := by
      refine List.count_eq_zero.mpr ?_
      intro hmem
      obtain ⟨j, -, heq⟩ := List.mem_map.mp hmem
      have hexchanges : s.exchanges = n := congrArg Prod.snd heq
      omega
    have hloops : tally (fun l : List (ι × Nat) => l.count (i, n))
        (fun t => (todo t).map (·, s.number t)) = 0 := by
      refine tally_eq_zero.mpr ?_
      intro t
      refine List.count_eq_zero.mpr ?_
      intro hmem
      obtain ⟨j, hj, heq⟩ := List.mem_map.mp hmem
      have hnumber : s.number t = n := congrArg Prod.snd heq
      have hchain := ht.lists.rest t
      rw [hidle t hnumber] at hchain
      rw [hchain.of_none] at hj
      cases hj
    exact List.count_pos_iff.mp (by omega)
  · intro i hi
    have hfrees := h.frees i hi
    rw [h.held_iff hi]
    constructor
    · intro hrefs
      rw [if_neg hrefs] at hfrees
      exact hfrees
    · intro hrefs
      rw [if_pos (not_not.mp hrefs)] at hfrees
      exact hfrees

def second (i : Fin 2) : Bool := i = 1

/-- The timed waiter times out between the `Set` and the `DecRef` of its call. -/
def timedOut : State (Fin 2) Unit :=
  ((system second).run { event := { next := fun _ => none } }
    [.add 0, .tryAdd 0 false, .tryAdd 0 false, .add 1, .tryAdd 1 false, .tryAdd 1 false,
      .exchange () .set, .drain (), .drain (), .leave 1, .drain (), .drain (), .drain ()]).get
    (by decide)

theorem jobs_called_once_timedOut :
    (0, 0) ∈ timedOut.calls ∧ timedOut.frees 1 = timedOut.news 1 := by
  have hs : (system second).Reachable timedOut :=
    .run (fun _ _ _ _ => trivial) (.init ⟨_, rfl⟩) (Option.some_get _).symm
  obtain ⟨-, hcalled, -, -, -, htimed⟩ := jobs_called_once second timedOut hs
  refine ⟨hcalled 0 0 (by decide) (by decide) (by decide), (htimed 1 rfl).2 ?_⟩
  have hidle : timedOut.place () = .idle := by decide
  rintro (hthread | hpc | ⟨t, next, hplace⟩)
  · exact hthread (by decide)
  · exact absurd hpc (by decide)
  · rw [hidle] at hplace
    cases hplace

end Yaclib.OneShotEvent.Jobs
