import Mathlib.Data.List.Perm.Basic
import Yaclib.Concurrency.System

/-!
What `FIFO` promises, without counters: one queue in which the readers that
wait at the same time are served together. It accepts or rejects the log of a
run, so the order of service is a property of the accepted logs.
-/

namespace Yaclib.SharedMutex

open Concurrency

inductive Entry (ι : Type) where
  /-- `AwaitLockShared` pushed the reader -/
  | queueReader (i : ι)
  /-- the writer's `fetch_add` in `AwaitLock` -/
  | queueWriter (i : ι)
  /-- the writer's first change of `_state` in `UnlockHere`, with `_readers` -/
  | unlock (i : ι) (readers : List ι)
  /-- `RunReaders` took the readers -/
  | runReaders (readers : List ι)
  /-- `i` submitted the reader `n` -/
  | submit (i n : ι)
  /-- a writer of `AwaitLock` holds the mutex -/
  | acquire (i : ι)
  deriving DecidableEq

/-- The writers before and behind the queued readers, and the readers that were
taken and not submitted yet. -/
structure FairQueue (ι : Type) where
  ahead : List ι := []
  readers : List ι := []
  behind : List ι := []
  owed : List ι := []

namespace FairQueue

variable {ι : Type} [DecidableEq ι]

/-- The readers are served when no writer is ahead of them, and the first writer
when no reader is owed its submission. -/
def step (q : FairQueue ι) : Entry ι → Option (FairQueue ι)
  | .queueReader i => some { q with readers := i :: q.readers }
  | .queueWriter i =>
    if i ∈ q.ahead ++ q.behind then none
    else if q.readers = [] then some { q with ahead := q.ahead ++ [i] }
    else some { q with behind := q.behind ++ [i] }
  | .unlock _ _ => some q
  | .runReaders rs =>
    if q.ahead = [] ∧ rs.Perm q.readers then
      some { ahead := q.behind, readers := [], behind := [], owed := q.owed ++ rs }
    else none
  | .submit _ n => if n ∈ q.owed then some { q with owed := q.owed.erase n } else none
  | .acquire i =>
    match q.ahead with
    | [] => none
    | j :: ws => if j = i ∧ q.owed = [] then some { q with ahead := ws } else none

/-- The accepted logs are the runs of the queue. -/
def system : System (FairQueue ι) (Entry ι) where
  Init q := q = {}
  step := step

variable {q q' : FairQueue ι} {i j : ι} {l₁ l₂ : List (Entry ι)}

theorem step_acquire (h : q.step (.acquire i) = some q') :
    q.ahead = i :: q'.ahead ∧ q.owed = [] ∧ q' = { q with ahead := q'.ahead } := by
  simp only [step] at h
  split at h
  · contradiction
  · next j ws hahead =>
    split at h
    · next hguard =>
      cases h
      exact ⟨hguard.1 ▸ hahead, hguard.2, rfl⟩
    · contradiction

theorem step_runReaders {rs : List ι} (h : q.step (.runReaders rs) = some q') :
    q.ahead = [] ∧ rs.Perm q.readers ∧
      q' = { ahead := q.behind, readers := [], behind := [], owed := q.owed ++ rs } := by
  simp only [step] at h
  split at h
  · next hguard =>
    cases h
    exact ⟨hguard.1, hguard.2, rfl⟩
  · contradiction

theorem step_queueWriter (h : q.step (.queueWriter i) = some q') :
    i ∉ q.ahead ++ q.behind ∧ (q.readers = [] ∧ q' = { q with ahead := q.ahead ++ [i] } ∨
      q.readers ≠ [] ∧ q' = { q with behind := q.behind ++ [i] }) := by
  simp only [step] at h
  split at h
  · contradiction
  · next hfresh =>
    split at h
    · next hreaders => exact ⟨hfresh, .inl ⟨hreaders, (Option.some.inj h).symm⟩⟩
    · next hreaders => exact ⟨hfresh, .inr ⟨hreaders, (Option.some.inj h).symm⟩⟩

theorem step_submit {n : ι} (h : q.step (.submit i n) = some q') :
    q' = { q with owed := q.owed.erase n } := by
  simp only [step] at h
  split at h
  · exact (Option.some.inj h).symm
  · contradiction

theorem run_snoc {q₁ q₂ : FairQueue ι} {e : Entry ι} (hrun : system.run q l₁ = some q₁)
    (hstep : q₁.step e = some q₂) : system.run q (l₁ ++ [e]) = some q₂ := by
  rw [System.run_append, hrun]
  exact System.run_cons system q₁ e [] |>.trans (by simp [system, hstep, System.run])

/-- A reader is queued and none of the writers `js` is ahead of it; or it is
owed. -/
def Before (i : ι) (js : List ι) (q : FairQueue ι) : Prop :=
  (i ∈ q.readers ∧ ∀ j ∈ js, j ∉ q.ahead) ∨ i ∈ q.owed

theorem owed_keep {k n : ι} (h : i ∈ q.owed) (hn : i ≠ n) (hstep : q.step (.submit k n) = some q') :
    i ∈ q'.owed := by
  rw [step_submit hstep]
  exact (List.mem_erase_of_ne hn).mpr h

/-- Nobody overtakes a queued reader. -/
theorem before_keep {e : Entry ι} {js : List ι} (h : Before i js q) (he : ∀ k, e ≠ .submit k i)
    (hstep : q.step e = some q') : Before i js q' := by
  cases e with
  | queueReader n =>
    cases hstep
    exact h.imp_left fun h => ⟨List.mem_cons_of_mem _ h.1, h.2⟩
  | queueWriter n =>
    obtain ⟨-, ⟨hreaders, rfl⟩ | ⟨-, rfl⟩⟩ := step_queueWriter hstep
    · rcases h with h | h
      · rw [hreaders] at h
        exact absurd h.1 List.not_mem_nil
      · exact .inr h
    · exact h
  | unlock n rs =>
    cases hstep
    exact h
  | runReaders rs =>
    obtain ⟨-, hperm, rfl⟩ := step_runReaders hstep
    right
    apply List.mem_append.mpr
    rcases h with h | h
    · exact .inr (hperm.mem_iff.mpr h.1)
    · exact .inl h
  | submit k n =>
    have hn : i ≠ n := by
      rintro rfl
      exact he k rfl
    rcases h with h | h
    · left
      rw [step_submit hstep]
      exact h
    · exact .inr (owed_keep h hn hstep)
  | acquire n =>
    obtain ⟨hahead, -, hq⟩ := step_acquire hstep
    rcases h with h | h
    · left
      rw [hahead] at h
      rw [hq]
      exact ⟨h.1, fun j hj => List.not_mem_of_not_mem_cons (h.2 j hj)⟩
    · right
      rw [hq]
      exact h

/-- A writer that is queued after a reader waits until the reader is submitted. -/
theorem reader_first (hrun : system.run q (.queueReader i :: l₁ ++ .queueWriter j :: l₂ ++
    [.acquire j]) = some q') : ∃ k, .submit k i ∈ l₁ ++ l₂ := by
  by_contra hnone
  have hkeep : ∀ e ∈ l₁ ++ l₂, ∀ k, e ≠ .submit k i := by
    rintro e he k rfl
    exact hnone ⟨k, he⟩
  rw [System.run_append, Option.bind_eq_some_iff] at hrun
  obtain ⟨q₃, hrun, hacquire⟩ := hrun
  rw [System.run_append, Option.bind_eq_some_iff] at hrun
  obtain ⟨q₁, hrun, hrest⟩ := hrun
  rw [System.run_cons, Option.bind_eq_some_iff] at hrun hrest
  obtain ⟨q₀, hreader, hfirst⟩ := hrun
  obtain ⟨q₂, hwriter, hsecond⟩ := hrest
  have h₀ : Before i [] q₀ := by
    cases hreader
    exact .inl ⟨List.mem_cons_self, fun j hj => absurd hj List.not_mem_nil⟩
  have h₁ : Before i [] q₁ := by
    refine System.run_keeps (P := Before i []) (fun s e t he h hstep => ?_) h₀ hfirst
    exact before_keep h (hkeep e (List.mem_append_left _ he)) hstep
  have h₂ : Before i [j] q₂ := by
    obtain ⟨hfresh, ⟨hreaders, rfl⟩ | ⟨-, rfl⟩⟩ := step_queueWriter hwriter
    · rcases h₁ with h | h
      · rw [hreaders] at h
        exact absurd h.1 List.not_mem_nil
      · exact .inr h
    · refine h₁.imp_left fun h => ⟨h.1, fun k hk => ?_⟩
      rw [List.mem_singleton.mp hk]
      exact fun hj => hfresh (List.mem_append_left _ hj)
  have h₃ : Before i [j] q₃ := by
    refine System.run_keeps (P := Before i [j]) (fun s e t he h hstep => ?_) h₂ hsecond
    exact before_keep h (hkeep e (List.mem_append_right _ he)) hstep
  rw [System.run_cons, Option.bind_eq_some_iff] at hacquire
  obtain ⟨q₄, hacquire, -⟩ := hacquire
  obtain ⟨hahead, howed, -⟩ := step_acquire hacquire
  rcases h₃ with h | h
  · have hj := h.2 j List.mem_cons_self
    rw [hahead] at hj
    exact hj List.mem_cons_self
  · rw [howed] at h
    exact absurd h List.not_mem_nil

/-- The number of batches of readers that `RunReaders` took. -/
def batches (log : List (Entry ι)) : Nat :=
  log.countP fun e => e matches .runReaders _

/-- After `n` batches the writer `j` is ahead of the queued readers, or it still
has the first batch ahead of it. -/
def Overtaken (j : ι) (q : FairQueue ι) (n : Nat) : Prop :=
  j ∈ q.ahead ∧ n ≤ 1 ∨ j ∈ q.behind ∧ n = 0

theorem overtaken_keep {e : Entry ι} {n : Nat} (h : Overtaken j q n) (he : e ≠ .acquire j)
    (hstep : q.step e = some q') : Overtaken j q' (n + batches [e]) := by
  cases e with
  | queueReader i =>
    cases hstep
    exact h
  | queueWriter i =>
    obtain ⟨-, ⟨-, rfl⟩ | ⟨-, rfl⟩⟩ := step_queueWriter hstep
    · exact h.imp_left fun h => ⟨List.mem_append_left _ h.1, h.2⟩
    · exact h.imp_right fun h => ⟨List.mem_append_left _ h.1, h.2⟩
  | unlock i rs =>
    cases hstep
    exact h
  | runReaders rs =>
    obtain ⟨hahead, -, rfl⟩ := step_runReaders hstep
    rcases h with h | h
    · rw [hahead] at h
      exact absurd h.1 List.not_mem_nil
    · left
      rw [h.2]
      exact ⟨h.1, Nat.le_refl 1⟩
  | submit k i =>
    rw [step_submit hstep]
    exact h
  | acquire i =>
    obtain ⟨hahead, -, hq⟩ := step_acquire hstep
    rw [hq]
    refine h.imp_left fun h => ⟨?_, h.2⟩
    rw [hahead] at h
    refine (List.mem_cons.mp h.1).resolve_left ?_
    rintro rfl
    exact he rfl

theorem overtaken_run {n : Nat} (hrun : system.run q l₁ = some q') (hfirst : .acquire j ∉ l₁)
    (h : Overtaken j q n) : Overtaken j q' (n + batches l₁) := by
  induction l₁ generalizing q n with
  | nil =>
    cases hrun
    exact h
  | cons e l ih =>
    rw [System.run_cons, Option.bind_eq_some_iff] at hrun
    obtain ⟨q₁, hstep, hrest⟩ := hrun
    have he : e ≠ .acquire j := fun he => hfirst (he ▸ List.mem_cons_self)
    have hsum : n + batches (e :: l) = n + batches [e] + batches l := by
      simp only [batches, List.countP_cons, List.countP_nil]
      omega
    rw [hsum]
    exact ih hrest (fun hl => hfirst (List.mem_cons_of_mem _ hl)) (overtaken_keep h he hstep)

/-- At most one batch of readers is taken while a writer is queued. -/
theorem one_batch (hrun : system.run q (.queueWriter j :: l₁ ++ [.acquire j]) = some q')
    (hfirst : .acquire j ∉ l₁) : batches l₁ ≤ 1 := by
  rw [System.run_append, Option.bind_eq_some_iff] at hrun
  obtain ⟨q₁, hrun, hacquire⟩ := hrun
  rw [System.run_cons, Option.bind_eq_some_iff] at hrun hacquire
  obtain ⟨q₀, hwriter, hrest⟩ := hrun
  obtain ⟨q₂, hacquire, -⟩ := hacquire
  have h₀ : Overtaken j q₀ 0 := by
    obtain ⟨-, ⟨-, rfl⟩ | ⟨-, rfl⟩⟩ := step_queueWriter hwriter
    · exact .inl ⟨List.mem_append_right _ List.mem_cons_self, Nat.zero_le 1⟩
    · exact .inr ⟨List.mem_append_right _ List.mem_cons_self, rfl⟩
  obtain ⟨hahead, -, -⟩ := step_acquire hacquire
  rcases overtaken_run hrest hfirst h₀ with h | h
  · have hbatches := h.2
    omega
  · omega

end FairQueue

end Yaclib.SharedMutex
