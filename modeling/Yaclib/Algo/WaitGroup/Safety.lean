import Yaclib.Algo.WaitGroup.Cores
import Yaclib.Algo.WaitGroup.Waiters

/-!
The group is set once, when its counter has returned to zero, and it wakes
everyone who waits for it.
-/

namespace Yaclib.WaitGroup

open Concurrency

variable {ι κ χ : Type} [Fintype χ]
variable {s t : State ι κ χ} {c : χ} {k : κ} {i : ι}

/-- Between the calls, the counter is what was added and not done, and the futures
that are attached. -/
theorem Counter.between [Fintype κ] (h : Counter s) (hb : Between s) :
    s.count = s.adds + tally attached s.callback := by
  have hshares : tally Place.share s.place = 0 := by
    apply tally_eq_zero.mpr
    intro c
    rcases hb c with hc | hc | ⟨job, hc⟩ <;> rw [hc] <;> rfl
  rw [h.count_eq, hshares, Nat.add_zero]

variable [DecidableEq κ]

/-- A core whose promise is through has its result, and a consumed one was
released. -/
theorem Cores.settled (h : Cores s)
    (hidle : ∀ c, s.place c = .idle ∨ s.place c = .set ∨ ∃ job, s.place c = .loop job)
    (hpromise : s.promise k = false) :
    s.callback k = .kResult ∧ s.released k = if s.owned k = true then 0 else 1 := by
  have hzero : ∀ w : Place ι κ → Nat, w .idle = 0 → w .set = 0 → (∀ job, w (.loop job) = 0) →
      tally w s.place = 0 := by
    intro w h1 h2 h3
    apply tally_eq_zero.mpr
    intro c
    rcases hidle c with hc | hc | ⟨job, hc⟩ <;> rw [hc]
    · exact h1
    · exact h2
    · exact h3 job
  have hresult := h.result_eq k
  rw [hzero (Place.stores k) rfl rfl fun _ => rfl, hpromise] at hresult
  have hcallback : s.callback k = .kResult := by
    cases hword : s.callback k with
    | kResult => rfl
    | ptr q =>
      rw [hword] at hresult
      exact absurd hresult Nat.zero_ne_one
  have hreleased := h.released_eq k
  rw [hzero (Place.drops k) rfl rfl fun _ => rfl, hcallback] at hreleased
  exact ⟨hcallback, hreleased⟩

variable [Fintype κ] [DecidableEq ι]

/-- The invariant of the group, in parts that speak of its counter, of those who wait and of
the cores. -/
structure Inv (s : State ι κ χ) : Prop where
  counter : Counter s
  waiting : Waiting s
  cores : Cores s

theorem Inv.init (next : ι → Option ι) {count : Nat} (hcount : count < 2 ^ 64) :
    Inv ({ count := count, adds := count, raised := decide (0 < count), event := { next := next } } :
      State ι κ χ) := by
  refine ⟨⟨?_, hcount, fun hfalse => ?_, fun c => trivial, ?_⟩,
    ⟨.init next, ?_, fun _ => ⟨fun i => ⟨rfl, rfl⟩, fun c => rfl⟩, fun i => rfl, rfl⟩,
    ⟨fun k => ?_, fun k => ?_, fun c k hk => ?_, fun k => ?_⟩⟩
  · simp [tally_const, Callback.kEmpty]
  · simpa using hfalse
  · simp only [tally_const, Place.setting, Nat.mul_zero, decide_eq_true_eq]
    rw [if_neg (by omega)]
  · exact iff_of_false (by simp [OneShotEvent.Head.kEmpty]) (Nat.lt_irrefl 0)
  · simp [tally_const, Callback.kEmpty]
  · simp [tally_const, Place.cores]
  · exact absurd hk List.not_mem_nil
  · simp [tally_const, Callback.kEmpty]

variable [DecidableEq χ]

theorem inv_of_reachable (hs : (system ι κ χ).Reachable s) : Inv s := by
  refine System.Inductive.reachable (C := fun _ _ _ => True) ⟨?_, ?_⟩ hs
  · rintro s ⟨next, count, hcount, rfl⟩
    exact .init next hcount
  · intro s e t h hstep _
    exact ⟨h.counter.step hstep, h.waiting.step h.counter hstep, h.cores.step hstep⟩

/-! What the invariant says. -/

end Yaclib.WaitGroup
