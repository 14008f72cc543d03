import Yaclib.Fault.Fiber.Scheduler.Invariant

/-!
Time. A fiber that sleeps is resumed when its deadline is over, unless a notifier took it from
its entry before; then it removes the entry itself, if it is resumed in time to find it and
the entry is empty.
-/

namespace Yaclib.Fault.Fiber.Scheduler

open Concurrency Intrusive

variable {φ κ : Type}

/-- The fiber sleeps until `u` and was not notified. -/
def Until (s : State φ κ) (f : φ) (u : UInt64) : Prop :=
  s.place f = .sleep u ∨ ∃ k ns, s.place f = .timedWait k ns u ∧ s.removed f = false

/-- The fiber was notified in a `Wait` until `u` that has not returned. -/
def Woken (s : State φ κ) (f : φ) (u : UInt64) : Prop :=
  ∃ k ns, s.place f = .timedWait k ns u ∧ s.removed f = true

/-- Who is to run has slept until its deadline, and `GetNext` and `find` have what they look
for. -/
structure Punctual (heads : Node φ κ → Prop) (s : State φ κ)
    (L : Node φ κ → List (Node φ κ)) : Prop where
  sorted : s.sleep_list.Pairwise (· < ·)
  due : ∀ f u, Until s f u → s.control = .fiber f ∨ Only heads L (.scheduler f) (some .queue) →
    u ≤ s.time
  delay : ∀ f k ns u, s.place f = .timedWait k ns u → ns ≤ u
  next : s.control = .next → L .queue ≠ []
  found : ∀ f k ns u, s.control = .fiber f → s.place f = .timedWait k ns u → s.time ≤ u →
    u ∈ s.sleep_list

/-- An empty entry is over, or a notified fiber will see to it. -/
def Swept (s : State φ κ) (L : Node φ κ → List (Node φ κ)) : Prop :=
  ∀ u ∈ s.sleep_list, L (.sleep u) = [] → u < s.time ∨ ∃ f, Woken s f u

/-- What time says about the lists. -/
structure Timely (heads : Node φ κ → Prop) (s : State φ κ)
    (L : Node φ κ → List (Node φ κ)) : Prop where
  punctual : Punctual heads s L
  swept : Swept s L

variable {q : κ → Node φ κ} {heads heads' : Node φ κ → Prop} {s t : State φ κ}
  {L L' : Node φ κ → List (Node φ κ)} {f g : φ} {o p : Option (Node φ κ)} {u : UInt64}

theorem Until.untouched (hg : Untouched s t g) : Until t g u ↔ Until s g u := by
  unfold Until
  rw [hg.place, hg.removed]

theorem Woken.untouched (hg : Untouched s t g) : Woken t g u ↔ Woken s g u := by
  unfold Woken
  rw [hg.place, hg.removed]

/-- Only scheduler nodes are in the entries. -/
theorem Tracked.scheduler_of_sleep (h : Tracked q heads s L) (hq : ∀ k u, q k ≠ .sleep u)
    {n : Node φ κ} (hn : Of f n) (hr : Only heads L n (some (.sleep u))) : n = .scheduler f := by
  cases n with
  | scheduler g => exact congrArg Node.scheduler hn
  | waitQueue g =>
    exfalso
    obtain ⟨o, p, -, hp, hexpected⟩ := (h.fiber g).position
    rcases hexpected.wait with rfl | ⟨k, rfl⟩
    · cases hp.eq hr
    · exact hq k u (Option.some.inj (hp.eq hr))
  | queue | sleep _ | wait _ | all => cases hn

/-- A step of one fiber. -/
theorem Punctual.carry (h : Punctual heads s L) (hs : Store s.heap heads L)
    (hc : Carried heads heads' L L' f) (hothers : ∀ g, g ≠ f → Untouched s t g)
    (hsorted : t.sleep_list.Pairwise (· < ·)) (htime : s.time ≤ t.time) (hnext : t.control ≠ .next)
    (hdue : ∀ u, Until t f u → t.control = .fiber f ∨
      Only heads' L' (.scheduler f) (some .queue) → u ≤ t.time)
    (hdelay : ∀ k ns u, t.place f = .timedWait k ns u → ns ≤ u)
    (hfound : ∀ g k ns u, t.control = .fiber g → t.place g = .timedWait k ns u → t.time ≤ u →
      u ∈ t.sleep_list) : Punctual heads' t L' := by
  refine ⟨hsorted, ?_, ?_, fun hcontrol => absurd hcontrol hnext, hfound⟩
  · intro g u hg hturn
    by_cases hgf : g = f
    · subst hgf
      exact hdue u hg hturn
    · have hun := hothers g hgf
      refine UInt64.le_trans ?_ htime
      apply h.due g u ((Until.untouched hun).mp hg)
      rcases hturn with hrun | hqueue
      · exact .inl (hun.control.mp hrun)
      · exact .inr (hc.back hs (show ¬ Of f (.scheduler g) from hgf) hqueue)
  · intro g k ns u hplace
    by_cases hgf : g = f
    · subst hgf
      exact hdelay k ns u hplace
    · exact h.delay g k ns u ((hothers g hgf).place ▸ hplace)

/-- It empties an entry only if its fiber sees to that. -/
theorem Swept.carry (h : Swept s L) (htracked : Tracked q heads s L)
    (hq : ∀ k u, q k ≠ .sleep u) (hc : Carried heads heads' L L' f)
    (hothers : ∀ g, g ≠ f → Untouched s t g) (hheads : ∀ u ∈ s.sleep_list, heads (.sleep u))
    (hkeys : ∀ u ∈ t.sleep_list, L' (.sleep u) = [] → u ∈ s.sleep_list)
    (htime : s.time ≤ t.time)
    (hstale : ∀ u ∈ t.sleep_list, Only heads L (.scheduler f) (some (.sleep u)) ∨ Woken s f u →
      L' (.sleep u) = [] → u < t.time ∨ Woken t f u) : Swept t L' := by
  intro u hut hempty
  have hu := hkeys u hut hempty
  by_cases hold : L (.sleep u) = []
  · rcases h u hu hold with hpast | ⟨g, hg⟩
    · exact .inl (UInt64.lt_of_lt_of_le hpast htime)
    · by_cases hgf : g = f
      · subst hgf
        rcases hstale u hut (.inr hg) hempty with hpast | hwoken
        · exact .inl hpast
        · exact .inr ⟨g, hwoken⟩
      · exact .inr ⟨g, (Woken.untouched (hothers g hgf)).mpr hg⟩
  · obtain ⟨n, hn⟩ := List.exists_mem_of_ne_nil _ hold
    obtain ⟨r, hr⟩ := htracked.store.exists_only n
    obtain rfl : r = some (.sleep u) := (hr.2 _ (hheads u hu)).mp hn
    by_cases hof : Of f n
    · obtain rfl := htracked.scheduler_of_sleep hq hof hr
      rcases hstale u hut (.inl hr) hempty with hpast | hwoken
      · exact .inl hpast
      · exact .inr ⟨f, hwoken⟩
    · have hmem := (hc n hof _ hr).mem
      rw [hempty] at hmem
      cases hmem

end Yaclib.Fault.Fiber.Scheduler
