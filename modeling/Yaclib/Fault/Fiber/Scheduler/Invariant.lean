import Yaclib.Fault.Fiber.Scheduler.Model
import Yaclib.Util.IntrusiveStore

/-!
Where the two nodes of every fiber are, by the place of its code. The invariant of the
scheduler says so for each fiber on its own; a step moves the nodes of one fiber, and
`WakeUpNeeded` those of all fibers in an entry.
-/

namespace Yaclib.Fault.Fiber.Scheduler

open Concurrency Intrusive

variable {φ κ : Type}

/-- The heads of the lists outside of `NotifyAll`. -/
def Heads (keys : List UInt64) : Node φ κ → Prop
  | .queue | .wait _ => True
  | .sleep ns => ns ∈ keys
  | .all | .scheduler _ | .waitQueue _ => False

def Of (f : φ) : Node φ κ → Prop
  | .scheduler g | .waitQueue g => g = f
  | .queue | .wait _ | .sleep _ | .all => False

/-- The fiber runs, or it is in the run queue. -/
def Turn (s : State φ κ) (f : φ) (o : Option (Node φ κ)) : Prop :=
  s.control = .fiber f ∧ s.state f = .Running ∧ o = none ∨
    s.control ≠ .fiber f ∧ o = some .queue

def Asleep (s : State φ κ) (f : φ) (ns : UInt64) (o : Option (Node φ κ)) : Prop :=
  s.control ≠ .fiber f ∧ o = some (.sleep ns)

/-- Whose list the two nodes of the fiber are in; `q` are the heads of the lists of the fibers
that wait. -/
def Expected (q : κ → Node φ κ) (s : State φ κ) (f : φ) (o p : Option (Node φ κ)) : Prop :=
  match s.place f with
  | .fresh | .suspended | .exited => s.control ≠ .fiber f ∧ o = none ∧ p = none
  | .client => p = none ∧ Turn s f o
  | .sleep ns => p = none ∧ (Turn s f o ∨ Asleep s f ns o)
  | .wait k =>
    if s.removed f then p = none ∧ Turn s f o
    else p = some (q k) ∧ s.state f ≠ .Waiting ∧ s.control ≠ .fiber f ∧ o = none
  | .timedWait k _ deadline =>
    if s.removed f then p = none ∧ Turn s f o
    else p = some (q k) ∧ s.state f ≠ .Waiting ∧ (Turn s f o ∨ Asleep s f deadline o)

/-- The nodes of a fiber are where its place says; a wait node that a notifier took is
null. -/
structure Located (q : κ → Node φ κ) (heads : Node φ κ → Prop) (s : State φ κ)
    (L : Node φ κ → List (Node φ κ)) (f : φ) : Prop where
  position : ∃ o p, Only heads L (.scheduler f) o ∧ Only heads L (.waitQueue f) p ∧
    Expected q s f o p
  erased : ∀ k ns deadline, s.place f = .timedWait k ns deadline → s.removed f = true →
    s.heap.next (.waitQueue f) = none

/-- The pointers are the lists `L`, of nodes of fibers, and these are where they should be. -/
structure Tracked (q : κ → Node φ κ) (heads : Node φ κ → Prop) (s : State φ κ)
    (L : Node φ κ → List (Node φ κ)) : Prop where
  store : Store s.heap heads L
  bare : ∀ n f, Of f n → ¬ heads n
  nodes : ∀ a, heads a → ∀ n ∈ L a, ∃ f, Of f n
  loose : ∀ n f, Of f n → Only heads L n none → Loose s.heap n
  fiber : ∀ f, Located q heads s L f

/-- The step was none of the fiber's. -/
structure Untouched (s t : State φ κ) (g : φ) : Prop where
  place : t.place g = s.place g
  removed : t.removed g = s.removed g
  state : t.state g = s.state g
  control : t.control = .fiber g ↔ s.control = .fiber g

variable {q : κ → Node φ κ} {heads heads' : Node φ κ → Prop} {s t : State φ κ}
  {L L' : Node φ κ → List (Node φ κ)} {f g : φ} {n : Node φ κ} {o p : Option (Node φ κ)}

theorem Untouched.trans {u : State φ κ} (h : Untouched s t g) (h' : Untouched t u g) :
    Untouched s u g :=
  ⟨h'.place.trans h.place, h'.removed.trans h.removed, h'.state.trans h.state,
    h'.control.trans h.control⟩

theorem Expected.congr (h : Expected q s g o p) (hg : Untouched s t g) : Expected q t g o p := by
  unfold Expected Turn Asleep at *
  rw [hg.place, hg.removed, hg.state]
  simp only [ne_eq, hg.control] at *
  exact h

/-- The lists of waiting fibers have other heads. -/
theorem Expected.relocate {q' : κ → Node φ κ} {p' : Option (Node φ κ)}
    (h : Expected q s g o p) (hnone : p = none → p' = none)
    (hp : ∀ k, p = some (q k) → p' = some (q' k)) : Expected q' s g o p' := by
  unfold Expected at *
  cases hplace : s.place g with
  | fresh | suspended | exited =>
    simp only [hplace] at h
    exact ⟨h.1, h.2.1, hnone h.2.2⟩
  | client | sleep _ =>
    simp only [hplace] at h
    exact ⟨hnone h.1, h.2⟩
  | wait k | timedWait k _ _ =>
    simp only [hplace] at h
    dsimp only
    split at h
    · rename_i hremoved
      rw [if_pos hremoved]
      exact ⟨hnone h.1, h.2⟩
    · rename_i hremoved
      rw [if_neg hremoved]
      exact ⟨hp k h.1, h.2⟩

theorem Expected.of_client (hplace : t.place f = .client) (hturn : Turn t f o) :
    Expected q t f o none := by
  unfold Expected
  simp only [hplace]
  exact ⟨trivial, hturn⟩

theorem Expected.of_off (hplace : t.place f = .suspended ∨ t.place f = .exited)
    (hcontrol : t.control ≠ .fiber f) : Expected q t f none none := by
  unfold Expected
  rcases hplace with hplace | hplace
  · simp only [hplace]
    exact ⟨hcontrol, trivial, trivial⟩
  · simp only [hplace]
    exact ⟨hcontrol, trivial, trivial⟩

theorem Expected.of_woken {k : κ} (hplace : t.place f = .wait k ∨
    ∃ ns u, t.place f = .timedWait k ns u) (hremoved : t.removed f = true) (hturn : Turn t f o) :
    Expected q t f o none := by
  unfold Expected
  rcases hplace with hplace | ⟨ns, u, hplace⟩
  · simp only [hplace, hremoved, if_true]
    exact ⟨trivial, hturn⟩
  · simp only [hplace, hremoved, if_true]
    exact ⟨trivial, hturn⟩

theorem Expected.of_wait {k : κ} (hplace : t.place f = .wait k) (hremoved : t.removed f = false)
    (hstate : t.state f ≠ .Waiting) (hcontrol : t.control ≠ .fiber f) :
    Expected q t f none (some (q k)) := by
  unfold Expected
  simp only [hplace, hremoved]
  exact ⟨trivial, hstate, hcontrol, trivial⟩

theorem Expected.of_sleep {u : UInt64} (hplace : t.place f = .sleep u)
    (ho : Turn t f o ∨ Asleep t f u o) : Expected q t f o none := by
  unfold Expected
  simp only [hplace]
  exact ⟨trivial, ho⟩

theorem Expected.of_timedWait {k : κ} {ns u : UInt64} (hplace : t.place f = .timedWait k ns u)
    (hremoved : t.removed f = false) (hstate : t.state f ≠ .Waiting)
    (ho : Turn t f o ∨ Asleep t f u o) : Expected q t f o (some (q k)) := by
  unfold Expected
  simp only [hplace, hremoved]
  exact ⟨trivial, hstate, ho⟩

/-- A wait node is in the list of a waiting fiber, if in any. -/
theorem Expected.wait (h : Expected q s f o p) : p = none ∨ ∃ k, p = some (q k) := by
  unfold Expected at h
  cases hplace : s.place f with
  | fresh | suspended | exited =>
    simp only [hplace] at h
    exact .inl h.2.2
  | client | sleep _ =>
    simp only [hplace] at h
    exact .inl h.1
  | wait k | timedWait k _ _ =>
    simp only [hplace] at h
    split at h
    · exact .inl h.1
    · exact .inr ⟨k, h.1⟩

theorem Tracked.free (h : Tracked q heads s L) (hn : Of f n) (hnone : Only heads L n none) :
    Free heads L n :=
  hnone.free (h.bare n f hn)

/-- Where the wait node of a notified fiber is. -/
theorem Located.unlinked (h : Located q heads s L f) (hplace : ∃ k ns deadline,
    s.place f = .timedWait k ns deadline) (hremoved : s.removed f = true) :
    Only heads L (.waitQueue f) none := by
  obtain ⟨o, p, -, hp, hexpected⟩ := h.position
  obtain ⟨k, ns, deadline, hplace⟩ := hplace
  unfold Expected at hexpected
  simp only [hplace, hremoved, if_true] at hexpected
  rwa [hexpected.1] at hp

/-- The nodes of the other fibers are where they were. -/
def Carried (heads heads' : Node φ κ → Prop) (L L' : Node φ κ → List (Node φ κ)) (f : φ) : Prop :=
  ∀ n, ¬ Of f n → ∀ r, Only heads L n r → Only heads' L' n r

theorem Carried.back (hc : Carried heads heads' L L' f) {h : Heap (Node φ κ)}
    (hs : Store h heads L) (hn : ¬ Of f n) {r : Option (Node φ κ)} (hr : Only heads' L' n r) :
    Only heads L n r := by
  obtain ⟨r', hr'⟩ := hs.exists_only n
  have heq := (hc n hn r' hr').eq hr
  exact heq ▸ hr'

/-- Only nodes of the fiber `f` were moved, and they are in the lists of `o` and `p` now. -/
structure Shift (heads : Node φ κ → Prop) (h h' : Heap (Node φ κ))
    (L L' : Node φ κ → List (Node φ κ)) (f : φ) (o p : Option (Node φ κ)) : Prop where
  store : Store h' heads L'
  scheduler : Only heads L' (.scheduler f) o
  waitQueue : Only heads L' (.waitQueue f) p
  loose : ∀ n, Of f n → Only heads L' n none → Loose h' n
  others : Carried heads heads L L' f
  same : ∀ n, ¬ Of f n → Free heads L n → Same h h' n

section Shift

variable {h h' h'' : Heap (Node φ κ)} {L'' : Node φ κ → List (Node φ κ)}
  {o' p' : Option (Node φ κ)}

/-- Who is in a list now and is no node of the fiber was there before. -/
theorem Shift.mem (hs : Store h heads L) (hm : Shift heads h h' L L' f o p) {a : Node φ κ}
    (hn : ¬ Of f n) (ha : heads a) (hmem : n ∈ L' a) : n ∈ L a := by
  obtain ⟨r, hr⟩ := hs.exists_only n
  exact (hr.2 a ha).mpr ((hm.others n hn r hr).2 a ha |>.mp hmem)

theorem Shift.trans (hs : Store h heads L)
    (hm : Shift heads h h' L L' f o p) (hm' : Shift heads h' h'' L' L'' f o' p') :
    Shift heads h h'' L L'' f o' p' := by
  refine ⟨hm'.store, hm'.scheduler, hm'.waitQueue, hm'.loose, ?_, ?_⟩
  · intro n hn r hr
    exact hm'.others n hn r (hm.others n hn r hr)
  · intro n hn hfree
    have hmiddle : Free heads L' n := by
      intro a ha hmem
      rcases List.mem_cons.mp hmem with rfl | hmem
      · exact hfree n ha List.mem_cons_self
      · exact hfree a ha (List.mem_cons_of_mem a (hm.mem hs hn ha hmem))
    obtain ⟨hnext, hprev⟩ := hm.same n hn hfree
    obtain ⟨hnext', hprev'⟩ := hm'.same n hn hmiddle
    exact ⟨hnext'.trans hnext, hprev'.trans hprev⟩

theorem not_of {m : Node φ κ} (hm : ¬ Of f m) (hn : Of f n) : m ≠ n :=
  fun heq => hm (heq ▸ hn)

end Shift

/-- The scheduler node of a fiber moves. -/
theorem move_scheduler {h h' : Heap (Node φ κ)} (hbare : ∀ n, Of f n → ¬ heads n)
    (hloose : ∀ n, Of f n → Only heads L n none → Loose h n)
    (hp : Only heads L (.waitQueue f) p) (hm : Move h h' heads L L' (.scheduler f) o)
    (hnull : o = none → h'.next (.scheduler f) = none) : Shift heads h h' L L' f o p := by
  have hne : (Node.waitQueue f : Node φ κ) ≠ .scheduler f := by simp
  have hwait := hm.others _ hne p hp
  refine ⟨hm.store, hm.moved, hwait, ?_, ?_, ?_⟩
  · intro n hn hnone
    cases n with
    | scheduler g =>
      obtain rfl : g = f := hn
      exact .inl (hnull (hm.moved.eq hnone))
    | waitQueue g =>
      obtain rfl : g = f := hn
      obtain rfl := hwait.eq hnone
      obtain ⟨hnext, hprev⟩ := hm.same _ hne (hp.free (hbare _ (by exact rfl)))
      unfold Loose
      rw [hnext, hprev]
      exact hloose _ (by exact rfl) hp
    | queue | sleep _ | wait _ | all => cases hn
  · intro n hn
    exact hm.others n (not_of hn (by exact rfl))
  · intro n hn
    exact hm.same n (not_of hn (by exact rfl))

/-- The wait node of a fiber moves. -/
theorem move_waitQueue {h h' : Heap (Node φ κ)} (hbare : ∀ n, Of f n → ¬ heads n)
    (hloose : ∀ n, Of f n → Only heads L n none → Loose h n)
    (ho : Only heads L (.scheduler f) o) (hm : Move h h' heads L L' (.waitQueue f) p)
    (hnull : p = none → h'.next (.waitQueue f) = none) : Shift heads h h' L L' f o p := by
  have hne : (Node.scheduler f : Node φ κ) ≠ .waitQueue f := by simp
  have hsched := hm.others _ hne o ho
  refine ⟨hm.store, hsched, hm.moved, ?_, ?_, ?_⟩
  · intro n hn hnone
    cases n with
    | waitQueue g =>
      obtain rfl : g = f := hn
      exact .inl (hnull (hm.moved.eq hnone))
    | scheduler g =>
      obtain rfl : g = f := hn
      obtain rfl := hsched.eq hnone
      obtain ⟨hnext, hprev⟩ := hm.same _ hne (ho.free (hbare _ (by exact rfl)))
      unfold Loose
      rw [hnext, hprev]
      exact hloose _ (by exact rfl) ho
    | queue | sleep _ | wait _ | all => cases hn
  · intro n hn
    exact hm.others n (not_of hn (by exact rfl))
  · intro n hn
    exact hm.same n (not_of hn (by exact rfl))

/-- A step that moves the nodes of one fiber. -/
theorem Tracked.shift (h : Tracked q heads s L) (hm : Shift heads s.heap t.heap L L' f o p)
    (hothers : ∀ g, g ≠ f → Untouched s t g) (hexpected : Expected q t f o p)
    (herased : ∀ k ns deadline, t.place f = .timedWait k ns deadline → t.removed f = true →
      t.heap.next (.waitQueue f) = none) : Tracked q heads t L' := by
  have hfiber : ∀ g, g ≠ f → ∀ n : Node φ κ, Of g n → ¬ Of f n := by
    intro g hgf n hg hf
    cases n with
    | scheduler x | waitQueue x => exact hgf (Eq.trans (Eq.symm hg) hf)
    | queue | sleep _ | wait _ | all => cases hf
  refine ⟨hm.store, h.bare, ?_, ?_, ?_⟩
  · intro a ha n hn
    by_cases hof : Of f n
    · exact ⟨f, hof⟩
    · exact h.nodes a ha n (hm.mem h.store hof ha hn)
  · intro n g hn hnone
    by_cases hof : Of f n
    · exact hm.loose n hof hnone
    · have hold : Only heads L n none := hm.others.back h.store hof hnone
      obtain ⟨hnext, hprev⟩ := hm.same n hof (h.free hn hold)
      unfold Loose
      rw [hnext, hprev]
      exact h.loose n g hn hold
  · intro g
    by_cases hgf : g = f
    · subst hgf
      exact ⟨⟨o, p, hm.scheduler, hm.waitQueue, hexpected⟩, herased⟩
    · have hg := hothers g hgf
      obtain ⟨o', p', ho', hp', hold⟩ := (h.fiber g).position
      refine ⟨⟨o', p', hm.others _ (hfiber g hgf _ (by exact rfl)) _ ho',
        hm.others _ (hfiber g hgf _ (by exact rfl)) _ hp', hold.congr hg⟩, ?_⟩
      intro k ns deadline hplace hremoved
      rw [hg.place] at hplace
      rw [hg.removed] at hremoved
      have hfree := (h.fiber g).unlinked ⟨k, ns, deadline, hplace⟩ hremoved
      rw [(hm.same _ (hfiber g hgf _ (by exact rfl)) (h.free (f := g) (by exact rfl) hfree)).1]
      exact (h.fiber g).erased k ns deadline hplace hremoved

end Yaclib.Fault.Fiber.Scheduler
