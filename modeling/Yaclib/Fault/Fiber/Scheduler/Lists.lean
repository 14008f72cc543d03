import Yaclib.Fault.Fiber.Scheduler.Timely

/-!
What happens to whole lists: one is made, joined to another, or removed when it is empty. No
fiber does anything then, but its nodes can be in the list of another head.
-/

namespace Yaclib.Fault.Fiber.Scheduler

open Concurrency Intrusive

variable {φ κ : Type} {q q' : κ → Node φ κ} {heads heads' : Node φ κ → Prop} {s t : State φ κ}
  {L L' : Node φ κ → List (Node φ κ)} {a b : Node φ κ}
  {σ : Option (Node φ κ) → Option (Node φ κ)}

/-- `σ` says which list the nodes of a list are in now. -/
structure Relist (heads heads' : Node φ κ → Prop) (h h' : Heap (Node φ κ))
    (L L' : Node φ κ → List (Node φ κ)) (σ : Option (Node φ κ) → Option (Node φ κ)) : Prop where
  store : Store h' heads' L'
  bare : ∀ n f, Of f n → ¬ heads' n
  only : ∀ n r, Only heads L n r → Only heads' L' n (σ r)
  none_iff : ∀ r, σ r = none ↔ r = none
  same : ∀ n f, Of f n → Only heads L n none → Same h h' n

theorem Relist.back (hs : Store s.heap heads L) (hr : Relist heads heads' s.heap t.heap L L' σ)
    {n : Node φ κ} {r : Option (Node φ κ)} (hn : Only heads' L' n r) :
    ∃ r', Only heads L n r' ∧ r = σ r' := by
  obtain ⟨r', hr'⟩ := hs.exists_only n
  exact ⟨r', hr', hn.eq (hr.only n r' hr')⟩

theorem Relist.trans {h h' h'' : Heap (Node φ κ)} {heads'' : Node φ κ → Prop}
    {L'' : Node φ κ → List (Node φ κ)} {τ : Option (Node φ κ) → Option (Node φ κ)}
    (hr : Relist heads heads' h h' L L' σ) (hr' : Relist heads' heads'' h' h'' L' L'' τ) :
    Relist heads heads'' h h'' L L'' (τ ∘ σ) := by
  refine ⟨hr'.store, hr'.bare, fun n r hn => hr'.only n _ (hr.only n r hn), ?_, ?_⟩
  · intro r
    exact (hr'.none_iff (σ r)).trans (hr.none_iff r)
  · intro n f hn hnone
    obtain ⟨hnext, hprev⟩ := hr.same n f hn hnone
    have hout := hr.only n none hnone
    rw [(hr.none_iff none).mpr rfl] at hout
    obtain ⟨hnext', hprev'⟩ := hr'.same n f hn hout
    exact ⟨hnext'.trans hnext, hprev'.trans hprev⟩

theorem Tracked.relist (h : Tracked q heads s L) (hr : Relist heads heads' s.heap t.heap L L' σ)
    (hplace : t.place = s.place) (hremoved : t.removed = s.removed)
    (hexpected : ∀ f o p, Only heads L (.scheduler f) o → Only heads L (.waitQueue f) p →
      Expected q s f o p → Expected q' t f (σ o) (σ p)) : Tracked q' heads' t L' := by
  have hnone : ∀ n, Only heads' L' n none → Only heads L n none := by
    intro n hn
    obtain ⟨r, hold, heq⟩ := hr.back h.store hn
    exact (hr.none_iff r).mp heq.symm ▸ hold
  refine ⟨hr.store, hr.bare, ?_, ?_, ?_⟩
  · intro a ha n hn
    obtain ⟨r, hold⟩ := h.store.exists_only n
    cases r with
    | some b => exact h.nodes b (hold.1 b rfl) n hold.mem
    | none =>
      have hnew := ((hr.only n none hold).2 a ha).mp hn
      rw [(hr.none_iff none).mpr rfl] at hnew
      cases hnew
  · intro n f hn hfree
    obtain ⟨hnext, hprev⟩ := hr.same n f hn (hnone n hfree)
    unfold Loose
    rw [hnext, hprev]
    exact h.loose n f hn (hnone n hfree)
  · intro f
    obtain ⟨o, p, ho, hp, hold⟩ := (h.fiber f).position
    refine ⟨⟨σ o, σ p, hr.only _ _ ho, hr.only _ _ hp, hexpected f o p ho hp hold⟩, ?_⟩
    intro k ns deadline htimed hnotified
    rw [hplace] at htimed
    rw [hremoved] at hnotified
    have hout := (h.fiber f).unlinked ⟨k, ns, deadline, htimed⟩ hnotified
    rw [(hr.same _ f (by exact rfl) hout).1]
    exact (h.fiber f).erased k ns deadline htimed hnotified

/-- Time, where no fiber has entered or left an entry or the run queue. -/
theorem Timely.relist (hon : Timely heads s L) (hs : Store s.heap heads L)
    (hr : Relist heads heads' s.heap t.heap L L' σ) (hplace : t.place = s.place)
    (hremoved : t.removed = s.removed) (hcontrol : t.control = s.control)
    (hkeys : t.sleep_list = s.sleep_list) (htime : t.time = s.time)
    (hrunning : s.control ≠ .next) (hheads : ∀ u ∈ s.sleep_list, heads (.sleep u))
    (hqueue : ∀ r, σ r = some .queue → r = some .queue)
    (hsleep : ∀ u, σ (some (.sleep u)) = some (.sleep u)) : Timely heads' t L' := by
  constructor
  · refine ⟨hkeys ▸ hon.punctual.sorted, ?_, ?_, ?_, ?_⟩
    · intro f u huntil hturn
      unfold Until at huntil
      rw [hplace, hremoved] at huntil
      rw [htime]
      apply hon.punctual.due f u huntil
      rw [hcontrol] at hturn
      refine hturn.imp_right ?_
      intro hin
      obtain ⟨r, hold, heq⟩ := hr.back hs hin
      exact hqueue r heq.symm ▸ hold
    · intro f k ns u htimed
      exact hon.punctual.delay f k ns u (hplace ▸ htimed)
    · intro hnext
      exact absurd (hcontrol ▸ hnext) hrunning
    · intro f k ns u hrun htimed hlate
      rw [hcontrol] at hrun
      rw [hplace] at htimed
      rw [htime] at hlate
      rw [hkeys]
      exact hon.punctual.found f k ns u hrun htimed hlate
  · intro u hu hempty
    rw [hkeys] at hu
    have hold : L (.sleep u) = [] := by
      by_contra hne
      obtain ⟨n, hn⟩ := List.exists_mem_of_ne_nil _ hne
      obtain ⟨r, hin⟩ := hs.exists_only n
      obtain rfl : r = some (.sleep u) := (hin.2 _ (hheads u hu)).mp hn
      have hin' := hr.only n _ hin
      rw [hsleep u] at hin'
      have hmem := hin'.mem
      rw [hempty] at hmem
      cases hmem
    unfold Woken
    rw [htime, hplace, hremoved]
    exact hon.swept u hu hold

/-- Lists that are empty are no longer there. -/
theorem Tracked.relist_mono (h : Tracked q heads s L) (hsub : ∀ a, heads' a → heads a)
    (hkeep : ∀ a, heads a → L a ≠ [] → heads' a) : Relist heads heads' s.heap s.heap L L id :=
  ⟨h.store.mono hsub, fun n f hn hhead => h.bare n f hn (hsub n hhead),
    fun _ _ hr => hr.mono hsub hkeep, fun _ => Iff.rfl, fun _ _ _ _ => ⟨rfl, rfl⟩⟩

/-- A step of no fiber that moves no node. -/
theorem Tracked.same (h : Tracked q heads s L) (hheap : t.heap = s.heap)
    (hothers : ∀ g, Untouched s t g) : Tracked q heads t L := by
  have hr : Relist heads heads s.heap t.heap L L id := by
    rw [hheap]
    exact h.relist_mono (fun _ => id) (fun _ ha _ => ha)
  refine h.relist hr (funext fun g => (hothers g).place) (funext fun g => (hothers g).removed) ?_
  intro f o p _ _ hexpected
  exact hexpected.congr (hothers f)

variable [DecidableEq φ] [DecidableEq κ]

/-- A new list. -/
theorem Tracked.relist_construct (h : Tracked q heads s L) (ha : ¬ heads a)
    (hof : ∀ f, ¬ Of f a) :
    Relist heads (fun b => heads b ∨ b = a) s.heap (s.heap.construct a) L
      (Function.update L a []) id := by
  have hfree : Free heads L a := by
    intro b hb hmem
    rcases List.mem_cons.mp hmem with rfl | hmem
    · exact ha hb
    · obtain ⟨f, hf⟩ := h.nodes b hb _ hmem
      exact hof f hf
  obtain ⟨hstore, hsame⟩ := h.store.construct hfree
  refine ⟨hstore, ?_, fun n r hr => hr.construct hfree, fun _ => Iff.rfl, ?_⟩
  · rintro n f hn (hhead | rfl)
    · exact h.bare n f hn hhead
    · exact hof f hn
  · intro n f hn _
    apply hsame
    rintro rfl
    exact hof f hn

/-- The nodes of `b` are in the list of `a` now. -/
theorem Tracked.relist_join (h : Tracked q heads s L) (ha : heads a) (hb : heads b) (hab : a ≠ b)
    {heap : Heap (Node φ κ)}
    (hstore : Store heap heads (Function.update (Function.update L a (L a ++ L b)) b []))
    (hsame : ∀ n, Free heads L n → Same s.heap heap n) :
    Relist heads heads s.heap heap L (Function.update (Function.update L a (L a ++ L b)) b [])
      (fun r => if r = some b then some a else r) := by
  refine ⟨hstore, h.bare, fun n r hr => hr.join ha hb hab, ?_, ?_⟩
  · intro r
    split
    · rename_i hr
      simp [hr]
    · rfl
  · intro n f hn hnone
    exact hsame n (h.free hn hnone)

end Yaclib.Fault.Fiber.Scheduler
