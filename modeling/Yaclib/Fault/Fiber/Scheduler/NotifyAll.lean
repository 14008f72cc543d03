import Yaclib.Fault.Fiber.Scheduler.Notify

/-!
`NotifyAll`: the waiting fibers are moved to a local list, which is then emptied from its end.
-/

namespace Yaclib.Fault.Fiber.Scheduler

open Concurrency Intrusive

variable {φ κ : Type} {q : κ → Node φ κ} {heads : Node φ κ → Prop} {s t : State φ κ}
  {L L' : Node φ κ → List (Node φ κ)} {f g : φ}

/-- The local list was emptied. -/
structure Drained (q : κ → Node φ κ) (heads : Node φ κ → Prop) (s t : State φ κ)
    (L L' : Node φ κ → List (Node φ κ)) : Prop where
  tracked : Tracked q heads t L'
  timely : Timely heads s L → Timely heads t L'
  empty : L' .all = []
  place : t.place = s.place
  control : t.control = s.control
  time : t.time = s.time
  wakes : Wakes heads s t L L' fun g => .waitQueue g ∈ L .all

variable [DecidableEq φ] [DecidableEq κ]

theorem State.drain_empty (hempty : s.heap.empty .all = true) (fuel : Nat) :
    s.drain fuel = some s := by
  cases fuel with
  | zero => rw [State.drain, if_pos hempty]
  | succ fuel => rw [State.drain, if_pos hempty]

/-- The loop of `NotifyAll` ends after as many iterations as there are nodes. -/
theorem Tracked.drain (hq : ∀ k u, q k ≠ .sleep u) (hqueue : heads .queue) (hall : heads .all)
    (fuel : Nat) (h : Tracked q heads s L) (hheads : ∀ u ∈ s.sleep_list, heads (.sleep u))
    (hcalls : ∀ f, s.control = .fiber f → s.place f = .client) (hnext : s.control ≠ .next) :
    ((L .all).length ≤ fuel → ∃ t L', s.drain fuel = some t ∧ Drained q heads s t L L') ∧
      (fuel < (L .all).length → s.drain fuel = none) := by
  induction fuel generalizing s L with
  | zero =>
    have hiff := (h.store.list .all hall).empty_iff
    constructor
    · intro hlength
      have hempty : L .all = [] := List.length_eq_zero_iff.mp (Nat.le_zero.mp hlength)
      refine ⟨s, L, State.drain_empty (hiff.mpr hempty) 0, h, id, hempty, rfl, rfl, rfl, rfl, ?_, ?_⟩
      · intro g hg
        rw [hempty] at hg
        cases hg
      · exact fun _ _ => ⟨⟨rfl, rfl, rfl, Iff.rfl⟩, fun _ _ _ hr => hr⟩
    · intro hlength
      have hne : ¬ s.heap.empty .all = true := by
        rw [hiff, ← List.length_eq_zero_iff]
        omega
      rw [State.drain, if_neg hne]
  | succ fuel ih =>
    have hlist := h.store.list .all hall
    rcases List.eq_nil_or_concat (L .all) with hempty | ⟨l, n, hsplit⟩
    · refine ⟨fun _ => ⟨s, L, State.drain_empty (hlist.empty_iff.mpr hempty) _, h, id, hempty, rfl,
        rfl, rfl, rfl, ?_, ?_⟩, ?_⟩
      · intro g hg
        rw [hempty] at hg
        cases hg
      · exact fun _ _ => ⟨⟨rfl, rfl, rfl, Iff.rfl⟩, fun _ _ _ hr => hr⟩
      · simp [hempty]
    · rw [List.concat_eq_append] at hsplit
      have hn : n ∈ L .all := by simp [hsplit]
      obtain ⟨g, k, rfl, -, hin, hwaits⟩ := h.waiter hall trivial hn
      have hcontrol : s.control ≠ .fiber g := by
        intro hrun
        rcases hwaits.place with hplace | ⟨_, _, hplace⟩
        · exact absurd ((hcalls g hrun).symm.trans hplace) (by simp)
        · exact absurd ((hcalls g hrun).symm.trans hplace) (by simp)
      obtain ⟨heap, L₁, hremove, hm, hnull⟩ := h.remove hqueue hin hwaits.state
      have h₁ := h.notified hwaits hcontrol hm hnull
      have hperm := h.perm_of_shift hall trivial hin hm
      have hlength : (L .all).length = (L₁ .all).length + 1 := by
        rw [hperm.length_eq, List.length_cons]
      have hstep : s.drain (fuel + 1) = (s.notified g heap).drain fuel := by
        have hne : ¬ s.heap.empty .all = true := by
          rw [hlist.empty_iff, hsplit]
          simp
        rw [hsplit] at hlist
        rw [State.drain, if_neg hne, hlist.popBack, Option.bind_some]
        dsimp only
        rw [hremove, Option.bind_some]
      obtain ⟨henough, hnone⟩ := ih h₁ hheads hcalls hnext
      rw [hstep]
      refine ⟨?_, fun hless => hnone (by omega)⟩
      intro hle
      obtain ⟨t, L', hdrain, hd⟩ := henough (by omega)
      refine ⟨t, L', hdrain, hd.tracked, ?_, hd.empty, hd.place, hd.control, hd.time,
        hm.wakes.trans hd.wakes ?_⟩
      · intro hon
        exact hd.timely (hon.notified h hq hheads hnext hwaits hm)
      · intro f
        rw [hperm.mem_iff, List.mem_cons, Node.waitQueue.injEq]

/-- The wait queue is moved to the local list. -/
theorem Listed.gather (h : Listed s L) (k : κ) :
    ∃ heap L', (if (s.heap.construct .all).empty (.wait k) then some (s.heap.construct .all)
        else (s.heap.construct .all).assign .all (.wait k)) = some heap ∧
      heap.construct (.wait k) = heap ∧ L' .all = L (.wait k) ∧ L' (.wait k) = [] ∧
      Relist (Heads s.sleep_list) (fun a => Heads s.sleep_list a ∨ a = .all) s.heap heap L L'
        (fun r => if r = some (.wait k) then some .all else r) := by
  have hr := h.relist_construct (a := .all) id fun _ => id
  obtain ⟨s₁, hs₁⟩ : ∃ s₁ : State φ κ, s₁ = { s with heap := s.heap.construct .all } := ⟨_, rfl⟩
  have hheap : s.heap.construct .all = s₁.heap := by rw [hs₁]
  rw [hheap] at hr
  have h₁ : Tracked Node.wait (fun a => Heads s.sleep_list a ∨ a = .all) s₁
      (Function.update L .all []) := by
    refine h.relist hr (by rw [hs₁]) (by rw [hs₁]) ?_
    intro f o p _ _ hexpected
    refine hexpected.congr ?_
    rw [hs₁]
    exact ⟨rfl, rfl, rfl, Iff.rfl⟩
  obtain ⟨L₁, hL₁⟩ : ∃ L₁, L₁ = Function.update L .all [] := ⟨_, rfl⟩
  have hall : L₁ .all = [] := by rw [hL₁, Function.update_self]
  have hwait : L₁ (.wait k) = L (.wait k) := by rw [hL₁, Function.update_of_ne (by simp)]
  rw [← hL₁] at h₁ hr
  have hjoin : ∃ heap, (if s₁.heap.empty (.wait k) then some s₁.heap
        else s₁.heap.assign .all (.wait k)) = some heap ∧
      Store heap (fun a => Heads s.sleep_list a ∨ a = .all) (Function.update
        (Function.update L₁ .all (L₁ .all ++ L₁ (.wait k))) (.wait k) []) ∧
      ∀ n, Free (fun a => Heads s.sleep_list a ∨ a = .all) L₁ n → Same s₁.heap heap n := by
    have hiff := (h₁.store.list (.wait k) (.inl trivial)).empty_iff
    by_cases hempty : L₁ (.wait k) = []
    · refine ⟨s₁.heap, if_pos (hiff.mpr hempty), ?_, fun _ _ => ⟨rfl, rfl⟩⟩
      have hsame : Function.update (Function.update L₁ .all (L₁ .all ++ L₁ (.wait k))) (.wait k) []
          = L₁ := by
        rw [hall, hempty, List.append_nil, ← hall, Function.update_eq_self, hall, ← hempty,
          Function.update_eq_self]
      rw [hsame]
      exact h₁.store
    · have hhead : Heads s.sleep_list (.wait k : Node φ κ) := trivial
      obtain ⟨heap, hassign, hstore, hsame⟩ :=
        h₁.store.assign (.inr rfl) (.inl hhead) (by simp) hall
      refine ⟨heap, ?_, ?_, hsame⟩
      · rw [if_neg (mt hiff.mp hempty), hassign]
      · rw [hall, List.nil_append]
        exact hstore
  obtain ⟨heap, hmoved, hstore, hsame⟩ := hjoin
  rw [hheap]
  refine ⟨heap, _, hmoved, ?_, ?_, Function.update_self _ _ _,
    hr.trans (h₁.relist_join (b := .wait k) (.inr rfl) (.inl trivial) (by simp) hstore hsame)⟩
  · have hnil := hstore.list (.wait k) (.inl trivial)
    rw [Function.update_self] at hnil
    exact hnil.construct_nil
  · rw [Function.update_of_ne (by simp), Function.update_self, hall, hwait, List.nil_append]

/-- `NotifyAll` -/
theorem Listed.notifyAll (h : Listed s L) (hcalls : ∀ f, s.control = .fiber f → s.place f = .client)
    (hnext : s.control ≠ .next) (k : κ) (fuel : Nat) :
    ((L (.wait k)).length ≤ fuel → ∃ t L', s.notifyAll k fuel = some t ∧ t.time = s.time ∧
      Listed t L' ∧ (OnTime s L → OnTime t L') ∧ L' (.wait k) = [] ∧
      Wakes (Heads s.sleep_list) s t L L' fun g => .waitQueue g ∈ L (.wait k)) ∧
    (fuel < (L (.wait k)).length → s.notifyAll k fuel = none) := by
  obtain ⟨heap, L₁, hmoved, hnil, hall, hwait, hr⟩ := h.gather k
  obtain ⟨s₁, hs₁⟩ : ∃ s₁ : State φ κ, s₁ = { s with heap := heap } := ⟨_, rfl⟩
  have hstep : s.notifyAll k fuel = s₁.drain fuel := by
    unfold State.notifyAll
    dsimp only
    rw [hmoved, Option.bind_some, hnil, hs₁]
  have hheap : heap = s₁.heap := by rw [hs₁]
  rw [hheap] at hr
  have huntouched : ∀ g, Untouched s s₁ g := by
    intro g
    rw [hs₁]
    exact ⟨rfl, rfl, rfl, Iff.rfl⟩
  have h₁ : Tracked (Function.update Node.wait k .all) (fun a => Heads s.sleep_list a ∨ a = .all)
      s₁ L₁ := by
    refine h.relist hr (by rw [hs₁]) (by rw [hs₁]) ?_
    intro f o p ho _ hexpected
    have hne : o ≠ some (.wait k) := by
      rintro rfl
      obtain ⟨_, _, heq, -⟩ := h.waiter (a := .wait k) trivial trivial ho.mem
      cases heq
    rw [if_neg hne]
    refine (hexpected.congr (huntouched f)).relocate ?_ ?_
    · rintro rfl
      simp
    · rintro k' rfl
      by_cases hk : k' = k
      · rw [hk, if_pos rfl, Function.update_self]
      · rw [if_neg (by simpa using hk), Function.update_of_ne hk]
  have hq : ∀ k' u, Function.update Node.wait k .all k' ≠ (.sleep u : Node φ κ) := by
    intro k' u
    by_cases hk : k' = k
    · rw [hk, Function.update_self]
      simp
    · rw [Function.update_of_ne hk]
      simp
  have hkeys₁ : s₁.sleep_list = s.sleep_list := by rw [hs₁]
  have hcontrol₁ : s₁.control = s.control := by rw [hs₁]
  have hplace₁ : s₁.place = s.place := by rw [hs₁]
  obtain ⟨henough, hnone⟩ := h₁.drain hq (.inl trivial) (.inr rfl) fuel
    (fun u hu => .inl (hkeys₁ ▸ hu)) (by rw [hcontrol₁, hplace₁]; exact hcalls)
    (by rw [hcontrol₁]; exact hnext)
  rw [hstep, ← hall]
  refine ⟨?_, hnone⟩
  intro hle
  obtain ⟨t, L', hdrain, hd⟩ := henough hle
  have hr' : Relist (fun a => Heads s.sleep_list a ∨ a = .all) (Heads s.sleep_list) t.heap t.heap
      L' L' id := by
    apply hd.tracked.relist_mono
    · exact fun a => .inl
    · rintro a (ha | rfl) hne
      · exact ha
      · exact absurd hd.empty hne
  have ht : Tracked Node.wait (Heads s.sleep_list) t L' := by
    refine hd.tracked.relist hr' rfl rfl ?_
    intro f o p _ hp hexpected
    refine hexpected.relocate id ?_
    rintro k' rfl
    by_cases hk : k' = k
    · rw [hk, Function.update_self] at hp
      have hmem := hp.mem
      rw [hd.empty] at hmem
      cases hmem
    · rw [Function.update_of_ne hk]
      rfl
  have hkeys : t.sleep_list = s.sleep_list := hd.wakes.sleep_list.trans hkeys₁
  have hin : ∀ n r, r ≠ some (.wait k) → Only (Heads s.sleep_list) L n r →
      Only (fun a => Heads s.sleep_list a ∨ a = .all) L₁ n r := by
    intro n r hne hn
    have hn' := hr.only n r hn
    rwa [if_neg hne] at hn'
  have htime : t.time = s.time := by rw [hd.time, hs₁]
  refine ⟨t, L', hdrain, htime, ?_, ?_, ?_, hkeys, ?_, ?_⟩
  · unfold Listed
    rw [hkeys]
    exact ht
  · intro hon
    unfold OnTime
    rw [hkeys]
    have hon₁ : Timely (fun a => Heads s.sleep_list a ∨ a = .all) s₁ L₁ := by
      refine hon.relist h.store hr hplace₁ (by rw [hs₁]) hcontrol₁ hkeys₁ (by rw [hs₁]) hnext
        (fun u hu => hu) ?_ (by simp)
      intro r hr
      split at hr
      · cases hr
      · exact hr
    refine (hd.timely hon₁).relist hd.tracked.store hr' rfl rfl rfl rfl rfl ?_ ?_ (by simp) (by simp)
    · rw [hd.control, hcontrol₁]
      exact hnext
    · intro u hu
      rw [hkeys] at hu
      exact .inl hu
  · by_contra hne
    obtain ⟨n, hn⟩ := List.exists_mem_of_ne_nil _ hne
    obtain ⟨g, k', rfl, -, hwaits, -⟩ := ht.waiter (a := .wait k) trivial trivial hn
    by_cases hg : .waitQueue g ∈ L₁ .all
    · obtain ⟨-, hout, -⟩ := hd.wakes.woken g hg
      cases hwaits.eq (hr'.only _ _ hout)
    · obtain ⟨-, hkept⟩ := hd.wakes.others g hg
      obtain ⟨r, hr₁⟩ := h₁.store.exists_only (.waitQueue g)
      obtain rfl : some (.wait k) = r := hwaits.eq (hr'.only _ _ (hkept _ (by exact rfl) r hr₁))
      have hmem := hr₁.mem
      rw [hwait] at hmem
      cases hmem
  · intro g hg
    obtain ⟨hsched, hout, hremoved⟩ := hd.wakes.woken g hg
    exact ⟨hr'.only _ _ hsched, hr'.only _ _ hout, hremoved⟩
  · intro g hg
    obtain ⟨hg', hkept⟩ := hd.wakes.others g hg
    refine ⟨(huntouched g).trans hg', ?_⟩
    intro n hn r hnr
    refine hr'.only _ _ (hkept n hn r (hin n r ?_ hnr))
    rintro rfl
    obtain ⟨x, _, rfl, -⟩ := h.waiter (a := .wait k) trivial trivial hnr.mem
    obtain rfl : x = g := hn
    exact hg (hall.symm ▸ hnr.mem)

end Yaclib.Fault.Fiber.Scheduler
