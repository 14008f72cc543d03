import Mathlib.Data.Fintype.EquivFin
import Yaclib.Coro.Mutex.Invariant

/-!
Every step of the mutex keeps its invariant.
-/

namespace Yaclib.Mutex

open Concurrency

variable {ι E : Type}
variable {cfg : Config} {s t v : State ι E} {a b : Actor ι} {i n : ι} {p : Pc ι E}
variable {u u' : Unlock ι E} {o : Option (Unlock ι E)} {k : Kind E}

section Put

theorem unlockAt_congr (hpc : v.pc = s.pc) (hdetached : v.detached = s.detached) :
    v.unlockAt a = s.unlockAt a := by
  cases a <;> simp [State.unlockAt, hpc, hdetached]

theorem good_congr (hreceiver : t.receiver = s.receiver) (hsender : t.sender = s.sender) :
    t.Good u ↔ s.Good u := by
  cases u <;> simp [State.Good, hreceiver, hsender]

end Put

/-- The order in which the coroutines that one exchange takes become owners;
`batch` are their pushes. -/
def Config.serve (cfg : Config) (batch : List ι) : List ι :=
  if cfg.fifo then batch else batch.reverse

theorem Config.count_serve [BEq ι] (cfg : Config) (batch : List ι) (m : ι) :
    (cfg.serve batch).count m = batch.count m := by
  unfold Config.serve
  split
  · rfl
  · exact List.count_reverse

theorem Pc.eq_waiting (h : 0 < p.parked) : p = .waiting := by
  cases p <;> simp at h ⊢

variable [DecidableEq ι]

section Put

@[simp] theorem put_sender : (s.put a o).sender = s.sender := by cases a <;> cases o <;> rfl
@[simp] theorem put_receiver : (s.put a o).receiver = s.receiver := by cases a <;> cases o <;> rfl
@[simp] theorem put_next : (s.put a o).next = s.next := by cases a <;> cases o <;> rfl
@[simp] theorem put_parks : (s.put a o).parks = s.parks := by cases a <;> cases o <;> rfl
@[simp] theorem put_wakes : (s.put a o).wakes = s.wakes := by cases a <;> cases o <;> rfl
@[simp] theorem put_asserts : (s.put a o).asserts = s.asserts := by cases a <;> cases o <;> rfl
@[simp] theorem put_derefs : (s.put a o).derefs = s.derefs := by cases a <;> cases o <;> rfl

end Put

variable [Fintype ι]

/-! `put` only moves the unlock. -/

theorem Inv.tokens_le (h : Inv s) : s.tokens ≤ 1 := by
  rw [h.tokens_eq]
  split <;> omega

/-- An unlock holds the token, so the mutex is locked. -/
theorem Inv.locked (h : Inv s) (ha : s.unlockAt a = some u) : s.sender ≠ .kNotLocked := by
  intro hopen
  have htokens := h.tokens_eq
  have hnone := tokens_put_none ha
  rw [if_pos hopen] at htokens
  omega

/-- A step of the unlock `u` at `a` that changes the words of the mutex and the
links of the nodes, and resumes nobody. -/
theorem Inv.put (h : Inv s) (ha : s.unlockAt a = some u) (hpc : v.pc = s.pc)
    (hdetached : v.detached = s.detached) (hparks : v.parks = s.parks) (hwakes : v.wakes = s.wakes)
    (hsender : v.sender = .kNotLocked ↔ o = none)
    (hqueued : ∃ xs ys, Chain v.next v.sender.toPtr xs ∧ Chain v.next v.receiver ys ∧
      ∀ n, xs.count n + ys.count n + s.owed n + owes? o n = (s.pc n).parked + u.owes n)
    (hopen : v.sender = .kNotLocked → v.receiver = none) (hgood : ∀ u', o = some u' → v.Good u')
    (hasserts : v.asserts = true) (hderefs : v.derefs = true) : Inv (v.put a o) := by
  have hva : v.unlockAt a = some u := (unlockAt_congr hpc hdetached).trans ha
  have htokens : v.tokens = s.tokens := by simp only [State.tokens, hpc, hdetached]
  have howed : ∀ n, v.owed n = s.owed n := by
    intro n
    simp only [State.owed, hpc, hdetached]
  have hone : s.tokens = 1 := by
    rw [h.tokens_eq, if_neg (h.locked ha)]
  obtain ⟨xs, ys, hxs, hys, hcount⟩ := hqueued
  refine ⟨?_, ⟨xs, ys, ?_, ?_, ?_⟩, ?_, ?_, ?_, ?_, ?_⟩
  · rw [put_sender]
    cases o with
    | none =>
      have hnone := tokens_put_none hva
      rw [if_pos (hsender.mpr rfl)]
      omega
    | some u' =>
      have hlocked : v.sender ≠ .kNotLocked := fun heq => by simpa using hsender.mp heq
      rw [tokens_put_some hva, if_neg hlocked, htokens, hone]
  · simpa using hxs
  · simpa using hys
  · intro n
    have hput := owed_put (o := o) hva n
    have hn := hcount n
    rw [parked_put hva, hpc]
    rw [howed] at hput
    omega
  · simpa using hopen
  · intro b u' hb
    have hsole := unlockAt_put (by omega) hva hb
    exact (good_congr put_receiver put_sender).mpr (hgood u' hsole)
  · intro i
    rw [parked_put hva, put_parks, put_wakes, hparks, hwakes, hpc]
    exact h.wakes_eq i
  · simpa using hasserts
  · simpa using hderefs

/-- A step of the unlock `u` at `a` that only looks at the mutex. -/
theorem Inv.look (h : Inv s) (ha : s.unlockAt a = some u) (howes : ∀ n, u'.owes n = u.owes n)
    (hgood : s.Good u') : Inv (s.put a (some u')) := by
  obtain ⟨xs, ys, hxs, hys, hcount⟩ := h.queued
  refine h.put ha rfl rfl rfl rfl (by simp [h.locked ha]) ⟨xs, ys, hxs, hys, fun n => ?_⟩
    h.open_eq ?_ h.asserts_eq h.derefs_eq
  · simp only [owes?, Option.elim, howes]
    have hn := hcount n
    omega
  · intro u'' heq
    cases heq
    exact hgood

theorem Inv.some_waiter (h : Inv s) (ha : s.unlockAt a = some u)
    (hwaiters : s.sender ≠ kLockedNoWaiters) : ∃ n, s.sender = .ptr (some n) := by
  have hlocked := h.locked ha
  cases hsender : s.sender with
  | kNotLocked => contradiction
  | ptr p =>
    cases p with
    | none => exact absurd hsender hwaiters
    | some n => exact ⟨n, rfl⟩

theorem Inv.tryUnlock (h : Inv s) (ha : s.unlockAt a = some (.tryUnlock k)) :
    Inv (unlockStep cfg s a (.tryUnlock k)) := by
  have hcheck : s.check (s.sender ≠ .kNotLocked) = s := by
    simp [State.check, h.locked ha]
  simp only [unlockStep, hcheck]
  apply h.look ha
  · intro n
    split <;> rfl
  · split
    · next hreceiver =>
      intro hnone
      contradiction
    · next hreceiver => exact not_not.mp hreceiver

theorem Inv.load (h : Inv s) (ha : s.unlockAt a = some (.load k)) :
    Inv (unlockStep cfg s a (.load k)) := by
  have hreceiver : s.receiver = none := h.good a _ ha
  simp only [unlockStep]
  apply h.look ha
  · intro n
    split <;> rfl
  · split
    · exact hreceiver
    · next hwaiters =>
      intro _
      exact h.some_waiter ha hwaiters

theorem Inv.swap (h : Inv s) (ha : s.unlockAt a = some (.swap k)) :
    Inv (unlockStep cfg s a (.swap k)) := by
  have hreceiver : s.receiver = none := h.good a _ ha
  simp only [unlockStep]
  split
  · next hsender =>
    obtain ⟨xs, ys, hxs, hys, hcount⟩ := h.queued
    rw [hsender] at hxs
    rw [hreceiver] at hys
    obtain rfl := hxs.of_none
    obtain rfl := hys.of_none
    refine h.put ha rfl rfl rfl rfl (by simp) ⟨[], [], .nil, ?_, fun n => ?_⟩ (fun _ => hreceiver)
      (by simp) h.asserts_eq h.derefs_eq
    · rw [hreceiver]
      exact .nil
    · have hn := hcount n
      simpa [owes?] using hn
  · next hwaiters =>
    apply h.look ha
    · intro n
      rfl
    · intro _
      exact h.some_waiter ha hwaiters

/-! The hand-off. -/

/-- `GetHead` finds the head of the chain that is the receiver from now on: the
one that `_receiver` led to, or what the exchange took, in the order of service.
It only dereferences nodes. -/
theorem getHead_chain (cfg : Config) {xs ys : List ι} (hxs : Chain s.next s.sender.toPtr xs)
    (hys : Chain s.next s.receiver ys) (hnodup : xs.Nodup)
    (hwaiter : s.receiver = none → ∃ n, s.sender = .ptr (some n)) :
    ∃ n rest v, getHead cfg s = some (n, v) ∧ v = { s with sender := v.sender, next := v.next } ∧
      Chain v.next (some n) (n :: rest) ∧
      (s.receiver ≠ none ∧ v = s ∧ n :: rest = ys ∨
        s.receiver = none ∧ ys = [] ∧ v.sender = kLockedNoWaiters ∧
          n :: rest = cfg.serve xs.reverse) := by
  obtain ⟨n, hreceiver⟩ | hreceiver := (Option.eq_none_or_eq_some s.receiver).symm
  · rw [hreceiver] at hys
    obtain ⟨rest, rfl, -⟩ := hys.of_some
    exact ⟨n, rest, s, by simp [getHead, hreceiver], rfl, hys, .inl ⟨by simp [hreceiver], rfl, rfl⟩⟩
  · obtain ⟨node, hsender⟩ := hwaiter hreceiver
    rw [hsender] at hxs
    rw [hreceiver] at hys
    obtain rfl := hys.of_none
    cases hfifo : cfg.fifo with
    | true =>
      obtain ⟨next', head, hloop, hchain, -⟩ :=
        reverseLoop_chain hxs (.nil : Chain s.next none []) (by simpa using hnodup)
          hnodup.length_le_card
      rw [List.append_nil] at hchain
      obtain ⟨rest, hrest, -⟩ := hchain.of_some
      rw [hrest] at hchain
      refine ⟨head, rest, { s with sender := kLockedNoWaiters, next := next' }, ?_, rfl, hchain,
        .inr ⟨hreceiver, rfl, rfl, ?_⟩⟩
      · simp [getHead, hreceiver, hsender, hfifo, hloop]
      · rw [← hrest, Config.serve, hfifo, if_pos rfl]
    | false =>
      obtain ⟨rest, rfl, -⟩ := hxs.of_some
      refine ⟨node, rest, { s with sender := kLockedNoWaiters }, ?_, rfl, hxs,
        .inr ⟨hreceiver, rfl, rfl, ?_⟩⟩
      · simp [getHead, hreceiver, hsender, hfifo]
      · simp [Config.serve, hfifo]

/-- `GetHead` loses no node. -/
theorem Inv.getHead (h : Inv s) (cfg : Config) (ha : s.unlockAt a = some (.slow k)) :
    ∃ n v xs ys, getHead cfg s = some (n, v) ∧
      v = { s with sender := v.sender, next := v.next } ∧ v.sender ≠ .kNotLocked ∧
      Chain v.next v.sender.toPtr xs ∧ Chain v.next (some n) (n :: ys) ∧
      ∀ m, xs.count m + (n :: ys).count m + s.owed m = (s.pc m).parked := by
  obtain ⟨xs, ys, hqueued⟩ := h.queued
  have hnodup := hqueued.nodup
  obtain ⟨hxs, hys, hcount⟩ := hqueued
  obtain ⟨n, rest, v, hhead, hv, hchain, hcase⟩ :=
    getHead_chain cfg hxs hys hnodup (h.good a _ ha)
  rcases hcase with ⟨-, rfl, rfl⟩ | ⟨-, rfl, hsender, hserve⟩
  · exact ⟨n, v, xs, rest, hhead, hv, h.locked ha, hxs, hchain, hcount⟩
  · refine ⟨n, v, [], rest, hhead, hv, by simp [hsender, kLockedNoWaiters], ?_, hchain, ?_⟩
    · rw [hsender]
      exact .nil
    · intro m
      have hm := hcount m
      rw [hserve, Config.count_serve, List.count_reverse]
      simpa [Nat.add_comm] using hm

theorem Inv.unlockSlow (h : Inv s) (ha : s.unlockAt a = some (.slow k)) :
    Inv (unlockSlow cfg s a k) := by
  obtain ⟨n, v, xs, ys, hhead, hv, hlocked, hxs, hys, hcount⟩ := h.getHead cfg ha
  have hrest : Chain v.next (v.next n) ys := by
    cases hys with
    | cons hys => exact hys
  have hparked : s.parks = v.parks ∧ s.wakes = v.wakes ∧ s.asserts = v.asserts ∧
      s.derefs = v.derefs ∧ s.pc = v.pc ∧ s.detached = v.detached := by
    rw [hv]
    exact ⟨rfl, rfl, rfl, rfl, rfl, rfl⟩
  obtain ⟨hparks, hwakes, hasserts, hderefs, hpc, hdetached⟩ := hparked
  -- whatever the hand-off is, `n` moves from the chain to this unlock
  have hstep : ∀ (u' : Unlock ι E) (executor : ι → E), u' = .submit n ∨ u' = .transfer n →
      Inv ({ v with receiver := v.next n, executor := executor }.put a (some u')) := by
    intro u' executor hu'
    refine h.put ha hpc.symm hdetached.symm hparks.symm hwakes.symm (by simp [hlocked])
      ⟨xs, ys, hxs, hrest, fun m => ?_⟩ (fun hopen => absurd hopen hlocked) ?_
      (hasserts ▸ h.asserts_eq) (hderefs ▸ h.derefs_eq)
    · have hm := hcount m
      have howes : owes? (some u') m = if n = m then 1 else 0 := by
        rcases hu' with rfl | rfl <;> rfl
      rw [List.count_cons] at hm
      simp only [howes, Unlock.owes, beq_iff_eq] at hm ⊢
      omega
    · intro u'' heq
      cases heq
      rcases hu' with rfl | rfl <;> trivial
  rw [Mutex.unlockSlow, hhead]
  cases k with
  | on executor =>
    simp only
    split
    · exact hstep _ _ (.inr rfl)
    · exact hstep _ _ (.inl rfl)
  | _ => exact hstep _ _ (.inl rfl)

/-- Whoever carries the token locked the mutex, and carries the only one. -/
theorem Inv.carrier (h : Inv s) (htoken : (s.pc i).token = 1) :
    s.sender ≠ .kNotLocked ∧ s.tokens = 1 ∧ s.detached = [] ∧
      ∀ j u, s.pc j = .unlock u → j = i := by
  have hle := le_tally Pc.token s.pc i
  have htokens := h.tokens_eq
  have hone := h.tokens_le
  rw [htoken] at hle
  simp only [State.tokens] at htokens hone ⊢
  have hlocked : s.sender ≠ .kNotLocked := by
    intro hopen
    rw [if_pos hopen] at htokens
    omega
  rw [if_neg hlocked] at htokens
  refine ⟨hlocked, htokens, List.length_eq_zero_iff.mp (by omega), fun j u hj => ?_⟩
  by_contra hne
  have hsum := add_le_tally Pc.token s.pc hne
  rw [htoken, hj] at hsum
  simp only [Pc.token] at hsum
  omega

/-- A coroutine that carries the token submits itself, and its unlock goes on as
`u'` without it. -/
theorem Inv.detach (h : Inv s) (htoken : (s.pc i).token = 1) (hparked : (s.pc i).parked = 0)
    (howes : ∀ n, (s.pc i).owes n = 0) {executor : ι → E} {receiver : Option ι}
    (hqueued : ∃ xs ys, Chain s.next s.sender.toPtr xs ∧ Chain s.next receiver ys ∧
      ∀ n, xs.count n + ys.count n + s.owed n + u'.owes n = (s.pc n).parked)
    (hgood : ∀ w : State ι E, w.Good u') :
    Inv ({ s with
      receiver := receiver
      executor := executor
      detached := s.detached ++ [u'] }.goto i .ready) := by
  obtain ⟨hlocked, hone, hdetached, hsole⟩ := h.carrier htoken
  obtain ⟨xs, ys, hxs, hys, hcount⟩ := hqueued
  refine ⟨?_, ⟨xs, ys, hxs, hys, fun n => ?_⟩, fun hopen => absurd hopen hlocked, ?_, fun j => ?_,
    h.asserts_eq, h.derefs_eq⟩
  · have hupdate := tally_update Pc.token s.pc i (.ready : Pc ι E)
    rw [htoken] at hupdate
    simp only [State.tokens, Pc.token] at hone hupdate
    refine Eq.trans ?_ (if_neg hlocked).symm
    simp only [State.tokens, State.goto, List.length_append, List.length_singleton]
    omega
  · have hn := hcount n
    have hplace := parked_update (p := .ready) hparked n
    simp only [State.owed] at hn
    simp only [State.owed, State.goto, List.map_append, List.sum_append, List.map_cons,
      List.map_nil, List.sum_cons, List.sum_nil, hplace]
    rw [tally_stay (howes n).symm]
    omega
  · intro b u hb
    cases b with
    | coroutine j =>
      have hj := unlockAt_coroutine.mp hb
      by_cases hji : j = i
      · simp [State.goto, hji] at hj
      · simp only [State.goto, Function.update_of_ne hji] at hj
        exact absurd (hsole j u hj) hji
    | detached k =>
      simp only [State.unlockAt, State.goto, hdetached, List.nil_append] at hb
      cases k with
      | zero =>
        cases hb
        exact hgood _
      | succ k => simp at hb
  · have hj := h.wakes_eq j
    by_cases hji : j = i
    · subst hji
      rw [hparked] at hj
      simpa [State.goto] using hj
    · simpa [State.goto, hji] using hj

theorem Inv.awaitUnlock (h : Inv s) (hpc : s.pc i = .unlock (.slow k))
    (hreceiver : s.receiver ≠ none) : Inv (awaitUnlock s i) := by
  obtain ⟨n, hn⟩ := Option.ne_none_iff_exists'.mp hreceiver
  obtain ⟨xs, ys, hxs, hys, hcount⟩ := h.queued
  rw [hn] at hys
  obtain ⟨zs, rfl, hzs⟩ := hys.of_some
  simp only [Mutex.awaitUnlock, hn]
  refine h.detach (by rw [hpc]; rfl) (by rw [hpc]; rfl) (by simp [hpc])
    ⟨xs, zs, hxs, hzs, fun m => ?_⟩ (fun _ => trivial)
  have hm := hcount m
  rw [List.count_cons] at hm
  simp only [Unlock.owes, beq_iff_eq] at hm ⊢
  omega

theorem Inv.awaitUnlockOn (h : Inv s) {executor : E} (hpc : s.pc i = .held) :
    Inv (awaitUnlockOn s i executor) := by
  obtain ⟨xs, ys, hxs, hys, hcount⟩ := h.queued
  refine h.detach (by rw [hpc]; rfl) (by rw [hpc]; rfl) (by simp [hpc])
    ⟨xs, ys, hxs, hys, fun m => ?_⟩ (fun _ => trivial)
  have hm := hcount m
  simpa using hm

/-- The end of a hand-off: the coroutine that was chosen is the owner. -/
theorem Inv.deliver (h : Inv s) (ha : s.unlockAt a = some u)
    (howes : ∀ m, u.owes m = if n = m then 1 else 0)
    (hp : p.token = 1 ∧ p.parked = 0 ∧ (∀ m, p.owes m = 0) ∧ ∀ u, p ≠ .unlock u) :
    Inv ((s.put a none).resume n p) := by
  obtain ⟨htoken, hparked, howes', hunlock⟩ := hp
  obtain ⟨xs, ys, hxs, hys, hcount⟩ := h.queued
  have howed : ∀ m, (s.put a none).owed m + (if n = m then 1 else 0) = s.owed m := by
    intro m
    have hput := owed_put (o := none) ha m
    rw [howes m] at hput
    exact hput
  have hn : (s.put a none).pc n = .waiting := by
    apply Pc.eq_waiting
    have hcn := hcount n
    have hon := howed n
    rw [if_pos rfl] at hon
    rw [parked_put ha]
    omega
  refine ⟨?_, ⟨xs, ys, ?_, ?_, fun m => ?_⟩, ?_, ?_, fun j => ?_, ?_, ?_⟩
  · have hnone := tokens_put_none ha
    have htokens := h.tokens_eq
    have hupdate := tally_update Pc.token (s.put a none).pc n p
    rw [if_neg (h.locked ha)] at htokens
    rw [htoken, hn] at hupdate
    simp only [State.tokens, Pc.token] at hnone htokens hupdate
    simp only [State.tokens, State.resume, put_sender, if_neg (h.locked ha)]
    omega
  · simpa [State.resume] using hxs
  · simpa [State.resume] using hys
  · have hm := hcount m
    have hom := howed m
    have hput := parked_put (o := none) ha m
    have hstay : tally (Pc.owes m) (Function.update (s.put a none).pc n p) =
        tally (Pc.owes m) (s.put a none).pc := tally_stay (by rw [hn, howes' m]; rfl)
    simp only [State.owed] at hom hm
    simp only [State.owed, State.resume, hstay]
    by_cases hmn : m = n
    · subst hmn
      rw [hn] at hput
      have hone : 1 = (s.pc m).parked := hput
      rw [if_pos rfl] at hom
      rw [Function.update_self, hparked]
      omega
    · rw [if_neg (Ne.symm hmn)] at hom
      rw [Function.update_of_ne hmn, hput]
      omega
  · intro hopen
    simp only [State.resume, put_sender] at hopen
    exact absurd hopen (h.locked ha)
  · intro b u' hb
    have hsole := unlockAt_put h.tokens_le ha (unlockAt_update hb hunlock rfl rfl)
    contradiction
  · have hj := h.wakes_eq j
    have hput := parked_put (o := none) ha j
    simp only [State.resume, put_parks, put_wakes]
    by_cases hjn : j = n
    · subst hjn
      rw [hn] at hput
      rw [← hput] at hj
      rw [Function.update_self, Function.update_self, hparked]
      exact hj
    · rw [Function.update_of_ne hjn, Function.update_of_ne hjn, hput]
      exact hj
  · simpa [State.resume] using h.asserts_eq
  · simpa [State.resume] using h.derefs_eq

/-! The locking coroutine. -/

/-- A move of a coroutine that neither carries the token nor is suspended. -/
theorem Inv.goto (h : Inv s) (hold : (s.pc i).token = p.token ∧ (s.pc i).parked = p.parked)
    (howes : ∀ n, (s.pc i).owes n = 0 ∧ p.owes n = 0) (hgood : ∀ u, p = .unlock u → s.Good u) :
    Inv (s.goto i p) := by
  obtain ⟨xs, ys, hxs, hys, hcount⟩ := h.queued
  have hplace := parked_update hold.2
  refine ⟨?_, ⟨xs, ys, hxs, hys, fun n => ?_⟩, h.open_eq, fun b u hb => ?_, fun j => ?_,
    h.asserts_eq, h.derefs_eq⟩
  · have htokens := h.tokens_eq
    simp only [State.tokens] at htokens
    simp only [State.tokens, State.goto]
    rw [tally_stay hold.1.symm]
    exact htokens
  · have hn := hcount n
    simp only [State.owed] at hn
    simp only [State.owed, State.goto, hplace]
    rw [tally_stay ((howes n).2.trans (howes n).1.symm)]
    exact hn
  · rw [good_congr rfl rfl]
    cases b with
    | coroutine j =>
      have hj := unlockAt_coroutine.mp hb
      simp only [State.goto] at hj
      by_cases hji : j = i
      · rw [hji, Function.update_self] at hj
        exact hgood u hj
      · rw [Function.update_of_ne hji] at hj
        exact h.good (.coroutine j) u (unlockAt_coroutine.mpr hj)
    | detached k => exact h.good (.detached k) u hb
  · simp only [State.goto, hplace]
    exact h.wakes_eq j

/-- A lock of an open mutex. -/
theorem Inv.acquire (h : Inv s) (hopen : s.sender = .kNotLocked)
    (hold : (s.pc i).token = 0 ∧ (s.pc i).parked = 0 ∧ ∀ n, (s.pc i).owes n = 0) :
    Inv ({ s with sender := kLockedNoWaiters }.goto i .held) := by
  obtain ⟨htoken, hparked, howes⟩ := hold
  obtain ⟨xs, ys, hxs, hys, hcount⟩ := h.queued
  rw [hopen] at hxs
  have hplace := parked_update (p := .held) hparked
  refine ⟨?_, ⟨xs, ys, hxs, hys, fun n => ?_⟩, ?_, fun b u hb => ?_, fun j => ?_,
    h.asserts_eq, h.derefs_eq⟩
  · have htokens := h.tokens_eq
    have hupdate := tally_update Pc.token s.pc i (.held : Pc ι E)
    rw [if_pos hopen] at htokens
    rw [htoken] at hupdate
    simp only [State.tokens, Pc.token] at htokens hupdate
    refine Eq.trans ?_ (if_neg (by simp [State.goto, kLockedNoWaiters])).symm
    simp only [State.tokens, State.goto]
    omega
  · have hn := hcount n
    simp only [State.owed] at hn
    simp only [State.owed, State.goto, hplace]
    rw [tally_stay (howes n).symm]
    exact hn
  · intro hbad
    simp [State.goto, kLockedNoWaiters] at hbad
  · -- nobody was unlocking the open mutex
    exact absurd hopen (h.locked (unlockAt_update (p := .held) hb (by simp) rfl rfl))
  · simp only [State.goto, hplace]
    exact h.wakes_eq j

/-- A coroutine links itself in front of the chain of `_sender`. -/
theorem Inv.park (h : Inv s) {q : Option ι} (hsender : s.sender = .ptr q)
    (hold : (s.pc i).token = 0 ∧ (s.pc i).parked = 0 ∧ ∀ n, (s.pc i).owes n = 0) :
    Inv ({ s with
      next := Function.update s.next i q
      sender := .ptr (some i)
      parks := Function.update s.parks i (s.parks i + 1) }.goto i .waiting) := by
  obtain ⟨htoken, hparked, howes⟩ := hold
  obtain ⟨xs, ys, hqueued⟩ := h.queued
  have hfresh := hqueued.fresh hparked
  obtain ⟨hxs, hys, hcount⟩ := hqueued
  rw [hsender] at hxs
  refine ⟨?_, ⟨i :: xs, ys, hxs.push hfresh.1, hys.update hfresh.2 q, fun n => ?_⟩, ?_,
    fun b u hb => ?_, fun j => ?_, h.asserts_eq, h.derefs_eq⟩
  · have htokens := h.tokens_eq
    rw [if_neg (by simp [hsender])] at htokens
    refine Eq.trans ?_ (if_neg (by simp [State.goto])).symm
    simp only [State.tokens] at htokens
    simp only [State.tokens, State.goto]
    rw [tally_stay htoken.symm]
    exact htokens
  · have hn := hcount n
    simp only [State.owed] at hn
    simp only [State.owed, State.goto, List.count_cons, beq_iff_eq]
    rw [tally_stay (howes n).symm]
    by_cases hin : i = n
    · subst hin
      rw [hparked] at hn
      rw [Function.update_self, if_pos rfl, Pc.parked]
      omega
    · rw [Function.update_of_ne (Ne.symm hin), if_neg hin]
      omega
  · intro hbad
    simp [State.goto] at hbad
  · have hgood := h.good b u (unlockAt_update (p := .waiting) hb (by simp) rfl rfl)
    cases u with
    | slow k =>
      intro _
      exact ⟨i, rfl⟩
    | _ => exact hgood
  · have hj := h.wakes_eq j
    simp only [State.goto]
    by_cases hji : j = i
    · subst hji
      rw [hparked] at hj
      rw [Function.update_self, Function.update_self, hj]
      rfl
    · rw [Function.update_of_ne hji, Function.update_of_ne hji]
      exact hj

/-- Links of coroutines that are not suspended here are free for other uses. -/
theorem Inv.relink (h : Inv s) (hpc : (s.pc i).parked = 0) (q : Option ι) :
    Inv { s with next := Function.update s.next i q } := by
  obtain ⟨xs, ys, hqueued⟩ := h.queued
  have hfresh := hqueued.fresh hpc
  have hxs := hqueued.sender.update hfresh.1 q
  have hys := hqueued.receiver.update hfresh.2 q
  exact ⟨h.tokens_eq, ⟨xs, ys, hxs, hys, hqueued.count⟩, h.open_eq,
    fun b u hb => (good_congr rfl rfl).mpr (h.good b u ((unlockAt_congr rfl rfl).symm.trans hb)),
    h.wakes_eq, h.asserts_eq, h.derefs_eq⟩

end Yaclib.Mutex
