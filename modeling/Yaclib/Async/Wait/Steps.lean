import Yaclib.Async.Wait.Invariant

/-!
Every step of the waiting thread, of a producer and of another thread keeps the
invariant of the wait.
-/

namespace Yaclib.Wait

open Concurrency

variable {κ : Type} {w : Call κ} {s t : State κ} {c : κ} {m : Node} {j k n q r : Nat}

/-! ### The callbacks of the handles -/

namespace Call

/-- Each shared handle takes an element of `callbacks` of its own. -/
theorem callbackCount_lt (hk : w.handles[k]? = some c) (hc : w.shared c = true) (hlt : k < n) :
    w.callbackCount k < w.callbackCount n := by
  have htake : w.handles.take (k + 1) = w.handles.take k ++ [c] := by
    rw [List.take_add_one, hk]
    rfl
  have hsucc : w.callbackCount (k + 1) = w.callbackCount k + 1 := by
    unfold callbackCount
    rw [htake, List.countP_append]
    simp [hc]
  have hle : w.callbackCount (k + 1) ≤ w.callbackCount n :=
    (List.take_sublist_take_left hlt).countP_le
  omega

theorem callbackCount_le (k : Nat) : w.callbackCount k ≤ w.sharedCount :=
  (List.take_sublist k w.handles).countP_le

/-- What the handles attach lives on the stack of the call. -/
theorem node_ours (w : Call κ) (k : Nat) (c : κ) : (w.node k c).ours = true := by
  unfold node
  split <;> rfl

theorem node_unique (hc : w.shared c = false) : w.node k c = .event := by
  simp [node, hc]

/-- Each shared handle has a callback of its own. -/
theorem node_inj {d : κ} (hj : w.handles[j]? = some d) (hk : w.handles[k]? = some c)
    (hd : w.shared d = true) (hc : w.shared c = true) (hlt : j < k) : w.node j d ≠ w.node k c := by
  have hcount := callbackCount_lt hj hd hlt
  have hmany : 1 < w.sharedCount := by
    have hlast := callbackCount_lt hk hc (Nat.lt_add_one k)
    have hle := w.callbackCount_le (k + 1)
    omega
  simp only [node, hc, hd, hmany, and_self, if_true, ne_eq, Node.callback.injEq]
  omega

theorem lt_count (hk : w.handles[k]? = some c) : k < w.count := by
  obtain ⟨hlt, -⟩ := List.getElem?_eq_some_iff.mp hk
  exact hlt

end Call

/-! ### What a step does not touch -/

/-- A core stays as it is, apart from links outside of its list. -/
theorem CoreInv.frame (h : CoreInv w s n c) (hcallback : t.callback c = s.callback c)
    (hheld : t.held c = s.held c) (hproducer : t.producer c = s.producer c)
    (hnext : w.shared c = true → ∀ m ∈ s.held c, t.next m = s.next m)
    (hforeigns : s.foreigns ≤ t.foreigns) (hn : n ≤ q) : CoreInv w t q c := by
  obtain ⟨xs, hxs, hchain⟩ := h.linked
  constructor
  · refine ⟨xs, ?_, ?_⟩
    · rw [hheld, hproducer, hxs]
    · rw [hcallback, hproducer]
      apply hchain.frame
      intro m hm
      by_cases hc : w.shared c = true
      · simp only [State.links, hc, if_true]
        apply hnext hc
        rw [hxs]
        exact List.mem_append_right _ hm
      · simp [State.links, hc]
  · rw [hcallback, hproducer]
    exact h.result
  · intro m hm
    rw [hheld] at hm
    exact Nat.lt_of_lt_of_le (h.foreigns m hm) hforeigns
  · rw [hheld, hproducer]
    exact h.unique
  · intro hc m hm hours
    rw [hheld] at hm
    obtain ⟨j, hj, hnode⟩ := h.placed hc m hm hours
    exact ⟨j, Nat.lt_of_lt_of_le hj hn, hnode⟩

theorem Settled.frame (h : Settled w s j c r) (hcallback : t.callback c = s.callback c)
    (hheld : t.held c = s.held c) : Settled w t j c r := by
  unfold Settled
  rw [hcallback, hheld]
  exact h

/-- Where the waiting thread is does not matter to a core. -/
theorem CoreInv.goto (h : CoreInv w s n c) (p : Waiter) : CoreInv w (s.goto p) n c :=
  h.frame rfl rfl rfl (fun _ _ _ => rfl) (Nat.le_refl _) (Nat.le_refl _)

theorem Settled.goto (h : Settled w s j c r) (p : Waiter) : Settled w (s.goto p) j c r :=
  h.frame rfl rfl

theorem Settled.mono (h : Settled w s j c r) (hr : 0 < r → 0 < n) : Settled w s j c n := by
  rcases h with h | h | ⟨hempty, hc, hpos⟩
  · exact .inl h
  · exact .inr (.inl h)
  · exact .inr (.inr ⟨hempty, hc, hr hpos⟩)

/-- While the word leads to callbacks, the producer has not begun. -/
theorem CoreInv.producer_eq (h : CoreInv w s n c) {p : Option Node} (hword : s.callback c = .ptr p) :
    s.producer c = .before := by
  by_contra hne
  have hresult := h.result.mpr hne
  rw [hword] at hresult
  contradiction

theorem CoreInv.chain (h : CoreInv w s n c) {p : Option Node} (hword : s.callback c = .ptr p) :
    Chain (s.links w c) p (s.held c) := by
  obtain ⟨xs, hxs, hchain⟩ := h.linked
  rw [h.producer_eq hword] at hxs hchain
  rw [hword] at hchain
  rw [hxs]
  exact hchain

theorem CoreInv.held_nil (h : CoreInv w s n c) (hword : s.callback c = .kEmpty) :
    s.held c = [] :=
  (h.chain hword).of_none

/-- The word of a unique core is all that hangs on it. -/
theorem CoreInv.unique_held (h : CoreInv w s n c) (hc : w.shared c = false) {p : Option Node}
    (hword : s.callback c = .ptr p) : s.held c = p.toList := by
  have hchain := h.chain hword
  have hlinks : s.links w c = fun _ => none := by simp [State.links, hc]
  rw [hlinks] at hchain
  exact hchain.unlinked

/-- The waiting thread is in `SetCallback` of the handle `k`. -/
structure Attaching (w : Call κ) (s : State κ) (k wc : Nat) : Prop where
  passed : s.waiter.passed w.count = k
  waitCount : s.waiter.waitCount = wc
  resetCount : s.waiter.resetCount = 0
  own : s.waiter.own w = w.count + w.atomic.toNat - wc
  credit : ∀ j, s.waiter.credit j = if j < k then some 0 else none
  holding : s.waiter.holding = 0
  waits : s.returned = false

theorem attaching (h : s.waiter = .attach k r ∨ s.waiter = .attachSwap k r ∨
    ∃ p, s.waiter = .attachLoop k r p) : Attaching w s k r := by
  have hwaits : s.returned = false := by
    rcases h with h | h | ⟨p, h⟩ <;> simp [State.returned, h]
  rcases h with h | h | ⟨p, h⟩ <;>
    exact ⟨by rw [h]; rfl, by rw [h]; rfl, by rw [h]; rfl, by rw [h]; rfl,
      fun j => by rw [h]; rfl, by rw [h]; rfl, hwaits⟩

theorem CoreInv.push [DecidableEq κ]
    (h : CoreInv w s n c) {p : Option Node} (hword : s.callback c = .ptr p)
    (hlink : s.links w c m = p) (hforeign : ∀ i, m = .foreign i → i < s.foreigns)
    (hunique : w.shared c = false → m = .event)
    (hplaced : m.ours = true → ∃ j < q, w.handles[j]? = some c ∧ w.node j c = m) (hn : n ≤ q) :
    CoreInv w (s.put c (.ptr (some m)) (m :: s.held c)) q c := by
  have hbefore := h.producer_eq hword
  have hheld : (s.put c (.ptr (some m)) (m :: s.held c)).held c = m :: s.held c :=
    Function.update_self ..
  have hcallback : (s.put c (.ptr (some m)) (m :: s.held c)).callback c = .ptr (some m) :=
    Function.update_self ..
  constructor
  · refine ⟨m :: s.held c, ?_, ?_⟩
    · rw [hheld]
      show _ = (s.producer c).inHand ++ _
      rw [hbefore]
      rfl
    · rw [hcallback]
      show Chain (s.links w c) ((s.producer c).head (.ptr (some m))) (m :: s.held c)
      rw [hbefore]
      refine .cons ?_
      rw [hlink]
      exact h.chain hword
  · rw [hcallback]
    show _ ↔ s.producer c ≠ .before
    simp [hbefore]
  · rw [hheld]
    intro i hi
    rcases List.mem_cons.mp hi with heq | hi
    · exact hforeign i heq.symm
    · exact h.foreigns i hi
  · rw [hheld]
    intro hc
    refine ⟨?_, (h.unique hc).2⟩
    intro i hi
    rcases List.mem_cons.mp hi with rfl | hi
    · exact hunique hc
    · exact (h.unique hc).1 i hi
  · rw [hheld]
    intro hc i hi hours
    rcases List.mem_cons.mp hi with rfl | hi
    · exact hplaced hours
    · obtain ⟨j, hj, hnode⟩ := h.placed hc i hi hours
      exact ⟨j, Nat.lt_of_lt_of_le hj hn, hnode⟩

theorem CoreInv.clear [DecidableEq κ]
    (h : CoreInv w s n c) {p : Option Node} (hword : s.callback c = .ptr p) :
    CoreInv w (s.put c .kEmpty []) n c := by
  have hbefore := h.producer_eq hword
  have hheld : (s.put c .kEmpty []).held c = [] := Function.update_self ..
  have hcallback : (s.put c .kEmpty []).callback c = .kEmpty := Function.update_self ..
  constructor
  · refine ⟨[], ?_, ?_⟩
    · rw [hheld]
      show _ = (s.producer c).inHand ++ _
      rw [hbefore]
      rfl
    · rw [hcallback]
      show Chain _ ((s.producer c).head .kEmpty) []
      rw [hbefore]
      exact .nil
  · rw [hcallback]
    show _ ↔ s.producer c ≠ .before
    simp [hbefore, Callback.kEmpty]
  · simp [hheld]
  · intro hc
    refine ⟨?_, (h.unique hc).2⟩
    simp [hheld]
  · simp [hheld]

theorem Settled.put [DecidableEq κ]
    (h : Settled w s j c r) {callback : Callback Node} {l : List Node} {d : κ}
    (hd : c ≠ d) : Settled w (s.put d callback l) j c r :=
  h.frame (Function.update_of_ne hd _ _) (Function.update_of_ne hd _ _)

variable [Fintype κ]

/-- With nothing pending no core holds an object of the waiting thread. -/
theorem no_ours (hpending : s.pending = 0) (hm : m ∈ s.held c) :
    m.ours = false := by
  by_contra hours
  have hpos : 0 < s.pending := tallyP_pos hm (by simpa using hours)
  omega

/-- When the call has returned, no core holds a callback of it. -/
theorem Inv.pending_zero (h : Inv w s) (hret : s.returned = true) : s.pending = 0 := by
  have hbudget := h.budget
  cases hwaiter : s.waiter with
  | done r =>
    rw [hwaiter] at hbudget
    exact Nat.eq_zero_of_add_eq_zero_right (Nat.le_zero.mp hbudget)
  | _ => simp [State.returned, hwaiter] at hret

/-- While a core holds a callback of the waiting thread, it waits. -/
theorem Inv.waits (h : Inv w s) (hm : m ∈ s.held c) (hours : m.ours = true) :
    s.returned = false := by
  by_contra hret
  have hzero := h.pending_zero (by simpa using hret)
  rw [no_ours hzero hm] at hours
  contradiction

/-- A move of the waiting thread within the call, that attaches and resets nothing. -/
structure Waiter.Moves (w : Call κ) (p q : Waiter) : Prop where
  waitCount : q.waitCount = p.waitCount
  resetCount : q.resetCount ≤ p.resetCount
  passed : p.passed w.count ≤ q.passed w.count
  passed_le : q.passed w.count ≤ w.count
  within : ∀ r, q ≠ .done r
  timed : q.Timed → w.timed = true
  expects : q.Expects w

/-- A step of the waiting thread that leaves the cores alone. `x` is the counter
after it. -/
theorem Inv.sub (h : Inv w s) {p : Waiter} {x : Int} {l d : Bool}
    (hmoves : Waiter.Moves w s.waiter p) (hwaits : s.returned = false)
    (hcount : w.atomic = true → x = p.own w + s.pending) (hx : 0 ≤ x)
    (honce : once (p.own w + s.pending) = once (s.waiter.own w + s.pending))
    (hlocked : l.toNat + s.waiter.holding = s.locked.toNat + p.holding)
    (hsettled : ∀ j c, w.handles[j]? = some c → ∀ r ∈ p.credit j, Settled w s j c r)
    (hnotified : (∃ last wc rc, p = .asleep last wc rc) → s.isReady = false) :
    Inv w { s with count := x, waiter := p, locked := l, notified := d } := by
  have hreturned :
      State.returned { s with count := x, waiter := p, locked := l, notified := d } = false := by
    cases p with
    | done r => exact absurd rfl (hmoves.within r)
    | _ => rfl
  constructor
  · intro c
    exact (h.core c).frame rfl rfl rfl (fun _ _ _ => rfl) (Nat.le_refl _) hmoves.passed
  · intro j c hj r hr
    exact (hsettled j c hj r hr).frame rfl rfl
  · intro hatomic _
    exact hcount hatomic
  · exact hx
  · have hbudget := h.budget
    have hwc := hmoves.waitCount
    have hrc := hmoves.resetCount
    show s.pending + p.resetCount ≤ p.waitCount
    omega
  · show p.waitCount ≤ p.passed w.count
    rw [hmoves.waitCount]
    exact Nat.le_trans h.waitCount_le hmoves.passed
  · exact hmoves.passed_le
  · intro _
    show s.setting + s.isReady.toNat = once (p.own w + s.pending)
    rw [honce]
    exact h.set_once hwaits
  · exact h.ready
  · have heq := h.locked_eq
    show l.toNat = s.holding + p.holding
    omega
  · intro hret
    rw [hreturned] at hret
    contradiction
  · exact hmoves.timed
  · exact hmoves.expects
  · intro last wc rc hp hready
    have hnot := hnotified ⟨last, wc, rc, hp⟩
    rw [show s.isReady = true from hready] at hnot
    contradiction
  · exact h.dangling

/-- A step of the waiting thread that leaves the cores and the counter alone. -/
theorem Inv.wait (h : Inv w s) {p : Waiter} {l d : Bool}
    (hmoves : Waiter.Moves w s.waiter p) (hwaits : s.returned = false)
    (hown : p.own w = s.waiter.own w)
    (hlocked : l.toNat + s.waiter.holding = s.locked.toNat + p.holding)
    (hsettled : ∀ j c, w.handles[j]? = some c → ∀ r ∈ p.credit j, Settled w s j c r)
    (hnotified : (∃ last wc rc, p = .asleep last wc rc) → s.isReady = false) :
    Inv w { s with waiter := p, locked := l, notified := d } := by
  refine h.sub (x := s.count) hmoves hwaits ?_ h.count_nonneg ?_ hlocked hsettled hnotified
  · intro hatomic
    rw [hown]
    exact h.count_eq hatomic hwaits
  · rw [hown]

/-- The callback for a handle without `SetCallback` is in no list of a shared core. -/
theorem Inv.fresh (h : Inv w s) (hk : w.handles[k]? = some c) (hc : w.shared c = true)
    (hpassed : s.waiter.passed w.count ≤ k) {d : κ} (hd : w.shared d = true) :
    w.node k c ∉ s.held d := by
  intro hm
  obtain ⟨j, hj, hhandle, hnode⟩ := (h.core d).placed hd _ hm (w.node_ours k c)
  exact w.node_inj hhandle hk hd hc (Nat.lt_of_lt_of_le hj hpassed) hnode

/-- The loop writes `next` of a callback that no core can see yet. -/
theorem Inv.link (h : Inv w s) (hfresh : ∀ d, w.shared d = true → m ∉ s.held d)
    (p : Option Node) : Inv w (s.link m p) := by
  have hcore : ∀ c, CoreInv w (s.link m p) (s.waiter.passed w.count) c := by
    intro c
    refine (h.core c).frame rfl rfl rfl (fun hc i hi => ?_) (Nat.le_refl _) (Nat.le_refl _)
    apply Function.update_of_ne
    rintro rfl
    exact hfresh c hc hi
  exact ⟨hcore, fun j c hj r hr => (h.settled j c hj r hr).frame rfl rfl, h.count_eq,
    h.count_nonneg, h.budget, h.waitCount_le, h.passed_le, h.set_once, h.ready, h.locked_eq,
    h.quiet, h.timed, h.expects, h.notified, h.dangling⟩

theorem Inv.leaving_eq (h : Inv w s) (hready : s.isReady = false) : s.leaving = 0 := by
  by_contra hpos
  have hset := h.ready (Nat.pos_of_ne_zero hpos)
  rw [hready] at hset
  contradiction

/-- A producer that has set `_is_ready` has the mutex until it leaves `Set`. -/
theorem leaving_le_holding (s : State κ) : s.leaving ≤ s.holding := by
  apply tally_mono
  intro c
  cases s.producer c <;> simp [Producer.leaving, Producer.holding]

theorem holding_le (s : State κ) : s.holding ≤ s.setting + s.leaving := by
  have hadd : s.setting + s.leaving =
      tally (fun p => Producer.setting p + Producer.leaving p) s.producer := by
    simp [State.setting, State.leaving, tally, Finset.sum_add_distrib]
  rw [hadd]
  apply tally_mono
  intro c
  cases s.producer c <;> simp [Producer.setting, Producer.leaving, Producer.holding]

/-- The return: no core holds a callback of the waiting thread any more, and no
producer is in `Set`. `x` is what is left of the counter. -/
theorem Inv.ret (h : Inv w s) {x : Int} {l b : Bool} (hpending : s.pending = 0)
    (hquiet : s.setting + s.leaving = 0) (hpassed : s.waiter.passed w.count = w.count)
    (hx : 0 ≤ x) (hl : l = false) (htimed : b = false → w.timed = true)
    (hsettled : ∀ j c, w.handles[j]? = some c → Settled w s j c (if b then 0 else 1)) :
    Inv w { s with count := x, locked := l, waiter := .done b } := by
  have hholding := holding_le s
  constructor
  · intro c
    have hcore := h.core c
    rw [hpassed] at hcore
    exact hcore.frame rfl rfl rfl (fun _ _ _ => rfl) (Nat.le_refl _) (Nat.le_refl _)
  · intro j c hj r hr
    obtain rfl : (if b then 0 else 1) = r := by simpa [Waiter.credit] using hr
    exact (hsettled j c hj).frame rfl rfl
  · intro _ hret
    contradiction
  · exact hx
  · exact Nat.le_of_eq hpending
  · exact Nat.zero_le _
  · exact Nat.le_refl _
  · intro hret
    contradiction
  · exact h.ready
  · rw [hl]
    show 0 = s.holding + 0
    omega
  · intro _
    exact hquiet
  · exact htimed
  · trivial
  · intro last wc rc hasleep
    contradiction
  · exact h.dangling

/-- A callback that was not reset yet stays until the producer takes it. -/
theorem Inv.word_eq_event (h : Inv w s) {wc rc : Nat} (hk : w.handles[k]? = some c) {q : Option Node}
    (hwaiter : s.waiter = .reset k wc rc ∨ ∃ p, s.waiter = .resetSwap k wc rc p)
    (hword : s.callback c = .ptr q) : q = some .event := by
  have htimed : w.timed = true := by
    apply h.timed
    rcases hwaiter with hwaiter | ⟨p, hwaiter⟩ <;> rw [hwaiter] <;> trivial
  have hc : w.shared c = false := w.unique_of_timed htimed c (List.mem_of_getElem? hk)
  have hsettled : Settled w s k c 0 := by
    apply h.settled k c hk
    rcases hwaiter with hwaiter | ⟨p, hwaiter⟩ <;> rw [hwaiter] <;> simp [Waiter.credit]
  have hmem : Node.event ∈ s.held c := by
    rcases hsettled with hresult | hmem | ⟨-, -, hpos⟩
    · rw [hword] at hresult
      contradiction
    · rwa [Call.node_unique hc] at hmem
    · omega
  rw [(h.core c).unique_held hc hword] at hmem
  exact Option.mem_toList.mp hmem

variable [DecidableEq κ]

theorem pending_put (s : State κ) (c : κ) (callback : Callback Node) (l : List Node) :
    (s.put c callback l).pending + (s.held c).countP Node.ours =
      s.pending + l.countP Node.ours :=
  tallyP_update Node.ours s.held c l

/-- A core is not touched by what happens at another one. -/
theorem Inv.core_put (h : Inv w s) {callback : Callback Node} {l : List Node}
    (hn : s.waiter.passed w.count ≤ n) {d : κ} (hd : d ≠ c) :
    CoreInv w (s.put c callback l) n d :=
  (h.core d).frame (Function.update_of_ne hd _ _) (Function.update_of_ne hd _ _) rfl
    (fun _ _ _ => rfl) (Nat.le_refl _) hn

/-- The waiting thread attaches the callback of the handle `k`. -/
theorem Inv.attach (h : Inv w s) {wc : Nat} {p : Option Node}
    (hk : w.handles[k]? = some c) (hword : s.callback c = .ptr p) (hat : Attaching w s k wc)
    (hlink : s.links w c (w.node k c) = p) :
    Inv w ((s.put c (.ptr (some (w.node k c))) (w.node k c :: s.held c)).goto
      (.attach (k + 1) (wc + 1))) := by
  obtain ⟨hpassed, hwc, hrc, hown, hcredit, hholding, hwaits⟩ := hat
  have hlt := Call.lt_count hk
  have hwck : wc ≤ k := by
    have hle := h.waitCount_le
    omega
  have hpending := pending_put s c (.ptr (some (w.node k c))) (w.node k c :: s.held c)
  rw [List.countP_cons_of_pos (w.node_ours k c)] at hpending
  have hbudget := h.budget
  have hset := h.set_once hwaits
  have hours : w.count + w.atomic.toNat - (wc + 1) +
      (s.put c (.ptr (some (w.node k c))) (w.node k c :: s.held c)).pending =
        s.waiter.own w + s.pending := by omega
  constructor
  · intro d
    show CoreInv w _ (k + 1) d
    by_cases hd : d = c
    · subst hd
      have hpush := (h.core d).push (q := k + 1) hword hlink
        (fun i heq => by have := w.node_ours k d; rw [heq] at this; contradiction)
        Call.node_unique (fun _ => ⟨k, Nat.lt_add_one k, hk, rfl⟩) (by omega)
      exact hpush.goto _
    · exact (h.core_put (by omega) hd).goto _
  · intro i d hi r hr
    obtain ⟨hik, rfl⟩ : i < k + 1 ∧ 0 = r := by
      simpa [State.goto, Waiter.credit] using hr
    have hold : i ≠ k → Settled w s i d 0 := by
      intro hne
      apply h.settled i d hi
      rw [hcredit, if_pos (by omega)]
      rfl
    by_cases hd : d = c
    · subst hd
      right
      left
      show w.node i d ∈ Function.update s.held d _ d
      rw [Function.update_self, List.mem_cons]
      by_cases hik : i = k
      · left
        rw [hik]
      · right
        rcases hold hik with hresult | hmem | ⟨-, -, hpos⟩
        · rw [hword] at hresult
          contradiction
        · exact hmem
        · omega
    · have hne : i ≠ k := by
        rintro rfl
        rw [hk] at hi
        exact hd (Option.some.inj hi).symm
      exact ((hold hne).put hd).goto _
  · intro hatomic _
    have hcount := h.count_eq hatomic hwaits
    show s.count = ((w.count + w.atomic.toNat - (wc + 1) : Nat) : Int) + (_ : Nat)
    rw [hcount]
    exact_mod_cast hours.symm
  · exact h.count_nonneg
  · show (s.put c (.ptr (some (w.node k c))) (w.node k c :: s.held c)).pending + 0 ≤ wc + 1
    omega
  · show wc + 1 ≤ k + 1
    omega
  · exact hlt
  · intro _
    show s.setting + s.isReady.toNat = once (w.count + w.atomic.toNat - (wc + 1) +
      (s.put c (.ptr (some (w.node k c))) (w.node k c :: s.held c)).pending)
    rw [hours]
    exact hset
  · exact h.ready
  · have heq := h.locked_eq
    rw [hholding] at heq
    exact heq
  · intro hret
    contradiction
  · intro htimed
    contradiction
  · trivial
  · intro last wc rc hasleep
    contradiction
  · exact h.dangling

/-- `Reset` of the handle `k` succeeds. -/
theorem Inv.reset (h : Inv w s) {wc rc : Nat} {p : Option Node}
    (hk : w.handles[k]? = some c) (hword : s.callback c = .ptr p)
    (hwaiter : s.waiter = .resetSwap k wc rc p) :
    Inv w ((s.put c .kEmpty []).goto (.reset (k + 1) wc (rc + 1))) := by
  have hlt := Call.lt_count hk
  have htimed : w.timed = true := h.timed (by rw [hwaiter]; trivial)
  have hc : w.shared c = false := w.unique_of_timed htimed c (List.mem_of_getElem? hk)
  have hcore := h.core c
  have hheld : s.held c = [.event] := by
    rw [hcore.unique_held hc hword, h.word_eq_event hk (.inr ⟨p, hwaiter⟩) hword]
    rfl
  have hpending := pending_put s c .kEmpty []
  rw [hheld] at hpending
  have hone : List.countP Node.ours [Node.event] = 1 := rfl
  rw [hone, List.countP_nil] at hpending
  have hwaits : s.returned = false := by simp [State.returned, hwaiter]
  have hset := h.set_once hwaits
  have hbudget := h.budget
  rw [hwaiter] at hset hbudget
  simp only [Waiter.own, Waiter.resetCount, Waiter.waitCount] at hset hbudget
  constructor
  · intro d
    show CoreInv w _ w.count d
    by_cases hd : d = c
    · subst hd
      have hclear := hcore.clear hword
      rw [hwaiter] at hclear
      exact hclear.goto _
    · have hput : CoreInv w (s.put c .kEmpty []) w.count d :=
        h.core_put (by rw [hwaiter]; exact Nat.le_refl _) hd
      exact hput.goto _
  · intro i d hi r hr
    obtain rfl : (if i < k + 1 then rc + 1 else 0) = r := by
      simpa [State.goto, Waiter.credit] using hr
    have hold : Settled w s i d (if i < k then rc else 0) := by
      apply h.settled i d hi
      rw [hwaiter]
      rfl
    by_cases hd : d = c
    · subst hd
      obtain rfl := w.distinct i k d hi hk hc
      right
      right
      refine ⟨Function.update_self .., hc, ?_⟩
      simp
    · refine ((hold.mono ?_).put hd).goto _
      split <;> split <;> omega
  · intro hatomic _
    have hcount := h.count_eq hatomic hwaits
    rw [hwaiter] at hcount
    show s.count = ((rc + 1 : Nat) : Int) + (_ : Nat)
    have hsum : rc + 1 + (s.put c .kEmpty []).pending = rc + s.pending := by omega
    rw [hcount]
    exact_mod_cast hsum.symm
  · exact h.count_nonneg
  · show (s.put c .kEmpty []).pending + (rc + 1) ≤ wc
    omega
  · have hle := h.waitCount_le
    rw [hwaiter] at hle
    exact hle
  · exact Nat.le_refl _
  · intro _
    show s.setting + s.isReady.toNat = once (rc + 1 + (s.put c .kEmpty []).pending)
    rw [hset, once_pos (by omega), once_pos (by omega)]
  · exact h.ready
  · have heq := h.locked_eq
    rw [hwaiter] at heq
    exact heq
  · intro hret
    contradiction
  · intro _
    exact htimed
  · trivial
  · intro last wc rc hasleep
    contradiction
  · exact h.dangling

end Yaclib.Wait
