import Yaclib.Async.Wait.Steps

/-!
Every step of the producers and of other threads keeps the invariant of the wait.
-/

namespace Yaclib.Wait

open Concurrency

variable {κ : Type} {w : Call κ} {s t : State κ} {c : κ} {m : Node} {p : Producer} {n : Nat}
variable {next : Option Node}

@[simp] theorem rest_inHand : (Producer.rest next).inHand = [] := by cases next <;> rfl

@[simp] theorem rest_ne_before : Producer.rest next ≠ .before := by
  cases next <;> simp [Producer.rest]

@[simp] theorem rest_setting : (Producer.rest next).setting = 0 := by cases next <;> rfl

@[simp] theorem rest_holding : (Producer.rest next).holding = 0 := by cases next <;> rfl

@[simp] theorem rest_head {callback : Callback Node} :
    (Producer.rest next).head callback = next := by
  cases next <;> rfl

/-- A step of the producer of the core, which is past its exchange then. -/
theorem CoreInv.produce (h : CoreInv w s n c) (hcallback : t.callback c = .kResult)
    (hproducer : t.producer c = p) (hbefore : p ≠ .before)
    (hheld : ∀ m ∈ t.held c, m ∈ s.held c) (hforeigns : t.foreigns = s.foreigns)
    (hlinked : ∃ xs, t.held c = p.inHand ++ xs ∧ Chain (t.links w c) (p.head .kResult) xs)
    (hunique : w.shared c = false → p.head .kEmpty = none) : CoreInv w t n c := by
  constructor
  · rw [hproducer, hcallback]
    exact hlinked
  · rw [hcallback, hproducer]
    exact iff_of_true rfl hbefore
  · intro m hm
    rw [hforeigns]
    exact h.foreigns m (hheld _ hm)
  · intro hc
    rw [hproducer]
    exact ⟨fun m hm => (h.unique hc).1 m (hheld m hm), hunique hc⟩
  · intro hc m hm hours
    exact h.placed hc m (hheld m hm) hours

/-- Once the producer has begun, the result is in the word. -/
theorem CoreInv.result_of (h : CoreInv w s n c) (hproducer : s.producer c = p)
    (hbefore : p ≠ .before) : s.callback c = .kResult := by
  apply h.result.mpr
  rw [hproducer]
  exact hbefore

/-- What a step of a producer at the core `c` leaves alone. -/
structure Beside (s t : State κ) (c : κ) : Prop where
  waiter : t.waiter = s.waiter
  next : t.next = s.next
  foreigns : s.foreigns ≤ t.foreigns
  callback : ∀ d, d ≠ c → t.callback d = s.callback d
  held : ∀ d, d ≠ c → t.held d = s.held d
  producer : ∀ d, d ≠ c → t.producer d = s.producer d

theorem beside_move [DecidableEq κ]
    (s : State κ) (c : κ) (p : Producer) : Beside s (s.move c p) c :=
  ⟨rfl, rfl, Nat.le_refl _, fun _ _ => rfl, fun _ _ => rfl,
    fun _ hd => Function.update_of_ne hd _ _⟩

/-- Before the call returns, its objects may be used. -/
theorem touch_eq (hwaits : s.returned = false) : s.touch = s := by
  simp [State.touch, hwaits]

/-- The producer goes on after a callback, or into `Set`. -/
theorem CoreInv.pop [DecidableEq κ] (h : CoreInv w s n c) (hproducer : s.producer c = .call m next)
    (hp : p = .rest next ∨ p = .lock next) {x : Int} :
    CoreInv w ({ s with
      count := x
      held := Function.update s.held c (s.held c).tail }.move c p) n c := by
  obtain ⟨xs, hxs, hchain⟩ := h.linked
  rw [hproducer] at hxs hchain
  have htail : (s.held c).tail = xs := by
    rw [hxs]
    rfl
  have hheld : Function.update s.held c (s.held c).tail c = xs := by
    rw [Function.update_self, htail]
  have hlinks : (State.move { s with
      count := x
      held := Function.update s.held c (s.held c).tail } c p).links w c = s.links w c := rfl
  refine h.produce (h.result_of hproducer (by simp)) (Function.update_self ..) ?_ ?_ rfl ?_ ?_
  · rcases hp with rfl | rfl <;> simp
  · intro i hi
    rw [hxs]
    exact List.mem_append_right _ (hheld ▸ hi)
  · refine ⟨xs, ?_, ?_⟩
    · rcases hp with rfl | rfl
      · rw [rest_inHand]
        exact hheld
      · exact hheld
    · rw [hlinks]
      rcases hp with rfl | rfl
      · rw [rest_head]
        exact hchain
      · exact hchain
  · intro hc
    have hunique := (h.unique hc).2
    rw [hproducer] at hunique
    rcases hp with rfl | rfl
    · rw [rest_head]
      exact hunique
    · exact hunique

/-- The callback `head` is taken out of the list of the core, with `x` left on
the counter, and `p` is next. -/
def State.pop [DecidableEq κ] (s : State κ) (c : κ) (x : Int) (p : Producer) : State κ :=
  { s with count := x, held := Function.update s.held c (s.held c).tail }.move c p

/-- The callback of another thread, the last callback of the event, and any other
one of the event. -/
theorem callCallback_cases [DecidableEq κ]
    (next : Option Node) (hwaits : m.ours = true → s.returned = false) :
    (m.ours = false ∧ callCallback w s c m next = s.pop c s.count (.rest next)) ∨
    (m.ours = true ∧ (w.atomic = true ∧ s.count = 1 ∨ w.atomic = false) ∧
      callCallback w s c m next = s.pop c (s.count - w.atomic.toNat) (.lock next)) ∨
    (m.ours = true ∧ w.atomic = true ∧ s.count ≠ 1 ∧
      callCallback w s c m next = s.pop c (s.count - 1) (.rest next)) := by
  cases hours : m.ours with
  | false => exact .inl ⟨rfl, by simp [callCallback, hours, State.pop]⟩
  | true =>
    right
    have htouch : State.touch { s with held := Function.update s.held c (s.held c).tail } =
        { s with held := Function.update s.held c (s.held c).tail } := touch_eq (hwaits hours)
    simp only [callCallback, hours, if_true, htouch, true_and]
    cases hatomic : w.atomic with
    | false =>
      left
      refine ⟨.inr rfl, ?_⟩
      simp [hatomic, State.fetchSub, State.pop]
    | true =>
      by_cases hlast : s.count = 1
      · left
        refine ⟨.inl ⟨rfl, hlast⟩, ?_⟩
        simp [hatomic, State.fetchSub, State.subEqual, hlast, State.pop]
      · right
        refine ⟨rfl, hlast, ?_⟩
        simp [hatomic, State.fetchSub, State.subEqual, hlast, State.pop]

theorem beside_pop [DecidableEq κ]
    (s : State κ) (c : κ) (x : Int) (p : Producer) : Beside s (s.pop c x p) c :=
  ⟨rfl, rfl, Nat.le_refl _, fun _ _ => rfl, fun _ hd => Function.update_of_ne hd _ _,
    fun _ hd => Function.update_of_ne hd _ _⟩

variable [Fintype κ]

/-- A step at one core, seen from the waiting thread. -/
theorem Inv.produce (h : Inv w s) (hbeside : Beside s t c)
    (hcore : CoreInv w t (s.waiter.passed w.count) c)
    (hsettled : ∀ j r, Settled w s j c r → Settled w t j c r)
    (hpending : t.pending ≤ s.pending)
    (hatomic : w.atomic = true → t.count + s.pending = s.count + t.pending)
    (hone : w.atomic = false → t.count = s.count)
    (hset : s.returned = false → t.setting + t.isReady.toNat = once (s.waiter.own w + t.pending))
    (hready : 0 < t.leaving → t.isReady = true)
    (hlocked : t.locked.toNat + s.holding = s.locked.toNat + t.holding)
    (hquiet : s.returned = true → t.setting + t.leaving = 0)
    (hnotified : ∀ last wc rc, s.waiter = .asleep last wc rc → t.isReady = true →
      t.notified = true ∨ ∃ d next, t.producer d = .notify next)
    (hdangling : t.dangling = false) : Inv w t := by
  have hreturned : t.returned = s.returned := by simp only [State.returned, hbeside.waiter]
  have hbudget := h.budget
  constructor
  · rw [hbeside.waiter]
    intro d
    by_cases hd : d = c
    · subst hd
      exact hcore
    · exact (h.core d).frame (hbeside.callback d hd) (hbeside.held d hd) (hbeside.producer d hd)
        (fun _ m _ => congrFun hbeside.next m) hbeside.foreigns (Nat.le_refl _)
  · rw [hbeside.waiter]
    intro j d hj r hr
    have hold := h.settled j d hj r hr
    by_cases hd : d = c
    · subst hd
      exact hsettled j r hold
    · exact hold.frame (hbeside.callback d hd) (hbeside.held d hd)
  · intro ha hwaits
    rw [hreturned] at hwaits
    have hcount := h.count_eq ha hwaits
    have heq := hatomic ha
    rw [hbeside.waiter]
    omega
  · have hnonneg := h.count_nonneg
    cases ha : w.atomic with
    | false =>
      rw [hone ha]
      exact hnonneg
    | true =>
      have heq := hatomic ha
      cases hret : s.returned with
      | false =>
        have hcount := h.count_eq ha hret
        omega
      | true =>
        have hzero := h.pending_zero hret
        omega
  · rw [hbeside.waiter]
    omega
  · rw [hbeside.waiter]
    exact h.waitCount_le
  · rw [hbeside.waiter]
    exact h.passed_le
  · rw [hreturned, hbeside.waiter]
    exact hset
  · exact hready
  · have heq := h.locked_eq
    rw [hbeside.waiter]
    omega
  · rw [hreturned]
    exact hquiet
  · rw [hbeside.waiter]
    exact h.timed
  · rw [hbeside.waiter]
    exact h.expects
  · rw [hbeside.waiter]
    exact hnotified
  · exact hdangling

/-- The producer is not in `Set`. -/
def Producer.Calm (p : Producer) : Prop :=
  p.setting = 0 ∧ p.leaving = 0 ∧ p.holding = 0

@[simp] theorem rest_calm : (Producer.rest next).Calm := by cases next <;> exact ⟨rfl, rfl, rfl⟩

/-- `OneCounter`: the only callback is called last. -/
theorem Inv.sole (h : Inv w s) (hatomic : w.atomic = false) (hpos : 0 < s.pending) :
    s.waiter.own w = 0 ∧ s.pending = 1 := by
  have hone : w.count = 1 := by simpa [Call.atomic] using hatomic
  have hbudget := h.budget
  have hwc := h.waitCount_le
  have hpassed := h.passed_le
  refine ⟨?_, by omega⟩
  cases hwaiter : s.waiter with
  | attach k wc | attachSwap k wc | attachLoop k wc expected =>
    rw [hwaiter] at hbudget
    simp only [Waiter.own, hatomic, Bool.toNat_false, Waiter.waitCount] at hbudget ⊢
    omega
  | reset k wc rc | resetSwap k wc rc expected =>
    rw [hwaiter] at hbudget hwc hpassed
    simp only [Waiter.own, Waiter.waitCount, Waiter.resetCount, Waiter.passed]
      at hbudget hwc hpassed ⊢
    omega
  | _ => rfl

/-- The producer is in `Set`. -/
theorem Inv.waits_set (h : Inv w s) (hpos : 0 < (s.producer c).setting + (s.producer c).leaving) :
    s.returned = false := by
  by_contra hret
  have hquiet := h.quiet (by simpa using hret)
  have hsetting := le_tally Producer.setting s.producer c
  have hleaving := le_tally Producer.leaving s.producer c
  simp only [State.setting, State.leaving] at hquiet
  omega

variable [DecidableEq κ]

theorem setting_update (hproducer : t.producer = Function.update s.producer c p) :
    t.setting + (s.producer c).setting = s.setting + p.setting := by
  simp only [State.setting, hproducer]
  exact tally_update Producer.setting s.producer c p

theorem leaving_update (hproducer : t.producer = Function.update s.producer c p) :
    t.leaving + (s.producer c).leaving = s.leaving + p.leaving := by
  simp only [State.leaving, hproducer]
  exact tally_update Producer.leaving s.producer c p

theorem holding_update (hproducer : t.producer = Function.update s.producer c p) :
    t.holding + (s.producer c).holding = s.holding + p.holding := by
  simp only [State.holding, hproducer]
  exact tally_update Producer.holding s.producer c p

/-- A step of a producer outside of `Set`. -/
theorem Inv.produce_calm (h : Inv w s) (hbeside : Beside s t c)
    (hproducer : t.producer = Function.update s.producer c p) (hs : (s.producer c).Calm)
    (hp : p.Calm) (hcore : CoreInv w t (s.waiter.passed w.count) c)
    (hsettled : ∀ j r, Settled w s j c r → Settled w t j c r)
    (hpending : t.pending ≤ s.pending)
    (hatomic : w.atomic = true → t.count + s.pending = s.count + t.pending)
    (hone : w.atomic = false → t.count = s.count)
    (honce : s.returned = false →
      once (s.waiter.own w + t.pending) = once (s.waiter.own w + s.pending))
    (hready : t.isReady = s.isReady) (hlocked : t.locked = s.locked)
    (hnotified : t.notified = s.notified) (hdangling : t.dangling = false) : Inv w t := by
  have hsetting : t.setting = s.setting := by
    have hupdate := setting_update hproducer
    rwa [hs.1, hp.1] at hupdate
  have hleaving : t.leaving = s.leaving := by
    have hupdate := leaving_update hproducer
    rwa [hs.2.1, hp.2.1] at hupdate
  have hholding : t.holding = s.holding := by
    have hupdate := holding_update hproducer
    rwa [hs.2.2, hp.2.2] at hupdate
  refine h.produce hbeside hcore hsettled hpending hatomic hone ?_ ?_ ?_ ?_ ?_ hdangling
  · intro hwaits
    rw [hsetting, hready, honce hwaits]
    exact h.set_once hwaits
  · rw [hleaving, hready]
    exact h.ready
  · rw [hlocked, hholding]
  · rw [hsetting, hleaving]
    exact h.quiet
  · intro last wc rc hwaiter hset
    rw [hready] at hset
    rw [hnotified]
    rcases h.notified last wc rc hwaiter hset with hwoken | ⟨d, next, hd⟩
    · exact .inl hwoken
    · right
      refine ⟨d, next, ?_⟩
      have hne : d ≠ c := by
        rintro rfl
        rw [hd] at hs
        exact absurd hs.2.1 Nat.one_ne_zero
      rw [hbeside.producer d hne, hd]

theorem Inv.setResult (h : Inv w s) (hproducer : s.producer c = .before) :
    Inv w (setResult w s c) := by
  have hcore := h.core c
  obtain ⟨p, hstep, hcalm, hlinked⟩ : ∃ p, Wait.setResult w s c =
      { s with callback := Function.update s.callback c .kResult }.move c p ∧
      (p.Calm ∧ p ≠ .before ∧ (w.shared c = false → p.head .kEmpty = none)) ∧
      ∃ xs, s.held c = p.inHand ++ xs ∧ Chain (s.links w c) (p.head .kResult) xs := by
    unfold Wait.setResult
    cases hword : s.callback c with
    | kResult => exact absurd hproducer (hcore.result.mp hword)
    | ptr q =>
      have hchain := hcore.chain hword
      cases q with
      | none =>
        exact ⟨.finished, rfl, ⟨⟨rfl, rfl, rfl⟩, by simp, fun _ => rfl⟩, [], hchain.of_none, .nil⟩
      | some head =>
        cases hc : w.shared c with
        | true =>
          exact ⟨.visit head, rfl, ⟨⟨rfl, rfl, rfl⟩, by simp, by simp⟩, s.held c, rfl, hchain⟩
        | false =>
          exact ⟨.call head none, rfl, ⟨⟨rfl, rfl, rfl⟩, by simp, fun _ => rfl⟩, [],
            hcore.unique_held hc hword, .nil⟩
  rw [hstep]
  refine h.produce_calm (c := c) (p := p) ?_ rfl ?_ hcalm.1 ?_ ?_ (Nat.le_refl _) (fun _ => rfl)
    (fun _ => rfl) (fun _ => rfl) rfl rfl rfl h.dangling
  · exact ⟨rfl, rfl, Nat.le_refl _, fun _ hd => Function.update_of_ne hd _ _, fun _ _ => rfl,
      fun _ hd => Function.update_of_ne hd _ _⟩
  · rw [hproducer]
    exact ⟨rfl, rfl, rfl⟩
  · exact hcore.produce (Function.update_self ..) (Function.update_self ..) hcalm.2.1
      (fun _ hm => hm) rfl hlinked hcalm.2.2
  · intro j r _
    exact .inl (Function.update_self ..)

theorem Inv.visit (h : Inv w s) (hproducer : s.producer c = .visit m) :
    Inv w ((if m.ours then s.touch else s).move c (.call m (s.next m))) := by
  have hcore := h.core c
  obtain ⟨xs, hxs, hchain⟩ := hcore.linked
  rw [hproducer] at hxs hchain
  obtain ⟨ys, rfl, htail⟩ := hchain.of_some
  have hc : w.shared c = true := by
    by_contra hc
    have hunique := (hcore.unique (by simpa using hc)).2
    rw [hproducer] at hunique
    contradiction
  have hmem : m ∈ s.held c := by
    rw [hxs]
    exact List.mem_cons_self
  have htouch : (if m.ours then s.touch else s) = s := by
    split
    · next hours => exact touch_eq (h.waits hmem hours)
    · rfl
  have hlinks : s.links w c = s.next := by simp [State.links, hc]
  rw [hlinks] at htail
  have hresult := hcore.result_of hproducer (by simp)
  rw [htouch]
  refine h.produce_calm (beside_move ..) rfl ?_ ?_ ?_ ?_ (Nat.le_refl _) (fun _ => rfl)
    (fun _ => rfl) (fun _ => rfl) rfl rfl rfl h.dangling
  · rw [hproducer]
    exact ⟨rfl, rfl, rfl⟩
  · exact ⟨rfl, rfl, rfl⟩
  · refine hcore.produce hresult (Function.update_self ..) (by simp) (fun _ hm => hm) rfl
      ⟨ys, hxs, ?_⟩ (by simp [hc])
    show Chain (s.links w c) (s.next m) ys
    rw [hlinks]
    exact htail
  · intro j r _
    exact .inl hresult

/-- A callback of the waiting thread that is called is pending no more. -/
theorem pending_pop (h : CoreInv w s n c) (hproducer : s.producer c = .call m next) (x : Int)
    (p : Producer) : (s.pop c x p).pending + m.ours.toNat = s.pending := by
  obtain ⟨xs, hxs, -⟩ := h.linked
  rw [hproducer] at hxs
  exact tallyP_tail Node.ours hxs

/-- After the last callback of the event its producer enters `Set`. -/
theorem Inv.popLast (h : Inv w s) (hproducer : s.producer c = .call m next)
    (hours : m.ours = true) (hlast : w.atomic = true ∧ s.count = 1 ∨ w.atomic = false)
    (hwaits : s.returned = false) : Inv w (s.pop c (s.count - w.atomic.toNat) (.lock next)) := by
  have hcore := h.core c
  have hresult := hcore.result_of hproducer (by simp)
  obtain ⟨x, hx⟩ : ∃ x, x = s.count - w.atomic.toNat := ⟨_, rfl⟩
  have hpending := pending_pop hcore hproducer x (.lock next)
  rw [hours, Bool.toNat_true] at hpending
  have hsole : s.waiter.own w = 0 ∧ s.pending = 1 := by
    rcases hlast with ⟨hatomic, hone⟩ | hatomic
    · have hcount := h.count_eq hatomic hwaits
      omega
    · exact h.sole hatomic (by omega)
  have hset := h.set_once hwaits
  rw [hsole.1, hsole.2, once_pos (by decide)] at hset
  have hsetting := setting_update (s := s) (t := s.pop c x (.lock next)) (p := .lock next) rfl
  have hleaving := leaving_update (s := s) (t := s.pop c x (.lock next)) (p := .lock next) rfl
  have hholding := holding_update (s := s) (t := s.pop c x (.lock next)) (p := .lock next) rfl
  rw [hproducer] at hsetting hleaving hholding
  simp only [Producer.setting, Producer.leaving, Producer.holding, Nat.add_zero]
    at hsetting hleaving hholding
  have hready : s.isReady = false := by
    cases hready : s.isReady with
    | false => rfl
    | true =>
      rw [hready, Bool.toNat_true] at hset
      omega
  rw [← hx]
  refine h.produce (beside_pop ..) (hcore.pop hproducer (.inr rfl)) (fun _ _ _ => .inl hresult)
    (by omega) ?_ ?_ ?_ ?_ ?_ ?_ ?_ h.dangling
  · intro hatomic
    rw [hatomic, Bool.toNat_true] at hx
    show x + s.pending = s.count + _
    omega
  · intro hatomic
    rw [hatomic, Bool.toNat_false] at hx
    show x = s.count
    omega
  · intro _
    have hzero : (s.pop c x (.lock next)).pending = 0 := by omega
    rw [hsole.1, hzero, once_zero, hsetting]
    show s.setting + 1 + s.isReady.toNat = 1
    omega
  · rw [hleaving, h.leaving_eq hready]
    intro hpos
    contradiction
  · rw [hholding]
    rfl
  · intro hret
    rw [hwaits] at hret
    contradiction
  · intro last wc rc _ hset
    rw [show s.isReady = true from hset] at hready
    contradiction

/-- A callback subtracts before the stack of the call can be gone: it was pending until then.
-/
theorem Inv.callCallback (h : Inv w s) (hproducer : s.producer c = .call m next) :
    Inv w (callCallback w s c m next) := by
  have hcore := h.core c
  have hresult := hcore.result_of hproducer (by simp)
  have hcalm : (s.producer c).Calm := by
    rw [hproducer]
    exact ⟨rfl, rfl, rfl⟩
  have hwaits : m.ours = true → s.returned = false := by
    intro hours
    obtain ⟨xs, hxs, -⟩ := hcore.linked
    rw [hproducer] at hxs
    refine h.waits (c := c) ?_ hours
    rw [hxs]
    exact List.mem_cons_self
  rcases callCallback_cases (w := w) (c := c) next hwaits with
    ⟨hours, hstep⟩ | ⟨hours, hlast, hstep⟩ | ⟨hours, hatomic, hmore, hstep⟩
  · have hpending := pending_pop hcore hproducer s.count (.rest next)
    rw [hours, Bool.toNat_false] at hpending
    rw [hstep]
    refine h.produce_calm (beside_pop ..) rfl hcalm rest_calm (hcore.pop hproducer (.inl rfl))
      (fun _ _ _ => .inl hresult) (by omega) ?_ (fun _ => rfl) ?_ rfl rfl rfl h.dangling
    · intro _
      show s.count + s.pending = s.count + _
      omega
    · intro _
      congr 2
  · rw [hstep]
    exact h.popLast hproducer hours hlast (hwaits hours)
  · have hpending := pending_pop hcore hproducer (s.count - 1) (.rest next)
    have hcount := h.count_eq hatomic (hwaits hours)
    rw [hours, Bool.toNat_true] at hpending
    rw [hstep]
    refine h.produce_calm (beside_pop ..) rfl hcalm rest_calm (hcore.pop hproducer (.inl rfl))
      (fun _ _ _ => .inl hresult) (by omega) ?_ ?_ ?_ rfl rfl rfl h.dangling
    · intro _
      show s.count - 1 + s.pending = s.count + _
      omega
    · intro hone
      rw [hatomic] at hone
      contradiction
    · intro _
      rw [once_pos (by omega), once_pos (by omega)]

/-- A step of `Set`, from `q` to `p`. -/
theorem Inv.set (h : Inv w s) {p q : Producer} (hproducer : s.producer c = q)
    (hpos : 0 < q.setting + q.leaving) (hbefore : p ≠ .before)
    (hhand : p.inHand = q.inHand) (hhead : ∀ callback, p.head callback = q.head callback)
    {r l d : Bool} (hset : p.setting + r.toNat = q.setting + s.isReady.toNat)
    (hready : 0 < s.leaving + p.leaving → r = true)
    (hlocked : l.toNat + q.holding = s.locked.toNat + p.holding)
    (hnotified : ∀ last wc rc, s.waiter = .asleep last wc rc → r = true →
      d = true ∨ ∃ e next, Function.update s.producer c p e = .notify next) :
    Inv w ({ s with isReady := r, locked := l, notified := d }.move c p) := by
  have hcore := h.core c
  have hbefore' : q ≠ .before := by
    rintro rfl
    contradiction
  have hresult := hcore.result_of hproducer hbefore'
  have hwaits := h.waits_set (c := c) (by rw [hproducer]; exact hpos)
  obtain ⟨t, ht⟩ : ∃ t, t = State.move { s with isReady := r, locked := l, notified := d } c p :=
    ⟨_, rfl⟩
  have hupdate : t.producer = Function.update s.producer c p := by rw [ht]; rfl
  have hsetting := setting_update hupdate
  have hleaving := leaving_update hupdate
  have hholding := holding_update hupdate
  rw [hproducer] at hsetting hleaving hholding
  rw [← ht]
  refine h.produce (c := c) ?_ ?_ (fun _ _ _ => .inl ?_) ?_ ?_ ?_ ?_ ?_ ?_ ?_ ?_ ?_
  · rw [ht]
    exact ⟨rfl, rfl, Nat.le_refl _, fun _ _ => rfl, fun _ _ => rfl,
      fun _ hd => Function.update_of_ne hd _ _⟩
  · obtain ⟨xs, hxs, hchain⟩ := hcore.linked
    rw [hproducer, hresult] at hchain
    rw [hproducer] at hxs
    subst ht
    refine hcore.produce hresult (Function.update_self ..) hbefore (fun _ hm => hm) rfl ?_ ?_
    · refine ⟨xs, ?_, ?_⟩
      · rw [hhand]
        exact hxs
      · rw [hhead]
        exact hchain
    · intro hc
      have hunique := (hcore.unique hc).2
      rw [hproducer] at hunique
      rw [hhead]
      exact hunique
  · rw [ht]
    exact hresult
  · rw [ht]
    exact Nat.le_refl _
  · intro _
    rw [ht]
    rfl
  · intro _
    rw [ht]
    rfl
  · intro _
    have hold := h.set_once hwaits
    have hpending : t.pending = s.pending := by rw [ht]; rfl
    have hr : t.isReady = r := by rw [ht]; rfl
    rw [hpending, hr]
    omega
  · intro hpos'
    have hr : t.isReady = r := by rw [ht]; rfl
    rw [hr]
    apply hready
    omega
  · have hl : t.locked = l := by rw [ht]; rfl
    rw [hl]
    omega
  · intro hret
    rw [hwaits] at hret
    contradiction
  · intro last wc rc hasleep hr
    rw [hupdate]
    subst ht
    exact hnotified last wc rc hasleep hr
  · rw [ht]
    exact h.dangling

/-- Every step of a producer keeps the invariant. -/
theorem Inv.producerStep (h : Inv w s) (hstep : producerStep w s c = some t) : Inv w t := by
  unfold Wait.producerStep at hstep
  -- `_is_ready` is set by one producer only
  have honce : 0 < (s.producer c).setting + (s.producer c).leaving → s.returned = false ∧
      s.setting + s.isReady.toNat ≤ 1 := by
    intro hpos
    have hwaits := h.waits_set hpos
    rw [h.set_once hwaits]
    exact ⟨hwaits, once_le _⟩
  have hsetting := le_tally Producer.setting s.producer c
  cases hproducer : s.producer c with
  | before =>
    simp only [hproducer, Option.some.injEq] at hstep
    exact hstep ▸ h.setResult hproducer
  | visit head =>
    simp only [hproducer, Option.some.injEq] at hstep
    exact hstep ▸ h.visit hproducer
  | call head next =>
    simp only [hproducer, Option.some.injEq] at hstep
    exact hstep ▸ h.callCallback hproducer
  | lock next =>
    simp only [hproducer, Option.ite_none_left_eq_some, Option.some.injEq, Bool.not_eq_true] at hstep
    obtain ⟨hfree, rfl⟩ := hstep
    rw [hproducer] at honce hsetting
    obtain ⟨hwaits, hle⟩ := honce Nat.zero_lt_one
    rw [touch_eq hwaits]
    refine h.set (p := .setReady next) (r := s.isReady) (l := true) (d := s.notified) hproducer
      Nat.zero_lt_one (by simp) rfl (fun _ => rfl) rfl h.ready ?_ ?_
    · rw [hfree]
      rfl
    · intro _ _ _ _ hready
      rw [hready, Bool.toNat_true] at hle
      simp only [Producer.setting, State.setting] at hsetting hle
      omega
  | setReady next =>
    simp only [hproducer, Option.some.injEq] at hstep
    subst hstep
    rw [hproducer] at honce hsetting
    obtain ⟨hwaits, hle⟩ := honce Nat.zero_lt_one
    have hready : s.isReady.toNat = 0 := by
      simp only [Producer.setting, State.setting] at hsetting hle
      omega
    rw [touch_eq hwaits]
    refine h.set (p := .notify next) (r := true) (l := s.locked) (d := s.notified) hproducer
      Nat.zero_lt_one (by simp) rfl (fun _ => rfl) ?_ (fun _ => rfl) rfl ?_
    · rw [hready]
      rfl
    · intro _ _ _ _ _
      exact .inr ⟨c, next, Function.update_self ..⟩
  | notify next =>
    simp only [hproducer, Option.some.injEq] at hstep
    subst hstep
    have hready := h.ready (Nat.lt_of_lt_of_le Nat.zero_lt_one
      (le_tally_of Producer.leaving hproducer))
    rw [hproducer] at honce
    rw [touch_eq (honce Nat.zero_lt_one).1]
    exact h.set (p := .unlock next) (r := s.isReady) (l := s.locked) (d := true) hproducer
      Nat.zero_lt_one (by simp) rfl (fun _ => rfl) rfl (fun _ => hready) rfl
      (fun _ _ _ _ _ => .inl rfl)
  | unlock next =>
    simp only [hproducer, Option.some.injEq] at hstep
    subst hstep
    have hready := h.ready (Nat.lt_of_lt_of_le Nat.zero_lt_one
      (le_tally_of Producer.leaving hproducer))
    have hholding := le_tally_of Producer.holding hproducer
    have hlocked := h.locked_eq
    have hle := Bool.toNat_le s.locked
    rw [hproducer] at honce
    rw [touch_eq (honce Nat.zero_lt_one).1]
    refine h.set (r := s.isReady) (l := false) (d := s.notified) hproducer Nat.zero_lt_one
      rest_ne_before rest_inHand (fun _ => rest_head) ?_ (fun _ => hready) ?_ ?_
    · rw [rest_setting]
      rfl
    · rw [rest_holding]
      simp only [Producer.holding, State.holding] at hholding hlocked ⊢
      rw [Bool.toNat_false]
      omega
    · intro last wc rc hasleep _
      rcases h.notified last wc rc hasleep hready with hwoken | ⟨e, next', he⟩
      · exact .inl hwoken
      · right
        refine ⟨e, next', ?_⟩
        have hne : e ≠ c := by
          rintro rfl
          rw [hproducer] at he
          contradiction
        rw [Function.update_of_ne hne]
        exact he
  | finished =>
    simp only [hproducer] at hstep
    contradiction

/-- Another thread attaches a callback to a shared core. -/
theorem Inv.foreign (h : Inv w s) (hstep : foreign w s c = some t) : Inv w t := by
  unfold Wait.foreign at hstep
  split at hstep
  · next p hc hword =>
    cases hstep
    obtain ⟨m, hm⟩ : ∃ m, m = Node.foreign s.foreigns := ⟨_, rfl⟩
    have hfresh : ∀ d, w.shared d = true → m ∉ s.held d := by
      intro d _ hmem
      rw [hm] at hmem
      exact Nat.lt_irrefl _ ((h.core d).foreigns _ hmem)
    have hlink := h.link hfresh p
    have hcore : CoreInv w { s.link m p with foreigns := s.foreigns + 1 }
        (s.waiter.passed w.count) c :=
      (hlink.core c).frame rfl rfl rfl (fun _ _ _ => rfl) (Nat.le_succ _) (Nat.le_refl _)
    have hnot : m.ours = false := by rw [hm]; rfl
    have hpush := hcore.push (m := m) (q := s.waiter.passed w.count) hword
      (by simp [State.links, hc, State.link])
      (by rw [hm]; rintro i heq; cases heq; exact Nat.lt_succ_self _)
      (by rw [hc]; intro hfalse; contradiction)
      (by rw [hnot]; intro hfalse; contradiction) (Nat.le_refl _)
    have hpending : tallyP Node.ours (Function.update s.held c (m :: s.held c)) = s.pending := by
      rw [tallyP_cons, hnot]
      rfl
    rw [← hm]
    refine hlink.produce (c := c) ⟨rfl, rfl, Nat.le_succ _, ?_, ?_, fun _ _ => rfl⟩ hpush ?_
      hpending.le ?_ (fun _ => rfl) ?_ h.ready rfl h.quiet h.notified h.dangling
    · intro d hd
      exact Function.update_of_ne hd _ _
    · intro d hd
      exact Function.update_of_ne hd _ _
    · intro j r hsettled
      rcases hsettled with hresult | hmem | ⟨-, hc', -⟩
      · rw [show s.callback c = .kResult from hresult] at hword
        contradiction
      · right
        left
        show w.node j c ∈ Function.update s.held c (m :: s.held c) c
        rw [Function.update_self]
        exact List.mem_cons_of_mem _ hmem
      · rw [hc] at hc'
        contradiction
    · intro _
      show s.count + s.pending = s.count + (tallyP _ _ : Nat)
      rw [hpending]
    · intro hwaits
      show s.setting + s.isReady.toNat = once (s.waiter.own w + tallyP _ _)
      rw [hpending]
      exact h.set_once hwaits
  · contradiction

end Yaclib.Wait
