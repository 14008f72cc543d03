import Yaclib.Async.When.Combinator.Invariant

/-!
Every step keeps `Flow`.
-/

namespace Yaclib.When.Combinator

open Concurrency

variable {n : Nat} {κ τ R : Type} {S : StrategyClass n R}

namespace Setter

theorem passed_from {j : Nat} (hj : j ≤ n) : (Setter.from S j).passed = j := by
  unfold Setter.from
  by_cases hlt : j < n
  · rw [dif_pos hlt]
    by_cases howned : S.Owned
    · rw [if_pos howned]
      rfl
    · rw [if_neg howned]
      rfl
  · rw [dif_neg hlt]
    exact Nat.le_antisymm (Nat.le_of_not_lt hlt) hj

theorem registered_from {j : Nat} (hj : j ≤ n) (howned : S.Owned) :
    (Setter.from S j).registered = j := by
  unfold Setter.from
  by_cases hlt : j < n
  · rw [dif_pos hlt, if_pos howned]
    rfl
  · rw [dif_neg hlt]
    exact Nat.le_antisymm (Nat.le_of_not_lt hlt) hj

theorem from_ne_inside {j : Nat} {i : Fin n} : Setter.from S j ≠ .inside i := by
  unfold Setter.from
  by_cases hlt : j < n
  · rw [dif_pos hlt]
    by_cases howned : S.Owned
    · simp [howned]
    · simp [howned]
  · simp [hlt]

end Setter

namespace Producer

variable {shared : Bool} {next : Option Node}

@[simp] theorem inHand_rest : (rest shared next : Producer n).inHand = [] := by
  cases next with
  | none => cases shared <;> rfl
  | some m => rfl

@[simp] theorem head_rest {callback : Callback Node} :
    (rest shared next : Producer n).head callback = next := by
  cases next with
  | none => cases shared <;> rfl
  | some m => rfl

theorem rest_ne_before : (rest shared next : Producer n) ≠ .before := by
  cases next with
  | none => cases shared <;> simp [rest]
  | some m => simp [rest]

theorem rest_ne_inside {i : Fin n} {q : Option Node} :
    (rest shared next : Producer n) ≠ .inside i q := by
  cases next with
  | none => cases shared <;> simp [rest]
  | some m => simp [rest]

end Producer

variable {F : Futures n κ τ R} {s t : State κ S} {c d : κ}

theorem CoreInv.links_unique (hshared : F.shared c = false) : s.links F c = fun _ => none := by
  simp [State.links, hshared]

variable [DecidableEq τ]
variable {i : Fin n}

@[simp] theorem State.phase_put (stage : Stage κ S.Place R) :
    (s.put i stage).phase = Function.update s.phase i stage.phase := by
  funext j
  by_cases hj : j = i
  · subst hj
    simp [State.phase, State.put]
  · simp [State.phase, State.put, hj]

/-- A step that leaves the core alone, and the links of its list. -/
theorem CoreInv.frame (h : CoreInv F s d) (hcallback : t.callback d = s.callback d)
    (hproducer : t.producer d = s.producer d) (hheld : t.held d = s.held d)
    (hforeigns : s.foreigns ≤ t.foreigns)
    (hnext : F.shared d = true → ∀ m ∈ s.held d, t.next m = s.next m) : CoreInv F t d := by
  refine ⟨?_, ?_, ?_, ?_, ?_, ?_⟩
  · obtain ⟨xs, hxs, hchain⟩ := h.linked
    rw [hheld, hproducer, hcallback]
    refine ⟨xs, hxs, hchain.frame ?_⟩
    intro m hm
    unfold State.links
    by_cases hshared : F.shared d = true
    · rw [if_pos hshared, if_pos hshared]
      apply hnext hshared
      rw [hxs]
      exact List.mem_append_right _ hm
    · rw [if_neg hshared, if_neg hshared]
  · rw [hheld]
    exact h.nodup
  · rw [hcallback, hproducer]
    exact h.result
  · intro m hm
    rw [hheld] at hm
    exact Nat.lt_of_lt_of_le (h.foreigns m hm) hforeigns
  · rw [hheld]
    exact h.ours
  · rw [hheld, hproducer]
    exact h.unique

/-- The fields that `Flow` reads. -/
structure SameFlow (s t : State κ S) : Prop where
  callback : t.callback = s.callback
  next : t.next = s.next
  foreigns : t.foreigns = s.foreigns
  producer : t.producer = s.producer
  setter : t.setter = s.setter
  held : t.held = s.held
  phase : t.phase = s.phase

theorem Flow.congr (h : Flow F s) (hst : SameFlow s t) : Flow F t := by
  refine ⟨?_, ?_, ?_, ?_, ?_, ?_, ?_⟩
  · intro c
    apply (h.core c).frame
    · rw [hst.callback]
    · rw [hst.producer]
    · rw [hst.held]
    · rw [hst.foreigns]
    · intro _ m _
      rw [hst.next]
  · rw [hst.phase, hst.setter]
    exact h.unset
  · rw [hst.phase, hst.held]
    exact h.attached
  · rw [hst.phase, hst.producer]
    exact h.called
  · rw [hst.phase, hst.setter]
    exact h.inlined
  · rw [hst.producer]
    exact h.own
  · rw [hst.phase, hst.callback]
    exact h.completed

/-- The list of a core that waits for its result. -/
theorem CoreInv.before (h : CoreInv F s c) (hbefore : s.producer c = .before) :
    Chain (s.links F c) (s.callback c).toPtr (s.held c) := by
  obtain ⟨xs, hxs, hchain⟩ := h.linked
  rw [hbefore] at hxs hchain
  rw [hxs]
  exact hchain

/-- The callback in hand is the first that the producer still holds. -/
theorem CoreInv.call (h : CoreInv F s c) {head : Node} {next : Option Node}
    (hcall : s.producer c = .call head next) :
    ∃ xs, s.held c = head :: xs ∧ head ∉ xs ∧ xs.Nodup ∧ Chain (s.links F c) next xs := by
  obtain ⟨xs, hxs, hchain⟩ := h.linked
  rw [hcall] at hxs hchain
  have hnodup := h.nodup
  rw [hxs] at hnodup
  obtain ⟨hfresh, hrest⟩ := List.nodup_cons.mp hnodup
  exact ⟨xs, hxs, hfresh, hrest, hchain⟩

/-- The producer takes the first callback that the core holds. -/
theorem CoreInv.take (h : CoreInv F s c) {head : Node} {next : Option Node} {p : Producer n}
    (hcall : s.producer c = .call head next) (hcallback : t.callback c = s.callback c)
    (hnext : t.next = s.next) (hforeigns : t.foreigns = s.foreigns)
    (hheld : t.held c = (s.held c).tail) (hproducer : t.producer c = p)
    (hhand : p.inHand = []) (hhead : ∀ callback, p.head callback = next) (hbefore : p ≠ .before)
    (hsingle : F.shared c = false → next = none → p.Single) : CoreInv F t c := by
  obtain ⟨xs, hxs, -, hnodup, hchain⟩ := h.call hcall
  have htail : t.held c = xs := by rw [hheld, hxs, List.tail_cons]
  have hsub : ∀ m ∈ xs, m ∈ s.held c := by
    intro m hm
    rw [hxs]
    exact List.mem_cons_of_mem _ hm
  have hresult : s.callback c = .kResult := h.result.mpr (by rw [hcall]; simp)
  refine ⟨⟨xs, ?_, ?_⟩, ?_, ?_, ?_, ?_, ?_⟩
  · rw [htail, hproducer, hhand, List.nil_append]
  · rw [hproducer, hhead]
    unfold State.links at hchain ⊢
    rw [hnext]
    exact hchain
  · rw [htail]
    exact hnodup
  · rw [hcallback, hproducer]
    exact iff_of_true hresult hbefore
  · intro m hm
    rw [htail] at hm
    rw [hforeigns]
    exact h.foreigns m (hsub _ hm)
  · intro m hm
    rw [htail] at hm
    exact h.ours m (hsub m hm)
  · intro hunique
    rw [htail, hproducer]
    have hlast := (h.unique hunique).2
    rw [hcall] at hlast
    exact ⟨fun m hm => (h.unique hunique).1 m (hsub m hm), hsingle hunique hlast⟩

/-- One callback of an input moves. -/
theorem Flow.input (h : Flow F s) (hcore : ∀ d, CoreInv F t d) {p : Phase}
    (hphase : t.phase = Function.update s.phase i p)
    (hunset : p = .unset ↔ t.setter.passed ≤ i)
    (hattached : p = .attached ↔ F.node S.kConsumePolicy i ∈ t.held (F.core i))
    (hcalled : p = .running false ↔ ∃ next, t.producer (F.core i) = .inside i next)
    (hinlined : p = .running true ↔ t.setter = .inside i)
    (hcompleted : p.started = true → t.callback (F.core i) = .kResult)
    (hpassed : ∀ j : Fin n, j ≠ i → (t.setter.passed ≤ j ↔ s.setter.passed ≤ j))
    (hheld : ∀ j, j ≠ i → (F.node S.kConsumePolicy j ∈ t.held (F.core j) ↔
      F.node S.kConsumePolicy j ∈ s.held (F.core j)))
    (hproducer : ∀ c j next, j ≠ i → (t.producer c = .inside j next ↔ s.producer c = .inside j next))
    (hown : ∀ c next, t.producer c = .inside i next → F.core i = c)
    (hsetter : ∀ j, j ≠ i → (t.setter = .inside j ↔ s.setter = .inside j))
    (hcallback : ∀ c, s.callback c = .kResult → t.callback c = .kResult) : Flow F t := by
  refine ⟨hcore, ?_, ?_, ?_, ?_, ?_, ?_⟩
  · rw [hphase]
    intro j
    by_cases hj : j = i
    · subst hj
      rw [Function.update_self, hunset]
    · rw [Function.update_of_ne hj, h.unset j, hpassed j hj]
  · rw [hphase]
    intro j
    by_cases hj : j = i
    · subst hj
      rw [Function.update_self, hattached]
    · rw [Function.update_of_ne hj, h.attached j, hheld j hj]
  · rw [hphase]
    intro j
    by_cases hj : j = i
    · subst hj
      rw [Function.update_self, hcalled]
    · rw [Function.update_of_ne hj, h.called j]
      exact exists_congr fun next => (hproducer _ j next hj).symm
  · rw [hphase]
    intro j
    by_cases hj : j = i
    · subst hj
      rw [Function.update_self, hinlined]
    · rw [Function.update_of_ne hj, h.inlined j, hsetter j hj]
  · intro c j next hinside
    by_cases hj : j = i
    · subst hj
      exact hown c next hinside
    · exact h.own c j next ((hproducer c j next hj).mp hinside)
  · rw [hphase]
    intro j hj
    by_cases hji : j = i
    · subst hji
      rw [Function.update_self] at hj
      exact hcompleted hj
    · rw [Function.update_of_ne hji] at hj
      exact hcallback _ (h.completed j hj)

/-- `Register` does not move a callback. -/
theorem Flow.register (h : Flow F s) (hregister : s.setter = .register i) {cores : Fin n → Option κ} :
    Flow F { s.touch.goto (.setCallback i) with cores := cores } := by
  refine ⟨?_, ?_, h.attached, h.called, ?_, h.own, h.completed⟩
  · intro c
    exact (h.core c).frame rfl rfl rfl (Nat.le_refl _) fun _ _ _ => rfl
  · intro j
    have hunset := h.unset j
    rw [hregister] at hunset
    exact hunset
  · intro j
    have hinlined := h.inlined j
    rw [hregister] at hinlined
    show s.phase j = _ ↔ Setter.setCallback i = _
    rw [hinlined]
    simp

/-- `Set` begins the `Consume` of the input `i`. -/
theorem Flow.enterSet (h : Flow F s) (hset : s.setter = .setCallback i) {index : Nat}
    (hresult : s.callback (F.core i) = .kResult) :
    Flow F ((beginConsume s i true index).goto (.inside i)) := by
  have hunset : s.phase i = .unset := by
    rw [h.unset i, hset]
    exact Nat.le_refl _
  apply h.input (i := i) (p := .running true)
  · intro c
    exact (h.core c).frame rfl rfl rfl (Nat.le_refl _) fun _ _ _ => rfl
  · exact State.phase_put _
  · show _ ↔ i.val + 1 ≤ i
    simp
  · show _ ↔ _ ∈ s.held (F.core i)
    rw [← h.attached i, hunset]
    simp
  · show _ ↔ ∃ next, s.producer (F.core i) = .inside i next
    rw [← h.called i, hunset]
    simp
  · show _ ↔ Setter.inside i = .inside i
    simp
  · intro _
    exact hresult
  · intro j hj
    show i.val + 1 ≤ j ↔ s.setter.passed ≤ j
    rw [hset]
    have hne : j.val ≠ i.val := fun heq => hj (Fin.ext heq)
    show i.val + 1 ≤ j ↔ i.val ≤ j
    omega
  · intro j _
    rfl
  · intro c j next _
    rfl
  · intro c next hinside
    exact h.own c i next hinside
  · intro j hj
    show Setter.inside i = .inside j ↔ s.setter = .inside j
    rw [hset]
    simp [Ne.symm hj]
  · intro c hc
    exact hc

/-- `Set` comes back from the `Consume` of the input `i`. -/
theorem Flow.leaveSet (h : Flow F s) (hinside : s.setter = .inside i) :
    Flow F ((s.put i .done).goto (.from S (i + 1))) := by
  have hrunning : s.phase i = .running true := (h.inlined i).mpr hinside
  have hpassed : (Setter.from S (i.val + 1)).passed = i.val + 1 := Setter.passed_from i.isLt
  apply h.input (i := i) (p := .done)
  · intro c
    exact (h.core c).frame rfl rfl rfl (Nat.le_refl _) fun _ _ _ => rfl
  · exact State.phase_put _
  · show _ ↔ (Setter.from S (i.val + 1)).passed ≤ i
    rw [hpassed]
    simp
  · show _ ↔ _ ∈ s.held (F.core i)
    rw [← h.attached i, hrunning]
    simp
  · show _ ↔ ∃ next, s.producer (F.core i) = .inside i next
    rw [← h.called i, hrunning]
    simp
  · show _ ↔ Setter.from S (i.val + 1) = .inside i
    simp [Setter.from_ne_inside]
  · intro _
    apply h.completed i
    rw [hrunning]
    rfl
  · intro j _
    show (Setter.from S (i.val + 1)).passed ≤ j ↔ s.setter.passed ≤ j
    rw [hpassed, hinside]
    rfl
  · intro j _
    rfl
  · intro c j next _
    rfl
  · intro c next hq
    exact h.own c i next hq
  · intro j hj
    show Setter.from S (i.val + 1) = .inside j ↔ s.setter = .inside j
    rw [hinside]
    simp [Setter.from_ne_inside, Ne.symm hj]
  · intro c hc
    exact hc

/-- A core with a callback in its word has no result. -/
theorem CoreInv.before_of_ptr (h : CoreInv F s c) {p : Option Node}
    (hcallback : s.callback c = .ptr p) : s.producer c = .before := by
  by_contra hne
  have hresult := h.result.mpr hne
  rw [hcallback] at hresult
  contradiction

variable [DecidableEq κ]

/-! ### The producers -/

/-- A producer moves, and no callback of an input starts or ends. -/
theorem Flow.producer (h : Flow F s) (hcore : CoreInv F t c)
    (hcallback : ∀ d, d ≠ c → t.callback d = s.callback d)
    (hproducer : ∀ d, d ≠ c → t.producer d = s.producer d)
    (hheld : ∀ d, d ≠ c → t.held d = s.held d)
    (hnext : t.next = s.next) (hforeigns : t.foreigns = s.foreigns)
    (hsetter : t.setter = s.setter) (hphase : t.phase = s.phase)
    (hresult : s.callback c = .kResult → t.callback c = .kResult)
    (hmem : ∀ j, F.core j = c →
      (F.node S.kConsumePolicy j ∈ t.held c ↔ F.node S.kConsumePolicy j ∈ s.held c))
    (hs : ∀ j next, s.producer c ≠ .inside j next)
    (ht : ∀ j next, t.producer c ≠ .inside j next) : Flow F t := by
  refine ⟨?_, ?_, ?_, ?_, ?_, ?_, ?_⟩
  · intro d
    by_cases hd : d = c
    · rw [hd]
      exact hcore
    · apply (h.core d).frame (hcallback d hd) (hproducer d hd) (hheld d hd) hforeigns.ge
      intro _ m _
      rw [hnext]
  · rw [hphase, hsetter]
    exact h.unset
  · intro j
    rw [hphase, h.attached j]
    by_cases hj : F.core j = c
    · rw [hj]
      exact (hmem j hj).symm
    · rw [hheld _ hj]
  · intro j
    rw [hphase, h.called j]
    by_cases hj : F.core j = c
    · rw [hj]
      constructor
      · rintro ⟨next, hinside⟩
        exact absurd hinside (hs j next)
      · rintro ⟨next, hinside⟩
        exact absurd hinside (ht j next)
    · rw [hproducer _ hj]
  · rw [hphase, hsetter]
    exact h.inlined
  · intro d j next hinside
    by_cases hd : d = c
    · rw [hd] at hinside
      exact absurd hinside (ht j next)
    · rw [hproducer d hd] at hinside
      exact h.own d j next hinside
  · intro j hj
    rw [hphase] at hj
    have hold := h.completed j hj
    by_cases hd : F.core j = c
    · rw [hd] at hold ⊢
      exact hresult hold
    · rw [hcallback _ hd]
      exact hold

/-- The exchange moves no callback; the producer has them in hand. -/
theorem Flow.setResult (h : Flow F s) (hbefore : s.producer c = .before) :
    Flow F (setResult F s c) := by
  have hcore := h.core c
  have hchain := hcore.before hbefore
  obtain ⟨p, hp, ht⟩ : ∃ p, (Combinator.setResult F s c).producer c = p ∧
      (p.inHand = [] ∧ p.head .kResult = (s.callback c).toPtr ∨
        F.shared c = false ∧ ∃ m, s.callback c = .ptr (some m) ∧ p = .call m none) ∧
      p ≠ .before ∧ (∀ j next, p ≠ .inside j next) ∧ (F.shared c = false → p.Single) := by
    have hresult : s.callback c ≠ .kResult := fun heq => absurd hbefore (hcore.result.mp heq)
    refine ⟨_, rfl, ?_⟩
    simp only [Combinator.setResult, State.move, Function.update_self]
    cases hcallback : s.callback c with
    | kResult => contradiction
    | ptr q =>
      cases q with
      | none =>
        cases hshared : F.shared c with
        | true => simp [Producer.inHand, Producer.head]
        | false => simp [Producer.inHand, Producer.head, Producer.Single]
      | some m =>
        cases hshared : F.shared c with
        | true => simp [Producer.inHand, Producer.head]
        | false => simp [Producer.Single]
  apply h.producer (c := c)
  · refine ⟨?_, hcore.nodup, ?_, hcore.foreigns, hcore.ours, ?_⟩
    · rw [hp]
      have hcallback : (Combinator.setResult F s c).callback c = .kResult := by
        simp [Combinator.setResult, State.move, State.touchCore]
      rw [hcallback]
      rcases ht.1 with ⟨hhand, hhead⟩ | ⟨hunique, m, hm, rfl⟩
      · rw [hhand, hhead]
        exact ⟨s.held c, rfl, hchain⟩
      · rw [hm, Callback.toPtr_ptr] at hchain
        obtain ⟨ys, hys, hrest⟩ := hchain.of_some
        refine ⟨ys, hys, ?_⟩
        rw [CoreInv.links_unique hunique] at hrest ⊢
        exact hrest
    · rw [hp]
      simp [Combinator.setResult, State.move, State.touchCore, ht.2.1]
    · intro hunique
      rw [hp]
      exact ⟨(hcore.unique hunique).1, ht.2.2.2 hunique⟩
  · intro d hd
    exact Function.update_of_ne hd _ _
  · intro d hd
    exact Function.update_of_ne hd _ _
  · intro d _
    rfl
  · rfl
  · rfl
  · rfl
  · rfl
  · intro _
    exact Function.update_self _ _ _
  · intro j _
    rfl
  · rw [hbefore]
    simp
  · rw [hp]
    exact ht.2.2.1

/-- A producer moves within its list. -/
theorem Flow.move (h : Flow F s) {p : Producer n} (hresult : s.callback c = .kResult)
    (hs : ∀ j next, s.producer c ≠ .inside j next) (hbefore : p ≠ .before)
    (hp : ∀ j next, p ≠ .inside j next)
    (hchain : ∀ xs, s.held c = (s.producer c).inHand ++ xs →
      Chain (s.links F c) ((s.producer c).head .kResult) xs →
      ∃ ys, s.held c = p.inHand ++ ys ∧ Chain (s.links F c) (p.head .kResult) ys)
    (hsingle : F.shared c = false → (s.producer c).Single → p.Single) :
    Flow F (s.move c p) := by
  have hcore := h.core c
  have hproducer : (s.move c p).producer c = p := Function.update_self _ _ _
  apply h.producer (c := c)
  · refine ⟨?_, hcore.nodup, ?_, hcore.foreigns, hcore.ours, ?_⟩
    · obtain ⟨xs, hxs, hlinked⟩ := hcore.linked
      rw [hresult] at hlinked
      obtain ⟨ys, hys, hrest⟩ := hchain xs hxs hlinked
      rw [hproducer]
      refine ⟨ys, hys, ?_⟩
      show Chain (s.links F c) (p.head (s.callback c)) ys
      rw [hresult]
      exact hrest
    · rw [hproducer]
      exact iff_of_true hresult hbefore
    · intro hunique
      rw [hproducer]
      exact ⟨(hcore.unique hunique).1, hsingle hunique (hcore.unique hunique).2⟩
  · intro d _
    rfl
  · intro d hd
    exact Function.update_of_ne hd _ _
  · intro d _
    rfl
  · rfl
  · rfl
  · rfl
  · rfl
  · exact id
  · intro j _
    rfl
  · exact hs
  · rw [hproducer]
    exact hp

theorem Flow.visit (h : Flow F s) {head : Node} (hvisit : s.producer c = .visit head) :
    Flow F (s.move c (match s.next head with
      | none => .lastDecRef head
      | some m => .call head (some m))) := by
  have hcore := h.core c
  have hresult : s.callback c = .kResult := hcore.result.mpr (by rw [hvisit]; simp)
  have hshared : F.shared c = true := by
    cases hunique : F.shared c with
    | true => rfl
    | false =>
      have hsingle := (hcore.unique hunique).2
      rw [hvisit] at hsingle
      exact absurd hsingle id
  have hlinks : s.links F c = s.next := by simp [State.links, hshared]
  apply h.move hresult
  · rw [hvisit]
    simp
  · cases s.next head <;> simp
  · cases s.next head <;> simp
  · intro xs hxs hchain
    rw [hvisit] at hxs hchain
    obtain ⟨ys, rfl, hrest⟩ := hchain.of_some
    refine ⟨ys, ?_, ?_⟩
    · rw [hxs]
      cases s.next head <;> rfl
    · rw [hlinks] at hrest ⊢
      cases hnext : s.next head with
      | none =>
        rw [hnext] at hrest
        exact hrest
      | some m =>
        rw [hnext] at hrest
        exact hrest
  · intro hunique
    rw [hshared] at hunique
    contradiction

theorem Flow.lastDecRef (h : Flow F s) {head : Node} (hlast : s.producer c = .lastDecRef head) :
    Flow F (s.move c (.call head none)) := by
  apply h.move ((h.core c).result.mpr (by rw [hlast]; simp))
  · rw [hlast]
    simp
  · simp
  · simp
  · intro xs hxs hchain
    rw [hlast] at hxs hchain
    exact ⟨xs, hxs, hchain⟩
  · intro _ hsingle
    rw [hlast] at hsingle
    exact absurd hsingle id

theorem Flow.decRef (h : Flow F s) {more : Nat} {p : Producer n}
    (hdecRef : s.producer c = .decRef more) (hp : p = .finished ∨ ∃ k, p = .decRef k) :
    Flow F (s.move c p) := by
  apply h.move ((h.core c).result.mpr (by rw [hdecRef]; simp))
  · rw [hdecRef]
    simp
  · rcases hp with rfl | ⟨k, rfl⟩ <;> simp
  · rcases hp with rfl | ⟨k, rfl⟩ <;> simp
  · intro xs hxs hchain
    rw [hdecRef] at hxs hchain
    rcases hp with rfl | ⟨k, rfl⟩
    · exact ⟨xs, hxs, hchain⟩
    · exact ⟨xs, hxs, hchain⟩
  · intro _ hsingle
    rw [hdecRef] at hsingle
    exact absurd hsingle id

/-- The callback of another thread is called. -/
theorem Flow.callForeign (h : Flow F s) {head : Node} {next : Option Node}
    (hcall : s.producer c = .call head next) (hnone : F.inputOf S.kConsumePolicy c head = none) :
    Flow F (({ s with held := Function.update s.held c (s.held c).tail } : State κ S).move c
      (.rest (F.shared c) next)) := by
  have hcore := h.core c
  obtain ⟨xs, hxs, -, -, -⟩ := hcore.call hcall
  apply h.producer (c := c)
  · refine hcore.take hcall (t := State.move _ c _) rfl rfl rfl (Function.update_self _ _ _)
      (Function.update_self _ _ _) Producer.inHand_rest (fun _ => Producer.head_rest)
      Producer.rest_ne_before ?_
    rintro hunique rfl
    rw [hunique]
    trivial
  · intro d _
    rfl
  · intro d hd
    exact Function.update_of_ne hd _ _
  · intro d hd
    exact Function.update_of_ne hd _ _
  · rfl
  · rfl
  · rfl
  · rfl
  · exact id
  · intro j hj
    have hne : F.node S.kConsumePolicy j ≠ head := by
      intro hnode
      have hsome := F.inputOf_eq_some.mpr ⟨hj, hnode⟩
      rw [hnone] at hsome
      contradiction
    show F.node S.kConsumePolicy j ∈ Function.update s.held c (s.held c).tail c ↔ _
    rw [Function.update_self, hxs, List.tail_cons, List.mem_cons]
    exact ⟨.inr, fun hmem => hmem.resolve_left hne⟩
  · rw [hcall]
    simp
  · intro j q
    show Function.update s.producer c _ c ≠ _
    rw [Function.update_self]
    exact Producer.rest_ne_inside

/-! ### The callbacks of the inputs -/

/-- The producer takes the callback of the input `i` out of the list and begins its
`Consume`. -/
theorem Flow.callInput (h : Flow F s) {head : Node} {next : Option Node} (index : Nat)
    (hcall : s.producer c = .call head next) (hi : F.inputOf S.kConsumePolicy c head = some i) :
    Flow F ((beginConsume
      ({ s with held := Function.update s.held c (s.held c).tail } : State κ S).touch i false
        index).move c (.inside i next)) := by
  have hcore := h.core c
  obtain ⟨rfl, hnode⟩ := F.inputOf_eq_some.mp hi
  obtain ⟨xs, hxs, hfresh, -, -⟩ := hcore.call hcall
  have hattached : s.phase i = .attached := by
    rw [h.attached i, hnode, hxs]
    exact List.mem_cons_self
  obtain ⟨t, ht⟩ : ∃ t, t = (beginConsume
      ({ s with held := Function.update s.held (F.core i) (s.held (F.core i)).tail } :
        State κ S).touch i false index).move (F.core i) (.inside i next) := ⟨_, rfl⟩
  have hphase : t.phase = Function.update s.phase i (.running false) := by
    rw [ht]
    exact State.phase_put _
  have hheld : t.held = Function.update s.held (F.core i) xs := by
    rw [ht]
    show Function.update s.held (F.core i) (s.held (F.core i)).tail = _
    rw [hxs, List.tail_cons]
  have hproducer : t.producer = Function.update s.producer (F.core i) (.inside i next) := by
    rw [ht]
    rfl
  have hsetter : t.setter = s.setter := by
    rw [ht]
    rfl
  have hcallback : t.callback = s.callback := by
    rw [ht]
    rfl
  have hresult : s.callback (F.core i) = .kResult := hcore.result.mpr (by rw [hcall]; simp)
  rw [← ht]
  apply h.input (i := i) (p := .running false)
  · intro d
    by_cases hd : d = F.core i
    · subst hd
      apply hcore.take hcall (by rw [hcallback]) (by rw [ht]; rfl) (by rw [ht]; rfl)
        (by rw [hheld, Function.update_self, hxs, List.tail_cons])
        (by rw [hproducer, Function.update_self])
      · rfl
      · intro callback
        rfl
      · simp
      · rintro _ rfl
        rfl
    · apply (h.core d).frame
      · rw [hcallback]
      · rw [hproducer, Function.update_of_ne hd]
      · rw [hheld, Function.update_of_ne hd]
      · rw [ht]
        exact Nat.le_refl _
      · intro _ m _
        rw [ht]
        rfl
  · exact hphase
  · rw [hsetter, ← h.unset i, hattached]
    simp
  · rw [hheld, Function.update_self, hnode]
    simpa using hfresh
  · rw [hproducer, Function.update_self]
    simp
  · rw [hsetter, ← h.inlined i, hattached]
    simp
  · intro _
    rw [hcallback]
    exact hresult
  · intro j _
    rw [hsetter]
  · intro j hj
    rw [hheld]
    by_cases hd : F.core j = F.core i
    · have hne : F.node S.kConsumePolicy j ≠ head := by
        rw [← hnode]
        exact fun heq => hj (F.eq_of_node hd heq)
      rw [hd, Function.update_self, hxs, List.mem_cons]
      exact ⟨.inr, fun hmem => hmem.resolve_left hne⟩
    · rw [Function.update_of_ne hd]
  · intro d j q hj
    rw [hproducer]
    by_cases hd : d = F.core i
    · subst hd
      rw [Function.update_self, hcall]
      simp [Ne.symm hj]
    · rw [Function.update_of_ne hd]
  · intro d q hinside
    rw [hproducer] at hinside
    by_cases hd : d = F.core i
    · exact hd.symm
    · rw [Function.update_of_ne hd] at hinside
      exact h.own d i q hinside
  · intro j _
    rw [hsetter]
  · intro d hd
    rw [hcallback]
    exact hd

/-- The producer comes back from the callback of the input `i`. -/
theorem Flow.leaveProducer (h : Flow F s) {next : Option Node}
    (hinside : s.producer c = .inside i next) :
    Flow F ((s.put i .done).move c (.rest (F.shared c) next)) := by
  have hcore := h.core c
  obtain rfl : F.core i = c := h.own c i next hinside
  have hresult : s.callback (F.core i) = .kResult := hcore.result.mpr (by rw [hinside]; simp)
  have hrunning : s.phase i = .running false := (h.called i).mpr ⟨next, hinside⟩
  have hproducer : ((s.put i .done).move (F.core i) (.rest (F.shared (F.core i)) next)).producer
      = Function.update s.producer (F.core i) (.rest (F.shared (F.core i)) next) := rfl
  apply h.input (i := i) (p := .done)
  · intro d
    by_cases hd : d = F.core i
    · subst hd
      obtain ⟨xs, hxs, hchain⟩ := hcore.linked
      rw [hinside] at hxs hchain
      refine ⟨⟨xs, ?_, ?_⟩, hcore.nodup, ?_, hcore.foreigns, hcore.ours, ?_⟩
      · rw [hproducer, Function.update_self, Producer.inHand_rest]
        exact hxs
      · rw [hproducer, Function.update_self, Producer.head_rest]
        exact hchain
      · rw [hproducer, Function.update_self]
        exact iff_of_true hresult Producer.rest_ne_before
      · intro hunique
        rw [hproducer, Function.update_self]
        have hlast := (hcore.unique hunique).2
        rw [hinside] at hlast
        obtain rfl : next = none := hlast
        rw [hunique]
        exact ⟨(hcore.unique hunique).1, trivial⟩
    · apply (h.core d).frame
      · rfl
      · rw [hproducer, Function.update_of_ne hd]
      · rfl
      · exact Nat.le_refl _
      · intro _ m _
        rfl
  · exact State.phase_put _
  · show _ ↔ s.setter.passed ≤ i
    rw [← h.unset i, hrunning]
    simp
  · show _ ↔ _ ∈ s.held (F.core i)
    rw [← h.attached i, hrunning]
    simp
  · rw [hproducer, Function.update_self]
    simp [Producer.rest_ne_inside]
  · show _ ↔ s.setter = .inside i
    rw [← h.inlined i, hrunning]
    simp
  · intro _
    exact hresult
  · intro j _
    rfl
  · intro j _
    rfl
  · intro d j q hj
    rw [hproducer]
    by_cases hd : d = F.core i
    · subst hd
      rw [Function.update_self, hinside]
      simp [Ne.symm hj, Producer.rest_ne_inside]
    · rw [Function.update_of_ne hd]
  · intro d q hq
    rw [hproducer] at hq
    by_cases hd : d = F.core i
    · exact hd.symm
    · rw [Function.update_of_ne hd] at hq
      exact h.own d i q hq
  · intro j _
    rfl
  · intro d hd
    exact hd

/-! ### The thread in Set -/

/-- A `SetCallback` succeeds: the node is the head of the list now. -/
theorem CoreInv.push (h : CoreInv F s c) {p : Option Node} {m : Node}
    (hcallback : s.callback c = .ptr p) (hp : F.shared c = false → p = none) (hm : m ∉ s.held c)
    (hproducer : t.producer = s.producer)
    (hword : t.callback = Function.update s.callback c (.ptr (some m)))
    (hheld : t.held = Function.update s.held c (m :: s.held c))
    (hnext : F.shared c = true → t.next = Function.update s.next m p)
    (hforeigns : s.foreigns ≤ t.foreigns)
    (hours : m.ours = true → ∃ i, F.core i = c ∧ F.node S.kConsumePolicy i = m)
    (hforeign : ∀ k, m = .foreign k → k < t.foreigns ∧ F.shared c = true) : CoreInv F t c := by
  have hbefore := h.before_of_ptr hcallback
  have hchain := h.before hbefore
  rw [hcallback, Callback.toPtr_ptr] at hchain
  have hheldc : t.held c = m :: s.held c := by rw [hheld, Function.update_self]
  have hwordc : t.callback c = .ptr (some m) := by rw [hword, Function.update_self]
  refine ⟨⟨m :: s.held c, ?_, ?_⟩, ?_, ?_, ?_, ?_, ?_⟩
  · rw [hproducer, hbefore, hheldc]
    rfl
  · rw [hproducer, hbefore, hwordc]
    show Chain (t.links F c) (some m) _
    unfold State.links at hchain ⊢
    by_cases hshared : F.shared c = true
    · rw [if_pos hshared] at hchain ⊢
      rw [hnext hshared]
      exact hchain.push hm
    · rw [if_neg hshared] at hchain ⊢
      rw [hp (by simpa using hshared)] at hchain
      rw [hchain.of_none]
      exact .cons .nil
  · rw [hheldc]
    exact List.nodup_cons.mpr ⟨hm, h.nodup⟩
  · rw [hwordc, hproducer, hbefore]
    simp
  · intro k hk
    rw [hheldc, List.mem_cons] at hk
    rcases hk with rfl | hk
    · exact (hforeign k rfl).1
    · exact Nat.lt_of_lt_of_le (h.foreigns k hk) hforeigns
  · intro q hq hqours
    rw [hheldc, List.mem_cons] at hq
    rcases hq with rfl | hq
    · exact hours hqours
    · exact h.ours q hq hqours
  · intro hunique
    rw [hproducer]
    refine ⟨?_, (h.unique hunique).2⟩
    intro q hq
    rw [hheldc, List.mem_cons] at hq
    rcases hq with rfl | hq
    · cases q with
      | foreign k =>
        have hshared := (hforeign k rfl).2
        rw [hunique] at hshared
        contradiction
      | _ => rfl
    · exact (h.unique hunique).1 q hq

/-- The `SetCallback` of an input succeeds. -/
theorem Flow.attach (h : Flow F s) (hset : s.setter = .setCallback i) {p : Option Node}
    (hcallback : s.callback (F.core i) = .ptr p) (hp : F.shared (F.core i) = false → p = none) :
    Flow F ((attach F s i p).goto (.from S (i + 1))) := by
  have hcore := h.core (F.core i)
  have hunset : s.phase i = .unset := by
    rw [h.unset i, hset]
    exact Nat.le_refl _
  have hfresh : F.node S.kConsumePolicy i ∉ s.held (F.core i) := by
    intro hmem
    rw [← h.attached i, hunset] at hmem
    contradiction
  have hpassed : (Setter.from S (i.val + 1)).passed = i.val + 1 := Setter.passed_from i.isLt
  obtain ⟨t, ht⟩ : ∃ t, t = (Combinator.attach F s i p).goto (.from S (i + 1)) := ⟨_, rfl⟩
  have hheld : t.held = Function.update s.held (F.core i)
      (F.node S.kConsumePolicy i :: s.held (F.core i)) := by
    rw [ht]
    rfl
  have hword : t.callback = Function.update s.callback (F.core i)
      (.ptr (some (F.node S.kConsumePolicy i))) := by
    rw [ht]
    rfl
  have hnext : t.next = if F.shared (F.core i)
      then Function.update s.next (F.node S.kConsumePolicy i) p else s.next := by
    rw [ht]
    rfl
  have hproducer : t.producer = s.producer := by
    rw [ht]
    rfl
  have hsetter : t.setter = .from S (i + 1) := by
    rw [ht]
    rfl
  have hforeigns : t.foreigns = s.foreigns := by
    rw [ht]
    rfl
  rw [← ht]
  apply h.input (i := i) (p := .attached)
  · intro d
    by_cases hd : d = F.core i
    · subst hd
      apply hcore.push hcallback hp hfresh hproducer hword hheld
      · intro hshared
        rw [hnext, if_pos hshared]
      · exact hforeigns.ge
      · intro _
        exact ⟨i, rfl, rfl⟩
      · intro k hk
        have hours := F.node_ours (P := S.kConsumePolicy) i
        rw [hk] at hours
        contradiction
    · apply (h.core d).frame
      · rw [hword, Function.update_of_ne hd]
      · rw [hproducer]
      · rw [hheld, Function.update_of_ne hd]
      · exact hforeigns.ge
      · intro _ m hm
        rw [hnext]
        by_cases hshared : F.shared (F.core i) = true
        · -- the node of a shared input hangs on no other core
          rw [if_pos hshared]
          apply Function.update_of_ne
          rintro rfl
          obtain ⟨j, hj, hnode⟩ := (h.core d).ours _ hm (F.node_ours i)
          rw [F.node_inj hnode hshared] at hj
          exact hd hj.symm
        · rw [if_neg hshared]
  · rw [ht]
    exact State.phase_put _
  · rw [hsetter, hpassed]
    simp
  · rw [hheld, Function.update_self]
    simp
  · rw [hproducer, ← h.called i, hunset]
    simp
  · rw [hsetter]
    simp [Setter.from_ne_inside]
  · intro hstarted
    contradiction
  · intro j hj
    rw [hsetter, hpassed, hset]
    have hne : j.val ≠ i.val := fun heq => hj (Fin.ext heq)
    show i.val + 1 ≤ j ↔ i.val ≤ j
    omega
  · intro j hj
    rw [hheld]
    by_cases hd : F.core j = F.core i
    · have hne : F.node S.kConsumePolicy j ≠ F.node S.kConsumePolicy i :=
        fun heq => hj (F.eq_of_node hd heq)
      rw [hd, Function.update_self, List.mem_cons]
      exact ⟨fun hmem => hmem.resolve_left hne, .inr⟩
    · rw [Function.update_of_ne hd]
  · intro c j next _
    rw [hproducer]
  · intro c next hinside
    rw [hproducer] at hinside
    exact h.own c i next hinside
  · intro j _
    rw [hsetter, hset]
    simp [Setter.from_ne_inside]
  · intro c hc
    have hne : c ≠ F.core i := by
      rintro rfl
      rw [hcallback] at hc
      contradiction
    rw [hword, Function.update_of_ne hne]
    exact hc

/-! ### Other threads -/

/-- Other threads attach callbacks of their own, in front of those of the inputs. -/
theorem Flow.foreignAttach (h : Flow F s) (hattach : foreignAttach F s c = some t) : Flow F t := by
  have hcore := h.core c
  unfold Combinator.foreignAttach at hattach
  cases hshared : F.shared c with
  | false => simp [hshared] at hattach
  | true =>
    cases hcallback : s.callback c with
    | kResult => simp [hshared, hcallback] at hattach
    | ptr p =>
      simp only [hshared, hcallback, Option.some.injEq] at hattach
      -- the new callback is in no list yet
      have hfresh : ∀ d, Node.foreign s.foreigns ∉ s.held d :=
        fun d hmem => absurd ((h.core d).foreigns _ hmem) (Nat.lt_irrefl _)
      subst hattach
      refine ⟨?_, h.unset, ?_, h.called, h.inlined, h.own, ?_⟩
      · intro d
        by_cases hd : d = c
        · subst hd
          apply hcore.push hcallback _ (hfresh d)
          · rfl
          · rfl
          · rfl
          · intro _
            rfl
          · exact Nat.le_succ _
          · intro hours
            contradiction
          · intro k hk
            rw [Node.foreign.injEq] at hk
            rw [← hk]
            exact ⟨Nat.lt_succ_self _, hshared⟩
          · intro hunique
            rw [hshared] at hunique
            contradiction
        · apply (h.core d).frame
          · exact Function.update_of_ne hd _ _
          · rfl
          · exact Function.update_of_ne hd _ _
          · exact Nat.le_succ _
          · intro _ m hm
            apply Function.update_of_ne
            rintro rfl
            exact hfresh d hm
      · intro j
        show s.phase j = _ ↔ F.node S.kConsumePolicy j ∈ Function.update s.held c _ (F.core j)
        rw [h.attached j]
        by_cases hd : F.core j = c
        · have hne : F.node S.kConsumePolicy j ≠ .foreign s.foreigns := by
            intro heq
            have hours := F.node_ours (P := S.kConsumePolicy) j
            rw [heq] at hours
            contradiction
          rw [hd, Function.update_self, List.mem_cons]
          exact ⟨.inr, fun hmem => hmem.resolve_left hne⟩
        · rw [Function.update_of_ne hd]
      · intro j hj
        have hold := h.completed j hj
        have hne : F.core j ≠ c := by
          rintro rfl
          rw [hcallback] at hold
          contradiction
        show Function.update s.callback c _ (F.core j) = _
        rw [Function.update_of_ne hne]
        exact hold

theorem Flow.init {fields : S.Fields} {kept : κ → Nat} : Flow F (init F fields kept) := by
  refine ⟨?_, ?_, ?_, ?_, ?_, ?_, ?_⟩
  · intro c
    refine ⟨⟨[], rfl, .nil⟩, List.nodup_nil, ?_, ?_, ?_, ?_⟩
    · exact iff_of_false (by simp [Combinator.init, Callback.kEmpty]) (by simp [Combinator.init])
    · intro m hm
      simp [Combinator.init] at hm
    · intro m hm
      simp [Combinator.init] at hm
    · intro _
      exact ⟨by simp [Combinator.init], trivial⟩
  · intro i
    refine iff_of_true rfl ?_
    show (Setter.from S 0).passed ≤ i
    rw [Setter.passed_from (Nat.zero_le n)]
    exact Nat.zero_le _
  · intro i
    exact iff_of_false (by simp [State.phase, Combinator.init, Stage.phase])
      (by simp [Combinator.init])
  · intro i
    exact iff_of_false (by simp [State.phase, Combinator.init, Stage.phase])
      (by simp [Combinator.init])
  · intro i
    exact iff_of_false (by simp [State.phase, Combinator.init, Stage.phase])
      Setter.from_ne_inside
  · intro c i next hinside
    simp [Combinator.init] at hinside
  · intro i hstarted
    simp [State.phase, Combinator.init, Stage.phase, Phase.started] at hstarted

end Yaclib.When.Combinator
