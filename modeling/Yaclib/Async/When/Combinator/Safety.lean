import Yaclib.Async.When.Combinator.Refinement

/-!
What a combinator promises to its strategy and to its inputs.
-/

namespace Yaclib.When.Combinator

open Concurrency

variable {n : Nat} {κ τ R : Type} {F : Futures n κ τ R}
variable {S : StrategyClass n R} {s : State κ S}

/-- After the destructor, every input is through. -/
theorem Work.done_of_destroyed (h : Work F s) (hdestroyed : s.destroyed ≠ 0) :
    s.destroyed = 1 ∧ ∀ i, s.call i = .done := by
  have hcount := h.destroyed_eq
  have hzero : s.count = 0 := by
    by_contra hpos
    rw [if_neg hpos] at hcount
    omega
  rw [if_pos hzero] at hcount
  refine ⟨by omega, ?_⟩
  intro i
  have hcounted : tally Stage.counted s.call = 0 := by
    rw [← h.count_eq]
    exact hzero
  have hdestroying : tally Stage.destroying s.call = 0 := by omega
  exact Stage.eq_done (tally_eq_zero.mp hcounted i) (tally_eq_zero.mp hdestroying i)

theorem Work.released_le (h : Work F s) (i : Fin n) : s.released i ≤ 1 := by
  rw [h.released_eq i]
  by_cases howned : S.Owned
  · rw [if_pos howned]
    split <;> omega
  · rw [if_neg howned]
    cases s.call i with
    | running inline b => cases b <;> simp [Stage.released]
    | _ => simp [Stage.released]

/-- All references are given back. -/
theorem Work.released_of_destroyed (h : Work F s) (hdestroyed : s.destroyed = 1) (i : Fin n) :
    s.released i = 1 := by
  have hdone := (h.done_of_destroyed (by omega)).2 i
  rw [h.released_eq i, hdone]
  by_cases howned : S.Owned
  · have hfreed : i.val < s.freed := by
      rw [State.freed, hdestroyed, Nat.mul_one]
      exact Nat.lt_of_lt_of_le i.isLt (Nat.le_add_right _ _)
    rw [if_pos howned, if_pos hfreed]
  · rw [if_neg howned]
    rfl

variable [DecidableEq κ]

/-- A callback that runs can go on. -/
theorem advance_isSome {i : Fin n} {inline : Bool} (hi : s.phase i = .running inline)
    (leave : State κ S → State κ S) : (advance F s i leave).isNone = false := by
  unfold advance
  cases hcall : s.call i with
  | running inline b =>
    dsimp only
    split <;> rfl
  | unset | attached | done =>
    rw [State.phase, hcall] at hi
    contradiction

variable [DecidableEq τ]

variable (F) in
/-- Neither the thread in `Set` nor a producer can go on. -/
def Quiet (s : State κ S) : Prop :=
  (setStep F s).isNone = true ∧ ∀ c use, (producerStep F s c use).isNone = true

/-- The threads do not wait for each other. -/
theorem Inv.quiet (h : Inv F s) (hq : Quiet F s) :
    s.setter = .done ∧ ∀ c, s.producer c = .finished := by
  refine ⟨?_, ?_⟩
  · have hset := hq.1
    unfold Combinator.setStep at hset
    cases hsetter : s.setter with
    | done => rfl
    | inside i =>
      simp only [hsetter] at hset
      rw [advance_isSome ((h.flow.inlined i).mpr hsetter)] at hset
      contradiction
    | register i | setCallback i =>
      simp only [hsetter] at hset
      contradiction
  · intro c
    have hstep := hq.2 c .copy
    unfold Combinator.producerStep at hstep
    cases hproducer : s.producer c with
    | finished => rfl
    | inside i next =>
      have hi : s.phase i = .running false := by
        rw [h.flow.called i, h.flow.own c i next hproducer]
        exact ⟨next, hproducer⟩
      simp only [hproducer] at hstep
      rw [advance_isSome hi] at hstep
      contradiction
    | decRef more =>
      cases more <;> simp [hproducer] at hstep
    | before | visit head | lastDecRef head | call head next =>
      simp only [hproducer] at hstep
      contradiction

/-- Once all threads are through, so is the callback of every input. -/
theorem Inv.finished (h : Inv F s) (hset : s.setter = .done)
    (hproducer : ∀ c, s.producer c = .finished) (i : Fin n) : s.call i = .done := by
  cases hcall : s.call i with
  | done => rfl
  | unset =>
    have hunset := (h.flow.unset i).mp (by rw [State.phase, hcall]; rfl)
    rw [hset] at hunset
    exact absurd i.isLt (Nat.not_lt.mpr hunset)
  | attached =>
    have hmem := (h.flow.attached i).mp (by rw [State.phase, hcall]; rfl)
    obtain ⟨xs, hxs, hchain⟩ := (h.flow.core (F.core i)).linked
    rw [hproducer] at hxs hchain
    obtain rfl := hchain.of_none
    rw [hxs] at hmem
    simp [Producer.inHand] at hmem
  | running inline b =>
    have hphase : s.phase i = .running inline := by
      rw [State.phase, hcall]
      rfl
    cases inline with
    | true =>
      rw [h.flow.inlined i, hset] at hphase
      contradiction
    | false =>
      obtain ⟨next, hinside⟩ := (h.flow.called i).mp hphase
      rw [hproducer] at hinside
      contradiction

/-- While the strategy is destroyed, `Set` calls neither `Register` nor `SetCallback`, and
no `Consume` is on its way. -/
theorem Inv.returned (h : Inv F s) (hcount : s.count = 0) :
    (∀ i, s.setter ≠ .register i ∧ s.setter ≠ .setCallback i) ∧
      ∀ i, (s.call i).toCall.Past := by
  have hcounted := h.work.count_eq
  rw [hcount] at hcounted
  have hgone := tally_eq_zero.mp hcounted.symm
  have hstarted : ∀ i, s.phase i ≠ .unset := by
    intro i hunset
    have hnot : (s.call i).phase.started = false := by
      rw [← State.phase, hunset]
      rfl
    have hone := (Stage.of_not_started hnot).1
    rw [hgone i] at hone
    contradiction
  refine ⟨?_, ?_⟩
  · intro i
    refine ⟨?_, ?_⟩
    · intro hset
      exact hstarted i ((h.flow.unset i).mpr (by rw [hset]; exact Nat.le_refl _))
    · intro hset
      exact hstarted i ((h.flow.unset i).mpr (by rw [hset]; exact Nat.le_refl _))
  · intro i
    have hzero := hgone i
    cases hcall : s.call i with
    | done => trivial
    | unset | attached => simp [hcall, Stage.counted] at hzero
    | running inline b =>
      rw [hcall] at hzero
      cases b with
      | destroy _ _ _ | destroyDecRef _ _ _ => trivial
      | _ => simp [Stage.counted] at hzero

theorem Inv.destroyed_of_quiet (h : Inv F s) (hq : Quiet F s) :
    s.destroyed = 1 ∧ ∀ i, s.call i = .done := by
  obtain ⟨hset, hproducer⟩ := h.quiet hq
  have hdone := h.finished hset hproducer
  have hzero : s.count = 0 := by
    rw [h.work.count_eq]
    apply tally_eq_zero.mpr
    intro i
    rw [hdone i]
    rfl
  have hdestroying : tally Stage.destroying s.call = 0 := by
    apply tally_eq_zero.mpr
    intro i
    rw [hdone i]
    rfl
  have hcount := h.work.destroyed_eq
  rw [if_pos hzero, hdestroying] at hcount
  exact ⟨hcount, hdone⟩

/-- Only who keeps a future has a reference to the core then. -/
theorem Inv.refs_of_quiet (h : Inv F s) (hq : Quiet F s) (c : κ) :
    s.refs c = if F.shared c then s.kept c else 0 := by
  have hproducer := (h.quiet hq).2
  have hreleased := h.work.released_of_destroyed (h.destroyed_of_quiet hq).1
  have hnone : s.holders F c = 0 := by
    apply tally_eq_zero.mpr
    intro i
    simp [holds, hreleased i]
  rw [h.heap.refs_eq c, hnone, hproducer c, Nat.zero_add]
  show (if F.shared c then 0 + s.kept c else 0) = _
  rw [Nat.zero_add]

/-- In every interleaving of the completions of the inputs with `Set`: an input is
consumed once at most, with its own index, an `Owned` strategy has it registered by then,
and its reference to the core is given back once at most. A callback object that hangs on
a shared core belongs to one input. From the last `DecRef` of the combinator on, `Set` is
past all `Register` and all `Consume` calls have returned; the destructor runs once, and
nobody uses the combinator or a core that is gone. When no thread can go on, every input
is consumed and has its core released, and the strategy is destroyed. -/
theorem combinator_safe {fields : S.Fields} (hs : (system F S fields).Reachable s) :
    (∀ i, s.calls i = [] ∨ s.calls i = [S.argument i]) ∧
    (S.Owned → ∀ i, s.calls i ≠ [] → s.cores i = some (F.core i)) ∧
    (∀ i, s.released i ≤ 1) ∧
    (∀ c m, F.shared c = true → m ∈ s.held c → m.ours = true → ∃ i, F.core i = c ∧
      s.call i = .attached ∧ ∀ j, F.node S.kConsumePolicy j = m → j = i) ∧
    (s.count = 0 → (∀ i, s.setter ≠ .register i ∧ s.setter ≠ .setCallback i) ∧
      ∀ i, (s.call i).toCall.Past) ∧
    s.destroyed ≤ 1 ∧ (s.destroyed ≠ 0 → s.count = 0) ∧
    s.dangling = false ∧
    (Quiet F s → s.destroyed = 1 ∧ (∀ i, s.calls i = [S.argument i] ∧ s.released i = 1) ∧
      ∀ c, s.refs c = if F.shared c then s.kept c else 0) := by
  have h := (inv_of_reachable hs).1
  refine ⟨?_, ?_, h.work.released_le, ?_, h.returned, ?_, ?_, h.dangling, ?_⟩
  · intro i
    rw [h.work.calls_eq i]
    by_cases hi : (s.phase i).started = true
    · rw [if_pos hi]
      exact .inr rfl
    · rw [if_neg hi]
      exact .inl rfl
  · intro howned i hi
    rw [h.work.calls_eq i] at hi
    have hstarted : (s.phase i).started = true := by
      by_contra hnot
      rw [if_neg hnot] at hi
      exact hi rfl
    have hpassed : i.val < s.setter.passed := by
      by_contra hle
      rw [(h.flow.unset i).mpr (Nat.not_lt.mp hle)] at hstarted
      contradiction
    have hregistered : s.setter.passed ≤ s.setter.registered := by
      cases s.setter <;> simp [Setter.passed, Setter.registered]
    exact h.work.registered howned i (Nat.lt_of_lt_of_le hpassed hregistered)
  · intro c m hshared hm hours
    obtain ⟨i, rfl, rfl⟩ := (h.flow.core c).ours m hm hours
    refine ⟨i, rfl, ?_, fun j hj => F.node_inj hj hshared⟩
    have hphase := (h.flow.attached i).mpr hm
    rw [State.phase] at hphase
    cases hcall : s.call i with
    | attached => rfl
    | unset | running _ _ | done =>
      rw [hcall] at hphase
      contradiction
  · by_contra hmore
    have hone := (h.work.done_of_destroyed (by omega)).1
    omega
  · intro hdestroyed
    have hdone := (h.work.done_of_destroyed hdestroyed).2
    rw [h.work.count_eq]
    apply tally_eq_zero.mpr
    intro i
    rw [hdone i]
    rfl
  · intro hq
    obtain ⟨hdestroyed, hdone⟩ := h.destroyed_of_quiet hq
    refine ⟨hdestroyed, ?_, h.refs_of_quiet hq⟩
    intro i
    refine ⟨?_, h.work.released_of_destroyed hdestroyed i⟩
    rw [h.work.calls_eq i, State.phase, hdone i]
    rfl

theorem inputs_pos : 0 < 3 := by decide

/-- Two copies of a shared future and a unique one. -/
def mixed : Futures 3 (Fin 2) Unit Nat where
  core i := if i = 2 then 1 else 0
  type c := if c = 0 then .shared () else .unique ()
  iterator := false
  result c := c
  movedFrom _ := 0
  nonempty := inputs_pos
  covers := by decide
  distinct := by decide
  sameCore := by simp

/-- A strategy that counts its `Consume` calls. -/
def counting : StrategyClass 3 Nat where
  kConsumePolicy := .Unordered
  kCorePolicy := .Managed
  Fields := Nat
  Place := Unit
  start := ()
  consume _ _ _ f _ := (f + 1, none)
  retires _ := false
  destroy _ f := f

/-- The shared core gets its result between its two registrations, and the unique one
completes last. -/
def interleaved : List (Event (Fin 2)) :=
  [.set, .producer 0 .copy, .set] ++ List.replicate 4 .set ++ [.set] ++
    List.replicate 9 (.producer 0 .copy) ++ List.replicate 7 (.producer 1 .copy)

theorem combinator_safe_interleaved :
    let s := ((system mixed counting (0 : Nat)).run (init mixed (0 : Nat) fun _ => 0)
      interleaved).get (by decide)
    s.destroyed = 1 ∧ (∀ i : Fin 3, s.calls i = [none] ∧ s.released i = 1) ∧
      ∀ c : Fin 2, s.refs c = 0 := by
  have hinit : (system mixed counting (0 : Nat)).Reachable (init mixed (0 : Nat) fun _ => 0) :=
    .init ⟨fun _ => 0, fun _ _ => rfl, rfl⟩
  have hq : Quiet mixed (((system mixed counting (0 : Nat)).run
      (init mixed (0 : Nat) fun _ => 0) interleaved).get (by decide)) := by
    refine ⟨by decide, ?_⟩
    intro c use
    revert c
    cases use <;> decide
  have hend := (combinator_safe (hinit.run (fun _ _ _ _ => trivial)
    (Option.some_get _).symm)).2.2.2.2.2.2.2.2 hq
  exact ⟨hend.1, hend.2.1, by decide⟩

end Yaclib.When.Combinator
