import Yaclib.Async.When.Combinator.Safety

/-!
From a strategy to the promise of its combinator: what an invariant of the strategy says
of the promise holds under every combinator, in every interleaving.
-/

namespace Yaclib.When.Combinator

open Concurrency

variable {n : Nat} {κ τ R β : Type} [DecidableEq κ] {F : Futures n κ τ R}
variable {S : StrategyClass n R} {s t : State κ S}

/-- A step of the combinator changes the fields through the strategy only. -/
theorem bodyStep_fields {i : Fin n} {b : Body κ S.Place R} :
    (Combinator.bodyStep F s i b).1.fields = s.fields ∨
      (∃ index r p, (Combinator.bodyStep F s i b).1.fields = (S.consume i index r s.fields p).1) ∨
      ∃ output, (Combinator.bodyStep F s i b).1.fields = S.destroy output s.fields := by
  cases b with
  | retire index =>
    obtain ⟨x, content, heq⟩ := State.retire_eq (F := F) (s := s) (c := F.core i)
    left
    show (s.retire F (F.core i)).fields = _
    rw [heq]
  | retireDecRef index r | decRefCore | decRef => exact .inl rfl
  | inside index r p =>
    obtain ⟨x, heq⟩ :=
      Combinator.consumeStep_eq (F := F) (s := s) (i := i) index r p
    right
    left
    refine ⟨index, r.getD (s.content (F.core i)), p, ?_⟩
    show (Combinator.consumeStep F s i index r p).1.fields = _
    rw [heq]
  | destroy retires k output =>
    have hstep : Combinator.bodyStep F s i (.destroy retires k output) =
        Combinator.destroyStep F s retires k output := rfl
    rw [hstep]
    unfold Combinator.destroyStep
    by_cases hk : k < n
    · rw [dif_pos hk]
      left
      cases s.cores ⟨k, hk⟩ with
      | none => rfl
      | some c =>
        cases retires with
        | false => rfl
        | true =>
          obtain ⟨x, content, heq⟩ := State.retire_eq (F := F) (s := s) (c := c)
          dsimp only
          rw [heq]
    · rw [dif_neg hk]
      right
      right
      exact ⟨output, rfl⟩
  | destroyDecRef k c output =>
    left
    unfold Combinator.bodyStep
    dsimp only
    split <;> rfl

variable [DecidableEq τ]

/-! ### The fields -/

theorem step_fields {e : Combinator.Event κ} (hstep : Combinator.step F s e = some t) :
    t.fields = s.fields ∨ (∃ i index r p, t.fields = (S.consume i index r s.fields p).1) ∨
      ∃ output, t.fields = S.destroy output s.fields := by
  have hadvance : ∀ (i : Fin n) (leave : Combinator.State κ S → Combinator.State κ S),
      Combinator.advance F s i leave = some t → (∀ u, (leave u).fields = u.fields) →
      t.fields = s.fields ∨ (∃ i index r p, t.fields = (S.consume i index r s.fields p).1) ∨
        ∃ output, t.fields = S.destroy output s.fields := by
    intro i leave hnext hleave
    unfold Combinator.advance at hnext
    cases hi : s.call i with
    | running inline b =>
      rw [hi] at hnext
      have hbody := Combinator.bodyStep_fields (F := F) (s := s) (i := i) (b := b)
      cases hb : Combinator.bodyStep F s i b with
      | mk u ob =>
        rw [hb] at hbody
        have hfields : t.fields = u.fields := by
          cases ob with
          | none =>
            simp only [hb, Option.some.injEq] at hnext
            rw [← hnext, hleave]
            rfl
          | some b' =>
            simp only [hb, Option.some.injEq] at hnext
            rw [← hnext]
            rfl
        rw [hfields]
        rcases hbody with hsame | ⟨index, r, p, hconsume⟩ | hdestroy
        · exact .inl hsame
        · exact .inr (.inl ⟨i, index, r, p, hconsume⟩)
        · exact .inr (.inr hdestroy)
    | unset | attached | done =>
      rw [hi] at hnext
      contradiction
  cases e with
  | set =>
    change Combinator.setStep F s = some t at hstep
    unfold Combinator.setStep at hstep
    cases hset : s.setter with
    | register i =>
      simp only [hset, Option.some.injEq] at hstep
      rw [← hstep]
      exact .inl rfl
    | setCallback i =>
      simp only [hset, Option.some.injEq] at hstep
      rw [← hstep]
      left
      unfold Combinator.setCallback
      dsimp only
      split <;> rfl
    | inside i =>
      simp only [hset] at hstep
      exact hadvance i _ hstep fun _ => rfl
    | done =>
      simp only [hset] at hstep
      contradiction
  | producer c use =>
    change Combinator.producerStep F s c use = some t at hstep
    unfold Combinator.producerStep at hstep
    cases hproducer : s.producer c with
    | before =>
      simp only [hproducer, Option.some.injEq] at hstep
      rw [← hstep]
      exact .inl rfl
    | visit head =>
      simp only [hproducer, Option.some.injEq] at hstep
      rw [← hstep]
      left
      by_cases hours : head.ours = true
      · rw [if_pos hours]
        rfl
      · rw [if_neg hours]
        rfl
    | lastDecRef head =>
      simp only [hproducer, Option.some.injEq] at hstep
      rw [← hstep]
      exact .inl rfl
    | call head next =>
      simp only [hproducer, Option.some.injEq] at hstep
      rw [← hstep]
      left
      unfold Combinator.callCallback
      cases F.inputOf S.kConsumePolicy c head with
      | some i => rfl
      | none =>
        unfold Combinator.callForeign
        cases use with
        | copy | incRef => rfl
        | moveOrCopy =>
          dsimp only
          split <;> rfl
    | inside i next =>
      simp only [hproducer] at hstep
      exact hadvance i _ hstep fun _ => rfl
    | decRef more =>
      cases more with
      | zero | succ more =>
        simp only [hproducer, Option.some.injEq] at hstep
        rw [← hstep]
        exact .inl rfl
    | finished =>
      simp only [hproducer] at hstep
      contradiction
  | attach c =>
    change Combinator.foreignAttach F s c = some t at hstep
    unfold Combinator.foreignAttach at hstep
    split at hstep
    · simp only [Option.some.injEq] at hstep
      rw [← hstep]
      exact .inl rfl
    · contradiction
  | copy c =>
    change Combinator.foreignCopy s c = some t at hstep
    unfold Combinator.foreignCopy at hstep
    split at hstep
    · contradiction
    · simp only [Option.some.injEq] at hstep
      rw [← hstep]
      exact .inl rfl
  | drop c retires =>
    change Combinator.foreignDrop F s c retires = some t at hstep
    unfold Combinator.foreignDrop at hstep
    split at hstep
    · contradiction
    · simp only [Option.some.injEq] at hstep
      rw [← hstep]
      left
      cases retires with
      | false => rfl
      | true =>
        obtain ⟨x, content, heq⟩ := State.retire_eq (F := F) (s := s) (c := c)
        show (s.retire F c).fields = _
        rw [heq]

/-! ### The promise -/

/-- The promise is set once at most and keeps what it was set to, every input gives back
its reference to its core once at most, and who keeps a future finds its result in it.
When no thread can go on, the promise is set and the references are given back. -/
structure Delivered (F : Futures n κ τ R) (sets : S.Fields → List β) (s : State κ S) : Prop where
  once : (sets s.fields).length ≤ 1
  released_le : ∀ i, s.released i ≤ 1
  kept : ∀ c, 0 < s.kept c → s.content c = F.result c
  stable : ∀ e t, step F s e = some t → sets s.fields ≠ [] → sets t.fields = sets s.fields
  quiet : Quiet F s → (sets s.fields).length = 1 ∧ (∀ i, s.released i = 1) ∧
    ∀ c, s.refs c = if F.shared c then s.kept c else 0

/-- What a strategy owes to its promise, by an invariant of its own. -/
structure SetsPromise (F : Futures n κ τ R) (S : StrategyClass n R) (sets : S.Fields → List β)
    (P : S.Fields → (Fin n → Call S.Place) → Prop) : Prop where
  inductive_strategy : Inductive (F.strategy S) P
  consume : ∀ i index r f p, sets f <+: sets (S.consume i index r f p).1
  destroy : ∀ output f, sets f <+: sets (S.destroy output f)
  once : ∀ f call, P f call → (sets f).length ≤ 1
  finished : ∀ f call, P f call → (∀ i, (call i).Past) →
    (sets ((F.strategy S).destroy f)).length = 1

variable {sets : S.Fields → List β} {P : S.Fields → (Fin n → Call S.Place) → Prop}
variable {fields : S.Fields}

/-- The invariant of the strategy in a run of the combinator. -/
theorem holds_of_reachable (hP : Inductive (F.strategy S) P) (hinit : P fields fun _ => .pending)
    (hs : (system F S fields).Reachable s) : Holds P (s.view F) := by
  have hnonempty : Nonempty (Fin n) := ⟨⟨0, F.nonempty⟩⟩
  exact hP.holds hinit (inv_of_reachable hs).2

/-- In the end, the destructor has run after every callback. -/
theorem fields_of_quiet (hP : Inductive (F.strategy S) P) (hinit : P fields fun _ => .pending)
    (hs : (system F S fields).Reachable s) (hq : Quiet F s) :
    ∃ f call, P f call ∧ (∀ i, (call i).Past) ∧ s.fields = (F.strategy S).destroy f := by
  have hholds := holds_of_reachable hP hinit hs
  have hdestroyed := ((inv_of_reachable hs).1.destroyed_of_quiet hq).1
  have hdead : (s.view F).destroyed ≠ 0 := by
    show s.destroyed ≠ 0
    omega
  obtain ⟨-, -, f, hf, hfields⟩ := hholds.dead hdead
  refine ⟨f, (s.view F).call, hf, ?_, hfields⟩
  intro i
  rw [hholds.released hdead i]
  trivial

theorem SetsPromise.once_of_reachable (h : SetsPromise F S sets P)
    (hinit : P fields fun _ => .pending) (hs : (system F S fields).Reachable s) :
    (sets s.fields).length ≤ 1 := by
  have hholds := holds_of_reachable h.inductive_strategy hinit hs
  by_cases hdestroyed : s.destroyed = 0
  · exact h.once _ _ (hholds.alive hdestroyed).2
  · obtain ⟨-, -, f, hf, hfields⟩ := hholds.dead hdestroyed
    have hone := h.finished f _ hf (by
      intro i
      rw [hholds.released hdestroyed i]
      trivial)
    have hsame : s.fields = (F.strategy S).destroy f := hfields
    rw [hsame, hone]

theorem SetsPromise.delivered (h : SetsPromise F S sets P) (hinit : P fields fun _ => .pending)
    (hs : (system F S fields).Reachable s) : Delivered F sets s := by
  have hinv := (inv_of_reachable hs).1
  refine ⟨h.once_of_reachable hinit hs, hinv.work.released_le, ?_, ?_, ?_⟩
  · intro c hkept
    exact hinv.heap.content_of_kept hkept
  · intro e t hstep hset
    have hone := h.once_of_reachable hinit (hs.step hstep trivial)
    have hstart : sets s.fields <+: sets t.fields := by
      rcases step_fields hstep with hsame | ⟨i, index, r, p, hconsume⟩ | ⟨output, hdestroy⟩
      · rw [hsame]
      · rw [hconsume]
        exact h.consume i index r s.fields p
      · rw [hdestroy]
        exact h.destroy output s.fields
    have hpos := List.length_pos_iff.mpr hset
    exact (hstart.eq_of_length_le (by omega)).symm
  · intro hq
    obtain ⟨f, call, hf, hpast, hfields⟩ := fields_of_quiet h.inductive_strategy hinit hs hq
    refine ⟨?_, hinv.work.released_of_destroyed (hinv.destroyed_of_quiet hq).1,
      hinv.refs_of_quiet hq⟩
    rw [hfields]
    exact h.finished f call hf hpast

end Yaclib.When.Combinator
