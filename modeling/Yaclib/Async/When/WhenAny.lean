import Yaclib.Async.When.FirstFail
import Yaclib.Async.When.LastFail
import Yaclib.Async.When.WhenAll

/-!
What `WhenAny` gives to its callers, over every combinator, every mix of inputs and every
interleaving. A combinator with `when::Any` refines the strategy over `When.system`, so
that what is proved of the strategy holds in its runs. `WhenAny` of a range of one unique
future returns this future, without a combinator, and is left out.
-/

namespace Yaclib.When

open Concurrency
open FirstFail (inputs)

variable {n : Nat} {κ τ ε α : Type} {F : Futures n κ τ (Except ε α)}

namespace Any

/-- The members that do not depend on the `FailPolicy`. `Consume` uses the result of its own
input only. -/
@[reducible] def strategyClass {Fields Place : Type} (start : Place)
    (consume : (Fin n → Except ε α) → Fin n → Fields → Place → Fields × Option Place)
    (destroy : Fields → Fields) : StrategyClass n (Except ε α) where
  kConsumePolicy := .Unordered
  kCorePolicy := .Managed
  Fields := Fields
  Place := Place
  start := start
  consume i _ r := consume (fun _ => r) i
  retires _ := false
  destroy _ := destroy

/-- Whether there is a value or not, the promise is set to one of the results. -/
theorem length_eq_one {ι : Type} (result : ι → Except ε α) {sets : List (Except ε α)}
    (hvalue : (∃ i, ok (result i) = true) → ∃ i, sets = [result i])
    (herror : (∀ i, ok (result i) = false) → ∃ i, sets = [result i]) : sets.length = 1 := by
  have hone : ∃ i, sets = [result i] := by
    by_cases hok : ∃ i, ok (result i) = true
    · exact hvalue hok
    · exact herror fun i => by simpa using fun hi => hok ⟨i, hi⟩
  obtain ⟨i, rfl⟩ := hone
  rfl

/-! ### FailPolicy::LastFail -/

namespace LastFail

@[reducible] def strategyClass : StrategyClass n (Except ε α) :=
  Any.strategyClass Place.load (consume (ι := Fin n)) fun f => f

theorem Outcome.length_eq {ι : Type} {result : ι → Except ε α} {f : Fields ι ε α}
    (h : Outcome result f) : f.sets.length = 1 := by
  apply length_eq_one result
  · intro hok
    obtain ⟨i, -, -, hsets⟩ := h.1 hok
    exact ⟨i, hsets⟩
  · intro hfail
    obtain ⟨i, -, hsets⟩ := h.2 hfail
    exact ⟨i, hsets⟩

theorem setsPromise : Combinator.SetsPromise F strategyClass (fun f => f.sets)
    (Inv (inputs F)) := by
  have hnonempty : Nonempty (Fin n) := ⟨⟨0, F.nonempty⟩⟩
  have hinductive : Inductive (strategy (inputs F)) (Inv (inputs F)) := inductive_strategy
  refine ⟨hinductive, ?_, ?_, ?_, ?_⟩
  · intro i _ r f p
    cases p with
    | load | exchange | fetchSub => exact List.prefix_rfl
    | set q => exact List.prefix_append _ _
  · intro _ f
    exact List.prefix_rfl
  · intro f call h
    exact h.once.length_le
  · intro f call h hpast
    exact (h.outcome hpast).length_eq

end LastFail

/-! ### FailPolicy::FirstFail -/

namespace FirstFail

@[reducible] def strategyClass : StrategyClass n (Except ε α) :=
  Any.strategyClass Place.load (consume (ι := Fin n)) destroy

theorem Final.length_eq {ι : Type} {result : ι → Except ε α} {f : Fields ι ε α}
    (h : Final result f) : f.sets.length = 1 := by
  apply length_eq_one result
  · intro hok
    obtain ⟨i, -, -, hsets⟩ := h.value hok
    exact ⟨i, hsets⟩
  · intro hfail
    obtain ⟨i, -, hsets⟩ := h.error hfail
    exact ⟨i, hsets⟩

theorem sets_prefix_destroy {ι : Type} (f : Fields ι ε α) : f.sets <+: (destroy f).sets := by
  have herror : ∀ g : Fields ι ε α, (destroyError g).sets = g.sets := by
    intro g
    unfold destroyError
    split <;> rfl
  have hset : f.sets <+: (if f.sets.isEmpty then setError f else f).sets := by
    unfold setError
    split
    · split
      · exact List.prefix_append _ _
      · exact List.prefix_rfl
    · exact List.prefix_rfl
  unfold FirstFail.destroy
  dsimp only
  split
  · rw [herror]
    exact hset
  · exact hset

theorem setsPromise : Combinator.SetsPromise F strategyClass (fun f => f.sets)
    (Inv (inputs F)) := by
  have hnonempty : Nonempty (Fin n) := ⟨⟨0, F.nonempty⟩⟩
  have hinductive : Inductive (strategy (inputs F)) (Inv (inputs F)) := inductive_strategy
  refine ⟨hinductive, ?_, ?_, ?_, ?_⟩
  · intro i _ r f p
    cases p with
    | load | orValue | orError | construct e => exact List.prefix_rfl
    | set q => exact List.prefix_append _ _
  · intro _ f
    exact sets_prefix_destroy f
  · intro f call h
    exact h.once.length_le
  · intro f call h hpast
    exact (h.destroy hpast).length_eq

end FirstFail

/-! ### FailPolicy::None -/

namespace None

@[reducible] def strategyClass : StrategyClass n (Except ε α) :=
  Any.strategyClass Place.load (consume (ι := Fin n)) fun f => f

theorem setsPromise : Combinator.SetsPromise F strategyClass (fun f => f.sets)
    (Inv (inputs F)) := by
  have hnonempty : Nonempty (Fin n) := ⟨⟨0, F.nonempty⟩⟩
  have hinductive : Inductive (strategy (inputs F)) (Inv (inputs F)) := inductive_strategy
  refine ⟨hinductive, ?_, ?_, ?_, ?_⟩
  · intro i _ r f p
    cases p with
    | load | exchange => exact List.prefix_rfl
    | set q => exact List.prefix_append _ _
  · intro _ f
    exact List.prefix_rfl
  · intro f call h
    exact h.once.length_le
  · intro f call h hpast
    obtain ⟨i, -, hsets⟩ := h.outcome hpast
    have hone : f.sets.length = 1 := by
      rw [hsets]
      rfl
    exact hone

end None

end Any

variable [DecidableEq κ] [DecidableEq τ]

/-- `WhenAny` over any inputs, in every interleaving of their completions with `Set`: the
promise is set once and for all, each input gives back its core once, and kept futures keep
their results. The promise is set as the strategy decides: with `FailPolicy::LastFail` to
the first value, or to the last error; with `FirstFail` to the first value, or to the first
error; and with `None` to the first `Result`. -/
theorem whenAny_sets (F : Futures n κ τ (Except ε α)) (hn : 2 * n < 2 ^ 64) :
    SetsTo F Any.LastFail.strategyClass (Any.LastFail.init n) (fun f => f.sets)
      (Any.LastFail.Outcome (inputs F)) ∧
    SetsTo F Any.FirstFail.strategyClass {} (fun f => f.sets)
      (Any.FirstFail.Final (inputs F)) ∧
    SetsTo F Any.None.strategyClass {} (fun f => f.sets) (Any.None.Outcome (inputs F)) := by
  have hnonempty : Nonempty (Fin n) := ⟨⟨0, F.nonempty⟩⟩
  refine ⟨?_, ?_, ?_⟩
  · have hinit : Any.LastFail.Inv (inputs F) (Any.LastFail.init (Fintype.card (Fin n)))
        fun _ => .pending :=
      .init (by rwa [Fintype.card_fin]) Fintype.card_pos
    rw [Fintype.card_fin] at hinit
    exact Any.LastFail.setsPromise.setsTo hinit fun _ _ h hpast => h.outcome hpast
  · exact Any.FirstFail.setsPromise.setsTo .init fun _ _ h hpast => h.destroy hpast
  · exact Any.None.setsPromise.setsTo .init fun _ _ h hpast => h.outcome hpast

/-- The unique future wins: it has its value before its registration, and the shared one,
completed between its two registrations, fails afterwards. -/
def decided : List (Combinator.Event (Fin 2)) :=
  [.set, .set, .producer 1 .copy, .set, .producer 0 .copy] ++ List.replicate 6 .set ++
    List.replicate 16 (.producer 0 .copy)

theorem whenAny_sets_decided :
    let s := ((Combinator.system failing Any.LastFail.strategyClass (Any.LastFail.init 3)).run
      (Combinator.init failing (Any.LastFail.init 3) fun c => if c = 0 then 1 else 0)
      decided).get (by decide)
    (∃ i, s.fields.exchanges.head? = some i ∧ ok (inputs failing i) = true ∧
      s.fields.sets = [inputs failing i]) ∧ s.kept 0 = 1 ∧ s.refs 0 = 1 := by
  have hinit : (Combinator.system failing Any.LastFail.strategyClass
      (Any.LastFail.init 3)).Reachable
      (Combinator.init failing (Any.LastFail.init 3) fun c => if c = 0 then 1 else 0) :=
    .init ⟨fun c => if c = 0 then 1 else 0, by decide, rfl⟩
  have hq : Combinator.Quiet failing
      (((Combinator.system failing Any.LastFail.strategyClass (Any.LastFail.init 3)).run
        (Combinator.init failing (Any.LastFail.init 3) fun c => if c = 0 then 1 else 0)
        decided).get (by decide)) := by
    refine ⟨by decide, ?_⟩
    intro c use
    revert c
    cases use <;> decide
  obtain ⟨hdelivered, hend⟩ := (whenAny_sets failing (by decide)).1 _
    (hinit.run (fun _ _ _ _ => trivial) (Option.some_get _).symm)
  refine ⟨(hend hq).1 ⟨2, by decide⟩, by decide, ?_⟩
  exact (hdelivered.quiet hq).2.2 0

end Yaclib.When
