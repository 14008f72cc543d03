import Yaclib.Async.When.All

/-!
What `WhenAll` and `Join` give to their callers, over every combinator, every mix of
inputs and every interleaving.
-/

namespace Yaclib.When

open Concurrency

variable {n : Nat} {κ τ ε α β : Type} {F : Futures n κ τ (Except ε α)}

open FirstFail (inputs)

/-! ### FailPolicy::None -/

/-- A strategy without a `Consume` of its own: only the destructor sets the promise. -/
theorem Combinator.SetsPromise.of_none {S : StrategyClass n (Except ε α)}
    {sets : S.Fields → List β} (hpolicy : S.kConsumePolicy = .None)
    (hconsume : ∀ i index r f p, (S.consume i index r f p).1 = f)
    (hdestroy : ∀ output f, ∃ w, sets (S.destroy output f) = sets f ++ [w]) :
    Combinator.SetsPromise F S sets fun f _ => sets f = [] := by
  refine ⟨⟨?_, ?_, ?_⟩, ?_, ?_, ?_, ?_⟩
  · intro f call i hf hi
    exact hf
  · intro f call i p hf hi
    have hsame : (F.strategy S).consume i f p = (f, none) := if_pos hpolicy
    rw [hsame]
    exact hf
  · intro f call i hf hi
    exact hf
  · intro i index r f p
    rw [hconsume]
  · intro output f
    obtain ⟨w, hw⟩ := hdestroy output f
    rw [hw]
    exact List.prefix_append _ _
  · intro f call hf
    rw [hf]
    exact Nat.zero_le 1
  · intro f call hf hpast
    obtain ⟨w, hw⟩ := hdestroy (if S.Owned ∧ S.retires f = true then F.results else []) f
    rw [hw, hf]
    rfl

theorem All.None.setsPromise : Combinator.SetsPromise F All.None.strategyClass
    (fun f => f) fun f _ => f = [] :=
  .of_none rfl (fun _ _ _ _ _ => rfl) fun output _ => ⟨.ok output, rfl⟩

theorem Join.None.setsPromise : Combinator.SetsPromise F Join.None.strategyClass
    (fun f => f) fun f _ => f = [] :=
  .of_none rfl (fun _ _ _ _ _ => rfl) fun _ _ => ⟨.ok (), rfl⟩

namespace AllTuple

theorem put_self {γ : Type} {i : Fin n} {v : γ} {tuple : Fin n → Option γ} :
    put (some i.val) v tuple i = some v := by
  unfold put
  simp

theorem put_of_ne {γ : Type} {i j : Fin n} {v : γ} {tuple : Fin n → Option γ} (hne : j ≠ i) :
    put (some i.val) v tuple j = tuple j := by
  unfold put
  simp [hne]

/-- What is at the position of an input that is through with `Consume`. -/
structure Placed {γ P : Type} (value : Fin n → Option γ) (tuple : Fin n → Option γ)
    (call : Fin n → Call P) : Prop where
  placed : ∀ i, (call i).Past → ∀ v, value i = some v → tuple i = some v

variable {γ P : Type} {value : Fin n → Option γ} {tuple : Fin n → Option γ}
variable {call : Fin n → Call P} {i : Fin n} {c : Call P} {v : γ}

/-- Nothing is put. -/
theorem Placed.move (h : Placed value tuple call)
    (hc : c.Past → (call i).Past ∨ value i = none) :
    Placed value tuple (Function.update call i c) := by
  refine ⟨?_⟩
  intro j hj v hv
  by_cases hji : j = i
  · subst hji
    rw [Function.update_self] at hj
    rcases hc hj with hold | hnone
    · exact h.placed j hold v hv
    · rw [hnone] at hv
      contradiction
  · rw [Function.update_of_ne hji] at hj
    exact h.placed j hj v hv

theorem Placed.put (h : Placed value tuple call) (hv : value i = some v) :
    Placed value (AllTuple.put (some i.val) v tuple) (Function.update call i c) := by
  refine ⟨?_⟩
  intro j hj w hw
  by_cases hji : j = i
  · subst hji
    rw [hv] at hw
    rw [put_self]
    exact hw
  · rw [Function.update_of_ne hji] at hj
    rw [put_of_ne hji]
    exact h.placed j hj w hw

/-- `FailPolicy::None` of `AllTuple`: the promise waits for the destructor. -/
structure None.Inv (F : Futures n κ τ (Except ε α)) (f : Fields n ε α)
    (call : Fin n → Call Unit) : Prop where
  sets_eq : f.sets = []
  placed : Placed (fun i => some (inputs F i)) f.tuple call

theorem None.inductive_strategy :
    Inductive (F.strategy None.strategyClass) (None.Inv F) := by
  refine ⟨?_, ?_, ?_⟩
  · intro f call i h hi
    refine ⟨h.sets_eq, h.placed.move ?_⟩
    intro hpast
    exact hpast.elim
  · intro f call i p h hi
    refine ⟨h.sets_eq, ?_⟩
    show Placed _ (AllTuple.put (some i.val) (inputs F i) f.tuple) _
    exact h.placed.put rfl
  · intro f call i h hi
    refine ⟨h.sets_eq, h.placed.move ?_⟩
    intro hpast
    left
    rw [hi]
    trivial

theorem None.setsPromise : Combinator.SetsPromise F None.strategyClass
    (fun f => f.sets) (None.Inv F) := by
  refine ⟨None.inductive_strategy, ?_, ?_, ?_, ?_⟩
  · intro i index r f p
    exact List.prefix_rfl
  · intro output f
    exact List.prefix_append _ _
  · intro f call h
    rw [h.sets_eq]
    exact Nat.zero_le 1
  · intro f call h hpast
    show (f.sets ++ [Except.ok f.tuple]).length = 1
    rw [h.sets_eq]
    rfl

end AllTuple

/-! ### FailPolicy::FirstFail -/

theorem All.values_map (vs : List α) : All.values (vs.map fun v => (.ok v : Except ε α)) = some vs := by
  unfold All.values
  induction vs with
  | nil => rfl
  | cons v vs ih =>
    rw [List.map_cons, List.mapM_cons, ih]
    rfl

theorem All.FirstFail.collects : FirstFail.Collects F .Unordered .Owned (fun _ _ own => own)
    (fun output (_ : Unit) => All.values output) List.ofFn (FirstFail.Inv (inputs F)) := by
  refine ⟨FirstFail.inductive_strategy nofun, fun _ _ h => h, ?_⟩
  intro f call v h hpast hv
  have hresults : F.results = (List.ofFn v).map fun v => .ok v := by
    rw [List.map_ofFn]
    unfold Futures.results
    congr 1
    funext i
    exact hv i
  rw [if_pos rfl, hresults]
  exact All.values_map _

theorem Join.FirstFail.collects : FirstFail.Collects F .Unordered .Managed (fun _ _ own => own)
    (fun _ (_ : Unit) => some ()) (fun _ => ()) (FirstFail.Inv (inputs F)) := by
  refine ⟨FirstFail.inductive_strategy nofun, fun _ _ h => h, ?_⟩
  intro f call v h hpast hv
  rfl

namespace AllTuple

/-- `FailPolicy::FirstFail` of `AllTuple`: the race, and the values that are there. -/
structure FirstFail.Inv (F : Futures n κ τ (Except ε α))
    (f : When.FirstFail.Fields n ε (Fin n → Option α) (Fin n → Option α))
    (call : Fin n → Call (When.FirstFail.Place ε)) : Prop where
  race : When.FirstFail.Inv (inputs F) f call
  placed : Placed (fun i => (inputs F i).toOption) f.own call

/-- A callback that leaves `_tuple` alone is not through with a value. -/
theorem FirstFail.Inv.move_of_race
    {f f' : When.FirstFail.Fields n ε (Fin n → Option α) (Fin n → Option α)}
    {call : Fin n → Call (When.FirstFail.Place ε)} {i : Fin n} {c : Call (When.FirstFail.Place ε)}
    (h : FirstFail.Inv F f call)
    (hrace : When.FirstFail.Inv (inputs F) f' (Function.update call i c))
    (hown : f'.own = f.own) (hc : c.Past → (call i).Past ∨ When.ok (inputs F i) = false) :
    FirstFail.Inv F f' (Function.update call i c) := by
  refine ⟨hrace, ?_⟩
  rw [hown]
  apply h.placed.move
  intro hpast
  rcases hc hpast with hold | hfail
  · exact .inl hold
  · right
    cases hr : inputs F i with
    | error e => rfl
    | ok v =>
      rw [hr] at hfail
      contradiction

theorem FirstFail.inductive_strategy :
    Inductive (F.strategy (When.FirstFail.strategyClass .Static .Managed put
      (When.FirstFail.closing fun _ own => some own))) (FirstFail.Inv F) := by
  have hrace : Inductive (F.strategy (When.FirstFail.strategyClass .Static .Managed (put (n := n))
      (When.FirstFail.closing fun _ own => some own))) (When.FirstFail.Inv (When.FirstFail.inputs F)) :=
    When.FirstFail.inductive_strategy nofun
  refine ⟨?_, ?_, ?_⟩
  · intro f call i h hi
    apply h.move_of_race (hrace.enter f call i h.race hi) rfl
    intro hpast
    exact hpast.elim
  · intro f call i p h hi
    have hstep := hrace.consume f call i p h.race hi
    have hturn := h.race.turn i
    rw [hi] at hturn
    cases p with
    | ok =>
      cases hr : inputs F i with
      | ok v =>
        refine ⟨hstep, ?_⟩
        have hown : ((F.strategy (When.FirstFail.strategyClass .Static .Managed put
            (When.FirstFail.closing fun _ own => some own))).consume i f .ok).1.own =
            put (some i.val) v f.own := by
          show (When.FirstFail.consume put i (some i.val) (inputs F i) f .ok).1.own = _
          rw [hr]
          rfl
        rw [hown]
        apply h.placed.put
        rw [hr]
        rfl
      | error e =>
        apply h.move_of_race hstep
        · show (When.FirstFail.consume put i (some i.val) (inputs F i) f .ok).1.own = _
          rw [hr]
          rfl
        · intro _
          right
          rw [hr]
          rfl
    | load | exchange | set e =>
      apply h.move_of_race hstep rfl
      intro _
      exact .inr hturn
  · intro f call i h hi
    apply h.move_of_race (hrace.release f call i h.race hi) rfl
    intro _
    left
    rw [hi]
    trivial

theorem FirstFail.collects : When.FirstFail.Collects F .Static .Managed put
    (fun _ own => some own) (fun v i => some (v i)) (FirstFail.Inv F) := by
  refine ⟨FirstFail.inductive_strategy, fun _ _ h => h.race, ?_⟩
  intro f call v h hpast hv
  have hown : f.own = fun i => some (v i) := by
    funext i
    apply h.placed.placed i (hpast i)
    rw [hv i]
    rfl
  rw [hown]

end AllTuple

/-! ### WhenAll and Join -/

section WhenAll

variable [DecidableEq κ] [DecidableEq τ]

/-- In every run of the combinator with the strategy, from `fields`, the promise is
delivered, and is set to what `Out` says when no thread can go on. -/
def SetsTo (F : Futures n κ τ (Except ε α)) (S : StrategyClass n (Except ε α))
    (fields : S.Fields) (sets : S.Fields → List β) (Out : S.Fields → Prop) : Prop :=
  ∀ s, (Combinator.system F S fields).Reachable s →
    Combinator.Delivered F sets s ∧ (Combinator.Quiet F s → Out s.fields)

theorem Combinator.SetsPromise.setsTo {S : StrategyClass n (Except ε α)} {fields : S.Fields}
    {sets : S.Fields → List β} {P : S.Fields → (Fin n → Call S.Place) → Prop}
    {Out : S.Fields → Prop} (h : Combinator.SetsPromise F S sets P)
    (hinit : P fields fun _ => .pending)
    (hout : ∀ f call, P f call → (∀ i, (call i).Past) → Out ((F.strategy S).destroy f)) :
    SetsTo F S fields sets Out := by
  intro s hs
  refine ⟨h.delivered hinit hs, ?_⟩
  intro hq
  obtain ⟨f, call, hf, hpast, hfields⟩ :=
    Combinator.fields_of_quiet h.inductive_strategy hinit hs hq
  rw [hfields]
  exact hout f call hf hpast

theorem FirstFail.Collects.setsTo {σ : Type} {P : ConsumePolicy} {C : CorePolicy}
    {keep : Option Nat → α → σ → σ} {out : List (Except ε α) → σ → Option β}
    {collect : (Fin n → α) → β}
    {Q : FirstFail.Fields n ε β σ → (Fin n → Call (FirstFail.Place ε)) → Prop} {own : σ}
    (h : FirstFail.Collects F P C keep out collect Q) (hinit : Q { own := own } fun _ => .pending) :
    SetsTo F (FirstFail.strategyClass P C keep (FirstFail.closing out)) { own := own }
      (fun f => f.sets) (FirstFail.Outcome F collect) :=
  h.setsPromise.setsTo hinit fun _ _ hf hpast => h.closed hf hpast

/-- `WhenAll` and `Join` over any inputs, in every interleaving of their completions with
`Set`: the promise is set once and for all, each input gives back its core once, and kept
futures keep their results. With `FailPolicy::None` the output is made of all results at
their positions; with `FailPolicy::FirstFail` of all values at theirs, or it is the error
of the first input to do the exchange. -/
theorem whenAll_sets (F : Futures n κ τ (Except ε α)) :
    SetsTo F All.None.strategyClass [] (fun f => f)
      (fun f => f = [.ok (List.ofFn fun i => F.result (F.core i))]) ∧
    SetsTo F All.FirstFail.strategyClass { own := () } (fun f => f.sets)
      (FirstFail.Outcome F List.ofFn) ∧
    SetsTo F AllTuple.None.strategyClass {} (fun f => f.sets)
      (fun f => f.sets = [.ok fun i => some (F.result (F.core i))]) ∧
    SetsTo F AllTuple.FirstFail.strategyClass { own := fun _ => none } (fun f => f.sets)
      (FirstFail.Outcome F fun v i => some (v i)) ∧
    SetsTo F Join.None.strategyClass [] (fun f => f) (fun f => f = [.ok ()]) ∧
    SetsTo F Join.FirstFail.strategyClass { own := () } (fun f => f.sets)
      (FirstFail.Outcome F fun _ => ()) := by
  refine ⟨?_, ?_, ?_, ?_, ?_, ?_⟩
  · apply All.None.setsPromise.setsTo rfl
    rintro f call rfl hpast
    rfl
  · exact (All.FirstFail.collects (F := F)).setsTo .init
  · apply AllTuple.None.setsPromise.setsTo ⟨rfl, ⟨fun i hi => hi.elim⟩⟩
    intro f call h hpast
    show f.sets ++ [Except.ok f.tuple] = _
    have htuple : f.tuple = fun i => some (inputs F i) := by
      funext i
      exact h.placed.placed i (hpast i) _ rfl
    rw [h.sets_eq, htuple]
    rfl
  · exact (AllTuple.FirstFail.collects (F := F)).setsTo ⟨.init, ⟨fun i hi => hi.elim⟩⟩
  · apply Join.None.setsPromise.setsTo rfl
    rintro f call rfl hpast
    rfl
  · exact (Join.FirstFail.collects (F := F)).setsTo .init

/-- Two copies of a shared future that fails, and a unique one with a value. -/
def failing : Futures 3 (Fin 2) Unit (Except Nat Nat) where
  core i := if i = 2 then 1 else 0
  type c := if c = 0 then .shared () else .unique ()
  iterator := false
  result c := if c = 0 then .error 7 else .ok 5
  movedFrom _ := .ok 0
  nonempty := Combinator.inputs_pos
  covers := Combinator.mixed.covers
  distinct := Combinator.mixed.distinct
  sameCore := Combinator.mixed.sameCore

/-- The unique core has its result before its registration, and the shared one between
its two: the second copy, that finds it, is the first to do the exchange. -/
def raced : List (Combinator.Event (Fin 2)) :=
  [.set, .set, .producer 1 .copy, .set, .producer 0 .copy] ++ List.replicate 10 .set ++
    List.replicate 12 (.producer 0 .copy)

theorem whenAll_sets_raced :
    let s := ((Combinator.system failing All.FirstFail.strategyClass { own := () }).run
      (Combinator.init failing { own := () } fun c => if c = 0 then 1 else 0) raced).get (by decide)
    (∃ i e, s.fields.exchanges.head? = some i ∧ inputs failing i = .error e ∧
      s.fields.sets = [.error e]) ∧ s.kept 0 = 1 ∧ s.content 0 = .error 7 ∧ s.refs 0 = 1 := by
  have hinit : (Combinator.system failing All.FirstFail.strategyClass { own := () }).Reachable
      (Combinator.init failing { own := () } fun c => if c = 0 then 1 else 0) :=
    .init ⟨fun c => if c = 0 then 1 else 0, by decide, rfl⟩
  have hq : Combinator.Quiet failing
      (((Combinator.system failing All.FirstFail.strategyClass { own := () }).run
        (Combinator.init failing { own := () } fun c => if c = 0 then 1 else 0)
        raced).get (by decide)) := by
    refine ⟨by decide, ?_⟩
    intro c use
    revert c
    cases use <;> decide
  obtain ⟨hdelivered, hend⟩ := (whenAll_sets failing).2.1 _
    (hinit.run (fun _ _ _ _ => trivial) (Option.some_get _).symm)
  refine ⟨(hend hq).2 ⟨0, by decide⟩, by decide, ?_, ?_⟩
  · exact hdelivered.kept 0 (by decide)
  · exact (hdelivered.quiet hq).2.2 0

end WhenAll

end Yaclib.When
