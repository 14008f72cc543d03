import Yaclib.Async.When.Combinator.Steps

/-!
The combinators refine `When.system`: whatever the types of the inputs are, and however
their completions interleave with `Set`, the strategy sees one `Consume` for each input,
with its index and its result, and then its destructor. Results about a strategy over
`When.system` therefore hold under each combinator.
-/

namespace Yaclib.When

open Concurrency

variable {n : Nat} {κ τ R : Type} (F : Futures n κ τ R) (S : StrategyClass n R)

/-- The strategy, as the combinator uses it for these inputs. -/
@[reducible] def Futures.strategy : Strategy (Fin n) where
  Fields := S.Fields
  Place := S.Place
  start := S.start
  consume i f p :=
    if S.kConsumePolicy = .None then (f, none)
    else S.consume i (S.argument i) (F.result (F.core i)) f p
  destroy f := S.destroy (if S.Owned ∧ S.retires f = true then F.results else []) f

namespace Combinator

/-- The view of the strategy: `Consume` begins after `Retire`, and the destructor is one
step. -/
def Stage.toCall {P : Type} : Stage κ P R → Call P
  | unset | attached | running _ (.retire _) | running _ (.retireDecRef _ _)
  | running _ .decRefCore => .pending
  | running _ (.inside _ _ p) => .inside p
  | running _ .decRef | running _ (.destroy _ _ _) | running _ (.destroyDecRef _ _ _) => .returned
  | done => .released

variable {S}

def State.view (s : State κ S) : When.State (F.strategy S) where
  fields := s.fields
  call i := (s.call i).toCall
  refs := s.count + tally Stage.destroying s.call
  destroyed := s.destroyed

variable {F} {s t u : State κ S} {c : κ} {i : Fin n} {inline : Bool}

theorem State.view_put {stage : Stage κ S.Place R} (hcall : u.call = s.call) :
    (u.put i stage).view F = {
      fields := u.fields
      call := Function.update (s.view F).call i stage.toCall
      refs := u.count + tally Stage.destroying (Function.update s.call i stage)
      destroyed := u.destroyed } := by
  have hput : (u.put i stage).call = Function.update s.call i stage := by
    rw [← hcall]
    rfl
  have hcalls : (fun j => ((u.put i stage).call j).toCall) =
      Function.update (s.view F).call i stage.toCall := by
    funext j
    rw [hput]
    by_cases hj : j = i
    · subst hj
      rw [Function.update_self, Function.update_self]
    · rw [Function.update_of_ne hj, Function.update_of_ne hj]
      rfl
  rw [← hcalls, ← hput]
  rfl

/-- A callback moves where the strategy does not see it. -/
theorem State.view_stutter {stage : Stage κ S.Place R} (hcall : u.call = s.call)
    (hfields : u.fields = s.fields) (hdestroyed : u.destroyed = s.destroyed)
    (hrefs : u.count + stage.destroying = s.count + (s.call i).destroying)
    (hstage : stage.toCall = (s.call i).toCall) : (u.put i stage).view F = s.view F := by
  rw [State.view_put hcall, hfields, hdestroyed, hstage]
  have hsame : Function.update (s.view F).call i (s.call i).toCall = (s.view F).call :=
    Function.update_eq_self i _
  have hupdate := tally_update Stage.destroying s.call i stage
  have hcount : u.count + tally Stage.destroying (Function.update s.call i stage) =
      s.count + tally Stage.destroying s.call := by omega
  rw [hsame, hcount]
  rfl

/-- A callback moves before the destructor. -/
theorem State.view_live {stage : Stage κ S.Place R} (hcall : u.call = s.call)
    (hdestroyed : u.destroyed = s.destroyed) (hcount : u.count = s.count)
    (hold : (s.call i).destroying = 0) (hnew : stage.destroying = 0) :
    (u.put i stage).view F = { s.view F with
      fields := u.fields
      call := Function.update (s.view F).call i stage.toCall } := by
  have hupdate := tally_update Stage.destroying s.call i stage
  have htally : tally Stage.destroying (Function.update s.call i stage) =
      tally Stage.destroying s.call := by omega
  rw [State.view_put hcall, hdestroyed, hcount, htally]
  rfl

/-! ### The steps of a callback, for the strategy -/

section Steps

variable {f : S.Fields} {call : Fin n → Call S.Place} {fields : S.Fields}

abbrev ReachableView (F : Futures n κ τ R) (fields : S.Fields) (v : When.State (F.strategy S)) :
    Prop :=
  (When.system (F.strategy S) fields).Reachable v

theorem ReachableView.enter {v : When.State (F.strategy S)} (h : ReachableView F fields v)
    (hi : v.call i = .pending) :
    ReachableView F fields { v with call := Function.update v.call i (.inside S.start) } := by
  refine h.step (e := i) ?_ trivial
  show When.step v i = _
  unfold When.step
  rw [hi]

theorem ReachableView.consume {v : When.State (F.strategy S)} (h : ReachableView F fields v)
    {p : S.Place} (hi : v.call i = .inside p) (hpolicy : S.kConsumePolicy ≠ .None) :
    ReachableView F fields { v with
      fields := (S.consume i (S.argument i) (F.result (F.core i)) v.fields p).1
      call := Function.update v.call i
        (.next (S.consume i (S.argument i) (F.result (F.core i)) v.fields p).2) } := by
  refine h.step (e := i) ?_ trivial
  show When.step v i = _
  unfold When.step
  rw [hi]
  simp only [if_neg hpolicy]

/-- Without a `Consume` of the strategy, an input is through at once. -/
theorem ReachableView.pass {v : When.State (F.strategy S)} (h : ReachableView F fields v)
    (hi : v.call i = .pending) (hpolicy : S.kConsumePolicy = .None) :
    ReachableView F fields { v with call := Function.update v.call i .returned } := by
  have hentered := h.enter hi
  refine hentered.step (e := i) ?_ trivial
  show When.step _ i = _
  unfold When.step
  simp only [Function.update_self, if_pos hpolicy, Function.update_idem]
  rfl

/-- The strategy goes on after the last reference. -/
theorem ReachableView.release {v : When.State (F.strategy S)} (h : ReachableView F fields v)
    (hi : v.call i = .returned) :
    ReachableView F fields { v with
      call := Function.update v.call i .released
      refs := v.refs - 1
      fields := if v.refs = 1 then (F.strategy S).destroy v.fields else v.fields
      destroyed := if v.refs = 1 then v.destroyed + 1 else v.destroyed } := by
  refine h.step (e := i) ?_ trivial
  show When.step v i = _
  unfold When.step
  rw [hi]

end Steps

variable {fields : S.Fields} {b : Body κ S.Place R}

/-- `Consume` begins. -/
theorem ReachableView.begin (hv : ReachableView F fields (s.view F))
    (hi : (s.phase i).started = false) (hcall : u.call = s.call) (hfields : u.fields = s.fields)
    (hdestroyed : u.destroyed = s.destroyed) (hcount : u.count = s.count) (inline : Bool) (k : Nat) :
    ReachableView F fields ((beginConsume u i inline k).view F) := by
  obtain ⟨-, hdestroying, -, -⟩ := Stage.of_not_started hi
  have hpending : (s.view F).call i = .pending := by
    show (s.call i).toCall = _
    rw [State.phase] at hi
    cases hstage : s.call i with
    | unset | attached => rfl
    | running inline b =>
      rw [hstage] at hi
      contradiction
    | done =>
      rw [hstage] at hi
      contradiction
  have hstep : (beginConsume u i inline k).view F =
      (u.put i (.running inline (entry S (S.argument k)))).view F := rfl
  have hlive : ∀ b : Body κ S.Place R, (Stage.running inline b : Stage κ S.Place R).destroying = 0 →
      (u.put i (.running inline b)).view F = { s.view F with
        call := Function.update (s.view F).call i (Stage.running inline b).toCall } := by
    intro b hb
    rw [State.view_live hcall hdestroyed hcount hdestroying hb, hfields]
    rfl
  rw [hstep]
  rcases entry_cases (κ := κ) (S := S) (S.argument k) with ⟨heq, hnone, -⟩ | ⟨heq, hnone, -⟩ |
    ⟨heq, hsome, -⟩ | ⟨heq, hsome, -⟩
  · rw [heq, hlive _ rfl]
    have hsame : Function.update (s.view F).call i .pending = (s.view F).call := by
      rw [← hpending]
      exact Function.update_eq_self i _
    show ReachableView F fields { s.view F with call := Function.update (s.view F).call i .pending }
    rw [hsame]
    exact hv
  · rw [heq, hlive _ rfl]
    exact hv.pass hpending hnone
  · rw [heq, hlive _ rfl]
    have hsame : Function.update (s.view F).call i .pending = (s.view F).call := by
      rw [← hpending]
      exact Function.update_eq_self i _
    show ReachableView F fields { s.view F with call := Function.update (s.view F).call i .pending }
    rw [hsame]
    exact hv
  · rw [heq, hlive _ rfl]
    exact hv.enter hpending

variable [DecidableEq κ] [DecidableEq τ]

/-- A step of a callback is a step of the strategy, two, or none. -/
theorem Inv.view_bodyStep (h : Inv F s) (hv : ReachableView F fields (s.view F))
    (hi : s.call i = .running inline b) : ReachableView F fields
      (((Combinator.bodyStep F s i b).1.put i
        (.after inline (Combinator.bodyStep F s i b).2)).view F) := by
  have hbody := h.work.body i inline b hi
  have hcall : (s.view F).call i = (Stage.running inline b : Stage κ S.Place R).toCall := by
    show (s.call i).toCall = _
    rw [hi]
  have hold : (s.call i).destroying = (Stage.running inline b : Stage κ S.Place R).destroying := by
    rw [hi]
  have hthreads := (h.bodyStep hi).threads.call
  cases b with
  | retire index =>
    obtain ⟨x, content, heq⟩ := State.retire_eq (F := F) (s := s) (c := F.core i)
    have hsame : ((Combinator.bodyStep F s i (.retire index)).1.put i
        (.after inline (Combinator.bodyStep F s i (.retire index)).2)).view F = s.view F := by
      apply State.view_stutter hthreads
      · show (s.retire F (F.core i)).fields = _
        rw [heq]
      · show (s.retire F (F.core i)).destroyed = _
        rw [heq]
      · show (s.retire F (F.core i)).count + 0 = _
        rw [heq, hold]
        rfl
      · rw [hi]
        rfl
    rw [hsame]
    exact hv
  | retireDecRef index r =>
    have hlive : ((Combinator.bodyStep F s i (.retireDecRef index r)).1.put i
        (.after inline (Combinator.bodyStep F s i (.retireDecRef index r)).2)).view F = _ :=
      State.view_live hthreads rfl rfl hold rfl
    rw [hlive]
    exact hv.enter hcall
  | decRefCore =>
    have hlive : ((Combinator.bodyStep F s i .decRefCore).1.put i
        (.after inline (Combinator.bodyStep F s i .decRefCore).2)).view F = _ :=
      State.view_live hthreads rfl rfl hold rfl
    rw [hlive]
    exact hv.pass hcall hbody.1
  | inside index r p =>
    obtain ⟨hpolicy, hindex, hr⟩ := hbody
    have hcounted : (s.call i).counted = 1 := by
      rw [hi]
      rfl
    have hresult : r.getD (s.content (F.core i)) = F.result (F.core i) := by
      rw [hr]
      by_cases howned : S.Owned
      · rw [if_pos howned, Option.getD_none]
        apply h.heap.content_eq
        · rw [h.work.released_of_alive hcounted i, if_pos howned]
        · rintro (⟨_, _, _, hnot⟩ | ⟨k, _, _, _, hnot⟩)
          · rw [hi] at hnot
            simp at hnot
          · have hzero := (h.work.alive hcounted).2.2 k
            rw [hnot] at hzero
            contradiction
      · rw [if_neg howned, Option.getD_some]
    obtain ⟨x, heq⟩ := consumeStep_eq (F := F) (s := s) (i := i) index r p
    rw [hindex, hresult] at heq
    have hnext : (Combinator.bodyStep F s i (.inside index r p)).2 = some
        ((S.consume i (S.argument i) (F.result (F.core i)) s.fields p).2.elim .decRef
          (.inside index r)) := by
      show some _ = some _
      rw [hindex, hresult]
    have hfirst : (Combinator.bodyStep F s i (.inside index r p)).1 = { s with
        dangling := x, fields := (S.consume i (S.argument i) (F.result (F.core i)) s.fields p).1 } := by
      rw [← heq, ← hindex]
      rfl
    rw [hnext, hfirst]
    have hstage : ∀ q : Option S.Place,
        (Stage.running inline (q.elim .decRef (.inside index r)) : Stage κ S.Place R).destroying = 0 ∧
        (Stage.running inline (q.elim .decRef (.inside index r)) : Stage κ S.Place R).toCall =
          .next q := by
      intro q
      cases q with
      | none => exact ⟨rfl, rfl⟩
      | some q => exact ⟨rfl, rfl⟩
    obtain ⟨u, hu⟩ : ∃ u, u = ({ s with
        dangling := x, fields := (S.consume i (S.argument i) (F.result (F.core i)) s.fields p).1 } :
          State κ S) := ⟨_, rfl⟩
    have hsame : u.call = s.call ∧ u.destroyed = s.destroyed ∧ u.count = s.count ∧
        u.fields = (S.consume i (S.argument i) (F.result (F.core i)) s.fields p).1 := by
      rw [hu]
      exact ⟨rfl, rfl, rfl, rfl⟩
    rw [← hu, Stage.after, State.view_live hsame.1 hsame.2.1 hsame.2.2.1 hold (hstage _).1,
      (hstage _).2, hsame.2.2.2]
    exact hv.consume hcall hpolicy
  | decRef =>
    have hcounted : (s.call i).counted = 1 := by
      rw [hi]
      rfl
    obtain ⟨hpos, -, hall⟩ := h.work.alive hcounted
    have hnone : tally Stage.destroying s.call = 0 := tally_eq_zero.mpr hall
    by_cases hlast : s.count = 1
    · -- the last reference, but the destructor is still to come
      have hnext : (Combinator.bodyStep F s i .decRef).2 =
          some (.destroy (S.retires s.fields) (if S.Owned then 0 else n) []) := if_pos hlast
      rw [hnext]
      have hsame : ((Combinator.bodyStep F s i .decRef).1.put i (.after inline
          (some (.destroy (S.retires s.fields) (if S.Owned then 0 else n) [])))).view F = s.view F := by
        apply State.view_stutter hthreads rfl rfl
        · show s.count - 1 + 1 = s.count + (s.call i).destroying
          rw [hold]
          show s.count - 1 + 1 = s.count + 0
          omega
        · rw [hi]
          rfl
      rw [hsame]
      exact hv
    · have hnext : (Combinator.bodyStep F s i .decRef).2 = none := if_neg hlast
      rw [hnext]
      have hupdate := tally_update Stage.destroying s.call i (.done : Stage κ S.Place R)
      have hrefs : s.count - 1 + tally Stage.destroying (Function.update s.call i .done) =
          (s.view F).refs - 1 := by
        have hdone : (Stage.done : Stage κ S.Place R).destroying = 0 := rfl
        have hzero := hall i
        show _ = s.count + tally Stage.destroying s.call - 1
        omega
      have hmore : (s.view F).refs ≠ 1 := by
        show s.count + tally Stage.destroying s.call ≠ 1
        omega
      have hreleased := hv.release hcall
      rw [if_neg hmore, if_neg hmore, ← hrefs] at hreleased
      rw [Stage.after, State.view_put hthreads]
      exact hreleased
  | destroy retires k output =>
    obtain ⟨hretires, hend⟩ := hbody
    have hdestroying : (s.call i).destroying = 1 := by
      rw [hi]
      rfl
    obtain ⟨hzero, hnot, hothers⟩ := h.work.destroying hdestroying
    by_cases hk : k < n
    · have hsame : ∃ b', (Combinator.destroyStep F s retires k output).2 = some b' ∧
          (Stage.running inline b' : Stage κ S.Place R).destroying = 1 ∧
          (Stage.running inline b' : Stage κ S.Place R).toCall = .returned ∧
          (Combinator.destroyStep F s retires k output).1.fields = s.fields ∧
          (Combinator.destroyStep F s retires k output).1.destroyed = s.destroyed ∧
          (Combinator.destroyStep F s retires k output).1.count = s.count := by
        unfold Combinator.destroyStep
        rw [dif_pos hk]
        cases s.cores ⟨k, hk⟩ with
        | none => exact ⟨_, rfl, rfl, rfl, rfl, rfl, rfl⟩
        | some c =>
          cases retires with
          | false => exact ⟨_, rfl, rfl, rfl, rfl, rfl, rfl⟩
          | true =>
            obtain ⟨x, content, heq⟩ := State.retire_eq (F := F) (s := s) (c := c)
            dsimp only
            rw [heq]
            exact ⟨_, rfl, rfl, rfl, rfl, rfl, rfl⟩
      obtain ⟨b', hnext, hb', hview, hfields, hdestroyed, hcount⟩ := hsame
      have hstep : ((Combinator.bodyStep F s i (.destroy retires k output)).1.put i
          (.after inline (Combinator.bodyStep F s i (.destroy retires k output)).2)).view F =
          s.view F := by
        apply State.view_stutter hthreads hfields hdestroyed
        · show (Combinator.destroyStep F s retires k output).1.count +
            (Stage.after inline (Combinator.destroyStep F s retires k output).2).destroying = _
          rw [hcount, hdestroying, hnext]
          show s.count + (Stage.running inline b' : Stage κ S.Place R).destroying = _
          rw [hb']
        · show (Stage.after inline (Combinator.destroyStep F s retires k output).2).toCall = _
          rw [hnext, hi]
          exact hview
      rw [hstep]
      exact hv
    · have hdone : Combinator.bodyStep F s i (.destroy retires k output) =
          ({ s with fields := S.destroy output s.fields, destroyed := s.destroyed + 1 }, none) :=
        dif_neg hk
      have houtput : output = if S.Owned ∧ S.retires s.fields = true then F.results else [] := by
        by_cases howned : S.Owned
        · rw [if_pos howned] at hend
          have hall : F.results.take k = F.results := by
            apply List.take_of_length_le
            rw [Futures.results, List.length_ofFn]
            omega
          rw [hend.2, hall, hretires]
          simp [howned]
        · rw [if_neg howned] at hend
          rw [hend.2]
          simp [howned]
      have hupdate := tally_update Stage.destroying s.call i (.done : Stage κ S.Place R)
      have hquiet : (Stage.done : Stage κ S.Place R).destroying = 0 := rfl
      have hwork := h.work.destroyed_eq
      rw [if_pos hzero, hnot] at hwork
      have hone : (s.view F).refs = 1 := by
        show s.count + tally Stage.destroying s.call = 1
        omega
      have hrefs : s.count + tally Stage.destroying (Function.update s.call i .done) =
          (s.view F).refs - 1 := by
        rw [hone]
        omega
      have hreleased := hv.release hcall
      rw [if_pos hone, if_pos hone, ← hrefs] at hreleased
      rw [hdone, Stage.after, State.view_put rfl]
      have hdestroy : (F.strategy S).destroy (s.view F).fields = S.destroy output s.fields := by
        rw [houtput]
        rfl
      rw [hdestroy] at hreleased
      exact hreleased
  | destroyDecRef k c output =>
    obtain ⟨-, -, ⟨hk, rfl⟩, -⟩ := hbody
    have hstep : Combinator.bodyStep F s i (.destroyDecRef k (F.core ⟨k, hk⟩) output) =
        (s.release ⟨k, hk⟩ (F.core ⟨k, hk⟩), some (.destroy true (k + 1) output)) := dif_pos hk
    rw [hstep]
    have hsame : ((s.release ⟨k, hk⟩ (F.core ⟨k, hk⟩)).put i
        (.after inline (some (.destroy true (k + 1) output)))).view F = s.view F := by
      rw [hstep] at hthreads
      apply State.view_stutter hthreads rfl rfl
      · show s.count + 1 = s.count + (s.call i).destroying
        rw [hold]
        rfl
      · rw [hi]
        rfl
    rw [hsame]
    exact hv

theorem Inv.view_advance (h : Inv F s) (hv : ReachableView F fields (s.view F))
    {leave : State κ S → State κ S} (hstep : Combinator.advance F s i leave = some t)
    (hleave : ∀ u, (leave u).view F = u.view F) : ReachableView F fields (t.view F) := by
  unfold Combinator.advance at hstep
  cases hi : s.call i with
  | running inline b =>
    have hbody := h.view_bodyStep hv hi
    rw [hi] at hstep
    cases hnext : Combinator.bodyStep F s i b with
    | mk u ob =>
      simp only [hnext] at hstep hbody
      cases ob with
      | none =>
        simp only [Option.some.injEq] at hstep
        subst hstep
        rw [hleave]
        exact hbody
      | some b' =>
        simp only [Option.some.injEq] at hstep
        subst hstep
        exact hbody
  | unset | attached | done =>
    rw [hi] at hstep
    contradiction

theorem Inv.view_setStep (h : Inv F s) (hv : ReachableView F fields (s.view F))
    (hstep : Combinator.setStep F s = some t) : ReachableView F fields (t.view F) := by
  unfold Combinator.setStep at hstep
  cases hset : s.setter with
  | register i =>
    simp only [hset, Option.some.injEq] at hstep
    subst hstep
    exact hv
  | setCallback i =>
    simp only [hset, Option.some.injEq] at hstep
    subst hstep
    have hunset : s.phase i = .unset := (h.flow.unset i).mpr (by rw [hset]; exact Nat.le_refl _)
    have hbegin := hv.begin (i := i) (u := s.touch.touchCore (F.core i))
      (by rw [hunset]; rfl) rfl rfl rfl rfl true (F.setIndex S.kConsumePolicy i)
    have hattach : ∀ q, ((attach F (s.touch.touchCore (F.core i)) i q).goto
        (.from S (i + 1))).view F = s.view F := by
      intro q
      have hstage : (s.call i).destroying = 0 ∧ (s.call i).toCall = .pending := by
        rw [State.phase] at hunset
        cases hcall : s.call i with
        | unset => exact ⟨rfl, rfl⟩
        | attached | running _ _ | done =>
          rw [hcall] at hunset
          contradiction
      show (s.put i .attached).view F = s.view F
      apply State.view_stutter rfl rfl rfl
      · rw [hstage.1]
        rfl
      · rw [hstage.2]
        rfl
    unfold Combinator.setCallback
    dsimp only
    split
    · rw [hattach]
      exact hv
    · rw [hattach]
      exact hv
    · exact hbegin
  | inside i =>
    simp only [hset] at hstep
    exact h.view_advance hv hstep fun _ => rfl
  | done =>
    simp only [hset] at hstep
    contradiction

theorem Inv.view_producerStep (h : Inv F s) (hv : ReachableView F fields (s.view F)) {use : Use}
    (hstep : Combinator.producerStep F s c use = some t) : ReachableView F fields (t.view F) := by
  unfold Combinator.producerStep at hstep
  cases hproducer : s.producer c with
  | before =>
    simp only [hproducer, Option.some.injEq] at hstep
    subst hstep
    exact hv
  | visit head =>
    simp only [hproducer, Option.some.injEq] at hstep
    subst hstep
    have hsame : ∀ p, ((if head.ours then s.touch else s).move c p).view F = s.view F := by
      intro p
      split <;> rfl
    rw [hsame]
    exact hv
  | lastDecRef head =>
    simp only [hproducer, Option.some.injEq] at hstep
    subst hstep
    exact hv
  | call head next =>
    simp only [hproducer, Option.some.injEq] at hstep
    subst hstep
    unfold callCallback
    cases hi : F.inputOf S.kConsumePolicy c head with
    | some i =>
      obtain ⟨hc, hnode⟩ := F.inputOf_eq_some.mp hi
      have hattached : s.phase i = .attached := by
        obtain ⟨xs, hxs, -, -, -⟩ := (h.flow.core c).call hproducer
        rw [h.flow.attached i, hc, hnode, hxs]
        exact List.mem_cons_self
      exact hv.begin
        (u := ({ s with held := Function.update s.held c (s.held c).tail } : State κ S).touch)
        (by rw [hattached]; rfl) rfl rfl rfl rfl false head.index
    | none =>
      have hsame : ((Combinator.callForeign F
          ({ s with held := Function.update s.held c (s.held c).tail } : State κ S) c use).move c
            (.rest (F.shared c) next)).view F = s.view F := by
        unfold Combinator.callForeign
        cases use with
        | copy | incRef => rfl
        | moveOrCopy =>
          dsimp only
          split <;> rfl
      rw [hsame]
      exact hv
  | inside i next =>
    simp only [hproducer] at hstep
    exact h.view_advance hv hstep fun _ => rfl
  | decRef more =>
    cases more with
    | zero | succ more =>
      simp only [hproducer, Option.some.injEq] at hstep
      subst hstep
      exact hv
  | finished =>
    simp only [hproducer] at hstep
    contradiction

theorem Inv.view_step (h : Inv F s) (hv : ReachableView F fields (s.view F)) {e : Event κ}
    (hstep : Combinator.step F s e = some t) : ReachableView F fields (t.view F) := by
  cases e with
  | set => exact h.view_setStep hv hstep
  | producer c use => exact h.view_producerStep hv hstep
  | attach c =>
    change Combinator.foreignAttach F s c = some t at hstep
    unfold Combinator.foreignAttach at hstep
    split at hstep
    · simp only [Option.some.injEq] at hstep
      subst hstep
      exact hv
    · contradiction
  | copy c =>
    change Combinator.foreignCopy s c = some t at hstep
    unfold Combinator.foreignCopy at hstep
    split at hstep
    · contradiction
    · simp only [Option.some.injEq] at hstep
      subst hstep
      exact hv
  | drop c retires =>
    change Combinator.foreignDrop F s c retires = some t at hstep
    unfold Combinator.foreignDrop at hstep
    split at hstep
    · contradiction
    · simp only [Option.some.injEq] at hstep
      subst hstep
      have hsame : (if retires then s.retire F c else s).view F = s.view F := by
        cases retires with
        | false => rfl
        | true =>
          obtain ⟨x, content, heq⟩ := State.retire_eq (F := F) (s := s) (c := c)
          rw [if_pos rfl, heq]
          rfl
      show ReachableView F fields ((if retires then s.retire F c else s).view F)
      rw [hsame]
      exact hv

/-- The run lemma of the combinators, with the refinement of the strategy. -/
theorem inv_of_reachable (hs : (Combinator.system F S fields).Reachable s) :
    Inv F s ∧ ReachableView F fields (s.view F) := by
  refine System.Inductive.reachable (P := fun s => Inv F s ∧ ReachableView F fields (s.view F))
    ⟨?_, ?_⟩ hs
  · rintro s ⟨kept, hkept, rfl⟩
    refine ⟨⟨Flow.init, Work.init, Heap.init hkept, rfl⟩, ?_⟩
    apply System.ReachableIf.init
    show (init F fields kept).view F = _
    have hnone : tally Stage.destroying (init (S := S) F fields kept).call = 0 := by
      show tally Stage.destroying (fun _ : Fin n => (.unset : Stage κ S.Place R)) = 0
      rw [tally_const]
      exact Nat.mul_zero _
    unfold State.view
    rw [hnone, Fintype.card_fin]
    rfl
  · rintro s e t ⟨h, hv⟩ hstep -
    exact ⟨h.step hstep, h.view_step hv hstep⟩

end Combinator

end Yaclib.When
