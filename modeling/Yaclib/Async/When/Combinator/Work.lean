import Yaclib.Async.When.Combinator.Flow

/-!
Every step keeps `Work`: the counter of the combinator, what the callbacks know, and
the references to the cores that they have given back.
-/

namespace Yaclib.When.Combinator

open Concurrency

variable {n : Nat} {κ τ R P : Type}

namespace Stage

variable {stage : Stage κ P R}

theorem counted_le (stage : Stage κ P R) : stage.counted + stage.destroying ≤ 1 := by
  cases stage with
  | running inline b => cases b <;> exact Nat.le_refl _
  | unset | attached | done => exact Nat.le_of_ble_eq_true rfl

theorem eq_done (hcounted : stage.counted = 0) (hdestroying : stage.destroying = 0) :
    stage = .done := by
  cases stage with
  | done => rfl
  | running inline b => cases b <;> simp_all [counted, destroying]
  | _ => simp [counted] at hcounted

theorem freed_eq_zero (hdestroying : stage.destroying = 0) : stage.freed = 0 := by
  cases stage with
  | running inline b => cases b <;> simp_all [freed, destroying]
  | _ => rfl

/-- Before `Consume`, an input has all its references. -/
theorem of_not_started (h : stage.phase.started = false) :
    stage.counted = 1 ∧ stage.destroying = 0 ∧ stage.freed = 0 ∧ stage.released = 0 := by
  cases stage with
  | unset | attached => exact ⟨rfl, rfl, rfl, rfl⟩
  | running _ _ | done => simp [phase, Phase.started] at h

end Stage

variable {F : Futures n κ τ R} {S : StrategyClass n R}
variable {s t u : State κ S} {i : Fin n} {inline : Bool} {b : Body κ S.Place R}

/-- A reference to the combinator keeps the strategy alive. -/
theorem Work.alive (h : Work F s) (hi : (s.call i).counted = 1) :
    0 < s.count ∧ s.destroyed = 0 ∧ ∀ j, (s.call j).destroying = 0 := by
  have hle := le_tally Stage.counted s.call i
  have hcount := h.count_eq
  have hdestroyed := h.destroyed_eq
  have hpos : s.count ≠ 0 := by omega
  rw [if_neg hpos] at hdestroyed
  refine ⟨by omega, by omega, ?_⟩
  exact tally_eq_zero.mp (by omega)

/-- The destructor runs after all other callbacks. -/
theorem Work.destroying (h : Work F s) (hi : (s.call i).destroying = 1) :
    s.count = 0 ∧ s.destroyed = 0 ∧ ∀ j, j ≠ i → s.call j = .done := by
  have hle := le_tally Stage.destroying s.call i
  have hdestroyed := h.destroyed_eq
  have hzero : s.count = 0 := by
    by_contra hpos
    rw [if_neg hpos] at hdestroyed
    omega
  rw [if_pos hzero] at hdestroyed
  refine ⟨hzero, by omega, ?_⟩
  intro j hj
  have hcounted : (s.call j).counted = 0 := by
    have hcount := h.count_eq
    rw [hzero] at hcount
    exact tally_eq_zero.mp hcount.symm j
  have htwo := add_le_tally Stage.destroying s.call hj.symm
  exact Stage.eq_done hcounted (by omega)

theorem Work.freed_of_alive (h : Work F s) (hi : (s.call i).counted = 1) : s.freed = 0 := by
  obtain ⟨-, hdestroyed, hall⟩ := h.alive hi
  have hzero : tally Stage.freed s.call = 0 :=
    tally_eq_zero.mpr fun j => Stage.freed_eq_zero (hall j)
  rw [State.freed, hdestroyed, hzero, Nat.mul_zero]

theorem Work.freed_of_destroying (h : Work F s) (hi : (s.call i).destroying = 1) :
    s.freed = (s.call i).freed := by
  obtain ⟨-, hdestroyed, hall⟩ := h.destroying hi
  have hothers : tally Stage.freed s.call = (s.call i).freed := by
    apply Finset.sum_eq_single i
    · intro j _ hj
      rw [hall j hj]
      rfl
    · intro hnot
      exact absurd (Finset.mem_univ i) hnot
  rw [State.freed, hdestroyed, hothers, Nat.mul_zero, Nat.zero_add]

/-- A running callback is counted, or it runs the destructor. -/
theorem Stage.running_cases (inline : Bool) (b : Body κ S.Place R) :
    (Stage.running inline b : Stage κ S.Place R).counted = 1 ∨
      (Stage.running inline b : Stage κ S.Place R).destroying = 1 := by
  cases b <;> simp [Stage.counted, Stage.destroying]

/-- What a callback knows does not depend on the fields before the destructor. -/
theorem BodyInv.congr {f g : S.Fields} (h : BodyInv F S f i b) (inline : Bool)
    (hb : (Stage.running inline b : Stage κ S.Place R).destroying = 0) : BodyInv F S g i b := by
  cases b with
  | destroy _ _ _ => simp [Stage.destroying] at hb
  | destroyDecRef _ _ _ => simp [Stage.destroying] at hb
  | _ => exact h

/-- The other callbacks, while that of `i` runs. -/
theorem Work.body_of_ne (h : Work F s) (hi : s.call i = .running inline b) {f : S.Fields}
    {j : Fin n} (hj : j ≠ i) {inline' : Bool} {b' : Body κ S.Place R}
    (hjb : s.call j = .running inline' b') : BodyInv F S f j b' := by
  apply (h.body j inline' b' hjb).congr inline'
  rcases Stage.running_cases inline' b' with hcounted | hdestroying
  · have hle := Stage.counted_le (Stage.running inline' b' : Stage κ S.Place R)
    omega
  · rw [← hjb] at hdestroying
    have hdone := (h.destroying hdestroying).2.2 i hj.symm
    rw [hi] at hdone
    contradiction

/-- The fields that only `Set` and the start of `Consume` change. -/
structure SameWork (s u : State κ S) : Prop where
  call : u.call = s.call
  calls : u.calls = s.calls
  cores : u.cores = s.cores
  setter : u.setter = s.setter

/-- A callback moves. -/
theorem Work.put (h : Work F s) (hi : s.call i = .running inline b) (hu : SameWork s u)
    {stage : Stage κ S.Place R} (hstarted : stage.phase.started = true)
    (hcount : u.count + (s.call i).counted = s.count + stage.counted)
    (hdestroyed : u.destroyed + tally Stage.destroying (Function.update s.call i stage) =
      if u.count = 0 then 1 else 0)
    (hbody : ∀ inline' b', stage = .running inline' b' → BodyInv F S u.fields i b')
    (hreleased : ∀ j, u.released j = if S.Owned then if j < (u.put i stage).freed then 1 else 0
      else (Function.update s.call i stage j).released) : Work F (u.put i stage) := by
  have hcall : (u.put i stage).call = Function.update s.call i stage := by
    rw [← hu.call]
    rfl
  refine ⟨?_, ?_, ?_, ?_, ?_, ?_⟩
  · rw [hcall]
    have hupdate := tally_update Stage.counted s.call i stage
    have hold := h.count_eq
    show u.count = _
    omega
  · rw [hcall]
    exact hdestroyed
  · intro j
    show u.calls j = _
    rw [hu.calls, h.calls_eq j, State.phase, State.phase, hcall]
    by_cases hj : j = i
    · subst hj
      rw [Function.update_self, hstarted, hi]
      rfl
    · rw [Function.update_of_ne hj]
  · intro howned j hj
    show u.cores j = _
    rw [hu.cores]
    apply h.registered howned j
    rw [← hu.setter]
    exact hj
  · intro j inline' b' hjb
    rw [hcall] at hjb
    by_cases hj : j = i
    · subst hj
      rw [Function.update_self] at hjb
      exact hbody inline' b' hjb
    · rw [Function.update_of_ne hj] at hjb
      exact h.body_of_ne hi hj hjb
  · intro j
    rw [hcall]
    exact hreleased j

/-- A callback moves before the destructor. -/
theorem Work.live (h : Work F s) (hi : s.call i = .running inline b) (hu : SameWork s u)
    {b' : Body κ S.Place R} (hb : (Stage.running inline b : Stage κ S.Place R).counted = 1)
    (hb' : (Stage.running inline b' : Stage κ S.Place R).counted = 1)
    (hcount : u.count = s.count) (hdestroyed : u.destroyed = s.destroyed)
    (hbody : BodyInv F S u.fields i b')
    (hreleased : ∀ j, u.released j = if S.Owned then 0
      else (Function.update s.call i (.running inline b') j).released) :
    Work F (u.put i (.running inline b')) := by
  have hcounted : (s.call i).counted = 1 := by rw [hi, hb]
  obtain ⟨hpos, hnot, hall⟩ := h.alive hcounted
  have hquiet : (Stage.running inline b' : Stage κ S.Place R).destroying = 0 := by
    have hle := Stage.counted_le (Stage.running inline b' : Stage κ S.Place R)
    omega
  have hnone : ∀ j, (Function.update s.call i (.running inline b') j).destroying = 0 := by
    intro j
    by_cases hj : j = i
    · subst hj
      rw [Function.update_self]
      exact hquiet
    · rw [Function.update_of_ne hj]
      exact hall j
  apply h.put hi hu rfl
  · rw [hcount, hcounted, hb']
  · rw [hdestroyed, hcount, if_neg hpos.ne', hnot, Nat.zero_add]
    exact tally_eq_zero.mpr hnone
  · intro inline' b'' heq
    cases heq
    exact hbody
  · have hfreed : (u.put i (.running inline b')).freed = 0 := by
      have hzero : tally Stage.freed (u.put i (.running inline b')).call = 0 := by
        apply tally_eq_zero.mpr
        intro j
        apply Stage.freed_eq_zero
        rw [show (u.put i (.running inline b')).call = Function.update s.call i _ from by
          rw [← hu.call]; rfl]
        exact hnone j
      rw [State.freed, hzero, show (u.put i (.running inline b')).destroyed = u.destroyed from rfl,
        hdestroyed, hnot, Nat.mul_zero]
    intro j
    rw [hreleased j, hfreed]
    simp

/-- The destructor moves. -/
theorem Work.destructor (h : Work F s) (hi : s.call i = .running inline b) (hu : SameWork s u)
    {b' : Body κ S.Place R} (hb : (Stage.running inline b : Stage κ S.Place R).destroying = 1)
    (hb' : (Stage.running inline b' : Stage κ S.Place R).destroying = 1)
    (hcount : u.count = s.count) (hdestroyed : u.destroyed = s.destroyed)
    (hbody : BodyInv F S u.fields i b') (howned : S.Owned)
    (hreleased : ∀ j : Fin n, u.released j =
      if j < (Stage.running inline b' : Stage κ S.Place R).freed then 1 else 0) :
    Work F (u.put i (.running inline b')) := by
  have hdestroying : (s.call i).destroying = 1 := by rw [hi, hb]
  obtain ⟨hzero, hnot, hall⟩ := h.destroying hdestroying
  have hcounted := Stage.counted_le (s.call i)
  have hcounted' := Stage.counted_le (Stage.running inline b' : Stage κ S.Place R)
  have hmove := tally_update Stage.destroying s.call i (.running inline b')
  have hold := h.destroyed_eq
  rw [if_pos hzero] at hold
  have hwork : ∀ f, tally f (Function.update s.call i (.running inline b')) =
      f (.running inline b') + (tally f s.call - f (s.call i)) := by
    intro f
    have hupdate := tally_update f s.call i (.running inline b')
    have hle := le_tally f s.call i
    omega
  apply h.put hi hu rfl
  · omega
  · rw [hdestroyed, hcount, if_pos hzero]
    omega
  · intro inline' b'' heq
    cases heq
    exact hbody
  · have hfreed : (u.put i (.running inline b')).freed =
        (Stage.running inline b' : Stage κ S.Place R).freed := by
      have hbefore := h.freed_of_destroying hdestroying
      rw [State.freed, hnot, Nat.mul_zero, Nat.zero_add] at hbefore
      rw [State.freed, show (u.put i (.running inline b')).destroyed = u.destroyed from rfl,
        hdestroyed, hnot, Nat.mul_zero, Nat.zero_add,
        show (u.put i (.running inline b')).call = Function.update s.call i _ from by
          rw [← hu.call]; rfl, hwork, hbefore]
      omega
    intro j
    rw [hreleased j, hfreed, if_pos howned]

/-! ### One step of a callback -/

/-- What is given back before the destructor. -/
theorem Work.released_of_alive (h : Work F s) (hi : (s.call i).counted = 1) (j : Fin n) :
    s.released j = if S.Owned then 0 else (s.call j).released := by
  rw [h.released_eq j, h.freed_of_alive hi]
  simp

/-- A step that keeps a reference in place. -/
theorem Work.live_stay (h : Work F s) (hi : s.call i = .running inline b) (hu : SameWork s u)
    {b' : Body κ S.Place R} (hb : (Stage.running inline b : Stage κ S.Place R).counted = 1)
    (hb' : (Stage.running inline b' : Stage κ S.Place R).counted = 1)
    (hcount : u.count = s.count) (hdestroyed : u.destroyed = s.destroyed)
    (hbody : BodyInv F S u.fields i b') (hreleased : u.released = s.released)
    (hsame : ¬S.Owned → (Stage.running inline b' : Stage κ S.Place R).released =
      (Stage.running inline b : Stage κ S.Place R).released) :
    Work F (u.put i (.running inline b')) := by
  apply h.live hi hu hb hb' hcount hdestroyed hbody
  intro j
  rw [hreleased, h.released_of_alive (by rw [hi, hb]) j]
  by_cases howned : S.Owned
  · rw [if_pos howned, if_pos howned]
  · rw [if_neg howned, if_neg howned]
    by_cases hj : j = i
    · subst hj
      rw [Function.update_self, hi, hsame howned]
    · rw [Function.update_of_ne hj]

variable {c : κ} {index : Option Nat} {r : R} {p : S.Place}

theorem consumeStep_eq (index : Option Nat) (r : Option R) (p : S.Place) :
    ∃ x, (consumeStep F s i index r p).1 = { s with
    dangling := x, fields := (S.consume i index (r.getD (s.content (F.core i))) s.fields p).1 } := by
  cases r with
  | none => exact ⟨_, rfl⟩
  | some r => exact ⟨_, rfl⟩

theorem Work.consume (h : Work F s) {r : Option R}
    (hi : s.call i = .running inline (.inside index r p)) {q : Option S.Place} :
    Work F ((consumeStep F s i index r p).1.put i
      (.running inline (q.elim .decRef (.inside index r)))) := by
  obtain ⟨x, heq⟩ := consumeStep_eq (F := F) (s := s) (i := i) index r p
  have hsame : SameWork s (consumeStep F s i index r p).1 := by
    rw [heq]
    exact ⟨rfl, rfl, rfl, rfl⟩
  have hcount : (consumeStep F s i index r p).1.count = s.count := by rw [heq]
  have hdestroyed : (consumeStep F s i index r p).1.destroyed = s.destroyed := by rw [heq]
  have hreleased : (consumeStep F s i index r p).1.released = s.released := by rw [heq]
  have hbody := h.body i inline _ hi
  cases q with
  | none =>
    apply h.live_stay hi hsame rfl rfl hcount hdestroyed _ hreleased
    · intro _
      rfl
    · exact trivial
  | some q =>
    apply h.live_stay hi hsame rfl rfl hcount hdestroyed _ hreleased
    · intro _
      rfl
    · exact hbody

/-- The reference of the input to the combinator is given back, and it is not the last. -/
theorem Work.decRef (h : Work F s) (hi : s.call i = .running inline .decRef)
    (hmore : s.count ≠ 1) :
    Work F (({ s.touch with count := s.count - 1 } : State κ S).put i .done) := by
  have hcounted : (s.call i).counted = 1 := by
    rw [hi]
    rfl
  obtain ⟨hpos, hnot, hall⟩ := h.alive hcounted
  have hnone : ∀ j, (Function.update s.call i (.done : Stage κ S.Place R) j).destroying = 0 := by
    intro j
    by_cases hj : j = i
    · subst hj
      rw [Function.update_self]
      rfl
    · rw [Function.update_of_ne hj]
      exact hall j
  have hsame : SameWork s { s.touch with count := s.count - 1 } := ⟨rfl, rfl, rfl, rfl⟩
  apply h.put hi hsame rfl
  · show s.count - 1 + (s.call i).counted = s.count + 0
    omega
  · show s.destroyed + _ = if s.count - 1 = 0 then 1 else 0
    rw [if_neg (by omega), hnot, Nat.zero_add]
    exact tally_eq_zero.mpr hnone
  · intro inline' b' heq
    contradiction
  · intro j
    have hreleased := h.released_of_alive hcounted j
    have hfreed : (({ s.touch with count := s.count - 1 } : State κ S).put i .done).freed = 0 := by
      have hzero : tally Stage.freed (Function.update s.call i (.done : Stage κ S.Place R)) = 0 :=
        tally_eq_zero.mpr fun j => Stage.freed_eq_zero (hnone j)
      show n * s.destroyed + tally Stage.freed (Function.update s.call i _) = 0
      rw [hzero, hnot, Nat.mul_zero]
    rw [hfreed]
    show s.released j = _
    rw [hreleased]
    by_cases howned : S.Owned
    · simp [howned]
    · rw [if_neg howned, if_neg howned]
      by_cases hj : j = i
      · subst hj
        rw [Function.update_self, hi]
        rfl
      · rw [Function.update_of_ne hj]

/-- The last reference: the destructor begins. -/
theorem Work.beginDestroy (h : Work F s) (hi : s.call i = .running inline .decRef)
    (hlast : s.count = 1) :
    Work F (({ s.touch with count := s.count - 1 } : State κ S).put i
      (.running inline (.destroy (S.retires s.fields) (if S.Owned then 0 else n) []))) := by
  have hcounted : (s.call i).counted = 1 := by
    rw [hi]
    rfl
  obtain ⟨-, hnot, hall⟩ := h.alive hcounted
  obtain ⟨stage, hstage⟩ : ∃ stage : Stage κ S.Place R, stage = .running inline
      (.destroy (S.retires s.fields) (if S.Owned then 0 else n) []) := ⟨_, rfl⟩
  have hstarted : stage.phase.started = true := by
    rw [hstage]
    rfl
  have hgone : stage.counted = 0 ∧ stage.destroying = 1 ∧ stage.released = 1 := by
    rw [hstage]
    exact ⟨rfl, rfl, rfl⟩
  have hzero : tally Stage.destroying s.call = 0 := tally_eq_zero.mpr hall
  have hmove := tally_update Stage.destroying s.call i stage
  have hsame : SameWork s { s.touch with count := s.count - 1 } := ⟨rfl, rfl, rfl, rfl⟩
  rw [← hstage]
  apply h.put hi hsame hstarted
  · show s.count - 1 + (s.call i).counted = s.count + stage.counted
    omega
  · show s.destroyed + _ = if s.count - 1 = 0 then 1 else 0
    rw [if_pos (by omega)]
    have hold := hall i
    omega
  · intro inline' b' heq
    rw [hstage] at heq
    cases heq
    refine ⟨rfl, ?_⟩
    by_cases howned : S.Owned
    · rw [if_pos howned, if_pos howned]
      refine ⟨Nat.zero_le n, ?_⟩
      rw [List.take_zero, ite_self]
    · rw [if_neg howned, if_neg howned]
      exact ⟨rfl, rfl⟩
  · intro j
    show s.released j = _
    rw [h.released_of_alive hcounted j]
    by_cases howned : S.Owned
    · have hfreed : tally Stage.freed (Function.update s.call i stage) = 0 := by
        apply tally_eq_zero.mpr
        intro k
        by_cases hk : k = i
        · subst hk
          rw [Function.update_self, hstage]
          show (if S.Owned then 0 else n) = 0
          rw [if_pos howned]
        · rw [Function.update_of_ne hk]
          exact Stage.freed_eq_zero (hall k)
      have hstate : (({ s.touch with count := s.count - 1 } : State κ S).put i stage).freed = 0 := by
        show n * s.destroyed + tally Stage.freed (Function.update s.call i _) = 0
        rw [hfreed, hnot, Nat.mul_zero]
      rw [if_pos howned, if_pos howned, hstate]
      simp
    · rw [if_neg howned, if_neg howned]
      by_cases hj : j = i
      · subst hj
        rw [Function.update_self, hi, hgone.2.2]
        rfl
      · rw [Function.update_of_ne hj]

/-- The destructor is through. -/
theorem Work.destroyed (h : Work F s) {j : Nat} {retires : Bool} {output : List R}
    (hi : s.call i = .running inline (.destroy retires j output)) (hj : j = n) {f : S.Fields} :
    Work F (({ s with fields := f, destroyed := s.destroyed + 1 } : State κ S).put i .done) := by
  have hdestroying : (s.call i).destroying = 1 := by
    rw [hi]
    rfl
  obtain ⟨hzero, hnot, hall⟩ := h.destroying hdestroying
  have hnone : ∀ k, Function.update s.call i (.done : Stage κ S.Place R) k = .done := by
    intro k
    by_cases hk : k = i
    · subst hk
      rw [Function.update_self]
    · rw [Function.update_of_ne hk]
      exact hall k hk
  have hsame : SameWork s { s with fields := f, destroyed := s.destroyed + 1 } :=
    ⟨rfl, rfl, rfl, rfl⟩
  apply h.put hi hsame rfl
  · show s.count + (s.call i).counted = s.count + 0
    have hle := Stage.counted_le (s.call i)
    omega
  · show s.destroyed + 1 + _ = if s.count = 0 then 1 else 0
    rw [if_pos hzero, hnot]
    have hquiet : tally Stage.destroying (Function.update s.call i (.done : Stage κ S.Place R)) = 0 := by
      apply tally_eq_zero.mpr
      intro k
      rw [hnone k]
      rfl
    rw [hquiet]
  · intro inline' b' heq
    contradiction
  · intro k
    have hreleased := h.released_eq k
    rw [h.freed_of_destroying hdestroying, hi] at hreleased
    have hfreed : (({ s with fields := f, destroyed := s.destroyed + 1 } : State κ S).put i
        .done).freed = n := by
      have hgone : tally Stage.freed (Function.update s.call i (.done : Stage κ S.Place R)) = 0 := by
        apply tally_eq_zero.mpr
        intro k
        rw [hnone k]
        rfl
      show n * (s.destroyed + 1) + tally Stage.freed (Function.update s.call i _) = n
      rw [hgone, hnot]
      simp
    rw [hfreed]
    show s.released k = _
    rw [hreleased, hnone k]
    by_cases howned : S.Owned
    · rw [if_pos howned, if_pos howned]
      show (if k.val < j then 1 else 0) = _
      rw [hj]
    · rw [if_neg howned, if_neg howned]
      by_cases hk : k = i
      · subst hk
        rw [hi]
        rfl
      · rw [hall k hk]

/-- A step that has nothing to do with the combinator. -/
theorem Work.congr (h : Work F s) (hu : SameWork s u) (hcount : u.count = s.count)
    (hdestroyed : u.destroyed = s.destroyed) (hfields : u.fields = s.fields)
    (hreleased : u.released = s.released) : Work F u := by
  have hphase : u.phase = s.phase := by
    funext i
    rw [State.phase, State.phase, hu.call]
  have hfreed : u.freed = s.freed := by rw [State.freed, State.freed, hu.call, hdestroyed]
  refine ⟨?_, ?_, ?_, ?_, ?_, ?_⟩
  · rw [hcount, hu.call]
    exact h.count_eq
  · rw [hcount, hdestroyed, hu.call]
    exact h.destroyed_eq
  · rw [hu.calls, hphase]
    exact h.calls_eq
  · rw [hu.cores, hu.setter]
    exact h.registered
  · rw [hu.call, hfields]
    exact h.body
  · rw [hreleased, hu.call, hfreed]
    exact h.released_eq

/-- The thread in `Set` moves. -/
theorem Work.goto (h : Work F s) {p : Setter n}
    (hp : S.Owned → p.registered ≤ s.setter.registered) : Work F (s.goto p) :=
  ⟨h.count_eq, h.destroyed_eq, h.calls_eq,
    fun howned j hj => h.registered howned j (Nat.lt_of_lt_of_le hj (hp howned)), h.body,
    h.released_eq⟩

theorem Work.register (h : Work F s) (hset : s.setter = .register i) :
    Work F { s.touch.goto (.setCallback i) with
      cores := Function.update s.cores i (some (F.core i)) } := by
  refine ⟨h.count_eq, h.destroyed_eq, h.calls_eq, ?_, h.body, h.released_eq⟩
  intro howned j hj
  show Function.update s.cores i (some (F.core i)) j = _
  by_cases hji : j = i
  · subst hji
    rw [Function.update_self]
  · rw [Function.update_of_ne hji]
    apply h.registered howned j
    rw [hset]
    have hlt : j.val < i.val + 1 := hj
    have hne : j.val ≠ i.val := fun heq => hji (Fin.ext heq)
    show j.val < i.val
    omega

/-- A callback goes on to a place that has all references still. -/
theorem Work.fresh (h : Work F s) (hi : (s.phase i).started = false) {stage : Stage κ S.Place R}
    {calls : Fin n → List (Option Nat)}
    (hcounted : stage.counted = 1) (hreleased : ¬S.Owned → stage.released = 0)
    (hcalls : ∀ j, calls j = if (Function.update s.phase i stage.phase j).started
      then [S.argument j] else [])
    (hbody : ∀ inline b, stage = .running inline b → BodyInv F S s.fields i b) :
    Work F { s.put i stage with calls := calls } := by
  obtain ⟨holdcounted, holddestroying, holdfreed, holdreleased⟩ := Stage.of_not_started hi
  have hdestroying : stage.destroying = 0 := by
    have hle := Stage.counted_le stage
    omega
  have hmove := fun w => tally_update w s.call i stage
  have hfreed : tally Stage.freed (Function.update s.call i stage) = tally Stage.freed s.call := by
    have hupdate := hmove Stage.freed
    rw [holdfreed, Stage.freed_eq_zero hdestroying] at hupdate
    exact hupdate
  have hcall : ({ s.put i stage with calls := calls } : State κ S).call =
      Function.update s.call i stage := rfl
  refine ⟨?_, ?_, ?_, h.registered, ?_, ?_⟩
  · rw [hcall]
    have hupdate := hmove Stage.counted
    have hcount := h.count_eq
    show s.count = _
    omega
  · rw [hcall]
    have hupdate := hmove Stage.destroying
    have hold := h.destroyed_eq
    show s.destroyed + _ = if s.count = 0 then 1 else 0
    omega
  · intro j
    show calls j = if ((s.put i stage).phase j).started then [S.argument j] else []
    rw [State.phase_put]
    exact hcalls j
  · intro j inline b hjb
    rw [hcall] at hjb
    by_cases hj : j = i
    · subst hj
      rw [Function.update_self] at hjb
      exact hbody inline b hjb
    · rw [Function.update_of_ne hj] at hjb
      exact h.body j inline b hjb
  · intro j
    have hstate : ({ s.put i stage with calls := calls } : State κ S).freed = s.freed := by
      show n * s.destroyed + tally Stage.freed (Function.update s.call i stage) = _
      rw [hfreed]
      rfl
    rw [hcall, hstate]
    show s.released j = _
    rw [h.released_eq j]
    by_cases howned : S.Owned
    · rw [if_pos howned, if_pos howned]
    · rw [if_neg howned, if_neg howned]
      by_cases hj : j = i
      · subst hj
        rw [Function.update_self, holdreleased, hreleased howned]
      · rw [Function.update_of_ne hj]

theorem entry_cases (index : Option Nat) :
    entry S index = (.decRefCore : Body κ S.Place R) ∧ S.kConsumePolicy = .None ∧ ¬S.Owned ∨
      entry S index = (.decRef : Body κ S.Place R) ∧ S.kConsumePolicy = .None ∧ S.Owned ∨
      entry S index = (.retire index : Body κ S.Place R) ∧ S.kConsumePolicy ≠ .None ∧ ¬S.Owned ∨
      entry S index = (.inside index none S.start : Body κ S.Place R) ∧
        S.kConsumePolicy ≠ .None ∧ S.Owned := by
  unfold entry StrategyClass.Owned
  cases S.kConsumePolicy <;> cases S.kCorePolicy <;> simp

/-- `Consume` of an input begins, with the index of the input. -/
theorem Work.begin (h : Work F s) (hi : (s.phase i).started = false) {k : Nat}
    (hk : S.argument k = S.argument i) : Work F (beginConsume s i inline k) := by
  have hentry := entry_cases (κ := κ) (S := S) (S.argument k)
  apply h.fresh hi
  · rcases hentry with ⟨heq, -⟩ | ⟨heq, -⟩ | ⟨heq, -⟩ | ⟨heq, -⟩ <;> rw [heq] <;> rfl
  · intro hmanaged
    rcases hentry with ⟨heq, -⟩ | ⟨-, -, howned⟩ | ⟨heq, -⟩ | ⟨-, -, howned⟩
    · rw [heq]
      rfl
    · contradiction
    · rw [heq]
      rfl
    · contradiction
  · intro j
    by_cases hj : j = i
    · subst hj
      rw [Function.update_self, Function.update_self, h.calls_eq j, hi, hk]
      rfl
    · rw [Function.update_of_ne hj, Function.update_of_ne hj]
      exact h.calls_eq j
  · intro inline' b' heq
    cases heq
    rcases hentry with ⟨heq, hnone, hmanaged⟩ | ⟨heq, -⟩ | ⟨heq, hsome, hmanaged⟩ |
      ⟨heq, hsome, howned⟩
    · rw [heq]
      exact ⟨hnone, hmanaged⟩
    · rw [heq]
      exact trivial
    · rw [heq]
      exact ⟨hsome, hmanaged, hk⟩
    · rw [heq]
      refine ⟨hsome, hk, ?_⟩
      rw [if_pos howned]

variable [DecidableEq κ]

theorem State.retire_eq :
    ∃ x content, s.retire F c = { s with dangling := x, content := content } := by
  unfold State.retire
  by_cases hcopy : F.shared c = true ∧ s.refs c ≠ 1
  · rw [if_pos hcopy]
    exact ⟨_, _, rfl⟩
  · rw [if_neg hcopy]
    exact ⟨_, _, rfl⟩

theorem Work.retire (h : Work F s) (hi : s.call i = .running inline (.retire index))
    (hr : r = F.result (F.core i)) :
    Work F ((s.retire F (F.core i)).put i (.running inline (.retireDecRef index r))) := by
  obtain ⟨x, content, heq⟩ := State.retire_eq (F := F) (s := s) (c := F.core i)
  have hsame : SameWork s (s.retire F (F.core i)) := by
    rw [heq]
    exact ⟨rfl, rfl, rfl, rfl⟩
  obtain ⟨hnone, hmanaged, hindex⟩ := h.body i inline _ hi
  apply h.live_stay hi hsame rfl rfl
  · rw [heq]
  · rw [heq]
  · exact ⟨hnone, hmanaged, hindex, hr⟩
  · rw [heq]
  · intro _
    rfl

/-- The reference of the input is given back. -/
theorem Work.release (h : Work F s) (hi : s.call i = .running inline b) (hmanaged : ¬S.Owned)
    {b' : Body κ S.Place R} (hb : (Stage.running inline b : Stage κ S.Place R).counted = 1)
    (hb' : (Stage.running inline b' : Stage κ S.Place R).counted = 1)
    (hold : (Stage.running inline b : Stage κ S.Place R).released = 0)
    (hnew : (Stage.running inline b' : Stage κ S.Place R).released = 1)
    (hbody : BodyInv F S s.fields i b') :
    Work F ((s.release i c).put i (.running inline b')) := by
  have hsame : SameWork s (s.release i c) := ⟨rfl, rfl, rfl, rfl⟩
  apply h.live hi hsame hb hb' rfl rfl hbody
  intro j
  have hreleased := h.released_of_alive (by rw [hi, hb]) j
  rw [if_neg hmanaged] at hreleased ⊢
  show Function.update s.released i (s.released i + 1) j = _
  by_cases hj : j = i
  · subst hj
    rw [hi, hold] at hreleased
    rw [Function.update_self, Function.update_self, hnew, hreleased]
  · rw [Function.update_of_ne hj, Function.update_of_ne hj, hreleased]

theorem Work.retireDecRef (h : Work F s)
    (hi : s.call i = .running inline (.retireDecRef index r)) :
    Work F ((s.release i (F.core i)).put i (.running inline (.inside index (some r) S.start))) := by
  obtain ⟨hnone, hmanaged, hindex, hr⟩ := h.body i inline _ hi
  apply h.release hi hmanaged rfl rfl rfl rfl
  refine ⟨hnone, hindex, ?_⟩
  rw [if_neg hmanaged, hr]

theorem Work.decRefCore (h : Work F s) (hi : s.call i = .running inline .decRefCore) :
    Work F ((s.release i (F.core i)).put i (.running inline .decRef)) :=
  h.release hi (h.body i inline _ hi).2 rfl rfl rfl rfl trivial

/-- The destructor reads `_cores[j]`. -/
theorem Work.destroyRetire (h : Work F s) {j : Fin n} {output : List R}
    (hi : s.call i = .running inline (.destroy true j output)) (howned : S.Owned)
    (hr : r = F.result (F.core j)) :
    Work F ((s.retire F (F.core j)).put i
      (.running inline (.destroyDecRef j (F.core j) (output ++ [r])))) := by
  obtain ⟨x, content, heq⟩ := State.retire_eq (F := F) (s := s) (c := F.core j)
  have hsame : SameWork s (s.retire F (F.core j)) := by
    rw [heq]
    exact ⟨rfl, rfl, rfl, rfl⟩
  obtain ⟨hretires, hbody⟩ := h.body i inline _ hi
  rw [if_pos howned] at hbody
  have hdestroying : (s.call i).destroying = 1 := by
    rw [hi]
    rfl
  apply h.destructor hi hsame rfl rfl
  · rw [heq]
  · rw [heq]
  · rw [heq]
    refine ⟨howned, hretires.symm, ⟨j.isLt, rfl⟩, ?_⟩
    rw [hbody.2, if_pos rfl, List.take_add_one, hr]
    congr 1
    simp [Futures.results]
  · exact howned
  · intro k
    have hreleased := h.released_eq k
    rw [if_pos howned, h.freed_of_destroying hdestroying, hi] at hreleased
    rw [heq]
    exact hreleased

/-- The destructor gives back the reference to `_cores[j]`. -/
theorem Work.destroyRelease (h : Work F s) {j : Fin n} {retires : Bool} {output : List R}
    (hi : s.call i = .running inline b) (howned : S.Owned)
    (hb : (Stage.running inline b : Stage κ S.Place R).destroying = 1)
    (hfreed : (Stage.running inline b : Stage κ S.Place R).freed = j)
    (hbody : BodyInv F S s.fields i (.destroy retires (j + 1) output)) :
    Work F ((s.release j c).put i (.running inline (.destroy retires (j + 1) output))) := by
  have hsame : SameWork s (s.release j c) := ⟨rfl, rfl, rfl, rfl⟩
  have hdestroying : (s.call i).destroying = 1 := by rw [hi, hb]
  apply h.destructor hi hsame hb rfl rfl rfl hbody howned
  intro k
  have hreleased := h.released_eq k
  rw [if_pos howned, h.freed_of_destroying hdestroying, hi, hfreed] at hreleased
  show Function.update s.released j (s.released j + 1) k = if k.val < j.val + 1 then 1 else 0
  by_cases hk : k = j
  · subst hk
    rw [Function.update_self, hreleased]
    simp
  · rw [Function.update_of_ne hk, hreleased]
    have hne : k.val ≠ j.val := fun heq => hk (Fin.ext heq)
    by_cases hlt : k.val < j.val
    · rw [if_pos hlt, if_pos (by omega)]
    · rw [if_neg hlt, if_neg (by omega)]

/-! ### Set and the producers -/

/-- `SetCallback` of an input succeeds. -/
theorem Work.attach (h : Work F s) (hi : s.phase i = .unset) {q : Option Node} [DecidableEq τ] :
    Work F (attach F s i q) := by
  have hput : Work F { s.put i .attached with calls := s.calls } := by
    apply h.fresh (by rw [hi]; rfl) rfl (fun _ => rfl)
    · intro j
      rw [h.calls_eq j]
      by_cases hj : j = i
      · subst hj
        rw [Function.update_self, hi]
        rfl
      · rw [Function.update_of_ne hj]
    · intro inline b heq
      contradiction
  exact hput.congr ⟨rfl, rfl, rfl, rfl⟩ rfl rfl rfl rfl

theorem Work.init {fields : S.Fields} {kept : κ → Nat} : Work F (init F fields kept) := by
  have hcall : (Combinator.init F fields kept).call = fun _ => .unset := rfl
  have hnone : ∀ w : Stage κ S.Place R → Nat, w .unset = 0 →
      tally w (Combinator.init F fields kept).call = 0 := by
    intro w hw
    rw [hcall, tally_const, hw, Nat.mul_zero]
  refine ⟨?_, ?_, ?_, ?_, ?_, ?_⟩
  · rw [hcall, tally_const, Fintype.card_fin]
    exact (Nat.mul_one n).symm
  · rw [hnone _ rfl]
    show 0 + 0 = if n = 0 then 1 else 0
    rw [if_neg F.nonempty.ne']
  · intro i
    rfl
  · intro howned i hi
    have hlt : i.val < (Setter.from S 0).registered := hi
    rw [Setter.registered_from (Nat.zero_le n) howned] at hlt
    exact absurd hlt (Nat.not_lt_zero _)
  · intro i inline b heq
    contradiction
  · intro i
    have hfreed : (Combinator.init F fields kept).freed = 0 := by
      show n * 0 + tally Stage.freed (Combinator.init F fields kept).call = 0
      rw [hnone _ rfl, Nat.mul_zero]
    rw [hfreed]
    show 0 = if S.Owned then _ else 0
    simp

end Yaclib.When.Combinator
