import Yaclib.Async.When.Combinator.Heap

/-!
The steps of a combinator keep its invariant.
-/

namespace Yaclib.When.Combinator

open Concurrency

variable {n : Nat} {κ τ R : Type} {F : Futures n κ τ R}
variable {S : StrategyClass n R} {s t u : State κ S} {c : κ} {i j : Fin n} {inline : Bool}
variable {b : Body κ S.Place R}

/-- The other callbacks are about to give back what they were. -/
theorem State.Retiring.put (h : s.Retiring j) {stage : Stage κ S.Place R}
    (hcall : u.call = s.call) (hi : s.call i = .running inline b)
    (hretire : ∀ index r, b = .retireDecRef index r → j ≠ i)
    (hdestroy : ∀ c output, b ≠ .destroyDecRef j c output) : (u.put i stage).Retiring j := by
  have hput : (u.put i stage).call = Function.update s.call i stage := by
    rw [← hcall]
    rfl
  unfold State.Retiring
  rw [hput]
  rcases h with ⟨inline', index, r, hj⟩ | ⟨k, inline', c, output, hk⟩
  · left
    have hne : j ≠ i := by
      rintro rfl
      rw [hi, Stage.running.injEq] at hj
      exact hretire index r hj.2 rfl
    exact ⟨inline', index, r, by rw [Function.update_of_ne hne, hj]⟩
  · right
    have hne : k ≠ i := by
      rintro rfl
      rw [hi, Stage.running.injEq] at hk
      exact hdestroy c output hk.2
    exact ⟨k, inline', c, output, by rw [Function.update_of_ne hne, hk]⟩

theorem State.Retiring.put_of_not_started (h : s.Retiring j) {stage : Stage κ S.Place R}
    (hcall : u.call = s.call) (hi : (s.phase i).started = false) : (u.put i stage).Retiring j := by
  have hput : (u.put i stage).call = Function.update s.call i stage := by
    rw [← hcall]
    rfl
  have hne : ∀ k inline b, s.call k = .running inline b → k ≠ i := by
    rintro k inline b hk rfl
    rw [State.phase, hk] at hi
    contradiction
  unfold State.Retiring
  rw [hput]
  rcases h with ⟨inline, index, r, hj⟩ | ⟨k, inline, c, output, hk⟩
  · exact .inl ⟨inline, index, r, by rw [Function.update_of_ne (hne _ _ _ hj), hj]⟩
  · exact .inr ⟨k, inline, c, output, by rw [Function.update_of_ne (hne _ _ _ hk), hk]⟩

variable [DecidableEq κ]

/-- `Retire` uses a core that its input refers to. -/
theorem State.retire_dangling (hdangling : s.dangling = false) (hrefs : 0 < s.refs c)
    (hcallback : s.callback c = .kResult) : (s.retire F c).dangling = false := by
  unfold State.retire
  by_cases hcopy : F.shared c = true ∧ s.refs c ≠ 1
  · rw [if_pos hcopy]
    simp [State.read, hdangling, hrefs.ne', hcallback]
  · rw [if_neg hcopy]
    simp [State.putContent, State.read, hdangling, hrefs.ne', hcallback]

theorem State.release_dangling (hdangling : s.dangling = false) (hrefs : 0 < s.refs c) :
    (s.release i c).dangling = false := by
  simp [State.release, State.decRef, State.touchCore, hdangling, hrefs.ne']

variable [DecidableEq τ]

/-- Where a callback is after a step; `none` is the return. -/
def Stage.after (inline : Bool) : Option (Body κ S.Place R) → Stage κ S.Place R
  | none => .done
  | some b => .running inline b

/-! ### What a running callback can rely on -/

/-- Where a callback runs, the core of its input has the result. -/
theorem Inv.completed (h : Inv F s) (hi : s.call i = .running inline b) :
    s.callback (F.core i) = .kResult := by
  apply h.flow.completed i
  rw [State.phase, hi]
  rfl

/-- Where the destructor runs, all inputs are set, registered and completed. -/
theorem Inv.of_destroying (h : Inv F s) (hi : s.call i = .running inline b)
    (hb : (Stage.running inline b : Stage κ S.Place R).destroying = 1) (howned : S.Owned)
    (j : Fin n) : s.cores j = some (F.core j) ∧ s.callback (F.core j) = .kResult := by
  have hothers := (h.work.destroying (by rw [hi, hb])).2.2
  have hstarted : (s.phase j).started = true := by
    rw [State.phase]
    by_cases hj : j = i
    · rw [hj, hi]
      rfl
    · rw [hothers j hj]
      rfl
  have hset : j.val < s.setter.passed := by
    by_contra hle
    have hunset := (h.flow.unset j).mpr (by omega)
    rw [hunset] at hstarted
    contradiction
  have hregistered : s.setter.passed ≤ s.setter.registered := by
    cases s.setter <;> simp [Setter.passed, Setter.registered]
  exact ⟨h.work.registered howned j (by omega), h.flow.completed j hstarted⟩

/-- The destructor reads the results before anybody moves them. -/
theorem Inv.not_retiring (h : Inv F s) {retires : Bool} {k : Nat} {output : List R}
    (hi : s.call i = .running inline (.destroy retires k output)) : ¬s.Retiring j := by
  have hothers := (h.work.destroying (i := i) (by rw [hi]; rfl)).2.2
  have hnot : ∀ k, s.call k = .done ∨ k = i := by
    intro k
    by_cases hk : k = i
    · exact .inr hk
    · exact .inl (hothers k hk)
  rintro (⟨_, _, _, hretiring⟩ | ⟨k, _, _, _, hretiring⟩)
  · rcases hnot j with hdone | rfl
    · rw [hdone] at hretiring
      contradiction
    · rw [hi] at hretiring
      simp at hretiring
  · rcases hnot k with hdone | rfl
    · rw [hdone] at hretiring
      contradiction
    · rw [hi] at hretiring
      simp at hretiring

/-! ### One step of a callback -/

/-- What a step of a callback leaves to the threads. -/
structure SameThreads (s u : State κ S) : Prop where
  callback : u.callback = s.callback
  next : u.next = s.next
  foreigns : u.foreigns = s.foreigns
  producer : u.producer = s.producer
  setter : u.setter = s.setter
  held : u.held = s.held
  call : u.call = s.call

/-- A step of the callback of an input, up to the place of its thread. -/
structure Advanced (F : Futures n κ τ R) (s u : State κ S) (i : Fin n)
    (stage : Stage κ S.Place R) : Prop where
  threads : SameThreads s u
  work : Work F (u.put i stage)
  heap : Heap F (u.put i stage)
  dangling : u.dangling = false

theorem Inv.retire (h : Inv F s) {index : Option Nat}
    (hi : s.call i = .running inline (.retire index)) :
    Advanced F s (s.retire F (F.core i)) i
      (.running inline (.retireDecRef index (s.content (F.core i)))) := by
  have hcounted : (s.call i).counted = 1 := by
    rw [hi]
    rfl
  have hreleased : s.released i = 0 := by
    rw [h.work.released_of_alive hcounted i, hi]
    exact ite_self _
  have hretiring : ¬s.Retiring i := by
    rintro (⟨_, _, _, hnot⟩ | ⟨k, _, _, _, hnot⟩)
    · rw [hi] at hnot
      simp at hnot
    · have hzero := (h.work.alive hcounted).2.2 k
      rw [hnot] at hzero
      contradiction
  have hcontent := h.heap.content_eq hreleased hretiring
  obtain ⟨x, content, heq⟩ := State.retire_eq (F := F) (s := s) (c := F.core i)
  refine ⟨?_, h.work.retire hi hcontent, ?_, ?_⟩
  · rw [heq]
    exact ⟨rfl, rfl, rfl, rfl, rfl, rfl, rfl⟩
  · apply h.heap.retire hreleased
    · rw [heq]
      rfl
    · rw [heq]
      rfl
    · rw [heq]
      rfl
    · rfl
    · rw [heq]
      rfl
    · intro j hj
      apply hj.put (by rw [heq]) hi
      · intro index' r hb
        contradiction
      · intro c output hb
        contradiction
    · left
      exact ⟨inline, index, s.content (F.core i), Function.update_self _ _ _⟩
  · exact State.retire_dangling h.dangling (h.heap.refs_pos hreleased) (h.completed hi)

/-- The input `j` gives back its reference, in the callback of `i`. -/
theorem Inv.release (h : Inv F s) (hi : s.call i = .running inline b) (hreleased : s.released j = 0)
    {stage : Stage κ S.Place R} (hwork : Work F ((s.release j (F.core j)).put i stage))
    (hretire : ∀ index r, b = .retireDecRef index r → j = i)
    (hdestroy : ∀ k c output, b = .destroyDecRef k c output → k = j) :
    Advanced F s (s.release j (F.core j)) i stage := by
  refine ⟨⟨rfl, rfl, rfl, rfl, rfl, rfl, rfl⟩, hwork, ?_, ?_⟩
  · apply h.heap.release hreleased
    · rfl
    · show Function.update s.released j (s.released j + 1) = _
      rw [hreleased]
    · rfl
    · rfl
    · rfl
    · intro k hk hretiring
      apply hretiring.put rfl hi
      · intro index r hb
        rw [← hretire index r hb]
        exact hk
      · intro c output hb
        exact hk (Fin.ext (hdestroy k c output hb))
  · exact State.release_dangling h.dangling (h.heap.refs_pos hreleased)

theorem Inv.consume (h : Inv F s) {index : Option Nat} {r : Option R} {p : S.Place}
    (hi : s.call i = .running inline (.inside index r p)) {q : Option S.Place} :
    Advanced F s (consumeStep F s i index r p).1 i
      (.running inline (q.elim .decRef (.inside index r))) := by
  have hcounted : (s.call i).counted = 1 := by
    rw [hi]
    rfl
  obtain ⟨x, heq⟩ := consumeStep_eq (F := F) (s := s) (i := i) index r p
  refine ⟨?_, h.work.consume hi, ?_, ?_⟩
  · rw [heq]
    exact ⟨rfl, rfl, rfl, rfl, rfl, rfl, rfl⟩
  · apply h.heap.still
    · rw [heq]
      rfl
    · rw [heq]
      rfl
    · rw [heq]
      rfl
    · rw [heq]
      rfl
    · rw [heq]
      rfl
    · intro j hj
      apply hj.put (by rw [heq]) hi
      · intro index' r' hb
        contradiction
      · intro c output hb
        contradiction
  · have hpos := (h.work.alive hcounted).1
    cases r with
    | some r =>
      show (s.dangling || decide (s.count = 0)) = false
      simp [h.dangling, hpos.ne']
    | none =>
      -- only an `Owned` strategy reads the core
      have howned : S.Owned := by
        by_contra hmanaged
        have hbody := (h.work.body i inline _ hi).2.2
        rw [if_neg hmanaged] at hbody
        contradiction
      have hreleased : s.released i = 0 := by
        rw [h.work.released_of_alive hcounted i, if_pos howned]
      show ((s.dangling || decide (s.refs (F.core i) = 0 ∨ s.callback (F.core i) ≠ .kResult)) ||
        decide (s.count = 0)) = false
      simp [h.dangling, hpos.ne', (h.heap.refs_pos hreleased).ne', h.completed hi]

theorem Inv.decRefStep (h : Inv F s) (hi : s.call i = .running inline .decRef) :
    Advanced F s (decRefStep s).1 i (.after inline (decRefStep s).2) := by
  have hpos := (h.work.alive (i := i) (by rw [hi]; rfl)).1
  refine ⟨⟨rfl, rfl, rfl, rfl, rfl, rfl, rfl⟩, ?_, ?_, ?_⟩
  · unfold Combinator.decRefStep
    by_cases hlast : s.count = 1
    · rw [if_pos hlast]
      exact h.work.beginDestroy hi hlast
    · rw [if_neg hlast]
      exact h.work.decRef hi hlast
  · apply h.heap.still
    · rfl
    · rfl
    · rfl
    · rfl
    · rfl
    · intro j hj
      apply hj.put rfl hi
      · intro index r hb
        contradiction
      · intro c output hb
        contradiction
  · show (s.dangling || decide (s.count = 0)) = false
    simp [h.dangling, hpos.ne']

theorem Inv.destroyStep (h : Inv F s) {retires : Bool} {k : Nat} {output : List R}
    (hi : s.call i = .running inline (.destroy retires k output)) :
    Advanced F s (destroyStep F s retires k output).1 i
      (.after inline (destroyStep F s retires k output).2) := by
  have hdestroying : (s.call i).destroying = 1 := by
    rw [hi]
    rfl
  have hbody := h.work.body i inline _ hi
  unfold Combinator.destroyStep
  by_cases hk : k < n
  · rw [dif_pos hk]
    have howned : S.Owned := by
      by_contra hmanaged
      have hend := hbody.2
      rw [if_neg hmanaged] at hend
      omega
    obtain ⟨hcores, hcallback⟩ := h.of_destroying hi rfl howned ⟨k, hk⟩
    have hreleased : s.released ⟨k, hk⟩ = 0 := by
      rw [h.work.released_eq, if_pos howned, h.work.freed_of_destroying hdestroying, hi]
      exact if_neg (Nat.lt_irrefl k)
    rw [hcores]
    cases retires with
    | true =>
      have hcontent := h.heap.content_eq hreleased (h.not_retiring hi)
      obtain ⟨x, content, heq⟩ := State.retire_eq (F := F) (s := s) (c := F.core ⟨k, hk⟩)
      refine ⟨?_, ?_, ?_, ?_⟩
      · dsimp only
        rw [heq]
        exact ⟨rfl, rfl, rfl, rfl, rfl, rfl, rfl⟩
      · exact h.work.destroyRetire hi howned hcontent
      · apply h.heap.retire hreleased
        · dsimp only
          rw [heq]
          rfl
        · dsimp only
          rw [heq]
          rfl
        · dsimp only
          rw [heq]
          rfl
        · rfl
        · dsimp only
          rw [heq]
          rfl
        · intro j hj
          exact absurd hj (h.not_retiring hi)
        · right
          exact ⟨i, inline, F.core ⟨k, hk⟩, output ++ [s.content (F.core ⟨k, hk⟩)],
            Function.update_self _ _ _⟩
      · exact State.retire_dangling h.dangling (h.heap.refs_pos hreleased) hcallback
    | false =>
      apply h.release hi hreleased
      · apply h.work.destroyRelease (j := ⟨k, hk⟩) hi howned rfl rfl
        have hend := hbody.2
        rw [if_pos howned] at hend
        refine ⟨hbody.1, ?_⟩
        rw [if_pos howned]
        exact ⟨hk, hend.2⟩
      · intro index r hb
        contradiction
      · intro j c output' hb
        contradiction
  · rw [dif_neg hk]
    have hend : k = n := by
      by_cases howned : S.Owned
      · have hle := hbody.2
        rw [if_pos howned] at hle
        omega
      · have hle := hbody.2
        rw [if_neg howned] at hle
        exact hle.1
    refine ⟨⟨rfl, rfl, rfl, rfl, rfl, rfl, rfl⟩, h.work.destroyed hi hend, ?_, h.dangling⟩
    apply h.heap.still
    · rfl
    · rfl
    · rfl
    · rfl
    · rfl
    · intro j hj
      exact absurd hj (h.not_retiring hi)

/-- One step of the callback of an input. -/
theorem Inv.bodyStep (h : Inv F s) (hi : s.call i = .running inline b) :
    Advanced F s (bodyStep F s i b).1 i (.after inline (bodyStep F s i b).2) := by
  have hbody := h.work.body i inline b hi
  cases b with
  | retire index => exact h.retire hi
  | retireDecRef index r =>
    apply h.release hi
    · rw [h.work.released_of_alive (by rw [hi]; rfl) i, if_neg hbody.2.1, hi]
      rfl
    · exact h.work.retireDecRef hi
    · intro index' r' _
      rfl
    · intro k c output hb
      contradiction
  | decRefCore =>
    apply h.release hi
    · rw [h.work.released_of_alive (by rw [hi]; rfl) i, if_neg hbody.2, hi]
      rfl
    · exact h.work.decRefCore hi
    · intro index r hb
      contradiction
    · intro k c output hb
      contradiction
  | inside index r p => exact h.consume hi
  | decRef => exact h.decRefStep hi
  | destroy retires k output => exact h.destroyStep hi
  | destroyDecRef k c output =>
    obtain ⟨howned, hretires, ⟨hk, rfl⟩, houtput⟩ := hbody
    have hreleased : s.released ⟨k, hk⟩ = 0 := by
      rw [h.work.released_eq, if_pos howned, h.work.freed_of_destroying (i := i) (by rw [hi]; rfl), hi]
      exact if_neg (Nat.lt_irrefl k)
    have hwork : Work F ((s.release ⟨k, hk⟩ (F.core ⟨k, hk⟩)).put i
        (.running inline (.destroy true (k + 1) output))) := by
      apply h.work.destroyRelease (j := ⟨k, hk⟩) hi howned rfl rfl
      refine ⟨hretires.symm, ?_⟩
      rw [if_pos howned]
      exact ⟨hk, by rw [houtput, if_pos rfl]⟩
    have hadvanced := h.release hi hreleased hwork
      (fun index r hb => by contradiction)
      (fun j c' output' hb => by
        rw [Body.destroyDecRef.injEq] at hb
        exact hb.1.symm)
    have hstep : Combinator.bodyStep F s i (.destroyDecRef k (F.core ⟨k, hk⟩) output) =
        (s.release ⟨k, hk⟩ (F.core ⟨k, hk⟩), some (.destroy true (k + 1) output)) := dif_pos hk
    rw [hstep]
    exact hadvanced

/-! ### One step of a thread -/

/-- The thread that runs the callback of an input goes on. -/
theorem Inv.advance (h : Inv F s) {leave : State κ S → State κ S}
    (hadvance : advance F s i leave = some t)
    (hleave : ∀ u, Advanced F s u i .done → Inv F (leave (u.put i .done))) : Inv F t := by
  unfold Combinator.advance at hadvance
  cases hi : s.call i with
  | running inline b =>
    have hbody := h.bodyStep hi
    rw [hi] at hadvance
    cases hstep : Combinator.bodyStep F s i b with
    | mk u ob =>
      simp only [hstep] at hadvance hbody
      cases ob with
      | none =>
        simp only [Option.some.injEq] at hadvance
        subst hadvance
        exact hleave u hbody
      | some b' =>
        simp only [Option.some.injEq] at hadvance
        subst hadvance
        refine ⟨h.flow.congr ?_, hbody.work, hbody.heap, hbody.dangling⟩
        have hsame := hbody.threads
        refine ⟨hsame.callback, hsame.next, hsame.foreigns, hsame.producer, hsame.setter,
          hsame.held, ?_⟩
        funext j
        have hput : (u.put i (.running inline b')).call =
            Function.update s.call i (.running inline b') := by
          rw [← hsame.call]
          rfl
        rw [State.phase, State.phase, hput]
        by_cases hj : j = i
        · subst hj
          rw [Function.update_self, hi]
          rfl
        · rw [Function.update_of_ne hj]
  | unset | attached | done =>
    rw [hi] at hadvance
    contradiction

/-- What the return of a callback keeps for its thread. -/
theorem Advanced.flow (h : Advanced F s u i .done) (hflow : Flow F s) : Flow F u := by
  have hsame := h.threads
  refine hflow.congr ⟨hsame.callback, hsame.next, hsame.foreigns, hsame.producer, hsame.setter,
    hsame.held, ?_⟩
  funext j
  rw [State.phase, State.phase, hsame.call]

theorem Inv.setInside (h : Inv F s) (hinside : s.setter = .inside i)
    (hstep : Combinator.advance F s i (fun t => t.goto (.from S (i + 1))) = some t) : Inv F t := by
  apply h.advance hstep
  intro u hu
  refine ⟨?_, ?_, ?_, hu.dangling⟩
  · apply (hu.flow h.flow).leaveSet
    rw [hu.threads.setter, hinside]
  · apply hu.work.goto
    intro howned
    rw [Setter.registered_from i.isLt howned]
    show i.val + 1 ≤ u.setter.registered
    rw [hu.threads.setter, hinside]
    exact Nat.le_refl _
  · exact hu.heap.still rfl rfl rfl rfl rfl fun _ hj => hj

/-- An input that is not consumed yet has its references. -/
theorem Inv.of_not_started (h : Inv F s) (hi : (s.phase i).started = false) :
    0 < s.count ∧ s.released i = 0 := by
  obtain ⟨hcounted, -, -, hreleased⟩ := Stage.of_not_started hi
  refine ⟨(h.work.alive hcounted).1, ?_⟩
  rw [h.work.released_of_alive hcounted i, hreleased]
  exact ite_self _

theorem Inv.setRegister (h : Inv F s) (hset : s.setter = .register i) :
    Inv F { s.touch.goto (.setCallback i) with
      cores := Function.update s.cores i (some (F.core i)) } := by
  have hunset : (s.phase i).started = false := by
    rw [(h.flow.unset i).mpr (by rw [hset]; exact Nat.le_refl _)]
    rfl
  refine ⟨h.flow.register hset, h.work.register hset, ?_, ?_⟩
  · exact h.heap.still rfl rfl rfl rfl rfl fun _ hj => hj
  · show (s.dangling || decide (s.count = 0)) = false
    simp [h.dangling, (h.of_not_started hunset).1.ne']

/-- `SetCallback` of the thread in `Set`. -/
theorem Inv.setCallback (h : Inv F s) (hset : s.setter = .setCallback i) :
    Inv F (setCallback F s i) := by
  have hphase : s.phase i = .unset := (h.flow.unset i).mpr (by rw [hset]; exact Nat.le_refl _)
  have hunset : (s.phase i).started = false := by
    rw [hphase]
    rfl
  obtain ⟨hcount, hreleased⟩ := h.of_not_started hunset
  obtain ⟨u, hu⟩ : ∃ u, u = s.touch.touchCore (F.core i) := ⟨_, rfl⟩
  -- neither the combinator nor the core is gone
  have hinv : Inv F u := by
    rw [hu]
    refine ⟨h.flow.congr ⟨rfl, rfl, rfl, rfl, rfl, rfl, rfl⟩,
      h.work.congr ⟨rfl, rfl, rfl, rfl⟩ rfl rfl rfl rfl,
      h.heap.still rfl rfl rfl rfl rfl fun _ hj => hj, ?_⟩
    show ((s.dangling || decide (s.count = 0)) || decide (s.refs (F.core i) = 0)) = false
    simp [h.dangling, hcount.ne', (h.heap.refs_pos hreleased).ne']
  have hphaseu : u.phase i = .unset := by
    rw [hu]
    exact hphase
  have hsetu : u.setter = .setCallback i := by
    rw [hu]
    exact hset
  have hregistered : ∀ howned : S.Owned,
      (Setter.from S (i.val + 1)).registered ≤ u.setter.registered := by
    intro howned
    rw [Setter.registered_from i.isLt howned, hsetu]
    exact Nat.le_refl _
  have hattach : ∀ q, u.callback (F.core i) = .ptr q → (F.shared (F.core i) = false → q = none) →
      Inv F ((attach F u i q).goto (.from S (i + 1))) := by
    intro q hcallback hq
    refine ⟨hinv.flow.attach hsetu hcallback hq, ?_, ?_, hinv.dangling⟩
    · exact (hinv.work.attach hphaseu).goto hregistered
    · refine hinv.heap.still rfl rfl rfl rfl rfl ?_
      intro j hj
      exact hj.put_of_not_started (i := i) rfl (by rw [hphaseu]; rfl)
  have hbegin : u.callback (F.core i) = .kResult →
      Inv F ((beginConsume u i true (F.setIndex S.kConsumePolicy i)).goto (.inside i)) := by
    intro hcallback
    refine ⟨hinv.flow.enterSet hsetu hcallback, ?_, ?_, hinv.dangling⟩
    · apply Work.goto
      · exact hinv.work.begin (by rw [hphaseu]; rfl) (S.argument_setIndex F i)
      · intro _
        show i.val + 1 ≤ u.setter.registered
        rw [hsetu]
        exact Nat.le_refl _
    · refine hinv.heap.still rfl rfl rfl rfl rfl ?_
      intro j hj
      exact hj.put_of_not_started (i := i) rfl (by rw [hphaseu]; rfl)
  unfold Combinator.setCallback
  dsimp only
  rw [← hu]
  cases hcallback : u.callback (F.core i) with
  | kResult =>
    cases F.shared (F.core i) with
    | true => exact hbegin hcallback
    | false => exact hbegin hcallback
  | ptr q =>
    cases hshared : F.shared (F.core i) with
    | true => exact hattach q hcallback fun hfalse => by rw [hshared] at hfalse; contradiction
    | false =>
      cases q with
      | none => exact hattach none hcallback fun _ => rfl
      | some m =>
        -- the callback of a unique core is that of its only input
        have hcore := hinv.flow.core (F.core i)
        have hchain := hcore.before (hcore.before_of_ptr hcallback)
        rw [hcallback, Callback.toPtr_ptr] at hchain
        obtain ⟨ys, hys, -⟩ := hchain.of_some
        have hm : m ∈ u.held (F.core i) := by
          rw [hys]
          exact List.mem_cons_self
        obtain ⟨j, hj, hnode⟩ := hcore.ours m hm ((hcore.unique hshared).1 m hm)
        have hji : j = i := by
          apply F.distinct j i hj
          rw [hj]
          exact hshared
        rw [← hnode, hji] at hm
        have hattached := (hinv.flow.attached i).mpr hm
        rw [hphaseu] at hattached
        contradiction

theorem Inv.setStep (h : Inv F s) (hstep : setStep F s = some t) : Inv F t := by
  unfold Combinator.setStep at hstep
  cases hset : s.setter with
  | register i =>
    simp only [hset, Option.some.injEq] at hstep
    subst hstep
    exact h.setRegister hset
  | setCallback i =>
    simp only [hset, Option.some.injEq] at hstep
    subst hstep
    exact h.setCallback hset
  | inside i =>
    simp only [hset] at hstep
    exact h.setInside hset hstep
  | done =>
    simp only [hset] at hstep
    contradiction

/-! ### The producers -/

theorem Inv.setResult (h : Inv F s) (hbefore : s.producer c = .before) :
    Inv F (setResult F s c) := by
  refine ⟨h.flow.setResult hbefore, h.work.congr ⟨rfl, rfl, rfl, rfl⟩ rfl rfl rfl rfl, ?_, ?_⟩
  · refine h.heap.keep rfl rfl rfl rfl ?_ ?_ fun _ hj => hj
    · intro d hshared
      show (Function.update s.producer c _ d).share = _
      by_cases hd : d = c
      · subst hd
        have hresult : s.callback d ≠ .kResult :=
          fun heq => (h.flow.core d).result.mp heq hbefore
        rw [Function.update_self, hbefore, hshared]
        cases hcallback : s.callback d with
        | kResult => contradiction
        | ptr q => cases q <;> rfl
      · rw [Function.update_of_ne hd]
    · intro d _ hleaving
      show (Function.update s.producer c _ d).Leaving
      by_cases hd : d = c
      · subst hd
        rw [hbefore] at hleaving
        exact absurd hleaving id
      · rw [Function.update_of_ne hd]
        exact hleaving
  · -- a core without a result has its references
    have hrefs : 0 < s.refs c := by
      by_cases hshared : F.shared c = true
      · apply h.heap.refs_pos_of_share hshared
        rw [hbefore]
        exact Nat.zero_lt_succ _
      · obtain ⟨i, rfl⟩ := F.covers c
        apply h.heap.refs_pos
        apply (h.of_not_started _).2
        by_contra hstarted
        have hresult := h.flow.completed i (by simpa using hstarted)
        exact (h.flow.core _).result.mp hresult hbefore
    show (s.dangling || decide (s.refs c = 0)) = false
    simp [h.dangling, hrefs.ne']

/-- A producer moves, without a reference. -/
theorem Inv.move (h : Inv F s) {p : Producer n} (hflow : Flow F (s.move c p))
    (hshare : F.shared c = true → p.share = (s.producer c).share)
    (hleaving : (s.producer c).Leaving → p.Leaving) : Inv F (s.move c p) := by
  refine ⟨hflow, h.work.congr ⟨rfl, rfl, rfl, rfl⟩ rfl rfl rfl rfl, ?_, h.dangling⟩
  refine h.heap.keep rfl rfl rfl rfl ?_ ?_ fun _ hj => hj
  · intro d hshared
    show (Function.update s.producer c p d).share = _
    by_cases hd : d = c
    · subst hd
      rw [Function.update_self, hshare hshared]
    · rw [Function.update_of_ne hd]
  · intro d _ hold
    show (Function.update s.producer c p d).Leaving
    by_cases hd : d = c
    · subst hd
      rw [Function.update_self]
      exact hleaving hold
    · rw [Function.update_of_ne hd]
      exact hold

theorem Inv.visit (h : Inv F s) {head : Node} (hvisit : s.producer c = .visit head) :
    Inv F ((if head.ours then s.touch else s).move c (match s.next head with
      | none => .lastDecRef head
      | some m => .call head (some m))) := by
  have htouch : Inv F (if head.ours then s.touch else s) := by
    by_cases hours : head.ours = true
    · rw [if_pos hours]
      -- a callback that is not called yet has a reference to the combinator
      have hcore := h.flow.core c
      obtain ⟨xs, hxs, hchain⟩ := hcore.linked
      rw [hvisit] at hxs hchain
      obtain ⟨ys, rfl, -⟩ := hchain.of_some
      have hmem : head ∈ s.held c := by
        rw [hxs]
        exact List.mem_cons_self
      obtain ⟨i, rfl, rfl⟩ := hcore.ours head hmem hours
      have hattached := (h.flow.attached i).mpr hmem
      have hcount := (h.of_not_started (i := i) (by rw [hattached]; rfl)).1
      refine ⟨h.flow.congr ⟨rfl, rfl, rfl, rfl, rfl, rfl, rfl⟩,
        h.work.congr ⟨rfl, rfl, rfl, rfl⟩ rfl rfl rfl rfl,
        h.heap.still rfl rfl rfl rfl rfl fun _ hj => hj, ?_⟩
      show (s.dangling || decide (s.count = 0)) = false
      simp [h.dangling, hcount.ne']
    · rw [if_neg hours]
      exact h
  have hproducer : (if head.ours then s.touch else s).producer c = .visit head := by
    rw [← hvisit]
    split <;> rfl
  have hnext : (if head.ours then s.touch else s).next = s.next := by
    split <;> rfl
  rw [← hnext]
  apply htouch.move (htouch.flow.visit hproducer)
  · intro _
    rw [hproducer]
    cases (if head.ours then s.touch else s).next head <;> rfl
  · rw [hproducer]
    exact fun hfalse => absurd hfalse id

/-- The producer of a shared core gives back one of its references. -/
theorem Inv.producerDecRef (h : Inv F s) {p : Producer n} (hshared : F.shared c = true)
    (hflow : Flow F (s.move c p)) (hshare : p.share + 1 = (s.producer c).share)
    (hleaving : (s.producer c).Leaving → p.Leaving) : Inv F ((s.decRef c).move c p) := by
  have hrefs := h.heap.refs_pos_of_share hshared (by omega)
  refine ⟨hflow.congr ⟨rfl, rfl, rfl, rfl, rfl, rfl, rfl⟩,
    h.work.congr ⟨rfl, rfl, rfl, rfl⟩ rfl rfl rfl rfl, ?_, ?_⟩
  · apply h.heap.change hshared
    · intro d hd
      exact Function.update_of_ne hd _ _
    · rfl
    · intro d _
      rfl
    · intro d _
      rfl
    · intro d hd
      exact Function.update_of_ne hd _ _
    · rfl
    · show Function.update s.refs c (s.refs c - 1) c + _ =
        s.refs c + ((Function.update s.producer c p c).share + s.kept c)
      rw [Function.update_self, Function.update_self]
      omega
    · intro hne
      have hold := (h.heap.fresh c hne).others hshared
      refine ⟨hold.1, ?_, .inl hne⟩
      show (Function.update s.producer c p c).Leaving
      rw [Function.update_self]
      exact hleaving hold.2
  · show (s.dangling || decide (s.refs c = 0)) = false
    simp [h.dangling, hrefs.ne']

/-- The places of the producer of a shared core only. -/
theorem Inv.shared_of (h : Inv F s) (hsingle : ¬(s.producer c).Single) : F.shared c = true := by
  by_contra hunique
  exact hsingle ((h.flow.core c).unique (by simpa using hunique)).2

/-- The producer takes the callback of another thread. -/
theorem Inv.callForeign (h : Inv F s) {head : Node} {next : Option Node} {use : Use}
    (hcall : s.producer c = .call head next) (hnone : F.inputOf S.kConsumePolicy c head = none) :
    Inv F ((Combinator.callForeign F
      ({ s with held := Function.update s.held c (s.held c).tail } : State κ S) c use).move c
        (.rest (F.shared c) next)) := by
  have hcore := h.flow.core c
  obtain ⟨xs, hxs, -, -, -⟩ := hcore.call hcall
  have hmem : head ∈ s.held c := by
    rw [hxs]
    exact List.mem_cons_self
  have hshared : F.shared c = true := by
    by_contra hunique
    have hours := (hcore.unique (by simpa using hunique)).1 head hmem
    obtain ⟨i, hi⟩ := hcore.ours head hmem hours
    rw [F.inputOf_eq_some.mpr hi] at hnone
    contradiction
  have hresult : s.callback c = .kResult := hcore.result.mpr (by rw [hcall]; simp)
  have hshare : 2 ≤ (s.producer c).share := by
    rw [hcall]
    cases next <;> simp [Producer.share]
  have hrefs := h.heap.refs_pos_of_share hshared (by omega)
  have hcontent : s.content c = F.result c := by
    apply h.heap.content_of_producer hshared
    rw [hcall]
    exact id
  have hrest : (Producer.rest (F.shared c) next : Producer n).share = (s.producer c).share := by
    rw [hcall, hshared]
    cases next <;> rfl
  have hflow := h.flow.callForeign hcall hnone
  obtain ⟨u, hu⟩ : ∃ u, u = Combinator.callForeign F
      ({ s with held := Function.update s.held c (s.held c).tail } : State κ S) c use := ⟨_, rfl⟩
  have hsame : SameThreads { s with held := Function.update s.held c (s.held c).tail } u ∧
      u.calls = s.calls ∧ u.cores = s.cores ∧ u.count = s.count ∧ u.destroyed = s.destroyed ∧
      u.fields = s.fields ∧ u.released = s.released ∧ u.dangling = false ∧
      (∀ d, d ≠ c → u.refs d = s.refs d ∧ u.kept d = s.kept d ∧ u.content d = s.content d) ∧
      u.refs c + s.kept c = s.refs c + u.kept c ∧
      (u.content c ≠ F.result c → s.refs c < 3 ∧ u.kept c = s.kept c) := by
    have hread : (s.dangling || decide (s.refs c = 0 ∨ s.callback c ≠ .kResult)) = false := by
      simp [h.dangling, hrefs.ne', hresult]
    rw [hu]
    unfold Combinator.callForeign
    cases use with
    | copy =>
      exact ⟨⟨rfl, rfl, rfl, rfl, rfl, rfl, rfl⟩, rfl, rfl, rfl, rfl, rfl, rfl, hread,
        fun d _ => ⟨rfl, rfl, rfl⟩, rfl, fun hne => absurd hcontent hne⟩
    | moveOrCopy =>
      dsimp only
      by_cases hfew : s.refs c < 3
      · rw [if_pos hfew]
        exact ⟨⟨rfl, rfl, rfl, rfl, rfl, rfl, rfl⟩, rfl, rfl, rfl, rfl, rfl, rfl, hread,
          fun d hd => ⟨rfl, rfl, Function.update_of_ne hd _ _⟩, rfl, fun _ => ⟨hfew, rfl⟩⟩
      · rw [if_neg hfew]
        exact ⟨⟨rfl, rfl, rfl, rfl, rfl, rfl, rfl⟩, rfl, rfl, rfl, rfl, rfl, rfl, hread,
          fun d _ => ⟨rfl, rfl, rfl⟩, rfl, fun hne => absurd hcontent hne⟩
    | incRef =>
      refine ⟨⟨rfl, rfl, rfl, rfl, rfl, rfl, rfl⟩, rfl, rfl, rfl, rfl, rfl, rfl, hread,
        fun d hd => ⟨Function.update_of_ne hd _ _, Function.update_of_ne hd _ _, rfl⟩, ?_,
        fun hne => absurd hcontent hne⟩
      show Function.update s.refs c (s.refs c + 1) c + s.kept c =
        s.refs c + Function.update s.kept c (s.kept c + 1) c
      rw [Function.update_self, Function.update_self]
      omega
  obtain ⟨hthreads, hcalls, hcores, hcount, hdestroyed, hfields, hreleased, hdangling, hother,
    hreferences, hmoved⟩ := hsame
  have hproducer : (u.move c (.rest (F.shared c) next)).producer =
      Function.update s.producer c (.rest (F.shared c) next) := by
    show Function.update u.producer c _ = _
    rw [hthreads.producer]
  rw [← hu]
  refine ⟨hflow.congr ?_, ?_, ?_, hdangling⟩
  · refine ⟨hthreads.callback, hthreads.next, hthreads.foreigns, hproducer, hthreads.setter,
      hthreads.held, ?_⟩
    funext j
    show (u.call j).phase = _
    rw [hthreads.call]
    rfl
  · exact h.work.congr ⟨hthreads.call, hcalls, hcores, hthreads.setter⟩ hcount hdestroyed hfields
      hreleased
  · apply h.heap.change hshared
    · exact fun d hd => (hother d hd).1
    · exact hreleased
    · exact fun d hd => (hother d hd).2.1
    · exact fun d hd => (hother d hd).2.2
    · intro d hd
      rw [hproducer, Function.update_of_ne hd]
    · exact hthreads.call
    · rw [hproducer, Function.update_self, hrest]
      show u.refs c + _ = _ + (_ + u.kept c)
      omega
    · -- a result is moved by the last callback, when nobody else has a reference
      intro hne
      obtain ⟨hfew, hkept⟩ := hmoved hne
      have hold := h.heap.refs_eq c
      rw [if_pos hshared] at hold
      have hlast : next = none := by
        cases next with
        | none => rfl
        | some m =>
          rw [hcall] at hold
          have hthree : (Producer.call head (some m) : Producer n).share = 3 := rfl
          omega
      refine ⟨?_, ?_, .inr (by omega)⟩
      · show u.kept c = 0
        omega
      · rw [hproducer, Function.update_self, hlast, hshared]
        trivial

/-- The producer takes the callback of an input. -/
theorem Inv.callInput (h : Inv F s) {head : Node} {next : Option Node}
    (hcall : s.producer c = .call head next) (hi : F.inputOf S.kConsumePolicy c head = some i) :
    Inv F ((beginConsume
      ({ s with held := Function.update s.held c (s.held c).tail } : State κ S).touch i false
        head.index).move c (.inside i next)) := by
  obtain ⟨hc, hnode⟩ := F.inputOf_eq_some.mp hi
  have hattached : s.phase i = .attached := by
    obtain ⟨xs, hxs, -, -, -⟩ := (h.flow.core c).call hcall
    rw [h.flow.attached i, hc, hnode, hxs]
    exact List.mem_cons_self
  have hunset : (s.phase i).started = false := by
    rw [hattached]
    rfl
  have hindex : S.argument head.index = S.argument i := by
    rw [← hnode]
    exact S.argument_node F i
  obtain ⟨t, ht⟩ : ∃ t, t = beginConsume
      ({ s with held := Function.update s.held c (s.held c).tail } : State κ S).touch i false
        head.index := ⟨_, rfl⟩
  have hwork : Work F t := by
    rw [ht]
    have htouch : Work F
        ({ s with held := Function.update s.held c (s.held c).tail } : State κ S).touch :=
      h.work.congr ⟨rfl, rfl, rfl, rfl⟩ rfl rfl rfl rfl
    exact htouch.begin hunset hindex
  have hproducer : t.producer = s.producer := by
    rw [ht]
    rfl
  have hflow := h.flow.callInput head.index hcall hi
  rw [← ht] at hflow ⊢
  refine ⟨hflow, hwork.congr ⟨rfl, rfl, rfl, rfl⟩ rfl rfl rfl rfl, ?_, ?_⟩
  · have hheap : Heap F t := by
      rw [ht]
      refine h.heap.still rfl rfl rfl rfl rfl ?_
      intro j hj
      exact hj.put_of_not_started (i := i) rfl hunset
    refine hheap.keep rfl rfl rfl rfl ?_ ?_ fun _ hj => hj
    · intro d _
      show (Function.update t.producer c _ d).share = _
      by_cases hd : d = c
      · subst hd
        rw [Function.update_self, hproducer, hcall]
        rfl
      · rw [Function.update_of_ne hd]
    · intro d _ hleaving
      show (Function.update t.producer c _ d).Leaving
      by_cases hd : d = c
      · subst hd
        rw [hproducer, hcall] at hleaving
        exact absurd hleaving id
      · rw [Function.update_of_ne hd]
        exact hleaving
  · rw [ht]
    show (s.dangling || decide (s.count = 0)) = false
    simp [h.dangling, (h.of_not_started hunset).1.ne']

theorem Inv.producerInside (h : Inv F s) {next : Option Node}
    (hinside : s.producer c = .inside i next)
    (hstep : Combinator.advance F s i (fun t => t.move c (.rest (F.shared c) next)) = some t) :
    Inv F t := by
  apply h.advance hstep
  intro u hu
  have hproducer : u.producer c = .inside i next := by
    rw [hu.threads.producer, hinside]
  refine ⟨(hu.flow h.flow).leaveProducer hproducer,
    hu.work.congr ⟨rfl, rfl, rfl, rfl⟩ rfl rfl rfl rfl, ?_, hu.dangling⟩
  refine hu.heap.keep rfl rfl rfl rfl ?_ ?_ fun _ hj => hj
  · intro d hshared
    show (Function.update u.producer c _ d).share = (u.producer d).share
    by_cases hd : d = c
    · subst hd
      rw [Function.update_self, hproducer, hshared]
      cases next <;> rfl
    · rw [Function.update_of_ne hd]
  · intro d _ hleaving
    show (Function.update u.producer c _ d).Leaving
    by_cases hd : d = c
    · subst hd
      have hold : (u.producer d).Leaving := hleaving
      rw [hproducer] at hold
      exact absurd hold id
    · rw [Function.update_of_ne hd]
      exact hleaving

theorem Inv.producerStep (h : Inv F s) {use : Use} (hstep : producerStep F s c use = some t) :
    Inv F t := by
  unfold Combinator.producerStep at hstep
  cases hproducer : s.producer c with
  | before =>
    simp only [hproducer, Option.some.injEq] at hstep
    subst hstep
    exact h.setResult hproducer
  | visit head =>
    simp only [hproducer, Option.some.injEq] at hstep
    subst hstep
    exact h.visit hproducer
  | lastDecRef head =>
    simp only [hproducer, Option.some.injEq] at hstep
    subst hstep
    have hshared := h.shared_of (c := c) (by rw [hproducer]; exact id)
    apply h.producerDecRef hshared (h.flow.lastDecRef hproducer)
    · rw [hproducer]
      rfl
    · rw [hproducer]
      exact fun hfalse => absurd hfalse id
  | call head next =>
    simp only [hproducer, Option.some.injEq] at hstep
    subst hstep
    unfold callCallback
    cases hi : F.inputOf S.kConsumePolicy c head with
    | some i => exact h.callInput hproducer hi
    | none => exact h.callForeign hproducer hi
  | inside i next =>
    simp only [hproducer] at hstep
    exact h.producerInside hproducer hstep
  | decRef more =>
    have hshared := h.shared_of (c := c) (by rw [hproducer]; exact id)
    cases more with
    | zero =>
      simp only [hproducer, Option.some.injEq] at hstep
      subst hstep
      apply h.producerDecRef hshared (h.flow.decRef hproducer (.inl rfl))
      · rw [hproducer]
        rfl
      · exact fun _ => trivial
    | succ more =>
      simp only [hproducer, Option.some.injEq] at hstep
      subst hstep
      apply h.producerDecRef hshared (h.flow.decRef hproducer (.inr ⟨more, rfl⟩))
      · rw [hproducer]
        rfl
      · exact fun _ => trivial
  | finished =>
    simp only [hproducer] at hstep
    contradiction

/-! ### Other threads -/

theorem Inv.foreignAttach (h : Inv F s) (hstep : foreignAttach F s c = some t) : Inv F t := by
  have hflow := h.flow.foreignAttach hstep
  unfold Combinator.foreignAttach at hstep
  cases hshared : F.shared c with
  | false => simp [hshared] at hstep
  | true =>
    cases hcallback : s.callback c with
    | kResult => simp [hshared, hcallback] at hstep
    | ptr p =>
      simp only [hshared, hcallback, Option.some.injEq] at hstep
      subst hstep
      exact ⟨hflow, h.work.congr ⟨rfl, rfl, rfl, rfl⟩ rfl rfl rfl rfl,
        h.heap.still rfl rfl rfl rfl rfl fun _ hj => hj, h.dangling⟩

/-- Futures are kept of shared cores only. -/
theorem Inv.shared_of_kept (h : Inv F s) (hkept : s.kept c ≠ 0) : F.shared c = true := by
  by_contra hunique
  exact hkept (h.heap.kept_unique c (by simpa using hunique))

theorem Inv.foreignCopy (h : Inv F s) (hstep : foreignCopy s c = some t) : Inv F t := by
  unfold Combinator.foreignCopy at hstep
  by_cases hkept : s.kept c = 0
  · rw [if_pos hkept] at hstep
    contradiction
  · rw [if_neg hkept, Option.some.injEq] at hstep
    subst hstep
    refine ⟨h.flow.congr ⟨rfl, rfl, rfl, rfl, rfl, rfl, rfl⟩,
      h.work.congr ⟨rfl, rfl, rfl, rfl⟩ rfl rfl rfl rfl, ?_, h.dangling⟩
    apply h.heap.change (h.shared_of_kept hkept)
    · intro d hd
      exact Function.update_of_ne hd _ _
    · rfl
    · intro d hd
      exact Function.update_of_ne hd _ _
    · intro d _
      rfl
    · intro d _
      rfl
    · rfl
    · show Function.update s.refs c (s.refs c + 1) c + ((s.producer c).share + s.kept c) =
        s.refs c + ((s.producer c).share + Function.update s.kept c (s.kept c + 1) c)
      rw [Function.update_self, Function.update_self]
      omega
    · intro hne
      exact absurd (h.heap.content_of_kept (Nat.pos_of_ne_zero hkept)) hne

theorem Inv.foreignDrop (h : Inv F s) {retires : Bool}
    (hstep : foreignDrop F s c retires = some t) : Inv F t := by
  unfold Combinator.foreignDrop at hstep
  by_cases hnone : s.kept c = 0 ∨ retires = true ∧ s.callback c ≠ .kResult
  · rw [if_pos hnone] at hstep
    contradiction
  · rw [if_neg hnone, Option.some.injEq] at hstep
    obtain ⟨hkept, hresult⟩ := not_or.mp hnone
    have hshared := h.shared_of_kept hkept
    have hcontent := h.heap.content_of_kept (Nat.pos_of_ne_zero hkept)
    have hold := h.heap.refs_eq c
    rw [if_pos hshared] at hold
    have hu : ∃ x content, (if retires then s.retire F c else s) =
        { s with dangling := x, content := content } ∧ x = false ∧
        (∀ d, d ≠ c → content d = s.content d) ∧ (s.refs c ≠ 1 → content c = s.content c) := by
      cases retires with
      | false => exact ⟨_, _, rfl, h.dangling, fun _ _ => rfl, fun _ => rfl⟩
      | true =>
        have hcallback : s.callback c = .kResult := by
          by_contra hne
          exact hresult ⟨rfl, hne⟩
        have hdangling := State.retire_dangling (F := F) h.dangling (by omega) hcallback
        rw [if_pos rfl]
        unfold State.retire at hdangling ⊢
        by_cases hcopy : F.shared c = true ∧ s.refs c ≠ 1
        · rw [if_pos hcopy] at hdangling ⊢
          exact ⟨_, _, rfl, hdangling, fun _ _ => rfl, fun _ => rfl⟩
        · rw [if_neg hcopy] at hdangling ⊢
          exact ⟨_, _, rfl, hdangling, fun d hd => Function.update_of_ne hd _ _,
            fun hmore => absurd ⟨hshared, hmore⟩ hcopy⟩
    obtain ⟨x, content, heq, hx, hother, hsame⟩ := hu
    rw [heq] at hstep
    subst hstep
    refine ⟨h.flow.congr ⟨rfl, rfl, rfl, rfl, rfl, rfl, rfl⟩,
      h.work.congr ⟨rfl, rfl, rfl, rfl⟩ rfl rfl rfl rfl, ?_, hx⟩
    apply h.heap.change hshared
    · intro d hd
      exact Function.update_of_ne hd _ _
    · rfl
    · intro d hd
      exact Function.update_of_ne hd _ _
    · exact hother
    · intro d _
      rfl
    · rfl
    · show Function.update s.refs c (s.refs c - 1) c + ((s.producer c).share + s.kept c) =
        s.refs c + ((s.producer c).share + Function.update s.kept c (s.kept c - 1) c)
      rw [Function.update_self, Function.update_self]
      omega
    · -- the last reference of all
      intro hne
      have hone : s.refs c = 1 := by
        by_contra hmore
        exact hne ((hsame hmore).trans hcontent)
      refine ⟨?_, Producer.leaving_of_share ?_, .inr (by omega)⟩
      · show Function.update s.kept c (s.kept c - 1) c = 0
        rw [Function.update_self]
        omega
      · show (s.producer c).share ≤ 1
        omega

/-- Every step keeps the invariant, for any strategy. -/
theorem Inv.step (h : Inv F s) {e : Event κ} (hstep : step F s e = some t) : Inv F t := by
  cases e with
  | set => exact h.setStep hstep
  | producer c use => exact h.producerStep hstep
  | attach c => exact h.foreignAttach hstep
  | copy c => exact h.foreignCopy hstep
  | drop c retires => exact h.foreignDrop hstep

end Yaclib.When.Combinator
