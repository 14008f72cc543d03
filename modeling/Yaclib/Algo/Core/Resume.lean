import Yaclib.Algo.Core.Finish
import Yaclib.Algo.Core.Going

/-!
The cores that go on without being a step: a task is started, an executor calls the job of a
coroutine or of a promise, a coroutine is resumed with the executor of its caller.
-/

namespace Yaclib.Core

variable {ν ι ε α : Type} {cfg : Config ν ι ε α} {s t : State ν ι ε α} {n m p : ν}

namespace Inv

/-- A core that was not done keeps an executor: only what was attached to it could take it. -/
theorem executor_of_on (hi : Inv cfg s) (hon : (s.cores n).on ≠ none)
    (hdone : (s.cores n).phase ≠ .done) : (s.cores n).executor ≠ none := by
  rcases hi.executors.kept n hon with h | ⟨-, k, -, hprevious, hk⟩
  · exact h
  · obtain ⟨r, hr⟩ := hi.callers.previous k n hk hprevious
    exact absurd ((hi.cell n).mp hr.1) hdone

theorem made_of_phase (hi : Inv cfg s) (h : (s.cores n).phase ≠ .idle) :
    (s.cores n).made = true := by
  by_contra hmade
  rw [hi.unmade n (by simpa using hmade)] at h
  exact h rfl

end Inv

/-- The shape of a core that is no step is the one of its class. -/
theorem Shape.iff_other {c : CoreState ν ι ε α} (hn : ∀ sch step, cfg.prog n ≠ .core sch step) :
    Shape cfg n c ↔ OtherShape cfg (cfg.prog n) c := by
  unfold Shape
  cases hprog : cfg.prog n with
  | core sch step => exact absurd hprog (hn sch step)
  | _ => rfl

/-- The shape of a core that is no step depends on these fields only. -/
theorem OtherShape.going {node : Node ν ι ε α} {b c : CoreState ν ι ε α}
    (h : OtherShape cfg node b) (hon : c.on ≠ none) (hslot : c.slot = b.slot)
    (hdropped : c.dropped = b.dropped) (hinner : c.inner = b.inner) (hnot : b.phase ≠ .done)
    (hphase : c.phase = .submitted ∨ c.phase = .running)
    (hruns : node.isCoroutine = true → c.runs = 0 → b.runs = 0 ∧ c.phase = .submitted) :
    OtherShape cfg node c := by
  refine ⟨hon, ?_, h.stored.mono hslot hdropped fun hb => absurd hb hnot, ?_, hinner ▸ h.inner,
    ?_⟩
  · rcases hphase with hphase | hphase <;> simp [hphase]
  · intro hcoroutine
    have hc := h.coroutine hcoroutine
    refine ⟨?_, ?_, ?_, ?_, ?_, fun _ => hslot.trans (hc.slot hnot)⟩
    · intro hzero
      rw [hinner]
      exact hc.inner (hruns hcoroutine hzero).1
    · intro hzero
      rw [(hruns hcoroutine hzero).2]
      simp
    · rcases hphase with hphase | hphase <;> simp [hphase]
    · rcases hphase with hphase | hphase <;> simp [hphase]
    · rcases hphase with hphase | hphase <;> simp [hphase]
  · rcases hphase with hphase | hphase <;> simp [hphase]

/-! `Start`. -/

/-- The task `m` is given up: its chain is cut, and what is left is a future or nothing. -/
theorem Inv.release (hi : Inv cfg s) (hm : (s.cores m).handle = some .task)
    {x : Option Handle} (hx : x ≠ some .task)
    (hself : t.cores m = { s.cores m with next := [], handle := x })
    (hother : ∀ j, j ≠ m → t.cores j = s.cores j) : Inv cfg t := by
  have hfield : ∀ {β : Type} (f : CoreState ν ι ε α → β),
      (∀ (c : CoreState ν ι ε α) next handle, f { c with next, handle } = f c) →
      ∀ j, f (t.cores j) = f (s.cores j) := by
    intro β f hf j
    by_cases hj : j = m
    · rw [hj, hself, hf]
    · rw [hother j hj]
  have hmade := hfield (·.made) fun _ _ _ => rfl
  have hcallback := hfield (·.callback) fun _ _ _ => rfl
  have hphase := hfield (·.phase) fun _ _ _ => rfl
  have hinner := hfield (·.inner) fun _ _ _ => rfl
  have hhead := hfield (·.head) fun _ _ _ => rfl
  have hon := hfield (·.on) fun _ _ _ => rfl
  have hruns := hfield (·.runs) fun _ _ _ => rfl
  have htaken := hfield (·.taken) fun _ _ _ => rfl
  have hslot := hfield (·.slot) fun _ _ _ => rfl
  have hfinal : ∀ p r, Final s p r → Final t p r := by
    intro p r hp
    rw [Final, hcallback, hslot]
    exact hp
  have hsame : ∀ j, SameInside (s.cores j) (t.cores j) := by
    intro j
    by_cases hj : j = m
    · rw [hj, hself]
      exact ⟨rfl, rfl, rfl, rfl, rfl, rfl, rfl, rfl, rfl, rfl, rfl⟩
    · rw [hother j hj]
      exact ⟨rfl, rfl, rfl, rfl, rfl, rfl, rfl, rfl, rfl, rfl, rfl⟩
  obtain ⟨hmtaken, hmmade, hmshared, hmdetached⟩ := hi.owned.handle m (by simp [hm])
  refine ⟨?_, ?_, ?_, ?_, ?_, ?_, ?_, ?_, ?_⟩
  · intro j hj
    rw [hmade] at hj
    have hjm : j ≠ m := by
      rintro rfl
      rw [hmmade] at hj
      cases hj
    rw [hother j hjm, hi.unmade j hj]
  · intro j
    rw [hcallback, hphase]
    exact hi.cell j
  · intro j hj
    rw [hmade] at hj
    exact (hi.shape j hj).same (hsame j) (hphase j)
  · exact hi.links.congr hcallback fun j p => by rw [hphase]
  · have huses : ∀ {j p : ν}, Uses cfg t j p ↔ Uses cfg s j p := Uses.congr hmade hinner
    refine ⟨?_, ?_, ?_, ?_, ?_, ?_⟩
    · intro j p h
      rw [htaken]
      exact hi.owned.taken j p (huses.mp h)
    · intro j p h
      rw [hmade]
      exact hi.owned.attached j p (huses.mp h)
    · intro p hp
      rw [htaken, hmade]
      by_cases hpm : p = m
      · rw [hpm]
        exact ⟨hmtaken, hmmade, hmshared, hmdetached⟩
      · rw [hother p hpm] at hp
        exact hi.owned.handle p hp
    · intro j sch step p hj hjmade
      rw [hmade] at hjmade
      exact hi.owned.kind j sch step p hj hjmade
    · intro j p hj
      rw [hinner]
      exact hi.owned.awaits j p hj
    · intro p
      rw [htaken]
      exact hi.owned.free p
  · refine ⟨?_, ?_, ?_⟩
    · intro j
      by_cases hj : j = m
      · rw [hj, hself]
        exact .refl m
      · rw [hother j hj]
        exact hi.chains.root j
    · intro j hj
      by_cases hjm : j = m
      · rw [hjm, hself] at hj
        exact absurd hj hx
      · rw [hother j hjm] at hj ⊢
        rw [hmade, hphase, hfield (·.last) fun _ _ _ => rfl]
        exact hi.chains.task j hj
    · intro j h hh
      rw [hhead] at hh
      rw [hinner]
      exact hi.chains.head j h hh
  · refine ⟨?_, ?_, ?_⟩
    · intro j p
      rw [hphase, hinner]
      exact hi.callers.waiting j p
    · intro j p hj
      rw [hphase] at hj
      cases hi.callers.here j p hj with
      | unwrapped r hin hr => exact .unwrapped r ((hinner j).trans hin) (hfinal p r hr)
      | attached r hin hprevious hr =>
        exact .attached r ((hinner j).trans hin) hprevious (hfinal p r hr)
      | started q hin hprevious hpj hq hzero =>
        refine .started q ((hinner j).trans hin) hprevious ((hhead p).trans hpj)
          ((hphase p).trans hq) ?_
        rw [hruns]
        exact hzero
    · intro j p hj hprevious
      rw [hon] at hj
      obtain ⟨r, hr⟩ := hi.callers.previous j p hj hprevious
      exact ⟨r, hfinal p r hr⟩
  · exact hi.executors.congr hon (hfield (·.executor) fun _ _ _ => rfl) htaken hhead
      (fun j _ => hruns j) fun j q _ hj => (hphase j).trans hj
  · refine hi.values.other hfinal (n := m) ?_ ?_ ?_
    · intro j hj
      rw [hother j hj]
      exact ⟨⟨rfl, rfl, rfl, rfl⟩, id⟩
    · intro sch step q hstep hq
      rw [hinner] at hq
      rw [hself]
      exact ((hi.values.inner m sch step q hstep hq).mono hfinal).same ⟨rfl, rfl, rfl, rfl⟩
    · intro sch step hstep hdone
      rw [hphase] at hdone
      rw [hself]
      exact ((hi.values.done m sch step hstep hdone).mono hfinal).same ⟨rfl, rfl, rfl, rfl⟩

/-- A task that is not started is not done, and no other core is touched. -/
theorem Inv.release_frame (hi : Inv cfg s) (hm : (s.cores m).handle = some .task)
    (hother : ∀ j, j ≠ m → t.cores j = s.cores j) : Frame s t := by
  intro j hj
  refine .of_eq (hother j ?_)
  rintro rfl
  have hidle := (hi.chains.task j hm).2.1
  rw [hi.root_done (hi.chains.root j) hj] at hidle
  cases hidle

/-- The fields of the head of a task that is submitted to `e`. -/
def startOn (e : ι) (c : CoreState ν ι ε α) : CoreState ν ι ε α :=
  { c with executor := some e, on := some e, submits := c.submits ++ [e], phase := .submitted }

theorem Shape.startOn {e : ι} (h : Shape cfg n (s.cores n))
    (hidle : (s.cores n).phase = .idle) : Shape cfg n (startOn e (s.cores n)) := by
  by_cases hn : ∀ sch step, cfg.prog n ≠ .core sch step
  · rw [Shape.iff_other hn] at h ⊢
    exact h.going (by simp [Core.startOn]) rfl rfl rfl (by simp [hidle]) (.inl rfl)
      fun _ hzero => ⟨hzero, rfl⟩
  · push Not at hn
    obtain ⟨sch, step, hprog⟩ := hn
    unfold Shape at h ⊢
    simp only [hprog, StepShape, hidle] at h
    obtain ⟨hprevious, hu, -, -⟩ := h
    have hrun := step.run_iff.mpr hprevious
    have hcall := step.instantiable.call_of_run hrun
    simp only [hprog, StepShape, Core.startOn]
    refine ⟨⟨⟨by simp, fun h => absurd hprevious h, ?_, ?_⟩, ?_, rfl, hu.runs, hu.released,
      hu.destroyed, hu.inner, hu.head⟩,
      hu.dropped, hcall⟩
    · simp [hu.submits, hcall]
    · simp [hu.acquired, hprevious]
    · simp [hu.slot, hprevious]

/-- The head `n` of a task that was given up is submitted. -/
theorem Inv.startOn (hi : Inv cfg s) {e : ι} (hmade : (s.cores n).made = true)
    (hidle : (s.cores n).phase = .idle)
    (hhead : ∀ q, (s.cores q).handle = some .task → (s.cores q).headOf q ≠ n)
    (hself : t.cores n = Core.startOn e (s.cores n))
    (hother : ∀ j, j ≠ n → t.cores j = s.cores j) : Move cfg s t := by
  obtain ⟨hprevious, hinner, hzero⟩ := hi.idle_shape hmade hidle
  have hstep : ∀ sch step q, cfg.prog n = .core sch step → step.previous ≠ some q := by
    intro sch step q hprog hq
    rw [hprog, Node.previous, hq] at hprevious
    cases hprevious
  have hswapped : ∀ j, (s.cores j).head = some n → (cfg.prog n).isCoroutine = true →
      (s.cores n).runs ≠ 0 := by
    intro j hj hcoroutine
    rcases hi.executors.swapped j n hj hcoroutine with hphase | hruns
    · rw [hidle] at hphase
      cases hphase
    · exact hruns
  have hable : Able cfg s n := by
    refine ⟨hmade, hhead, ?_, fun _ => hinner⟩
    intro q hq
    rw [hprevious] at hq
    cases hq
  have hgoing : Going s n t := by
    refine ⟨?_, ?_, by simp [hidle], by simp [hidle], .inl (by rw [hself, Core.startOn])⟩
    · rw [hself]
      rfl
    · intro j hj
      rw [hother j hj]
  have hshape := (hi.shape n hmade).startOn (e := e) hidle
  refine hi.going_move hable hgoing ?_ (hself ▸ hshape)
  refine ⟨by simp [hself, Core.startOn], by simp [hself, Core.startOn], ?_, ?_, ?_, ?_, ?_⟩
  · intro _
    rw [hself, Core.startOn]
    exact .inl rfl
  · intro j hj
    exact .inl (by rw [hother j hj])
  · intro j hj hcoroutine
    rw [hself, Core.startOn]
    exact hswapped j hj hcoroutine
  · intro j hj hcoroutine hruns
    exact absurd hruns (hswapped j hj hcoroutine)
  · intro sch step q hprog hq
    exact absurd hq (hstep sch step q hprog)

/-! `Job::Call` of a coroutine, and of the owner of a promise. -/

/-- The fields of a job that is called. -/
def started (functor : Bool) (c : CoreState ν ι ε α) : CoreState ν ι ε α :=
  { c with
    phase := .running
    runs := c.runs + 1
    destroyed := if functor then c.destroyed + 1 else c.destroyed }

theorem Inv.started (hi : Inv cfg s) (functor : Bool)
    (hn : ∀ sch step, cfg.prog n ≠ .core sch step) (hphase : (s.cores n).phase = .submitted)
    (hself : t.cores n = Core.started functor (s.cores n))
    (hother : ∀ j, j ≠ n → t.cores j = s.cores j) : Move cfg s t := by
  have hmade := hi.made_of_phase (n := n) (by simp [hphase])
  have hshape := (Shape.iff_other hn).mp (hi.shape n hmade)
  have hable : Able cfg s n := by
    refine ⟨hmade, ?_, ?_, hshape.inner⟩
    · rintro q hq rfl
      obtain ⟨-, hidle, -⟩ := hi.chains.task q hq
      rw [hphase] at hidle
      cases hidle
    · intro q hq
      cases hprog : cfg.prog n with
      | core sch step => exact absurd hprog (hn sch step)
      | _ => simp [hprog, Node.previous] at hq
  have hgoing : Going s n t := by
    refine ⟨?_, ?_, by simp [hphase], by simp [hphase], .inr (by rw [hself, Core.started])⟩
    · rw [hself]
      rfl
    · intro j hj
      rw [hother j hj]
  refine hi.going_move hable hgoing ?_ ?_
  · refine ⟨?_, ?_, fun _ => .inr (by simp [hself, Core.started]), ?_, ?_, ?_, ?_⟩
    · rw [hself]
      exact hi.executor_of_on hshape.on (by simp [hphase])
    · rw [hself]
      exact hshape.on
    · intro j hj
      exact .inl (by rw [hother j hj])
    · intro j _ _
      simp [hself, Core.started]
    · intro j hj hcoroutine hruns
      rcases hi.executors.swapped j n hj hcoroutine with hhere | hne
      · rw [hphase] at hhere
        cases hhere
      · exact absurd hruns hne
    · intro sch step _ hprog
      exact absurd hprog (hn sch step)
  · rw [hself]
    refine (Shape.iff_other hn).mpr
      (hshape.going hshape.on rfl rfl rfl (by simp [hphase]) (.inr rfl) ?_)
    intro _ hzero
    simp [Core.started] at hzero

/-! `PromiseType::Impl`. -/

/-- The coroutine `n` takes the executor of its caller `p`, and leaves its own behind. -/
structure Resume (s : State ν ι ε α) (n p : ν) (t : State ν ι ε α) : Prop where
  self : t.cores n = { s.cores n with
    executor := (s.cores p).executor
    on := (s.cores p).executor
    phase := .running
    runs := (s.cores n).runs + 1 }
  caller : t.cores p = { s.cores p with executor := (s.cores n).executor }
  other : ∀ j, j ≠ n → j ≠ p → t.cores j = s.cores j

namespace Resume

variable {kind : Kind}

/-- The caller is the core that the coroutine awaited, or it waits for the task that the
coroutine is the head of. -/
theorem cases_caller (hi : Inv cfg s) (hn : cfg.prog n = .promiseType kind)
    (hphase : (s.cores n).phase = .here p) :
    (∃ r, (s.cores n).inner = some p ∧ Final s p r) ∨
    ((s.cores p).head = some n ∧ (∃ m, (s.cores p).phase = .waiting m) ∧
      (s.cores n).runs = 0) := by
  cases hi.callers.here n p hphase with
  | unwrapped r hinner hr => exact .inl ⟨r, hinner, hr⟩
  | attached r _ hprevious => simp [hn, Node.previous] at hprevious
  | started m _ _ hhead hm hzero =>
    exact .inr ⟨hhead, ⟨m, hm⟩, hzero (by simp [hn, Node.isCoroutine])⟩

theorem ne (hi : Inv cfg s) (hn : cfg.prog n = .promiseType kind)
    (hphase : (s.cores n).phase = .here p) : p ≠ n := by
  rintro rfl
  rcases cases_caller hi hn hphase with ⟨r, -, hr⟩ | ⟨-, ⟨m, hm⟩, -⟩
  · have hdone := (hi.cell p).mp hr.1
    rw [hphase] at hdone
    cases hdone
  · rw [hphase] at hm
    cases hm

/-- A caller that waits for the task is not resumed before. -/
theorem inner_of_head (hi : Inv cfg s) (hhead : (s.cores p).head = some n) :
    (s.cores p).inner ≠ none := by
  obtain ⟨m, hinner, -⟩ := hi.chains.head p n hhead
  simp [hinner]

theorem on_of_waiting (hi : Inv cfg s) (hwait : ∃ m, (s.cores p).phase = .waiting m)
    (hinner : (s.cores p).inner ≠ none) : (s.cores p).on ≠ none := by
  obtain ⟨m, hm⟩ := hwait
  have hshape := hi.shape p (hi.made_of_phase (by simp [hm]))
  unfold Shape at hshape
  cases hp : cfg.prog p with
  | core sch step =>
    simp only [hp, StepShape, hm] at hshape
    obtain ⟨q, hq⟩ := Option.ne_none_iff_exists'.mp hinner
    exact (hshape.unwrapping q hq).on
  | _ =>
    simp only [hp] at hshape
    exact hshape.on

theorem caller_executor (hi : Inv cfg s) (hn : cfg.prog n = .promiseType kind)
    (hphase : (s.cores n).phase = .here p) : (s.cores p).executor ≠ none := by
  rcases cases_caller hi hn hphase with ⟨r, hinner, hr⟩ | ⟨hhead, hwait, -⟩
  · rcases hi.executors.kept p (hi.on_of_final hr) with h | ⟨hshared, k, hk, hprevious, -⟩
    · exact h
    · have htaken := hi.owned.taken n p (.inl hinner) hshared
      cases htaken.symm.trans hk
      simp [hn, Node.previous] at hprevious
  · refine hi.executor_of_on (on_of_waiting hi hwait (inner_of_head hi hhead)) ?_
    obtain ⟨m, hm⟩ := hwait
    simp [hm]

theorem shape_other (hi : Inv cfg s) (hn : cfg.prog n = .promiseType kind)
    (hphase : (s.cores n).phase = .here p) : OtherShape cfg (cfg.prog n) (s.cores n) :=
  (Shape.iff_other (by simp [hn])).mp (hi.shape n (hi.made_of_phase (by simp [hphase])))

theorem moves (h : Resume s n p t) (hi : Inv cfg s) (hn : cfg.prog n = .promiseType kind)
    (hphase : (s.cores n).phase = .here p) : Moves cfg s n t := by
  have hcoroutine : (cfg.prog n).isCoroutine = true := by rw [hn, Node.isCoroutine]
  have hshape := shape_other hi hn hphase
  have hc := hshape.coroutine hcoroutine
  have hold := hi.executor_of_on hshape.on (by simp [hphase])
  refine ⟨?_, ?_, ?_, ?_, ?_, ?_, ?_⟩
  · rw [h.self]
    exact caller_executor hi hn hphase
  · rw [h.self]
    exact caller_executor hi hn hphase
  · intro hnot
    rw [hcoroutine] at hnot
    cases hnot
  · intro j hj
    by_cases hjp : j = p
    · subst hjp
      refine .inr (.inr ⟨by simpa [h.caller] using hold, ?_⟩)
      rcases cases_caller hi hn hphase with ⟨r, hinner, hr⟩ | ⟨hhead, hwait, hzero⟩
      · have htaken := hi.owned.taken n j (.inl hinner) (hi.owned.awaits n j hcoroutine hinner)
        exact ⟨.inl ((hi.cell j).mp hr.1), .inl ⟨n, htaken, hcoroutine⟩⟩
      · refine ⟨.inr ⟨hwait, inner_of_head hi hhead⟩, .inr ⟨?_, n, hhead, hcoroutine⟩⟩
        rw [h.caller]
        exact hc.here hzero j hphase
    · exact .inl (by rw [h.other j hj hjp])
  · intro _ _ _
    simp [h.self]
  · intro j hj _ hzero
    rcases hi.executors.swapped j n hj hcoroutine with hhere | hne
    · cases hhere.symm.trans hphase
      rw [h.caller]
      exact hc.here hzero p hphase
    · exact absurd hzero hne
  · intro sch step _ hprog
    simp [hn] at hprog

theorem going (h : Resume s n p t) (hphase : (s.cores n).phase = .here p) : Going s n t := by
  refine ⟨?_, ?_, by simp [hphase], by simp [hphase], .inr (by rw [h.self])⟩
  · rw [h.self]
  · intro j hj
    by_cases hjp : j = p
    · rw [hjp, h.caller]
    · rw [h.other j hj hjp]

end Resume

theorem Inv.resume (hi : Inv cfg s) {kind : Kind} (hn : cfg.prog n = .promiseType kind)
    (hphase : (s.cores n).phase = .here p) (h : Resume s n p t) : Move cfg s t := by
  have hmade := hi.made_of_phase (n := n) (by simp [hphase])
  have hmoves := h.moves hi hn hphase
  refine hi.going_move ?_ (h.going hphase) hmoves ?_
  · refine ⟨hmade, ?_, by simp [hn, Node.previous], by simp [hn, Node.isCoroutine]⟩
    rintro q hq rfl
    obtain ⟨-, hidle, -⟩ := hi.chains.task q hq
    rw [hphase] at hidle
    cases hidle
  · refine (Shape.iff_other (by simp [hn])).mpr ?_
    refine (Resume.shape_other hi hn hphase).going hmoves.on ?_ ?_ ?_ (by simp [hphase]) ?_ ?_
    · rw [h.self]
    · rw [h.self]
    · rw [h.self]
    · exact .inr (by rw [h.self])
    · intro _ hzero
      simp [h.self] at hzero

end Yaclib.Core
