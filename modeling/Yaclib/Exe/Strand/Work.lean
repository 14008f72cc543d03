import Yaclib.Exe.Strand.Steps

/-!
The steps of the threads that run the strand.
-/

namespace Yaclib.Strand

open Concurrency

variable {ι κ : Type} [Fintype κ]
variable {s t v : State ι κ} {i : ι} {k : κ} {u : Run ι} {todo : κ → List ι} {left : List ι}

theorem Run.asks_le (u : Run ι) : u.asks ≤ u.token := by
  cases u <;> simp

/-- Who asks for jobs has the token. -/
theorem State.asking_le [Fintype ι] (s : State ι κ) : s.asking ≤ s.tokens := by
  have hmono : tally Run.asks s.worker ≤ tally Run.token s.worker :=
    tally_mono fun k => (s.worker k).asks_le
  simp only [State.asking, State.tokens]
  omega

theorem Run.token_of_calls (h : u.calls = true) : u.token = 1 := by
  cases u <;> simp at h ⊢

theorem Run.calls_of_token (h : u.token = 0) : u.calls = false := by
  cases u <;> simp at h ⊢

theorem Pc.eq_queued {p : Pc ι} (hparked : p.parked ≠ 0) (htoken : p.token = 0) : p = .queued := by
  cases p <;> simp at hparked htoken ⊢

variable [DecidableEq ι]

theorem Batches.mem_current (hb : Batches s todo left) (hi : i ∈ s.current) :
    (s.pc i).parked ≠ 0 := by
  have hcount := hb.count i
  have hpos := List.count_pos_iff.mpr hi
  omega

/-- A job that a thread has taken is not in the stack any more. -/
theorem Batches.disjoint (hb : Batches s todo left) {l : κ} (hi : i ∈ todo l) : i ∉ s.current := by
  intro hcurrent
  have hcount := hb.count i
  have hle := le_tally (fun xs : List ι => xs.count i) todo l
  have hpos := List.count_pos_iff.mpr hi
  have hpos' := List.count_pos_iff.mpr hcurrent
  have hone : (s.pc i).parked ≤ 1 := by cases s.pc i <;> simp
  omega

variable {job : ι} {called dropped : List ι}

/-- `Call` finds a job after its loop. -/
theorem Inv.found [Fintype ι]
    (h : Inv s) (hk : (s.worker k).token = 1) (hjobs : s.jobs ≠ .ptr none) :
    ∃ i, s.jobs = .ptr (some i) := by
  cases hw : s.jobs with
  | mark => exact absurd hw (h.sole hk).1
  | ptr p =>
    cases p with
    | none => exact absurd hw hjobs
    | some i => exact ⟨i, rfl⟩

variable [DecidableEq κ]

/-- A step that leaves the lists: neither the batches of the threads nor the
stack of jobs change. -/
structure SameLists (s v : State ι κ) : Prop where
  next : v.next = s.next
  pc : v.pc = s.pc
  worker : v.worker = s.worker
  taken : v.taken = s.taken
  current : v.current = s.current
  called : v.called = s.called
  dropped : v.dropped = s.dropped
  incRefs : v.incRefs = s.incRefs
  derefs : v.derefs = s.derefs

theorem Batches.put (hb : Batches s todo left) (hv : SameLists s v)
    (hrest : u.rest = (s.worker k).rest)
    (hcalls : u.calls = (s.worker k).calls ∨ u.calls = false ∧ u.rest = none ∧
      ∀ l, l ≠ k → (s.worker l).calls = false) : ∃ left', Batches (v.put k u) todo left' := by
  have hchain : ∀ l, Chain s.next ((Function.update s.worker k u) l).rest (todo l) := by
    intro l
    by_cases hlk : l = k
    · subst hlk
      rw [Function.update_self, hrest]
      exact hb.chain l
    · rw [Function.update_of_ne hlk]
      exact hb.chain l
  rcases hcalls with hcalls | ⟨hcalls, hnone, hothers⟩
  · have hplace : ∀ l, ((Function.update s.worker k u) l).calls = (s.worker l).calls := by
      intro l
      by_cases hlk : l = k
      · rw [hlk, Function.update_self, hcalls]
      · rw [Function.update_of_ne hlk]
    refine ⟨left, fun l => ?_, fun l => ?_, fun j => ?_, fun l hl => ?_, fun hl => ?_, ?_⟩
    · simp only [State.put, hv.next, hv.worker]
      exact hchain l
    · simp only [State.put, hv.pc]
      exact hb.queued l
    · simp only [State.put, hv.pc, hv.current]
      exact hb.count j
    · simp only [State.put, hv.worker, hplace] at hl
      exact hb.left_eq l hl
    · simp only [State.put, hv.worker, hplace] at hl
      exact hb.left_nil hl
    · simp only [State.put, State.callBatches, hv.called, hv.taken]
      exact hb.called
  · -- the loop of `Call` has come to its end
    have hplace : ∀ l, ((Function.update s.worker k u) l).calls = false := by
      intro l
      by_cases hlk : l = k
      · rw [hlk, Function.update_self, hcalls]
      · rw [Function.update_of_ne hlk]
        exact hothers l hlk
    have hleft : left = [] := by
      by_cases hk : (s.worker k).calls = true
      · have hnil := hb.chain k
        rw [← hrest, hnone] at hnil
        rw [← hb.left_eq k hk, hnil.of_none]
      · apply hb.left_nil
        intro l
        by_cases hlk : l = k
        · rw [hlk]
          simpa using hk
        · exact hothers l hlk
    subst hleft
    refine ⟨[], fun l => ?_, fun l => ?_, fun j => ?_, fun l hl => ?_, fun _ => rfl, ?_⟩
    · simp only [State.put, hv.next, hv.worker]
      exact hchain l
    · simp only [State.put, hv.pc]
      exact hb.queued l
    · simp only [State.put, hv.pc, hv.current]
      exact hb.count j
    · simp only [State.put, hv.worker, hplace] at hl
      contradiction
    · simp only [State.put, State.callBatches, hv.called, hv.taken]
      exact hb.called

/-- The thread `k` takes the pushed jobs, as the list `xs`. -/
def State.take (s : State ι κ) (k : κ) (u : Run ι) (w : Word ι) (next : ι → Option ι)
    (call : Bool) : State ι κ :=
  { s with
    jobs := w
    next := next
    taken := s.taken ++ [(call, s.current)]
    current := [] }.put k u

variable {w : Word ι} {next : ι → Option ι} {xs : List ι} {call : Bool}

/-- A thread without jobs takes the whole stack. -/
theorem Batches.take (hb : Batches s todo left) (hnil : todo k = [])
    (hothers : ∀ l, (s.worker l).calls = false) (hqueued : ∀ i ∈ s.current, s.pc i = .queued)
    (hchain : Chain next u.rest xs) (hperm : xs.Perm s.current)
    (hnext : ∀ i, i ∉ s.current → next i = s.next i) (hcalls : u.calls = call)
    (hxs : call = true → xs = s.current) :
    Batches (s.take k u w next call) (Function.update todo k xs)
      (if call then s.current else []) := by
  refine ⟨fun l => ?_, fun l j hj => ?_, fun j => ?_, fun l hl => ?_, fun hl => ?_, ?_⟩
  · by_cases hlk : l = k
    · simp only [State.take, State.put, hlk, Function.update_self]
      exact hchain
    · simp only [State.take, State.put, Function.update_of_ne hlk]
      exact (hb.chain l).frame fun j hj => hnext j (hb.disjoint hj)
  · by_cases hlk : l = k
    · rw [hlk, Function.update_self] at hj
      exact hqueued j (hperm.mem_iff.mp hj)
    · rw [Function.update_of_ne hlk] at hj
      exact hb.queued l j hj
  · have hj := hb.count j
    have hupdate := tally_update (fun xs : List ι => xs.count j) todo k xs
    have hsame := List.perm_iff_count.mp hperm j
    simp only [hnil, List.count_nil] at hupdate
    simp only [State.take, State.put, List.count_nil]
    omega
  · by_cases hlk : l = k
    · simp only [State.take, State.put, hlk, Function.update_self, hcalls] at hl
      rw [hlk, Function.update_self, if_pos hl]
      exact hxs hl
    · simp only [State.take, State.put, Function.update_of_ne hlk, hothers] at hl
      contradiction
  · have hlk := hl k
    simp only [State.take, State.put, Function.update_self, hcalls] at hlk
    rw [hlk, if_neg Bool.false_ne_true]
  · have hcalled := hb.called
    rw [hb.left_nil hothers, List.append_nil] at hcalled
    simp only [State.take, State.put, State.callBatches, hcalled]
    cases call <;> simp

def State.serve (s : State ι κ) (k : κ) (job : ι) (u : Run ι) (called dropped : List ι) :
    State ι κ :=
  { s with called := called, dropped := dropped }.goto job .idle |>.put k u

/-- The job that is called or dropped is the first one that the thread has left. -/
theorem Batches.serve (hb : Batches s todo left) (htodo : todo k = job :: xs)
    (hrest : Chain s.next u.rest xs) (hsole : ∀ l, l ≠ k → call = true → (s.worker l).calls = false)
    (hcalls : (s.worker k).calls = call ∧ u.calls = call)
    (hcalled : called = s.called ++ if call then [job] else []) :
    ∃ left', Batches (s.serve k job u called dropped) (Function.update todo k xs) left' := by
  have hmem : job ∈ todo k := by
    rw [htodo]
    exact List.mem_cons_self
  have hpc : (s.pc job).parked = 1 := by
    rw [hb.queued k job hmem]
    rfl
  have hle := le_tally (fun xs : List ι => xs.count job) todo k
  have hcount := hb.count job
  have hupdate := tally_update (fun xs : List ι => xs.count job) todo k xs
  simp only [htodo, List.count_cons_self] at hle hupdate
  -- the job is in this batch only, and in it once
  have hgone : ∀ l, job ∉ (Function.update todo k xs) l := by
    intro l hl
    have hpos := List.count_pos_iff.mpr hl
    have hle := le_tally (fun xs : List ι => xs.count job) (Function.update todo k xs) l
    omega
  have hplace : ∀ l, ((Function.update s.worker k u) l).calls = (s.worker l).calls := by
    intro l
    by_cases hlk : l = k
    · rw [hlk, Function.update_self, hcalls.1, hcalls.2]
    · rw [Function.update_of_ne hlk]
  refine ⟨if call then xs else left, fun l => ?_, fun l j hj => ?_, fun j => ?_, fun l hl => ?_,
    fun hl => ?_, ?_⟩
  · by_cases hlk : l = k
    · simp only [State.serve, State.put, State.goto, hlk, Function.update_self]
      exact hrest
    · simp only [State.serve, State.put, State.goto, Function.update_of_ne hlk]
      exact hb.chain l
  · have hjob : j ≠ job := by
      rintro rfl
      exact hgone l hj
    simp only [State.serve, State.put, State.goto, Function.update_of_ne hjob]
    by_cases hlk : l = k
    · rw [hlk, Function.update_self] at hj
      apply hb.queued k
      rw [htodo]
      exact List.mem_cons_of_mem _ hj
    · rw [Function.update_of_ne hlk] at hj
      exact hb.queued l j hj
  · have hj := hb.count j
    have hupdate := tally_update (fun xs : List ι => xs.count j) todo k xs
    simp only [htodo, List.count_cons] at hupdate
    simp only [State.serve, State.put, State.goto]
    by_cases hjob : j = job
    · subst hjob
      rw [Function.update_self]
      simp only [beq_self_eq_true, if_true] at hupdate
      simp only [Pc.parked]
      omega
    · rw [Function.update_of_ne hjob]
      simp only [beq_iff_eq, Ne.symm hjob, if_false] at hupdate
      omega
  · simp only [State.serve, State.put, State.goto, hplace] at hl
    by_cases hlk : l = k
    · rw [hlk, hcalls.1] at hl
      rw [hlk, Function.update_self, if_pos hl]
    · have hno : call = false := by
        cases call with
        | false => rfl
        | true =>
          rw [hsole l hlk rfl] at hl
          contradiction
      rw [Function.update_of_ne hlk, hno, if_neg Bool.false_ne_true]
      exact hb.left_eq l hl
  · simp only [State.serve, State.put, State.goto, hplace] at hl
    have hno : call = false := hcalls.1.symm.trans (hl k)
    rw [hno, if_neg Bool.false_ne_true]
    exact hb.left_nil hl
  · simp only [State.serve, State.put, State.goto, State.callBatches]
    have heq := hb.called
    rw [State.callBatches] at heq
    cases call with
    | false => simpa [hcalled] using heq
    | true =>
      have hleft := hb.left_eq k hcalls.1
      rw [htodo] at hleft
      rw [← hleft] at heq
      simpa [hcalled] using heq

variable [Fintype ι]

theorem Inv.put (h : Inv s) (hv : SameLists s v) (hrest : u.rest = (s.worker k).rest)
    (hcalls : u.calls = (s.worker k).calls ∨ u.calls = false ∧ u.rest = none ∧
      (s.worker k).token = 1)
    (hjobs : v.jobs.toPtr = s.jobs.toPtr)
    (htokens : u.token + v.executor + (if s.jobs = Word.mark then 0 else 1) =
      (s.worker k).token + s.executor + (if v.jobs = Word.mark then 0 else 1))
    (hfull : (∃ i, v.jobs = .ptr (some i)) ∨ v.jobs = .mark ∨
      v.jobs = s.jobs ∧ u.asks + v.executor ≤ (s.worker k).asks + s.executor)
    (hrefs : v.decRefs + u.holds + v.executor = s.decRefs + (s.worker k).holds + s.executor) :
    Inv (v.put k u) := by
  obtain ⟨todo, left, hb⟩ := h.batches
  have htokens' := tally_update Run.token s.worker k u
  have hholds := tally_update Run.holds s.worker k u
  have hasks := tally_update Run.asks s.worker k u
  have heq : (v.put k u).tokens = if v.jobs = Word.mark then 0 else 1 := by
    have heq := h.tokens_eq
    simp only [State.tokens] at heq
    simp only [State.tokens, State.put, hv.pc, hv.worker]
    omega
  refine ⟨heq, fun hpos => ?_, ?_, ⟨todo, hb.put hv hrest ?_⟩, fun j => ?_, ?_, ?_⟩
  · rcases hfull with hfull | hmark | ⟨hsame, hle⟩
    · exact hfull
    · have hle := (v.put k u).asking_le
      rw [heq, if_pos hmark] at hle
      omega
    · have hask : 0 < s.asking := by
        simp only [State.asking, State.put, hv.pc, hv.worker] at hpos
        simp only [State.asking]
        omega
      obtain ⟨i, hi⟩ := h.asking_full hask
      exact ⟨i, hsame.trans hi⟩
  · simp only [State.put, hjobs, hv.next, hv.current]
    exact h.stack
  · refine hcalls.imp_right fun hend => ⟨hend.1, hend.2.1, fun l hl => ?_⟩
    exact Run.calls_of_token ((h.sole hend.2.2).2.2.2 l hl)
  · simp only [State.put, State.pushes, hv.taken, hv.current, hv.called, hv.dropped, hv.pc]
    exact h.pushes_eq j
  · have hrefs' := h.refs_eq
    simp only [State.holders] at hrefs'
    simp only [State.holders, State.put, hv.pc, hv.worker, hv.incRefs]
    omega
  · simp only [State.put, hv.derefs]
    exact h.derefs_eq

/-! The exchanges. -/

/-- An exchange of `_jobs` by the thread in charge. -/
theorem Inv.take (h : Inv s) (hk : s.worker k = .call ∨ s.worker k = .drop)
    (hchain : Chain next u.rest xs) (hperm : xs.Perm s.current)
    (hnext : ∀ i, i ∉ s.current → next i = s.next i)
    (hw : w.toPtr = none ∧ u.token = if w = Word.mark then 0 else 1)
    (hu : u.asks = 0 ∧ u.holds = 1 ∧ u.calls = call) (hxs : call = true → xs = s.current) :
    Inv (s.take k u w next call) := by
  obtain ⟨todo, left, hb⟩ := h.batches
  have hold : (s.worker k).token = 1 ∧ (s.worker k).asks = 1 ∧ (s.worker k).holds = 1 ∧
      (s.worker k).rest = none ∧ (s.worker k).calls = false := by
    rcases hk with hk | hk <;> rw [hk] <;> exact ⟨rfl, rfl, rfl, rfl, rfl⟩
  obtain ⟨htoken, hasks, hholds, hrest, hcalls⟩ := hold
  obtain ⟨hlocked, hpcs, hexecutor, hothers⟩ := h.sole htoken
  have htokens' := tally_update Run.token s.worker k u
  have hasks' := tally_update Run.asks s.worker k u
  have hholds' := tally_update Run.holds s.worker k u
  have hnil : todo k = [] := by
    have hchain := hb.chain k
    rw [hrest] at hchain
    exact hchain.of_none
  have hnone : ∀ l, (s.worker l).calls = false := by
    intro l
    by_cases hlk : l = k
    · rw [hlk, hcalls]
    · exact Run.calls_of_token (hothers l hlk)
  have hqueued : ∀ i ∈ s.current, s.pc i = .queued := fun i hi =>
    Pc.eq_queued (hb.mem_current hi) (tally_eq_zero.mp hpcs i)
  refine ⟨?_, fun hpos => ?_, ?_,
    ⟨_, _, hb.take hnil hnone hqueued hchain hperm hnext hu.2.2 hxs⟩, fun j => ?_, ?_,
    h.derefs_eq⟩
  · have heq := h.tokens_eq
    rw [if_neg hlocked] at heq
    refine Eq.trans ?_ hw.2
    simp only [State.tokens] at heq
    simp only [State.take, State.put, State.tokens]
    omega
  · have hle := h.tokens_le
    have hask := s.asking_le
    simp only [State.take, State.asking, State.put] at hpos hask
    omega
  · simp only [State.take, State.put, hw.1]
    exact .nil
  · have hj := h.pushes_eq j
    simp only [State.pushes] at hj
    simp only [State.take, State.put, State.pushes, List.map_append, List.flatten_append,
      List.map_cons, List.map_nil, List.flatten_cons, List.flatten_nil, List.append_nil]
    exact hj
  · have hrefs := h.refs_eq
    simp only [State.holders] at hrefs
    simp only [State.take, State.put, State.holders]
    omega

/-- `Call` takes the stack, in the order of the pushes, and leaves it empty. -/
theorem Inv.callExchange (h : Inv s) (hk : s.worker k = .call) : Inv (callExchange s k) := by
  obtain ⟨todo, left, hb⟩ := h.batches
  have hask : 0 < s.asking := by
    have hle := le_tally_of Run.asks hk
    simp only [Run.asks] at hle
    simp only [State.asking]
    omega
  obtain ⟨node, hjobs⟩ := h.asking_full hask
  have hstack := h.stack
  rw [hjobs] at hstack
  have hnodup : (s.current.reverse ++ []).Nodup := by
    rw [List.append_nil]
    exact List.nodup_reverse.mpr hb.nodup
  obtain ⟨next, prev, hloop, hchain, hnext⟩ := reverseLoop_chain hstack
    (.nil : Chain s.next none []) hnodup (by simpa using hb.nodup.length_le_card)
  rw [List.reverse_reverse, List.append_nil] at hchain
  have htake := h.take (k := k) (u := .batch prev) (w := .ptr none) (.inl hk) hchain (.refl _)
    (fun i hi => hnext i (by rwa [List.mem_reverse])) ⟨rfl, rfl⟩ ⟨rfl, rfl, rfl⟩ (fun _ => rfl)
  simpa [Strand.callExchange, hjobs, hloop, State.take] using htake

/-- `Drop` takes the stack as it is, and leaves `Mark`. -/
theorem Inv.dropExchange (h : Inv s) (hk : s.worker k = .drop) : Inv (dropExchange s k) := by
  have hask : 0 < s.asking := by
    have hle := le_tally_of Run.asks hk
    simp only [Run.asks] at hle
    simp only [State.asking]
    omega
  obtain ⟨node, hjobs⟩ := h.asking_full hask
  have hstack := h.stack
  rw [hjobs] at hstack
  have htake := h.take (k := k) (u := .dropBatch node) (w := .mark) (.inr hk) hstack
    (List.reverse_perm _) (fun i _ => rfl) ⟨rfl, rfl⟩ ⟨rfl, rfl, rfl⟩ (fun hcall => by simp at hcall)
  simpa [Strand.dropExchange, hjobs, State.take] using htake

/-! The loops. -/

/-- One round of the loop of `Call` or `Drop`. -/
theorem Inv.serve (h : Inv s) (call : Bool) (hrest : (s.worker k).rest = some job)
    (hnext : u.rest = s.next job)
    (hplace : u.token = (s.worker k).token ∧ u.asks = (s.worker k).asks ∧
      u.holds = (s.worker k).holds)
    (hcalls : (s.worker k).calls = call ∧ u.calls = call)
    (hcalled : called = s.called ++ if call then [job] else [])
    (hdropped : dropped = s.dropped ++ if call then [] else [job]) :
    Inv (s.serve k job u called dropped) := by
  obtain ⟨todo, left, hb⟩ := h.batches
  have hchain := hb.chain k
  rw [hrest] at hchain
  obtain ⟨xs, htodo, hxs⟩ := hchain.of_some
  rw [← hnext] at hxs
  have hsole : ∀ l, l ≠ k → call = true → (s.worker l).calls = false := by
    rintro l hl rfl
    exact Run.calls_of_token ((h.sole (Run.token_of_calls hcalls.1)).2.2.2 l hl)
  have hpc : s.pc job = .queued := by
    apply hb.queued k
    rw [htodo]
    exact List.mem_cons_self
  have hpcs : ∀ w : Pc ι → Nat, w .idle = w .queued →
      tally w (Function.update s.pc job .idle) = tally w s.pc := by
    intro w hw
    apply tally_stay
    rw [hw, hpc]
  have hworkers : ∀ w : Run ι → Nat, w u = w (s.worker k) →
      tally w (Function.update s.worker k u) = tally w s.worker := fun w hw => tally_stay hw
  refine ⟨?_, fun hpos => ?_, h.stack, ?_, fun j => ?_, ?_, h.derefs_eq⟩
  · refine Eq.trans ?_ h.tokens_eq
    simp only [State.serve, State.put, State.goto, State.tokens, hpcs Pc.token rfl,
      hworkers Run.token hplace.1]
  · simp only [State.serve, State.put, State.goto, State.asking, hpcs Pc.token rfl,
      hworkers Run.asks hplace.2.1] at hpos
    exact h.asking_full hpos
  · obtain ⟨left', hb'⟩ : ∃ left', Batches (s.serve k job u called dropped) _ left' :=
      hb.serve htodo hxs hsole hcalls hcalled
    exact ⟨_, left', hb'⟩
  · have hj := h.pushes_eq j
    simp only [State.pushes] at hj
    simp only [State.serve, State.put, State.goto, State.pushes, hcalled, hdropped,
      List.count_append]
    rw [List.count_append] at hj
    by_cases hjob : j = job
    · subst hjob
      rw [hpc] at hj
      rw [Function.update_self]
      simp only [Pc.parked] at hj ⊢
      cases call <;> simp <;> omega
    · have hnone : [job].count j = 0 := List.count_eq_zero.mpr (by simpa using hjob)
      rw [Function.update_of_ne hjob]
      cases call <;> simp only [if_true, if_false, Bool.false_eq_true, hnone, List.count_nil] <;> omega
  · have hrefs := h.refs_eq
    simp only [State.holders] at hrefs
    simp only [State.serve, State.put, State.goto, State.holders, hpcs Pc.holds rfl,
      hworkers Run.holds hplace.2.2]
    exact hrefs

/-- Every step of a thread keeps the invariant. -/
theorem Inv.work (h : Inv s) (hstep : work s k = some t) : Inv t := by
  have hsame : SameLists s s := ⟨rfl, rfl, rfl, rfl, rfl, rfl, rfl, rfl, rfl⟩
  unfold Strand.work at hstep
  cases hk : s.worker k with
  | idle => simp [hk] at hstep
  | call =>
    simp only [hk, Option.some.injEq] at hstep
    subst hstep
    exact h.callExchange hk
  | batch job =>
    simp only [hk, Option.some.injEq] at hstep
    subst hstep
    exact h.serve true (by rw [hk]; rfl) rfl (by rw [hk]; exact ⟨rfl, rfl, rfl⟩)
      (by rw [hk]; exact ⟨rfl, rfl⟩) rfl (List.append_nil _).symm
  | calling job p =>
    cases p with
    | some prev =>
      simp only [hk, Option.some.injEq] at hstep
      subst hstep
      exact h.put hsame (by rw [hk]; rfl) (.inl (by rw [hk]; rfl)) rfl (by rw [hk]; rfl)
        (.inr (.inr ⟨rfl, by rw [hk]; exact le_rfl⟩)) (by rw [hk]; rfl)
    | none =>
      simp only [hk, Option.some.injEq] at hstep
      subst hstep
      exact h.put hsame (by rw [hk]; rfl) (.inr ⟨rfl, rfl, by rw [hk]; rfl⟩) rfl (by rw [hk]; rfl)
        (.inr (.inr ⟨rfl, by rw [hk]; exact le_rfl⟩)) (by rw [hk]; rfl)
  | load =>
    simp only [hk, Option.some.injEq] at hstep
    subst hstep
    split
    · exact h.put hsame (by rw [hk]; rfl) (.inl (by rw [hk]; rfl)) rfl (by rw [hk]; rfl)
        (.inr (.inr ⟨rfl, by rw [hk]; exact le_rfl⟩)) (by rw [hk]; rfl)
    · next hjobs =>
      exact h.put hsame (by rw [hk]; rfl) (.inl (by rw [hk]; rfl)) rfl (by rw [hk]; rfl)
        (.inl (h.found (by rw [hk]; rfl) hjobs)) (by rw [hk]; rfl)
  | swap =>
    simp only [hk, Option.some.injEq] at hstep
    subst hstep
    split
    · next hjobs =>
      have hmark : SameLists s { s with jobs := .mark } :=
        ⟨rfl, rfl, rfl, rfl, rfl, rfl, rfl, rfl, rfl⟩
      exact h.put hmark (by rw [hk]; rfl) (.inl (by rw [hk]; rfl)) (by rw [hjobs]; rfl)
        (by rw [hk]; simp [hjobs, Nat.add_comm]) (.inr (.inl rfl)) (by rw [hk]; rfl)
    · next hjobs =>
      exact h.put hsame (by rw [hk]; rfl) (.inl (by rw [hk]; rfl)) rfl (by rw [hk]; rfl)
        (.inl (h.found (by rw [hk]; rfl) hjobs)) (by rw [hk]; rfl)
  | resubmit =>
    simp only [hk, Option.some.injEq] at hstep
    subst hstep
    have hsubmit : SameLists s { s with executor := s.executor + 1 } :=
      ⟨rfl, rfl, rfl, rfl, rfl, rfl, rfl, rfl, rfl⟩
    refine h.put hsubmit (by rw [hk]; rfl) (.inl (by rw [hk]; rfl)) rfl ?_ (.inr (.inr ⟨rfl, ?_⟩)) ?_
    · rw [hk]
      simp only [Run.token]
      omega
    · rw [hk]
      simp only [Run.asks]
      omega
    · rw [hk]
      simp only [Run.holds]
      omega
  | drop =>
    simp only [hk, Option.some.injEq] at hstep
    subst hstep
    exact h.dropExchange hk
  | dropBatch job =>
    simp only [hk, Option.some.injEq] at hstep
    subst hstep
    exact h.serve false (by rw [hk]; rfl) rfl (by rw [hk]; exact ⟨rfl, rfl, rfl⟩)
      (by rw [hk]; exact ⟨rfl, rfl⟩) (List.append_nil _).symm rfl
  | dropping job p =>
    cases p with
    | some node =>
      simp only [hk, Option.some.injEq] at hstep
      subst hstep
      exact h.put hsame (by rw [hk]; rfl) (.inl (by rw [hk]; rfl)) rfl (by rw [hk]; rfl)
        (.inr (.inr ⟨rfl, by rw [hk]; exact le_rfl⟩)) (by rw [hk]; rfl)
    | none =>
      simp only [hk, Option.some.injEq] at hstep
      subst hstep
      exact h.put hsame (by rw [hk]; rfl) (.inl (by rw [hk]; rfl)) rfl (by rw [hk]; rfl)
        (.inr (.inr ⟨rfl, by rw [hk]; exact le_rfl⟩)) (by rw [hk]; rfl)
  | decRef call =>
    simp only [hk, Option.some.injEq] at hstep
    subst hstep
    have hrelease : SameLists s { s with decRefs := s.decRefs + 1 } :=
      ⟨rfl, rfl, rfl, rfl, rfl, rfl, rfl, rfl, rfl⟩
    exact h.put hrelease (by rw [hk]; rfl) (.inl (by rw [hk]; rfl)) rfl (by rw [hk]; rfl)
      (.inr (.inr ⟨rfl, by rw [hk]; exact le_rfl⟩)) (by rw [hk]; rfl)

/-- The underlying executor takes the strand from its queue. -/
theorem Inv.execute (h : Inv s) (hqueued : 0 < s.executor) (hk : s.worker k = .idle)
    (drop : Bool) :
    Inv ({ s with executor := s.executor - 1 }.put k (if drop then .drop else .call)) := by
  have htake : SameLists s { s with executor := s.executor - 1 } :=
    ⟨rfl, rfl, rfl, rfl, rfl, rfl, rfl, rfl, rfl⟩
  obtain ⟨u, hu⟩ : ∃ u : Run ι, u = if drop then .drop else .call := ⟨_, rfl⟩
  have hplace : u.rest = none ∧ u.calls = false ∧ u.token = 1 ∧ u.asks = 1 ∧ u.holds = 1 := by
    rw [hu]
    cases drop <;> exact ⟨rfl, rfl, rfl, rfl, rfl⟩
  obtain ⟨hrest, hcalls, htoken, hasks, hholds⟩ := hplace
  rw [← hu]
  refine h.put htake (by rw [hk, hrest]; rfl) (.inl (by rw [hk, hcalls]; rfl)) rfl ?_
    (.inr (.inr ⟨rfl, ?_⟩)) ?_
  · rw [htoken, hk]
    simp only [Run.token]
    omega
  · rw [hasks, hk]
    simp only [Run.asks]
    omega
  · rw [hholds, hk]
    simp only [Run.holds]
    omega

end Yaclib.Strand
