import Yaclib.Coro.Await.Invariant

/-!
Every step of the coroutine, of a producer, of another thread and of the executor
keeps the invariant, and what it says of every run: the coroutine goes on once, with
all its inputs ready, and nobody is left behind in its frame.
-/

namespace Yaclib.Await

open Concurrency

variable {κ : Type} {w : Call κ} {s t : State κ} {c : κ} {m : Node} {j k n : Nat} {p : Place}
variable {cores : Callbacks κ Node}

/-- Until its last subtraction in `await_suspend` the coroutine has a share of the counter.
-/
theorem Place.own_pos (hexpects : p.Expects w) (hearly : p.early = true) : 0 < p.own w := by
  cases p with
  | attach k wc =>
    obtain ⟨hk, hwc⟩ := hexpects
    simp only [own]
    omega
  | attachSwap k wc | attachLoop k wc expected =>
    obtain ⟨hwc, c, hk, -⟩ := hexpects
    have hlt := Call.lt_count hk
    simp only [own]
    omega
  | ready | store | sub => exact Nat.one_pos
  | submit | suspended | continued => simp [early] at hearly

/-- A unique core without the empty word has its result, or the event. -/
theorem Cores.unique_done {f : Nat} (h : Cores w cores f n) (hc : w.shared c = false)
    (hword : cores.callback c ≠ .kEmpty) :
    cores.callback c = .kResult ∨ w.node k c ∈ cores.held c := by
  cases hcallback : cores.callback c with
  | kResult => exact .inl rfl
  | ptr q =>
    cases q with
    | none => exact absurd hcallback hword
    | some m =>
      right
      have hheld := (h.sound c).held_unique hc hcallback
      have hm : m ∈ cores.held c := by
        rw [hheld]
        exact List.mem_cons_self
      rw [Call.node_unique hc, ← h.held_event hc hm]
      exact hm

/-- The event is in no list of a shared core. -/
theorem Cores.event_fresh {f : Nat} (h : Cores w cores f n) (hc : w.shared c = true) :
    .event ∉ cores.held c := by
  intro hm
  obtain ⟨j, -, -, hnode⟩ := h.placed c _ hm rfl
  simp [Call.node, hc] at hnode

/-- Before the coroutine goes on, its frame may be used. -/
theorem touch_eq (hresumes : s.resumes = 0) : s.touch = s := by
  have hlt : decide (0 < s.resumes) = false := by simp [hresumes]
  simp only [State.touch, hlt, Bool.or_false]

variable [Fintype κ]

/-- Before the `SubEqual(1)` of `await_suspend` nobody resumes the coroutine. -/
theorem Inv.asleep (h : Inv w s) (hearly : s.place.early = true) :
    s.resumes = 0 ∧ s.submitted = 0 ∧ s.resumings = 0 ∧ s.place.submitting = 0 := by
  have hpos := Place.own_pos h.expects hearly
  have honce := h.once_eq
  rw [once_pos (by omega)] at honce
  omega

/-- A step of the coroutine before the `SubEqual(1)` of `await_suspend`. -/
theorem Inv.go (h : Inv w s) (hearly : s.place.early = true) {x : Int} {b : Option Node}
    (hcores : Cores w cores s.foreigns (p.passed w.count)) (hp : p.early = true)
    (hexpects : p.Expects w) (hcount : x = p.own w + pending cores)
    (hstored : p.stored = true →
      State.continuation w { s with cores := cores, job := b } = some .promise) :
    Inv w { s with cores := cores, count := x, job := b, place := p } := by
  obtain ⟨hresumes, hsubmitted, hresumings, hsubmitting⟩ := h.asleep hearly
  have hpos := Place.own_pos hexpects hp
  refine ⟨hcores, hexpects, fun _ => hcount, ?_, ?_, hstored, h.resuming, h.dangling, h.unset⟩
  · have hp' : p.submitting = 0 := by cases p <;> first | rfl | simp [Place.early] at hp
    change s.resumes + s.submitted + p.submitting + s.resumings = once (p.own w + pending cores)
    rw [once_pos (by omega)]
    omega
  · constructor
    · intro hplace
      obtain rfl : p = .continued := hplace
      simp [Place.early] at hp
    · intro hlt
      change 0 < s.resumes at hlt
      omega

/-- Somebody is to resume the coroutine: then it is suspended, nobody else is to, and no
core holds a callback of it. -/
theorem Inv.woken (h : Inv w s) (hpos : 0 < s.submitted + s.resumings) :
    s.place = .suspended ∧ s.resumes = 0 ∧ s.submitted + s.resumings = 1 ∧
      s.place.own w + pending s.cores = 0 := by
  have honce := h.once_eq
  have hle : s.resumes + s.submitted + s.place.submitting + s.resumings ≤ 1 :=
    honce ▸ once_le (s.place.own w + pending s.cores)
  have hzero : s.place.own w + pending s.cores = 0 := by
    by_contra hne
    rw [once_pos (Nat.pos_of_ne_zero hne)] at honce
    omega
  have hsuspended : s.place = .suspended := by
    cases hplace : s.place with
    | suspended => rfl
    | submit =>
      rw [hplace] at hle
      simp only [Place.submitting] at hle
      omega
    | continued =>
      have hresumes := h.continued.mp hplace
      omega
    | _ =>
      have hown := Place.own_pos h.expects (by rw [hplace]; rfl)
      omega
  exact ⟨hsuspended, by omega, by omega, hzero⟩

/-- The one who is to resume the coroutine does it. -/
theorem Inv.resume (h : Inv w s) {r : κ → Bool} {a : Nat} (hpos : 0 < s.submitted + s.resumings)
    (hrest : a + tally Bool.toNat r = 0) :
    Inv w { s.resume with resuming := r, submitted := a } := by
  obtain ⟨hplace, hresumes, -, hzero⟩ := h.woken hpos
  have hcores := h.cores
  rw [hplace] at hcores hzero
  have hresume : s.resume = { s with resumes := s.resumes + 1, place := .continued } := by
    simp [State.resume, hplace]
  rw [hresume]
  refine ⟨hcores, trivial, ?_, ?_, ?_, ?_, ?_, h.dangling, h.unset⟩
  · intro hnone
    exact absurd hnone (Nat.succ_ne_zero _)
  · change s.resumes + 1 + a + 0 + tally Bool.toNat r = once (0 + pending s.cores)
    simp only [Place.own] at hzero
    rw [hzero, once_zero]
    omega
  · exact iff_of_true rfl (Nat.succ_pos _)
  · intro hstored
    contradiction
  · intro c hc
    have hr : r c = true := hc
    have hle := le_tally Bool.toNat r c
    rw [hr, Bool.toNat_true] at hle
    omega

/-- The one who is to resume the coroutine submits it. -/
theorem Inv.submit (h : Inv w s) {r : κ → Bool} (hpos : 0 < s.submitted + s.resumings)
    (hrest : s.submitted + tally Bool.toNat r = 0) :
    Inv w { s.submit with resuming := r } := by
  obtain ⟨hplace, hresumes, hone, hzero⟩ := h.woken hpos
  refine ⟨h.cores, h.expects, h.count_eq, ?_, h.continued, h.stored, ?_, h.dangling, h.unset⟩
  · change s.resumes + (s.submitted + 1) + s.place.submitting + tally Bool.toNat r = _
    change _ = once (s.place.own w + pending s.cores)
    rw [hzero, once_zero, hplace]
    simp only [Place.submitting]
    omega
  · intro c hc
    have hr : r c = true := hc
    have hle := le_tally Bool.toNat r c
    rw [hr, Bool.toNat_true] at hle
    omega

/-- While a core holds a callback of the coroutine, nobody resumes it. -/
theorem Inv.waits (h : Inv w s) (hm : m ∈ s.cores.held c) (hours : m.ours = true) :
    s.resumes = 0 ∧ s.submitted = 0 ∧ s.place.submitting = 0 ∧ s.resumings = 0 := by
  have hpos : 0 < pending s.cores := tallyP_pos hm hours
  have honce := h.once_eq
  rw [once_pos (by omega)] at honce
  omega

/-- `SetCallback` of the handle `k` needs no callback. -/
theorem Inv.pass (h : Inv w s) {wc : Nat} (hcores : Cores w cores s.foreigns k)
    (hpending : pending cores = pending s.cores) (hearly : s.place.early = true)
    (hown : s.place.own w = w.count + 1 - wc) (hwc : wc ≤ k) (hk : w.handles[k]? = some c)
    (hdone : cores.callback c = .kResult ∨ w.node k c ∈ cores.held c) :
    Inv w ((s.setCores cores).goto (.attach (k + 1) wc)) := by
  have hlt := Call.lt_count hk
  refine h.go hearly (hcores.pass hk hdone) rfl ⟨hlt, by omega⟩ ?_ (fun hstored => ?_)
  · change s.count = ((w.count + 1 - wc : Nat) : Int) + pending cores
    rw [h.count_eq (h.asleep hearly).1, hown, hpending]
  · contradiction

/-- The place between two operations of one `SetCallback`. -/
theorem Inv.within (h : Inv w s) {wc : Nat} (hcores : Cores w cores s.foreigns k)
    (hpending : pending cores = pending s.cores) (hearly : s.place.early = true)
    (hown : s.place.own w = w.count + 1 - wc) (hp : p.early = true)
    (hpown : p.own w = w.count + 1 - wc) (hpassed : p.passed w.count = k)
    (hexpects : p.Expects w) (hstored : p.stored = false) :
    Inv w ((s.setCores cores).goto p) := by
  refine h.go hearly (hpassed.symm ▸ hcores) hp hexpects ?_ (fun htrue => ?_)
  · change s.count = p.own w + pending cores
    rw [h.count_eq (h.asleep hearly).1, hown, hpown, hpending]
  · rw [hstored] at htrue
    contradiction

theorem Inv.setCallback (h : Inv w s) {wc : Nat} (hplace : s.place = .attach k wc)
    (hk : w.handles[k]? = some c) : Inv w (setCallback w s k wc c) := by
  have hcores := h.cores
  have hexpects := h.expects
  have hearly : s.place.early = true := by rw [hplace]; rfl
  have hown : s.place.own w = w.count + 1 - wc := by rw [hplace]; rfl
  rw [hplace] at hcores hexpects
  unfold Await.setCallback
  cases hc : w.shared c with
  | true =>
    simp only [if_true]
    cases hword : s.cores.callback c with
    | kResult => exact h.pass hcores rfl hearly hown hexpects.2 hk (.inl hword)
    | ptr q => exact h.within hcores rfl hearly hown rfl rfl rfl ⟨hexpects.2, c, hk, hc⟩ rfl
  | false =>
    simp only [Bool.false_eq_true, if_false]
    by_cases hword : s.cores.callback c = .kEmpty
    · rw [if_pos hword]
      exact h.within hcores rfl hearly hown rfl rfl rfl ⟨hexpects.2, c, hk, hc⟩ rfl
    · rw [if_neg hword]
      exact h.pass hcores rfl hearly hown hexpects.2 hk (hcores.unique_done hc hword)

/-- The coroutine goes on in its own thread. -/
theorem Inv.goOn (h : Inv w s) (hearly : s.place.early = true) (hown : s.place.own w = 1)
    (hpassed : s.place.passed w.count = w.count) (hcount : s.count = 1) (x : Int) :
    Inv w (State.goOn { s with count := x }) := by
  obtain ⟨hresumes, hsubmitted, hresumings, -⟩ := h.asleep hearly
  have hpending : pending s.cores = 0 := by
    have heq := h.count_eq hresumes
    omega
  have hcores := h.cores
  rw [hpassed] at hcores
  refine ⟨hcores, trivial, ?_, ?_, ?_, ?_, h.resuming, h.dangling, h.unset⟩
  · intro hnone
    exact absurd hnone (Nat.succ_ne_zero _)
  · change s.resumes + 1 + s.submitted + 0 + s.resumings = once (0 + pending s.cores)
    rw [hpending, once_zero]
    omega
  · exact iff_of_true rfl (Nat.succ_pos _)
  · intro hstored
    contradiction

theorem Inv.awaitReady (h : Inv w s) (hplace : s.place = .ready) : Inv w (awaitReady w s) := by
  have hearly : s.place.early = true := by rw [hplace]; rfl
  have hown : s.place.own w = 1 := by rw [hplace]; rfl
  have hpassed : s.place.passed w.count = w.count := by rw [hplace]; rfl
  have hcores := h.cores
  rw [hpassed] at hcores
  have hstore : Inv w (s.goto .store) := by
    refine h.go hearly hcores rfl trivial ?_ (fun hstored => ?_)
    · rw [h.count_eq (h.asleep hearly).1, hown]
      rfl
    · contradiction
  unfold Await.awaitReady
  split
  · split
    · next hcount => exact h.goOn hearly hown hpassed hcount s.count
    · exact hstore
  · exact hstore

theorem Inv.setContinuation (h : Inv w s) (hplace : s.place = .store) :
    Inv w ((setContinuation w s).goto .sub) := by
  have hearly : s.place.early = true := by rw [hplace]; rfl
  have hcores := h.cores
  have hcount := h.count_eq (h.asleep hearly).1
  rw [hplace] at hcores hcount
  unfold Await.setContinuation
  cases hevent : w.event with
  | awaitEvent sticky =>
    have hlink : Cores w (s.cores.link .event (some .promise)) s.foreigns w.count :=
      hcores.link fun d hd => hcores.event_fresh hd
    refine h.go hearly hlink rfl trivial hcount fun _ => ?_
    simp [State.continuation, hevent, Callbacks.link, State.setCores]
  | awaitOnEvent =>
    refine h.go hearly hcores rfl trivial hcount fun _ => ?_
    simp [State.continuation, hevent]

theorem Inv.subEqual (h : Inv w s) (hplace : s.place = .sub) : Inv w (subEqual w s) := by
  have hearly : s.place.early = true := by rw [hplace]; rfl
  have hown : s.place.own w = 1 := by rw [hplace]; rfl
  have hpassed : s.place.passed w.count = w.count := by rw [hplace]; rfl
  obtain ⟨hresumes, hsubmitted, hresumings, -⟩ := h.asleep hearly
  have heq := h.count_eq hresumes
  have hcores := h.cores
  have hstored : s.continuation w = some .promise := h.stored (by rw [hplace]; rfl)
  have hgone : s.resumes = 0 → (s.fetchSub 1).count = 0 + pending s.cores := by
    intro _
    simp only [State.fetchSub]
    omega
  have hcontinued : ∀ p : Place, p ≠ .continued → (p = .continued ↔ 0 < s.resumes) :=
    fun p hp => iff_of_false hp (by omega)
  rw [hpassed] at hcores
  unfold Await.subEqual
  split
  · next hcount =>
    split
    · exact h.goOn hearly hown hpassed hcount _
    · refine ⟨hcores, trivial, fun hzero => ?_, ?_, hcontinued .submit (by simp),
        fun _ => hstored, h.resuming, h.dangling, h.unset⟩
      · exact (hgone hzero).trans (by simp [State.goto, State.fetchSub, Place.own])
      · have hpending : pending s.cores = 0 := by omega
        change s.resumes + s.submitted + 1 + s.resumings = once (0 + pending s.cores)
        rw [hpending, once_zero]
        omega
  · next hcount =>
    refine ⟨hcores, trivial, fun hzero => ?_, ?_, hcontinued .suspended (by simp),
      fun _ => hstored, h.resuming, h.dangling, h.unset⟩
    · exact (hgone hzero).trans (by simp [State.goto, State.fetchSub, Place.own])
    · change s.resumes + s.submitted + 0 + s.resumings = once (0 + pending s.cores)
      rw [once_pos (by omega)]
      omega

/-- The coroutine submits itself only if its own subtraction was the last one. -/
theorem Inv.submitSelf (h : Inv w s) (hplace : s.place = .submit) :
    Inv w (s.submit.goto .suspended) := by
  have hcores := h.cores
  have honce := h.once_eq
  have hcount := h.count_eq
  have hstored : s.continuation w = some .promise := h.stored (by rw [hplace]; rfl)
  have hresumes : ¬ 0 < s.resumes := by
    rw [← h.continued, hplace]
    simp
  rw [hplace] at hcores honce hcount
  refine ⟨hcores, trivial, hcount, ?_, iff_of_false (by simp [State.goto]) hresumes,
    fun _ => hstored, h.resuming, h.dangling, h.unset⟩
  change s.resumes + (s.submitted + 1) + 0 + s.resumings = once (0 + pending s.cores)
  simp only [Place.submitting, Place.own] at honce
  omega

/-- The executor resumes a coroutine that was submitted, once. -/
theorem Inv.execute (h : Inv w s) (hstep : execute s = some t) : Inv w t := by
  unfold Await.execute at hstep
  split at hstep
  · next hpos =>
    obtain rfl := Option.some.inj hstep
    obtain ⟨-, -, hone, -⟩ := h.woken (by omega)
    refine h.resume (r := s.resuming) (by omega) ?_
    unfold State.resumings at hone
    omega
  · contradiction

variable [DecidableEq κ]

/-! ### The coroutine -/

/-- The compare-and-swap of the handle `k` succeeds. -/
theorem Inv.attach (h : Inv w s) {wc : Nat} {q : Option Node}
    (hcores : Cores w cores s.foreigns k) (hpending : pending cores = pending s.cores)
    (hearly : s.place.early = true) (hown : s.place.own w = w.count + 1 - wc) (hwc : wc ≤ k)
    (hk : w.handles[k]? = some c) (hword : cores.callback c = .ptr q)
    (hlink : cores.links w.shared c (w.node k c) = q) :
    Inv w ((s.setCores (cores.attach c (w.node k c))).goto (.attach (k + 1) (wc + 1))) := by
  have hlt := Call.lt_count hk
  have hours := w.node_ours k c
  have hattach : Cores w (cores.attach c (w.node k c)) s.foreigns (k + 1) := by
    refine hcores.attach hword hlink (Nat.le_refl _) ?_ (fun _ => hours) (Nat.le_succ k) ?_ ?_
    · intro i heq
      rw [heq] at hours
      contradiction
    · intro _
      exact ⟨k, Nat.lt_succ_self k, hk, rfl⟩
    · intro i hi hle d hd
      obtain rfl : i = k := by omega
      rw [hk, Option.some.injEq] at hd
      subst hd
      exact ⟨rfl, rfl⟩
  refine h.go hearly hattach rfl ⟨hlt, by omega⟩ ?_ (fun hstored => ?_)
  · change s.count = ((w.count + 1 - (wc + 1) : Nat) : Int) + pending (cores.attach c (w.node k c))
    rw [h.count_eq (h.asleep hearly).1, hown, pending_attach, hpending, hours, Bool.toNat_true]
    omega
  · contradiction

theorem Inv.setCallbackSwap (h : Inv w s) {wc : Nat} (hplace : s.place = .attachSwap k wc)
    (hk : w.handles[k]? = some c) : Inv w (setCallbackSwap w s k wc c) := by
  have hcores := h.cores
  have hexpects := h.expects
  have hearly : s.place.early = true := by rw [hplace]; rfl
  have hown : s.place.own w = w.count + 1 - wc := by rw [hplace]; rfl
  rw [hplace] at hcores hexpects
  obtain ⟨hwc, d, hd, hc⟩ := hexpects
  rw [hk, Option.some.injEq] at hd
  subst hd
  unfold Await.setCallbackSwap
  split
  · next hword =>
    exact h.attach hcores rfl hearly hown hwc hk hword (by simp [Callbacks.links, hc])
  · next hword => exact h.pass hcores rfl hearly hown hwc hk (hcores.unique_done hc hword)

theorem Inv.setCallbackLoop (h : Inv w s) {wc : Nat} {expected : Option Node} {weak : Bool}
    (hplace : s.place = .attachLoop k wc expected) (hk : w.handles[k]? = some c) :
    Inv w (setCallbackLoop w s k wc c expected weak) := by
  have hcores := h.cores
  have hexpects := h.expects
  have hearly : s.place.early = true := by rw [hplace]; rfl
  have hown : s.place.own w = w.count + 1 - wc := by rw [hplace]; rfl
  rw [hplace] at hcores hexpects
  obtain ⟨hwc, d, hd, hc⟩ := hexpects
  rw [hk, Option.some.injEq] at hd
  subst hd
  have hlink : Cores w (s.cores.link (w.node k c) expected) s.foreigns k :=
    hcores.link fun d hd => hcores.fresh hc hd
  unfold Await.setCallbackLoop
  dsimp only
  split
  · next hround =>
    refine h.attach hlink rfl hearly hown hwc hk (Callback.eq_of_attached hround) ?_
    simp [Callbacks.links, hc, Callbacks.link, State.setCores]
  · next hround => exact h.pass hlink rfl hearly hown hwc hk (.inl (Callback.eq_of_refused hround))
  · exact h.within hlink rfl hearly hown rfl rfl rfl ⟨hwc, c, hk, hc⟩ rfl

theorem Inv.advance (h : Inv w s) {weak : Bool} (hstep : advance w s weak = some t) :
    Inv w t := by
  unfold Await.advance at hstep
  cases hplace : s.place with
  | attach k wc =>
    cases hk : w.handles[k]? with
    | some c =>
      simp only [hplace, hk, Option.some.injEq] at hstep
      subst hstep
      exact h.setCallback hplace hk
    | none =>
      simp only [hplace, hk, Option.some.injEq] at hstep
      subst hstep
      have hearly : s.place.early = true := by rw [hplace]; rfl
      have hcores := h.cores
      have hexpects := h.expects
      have hcount := h.count_eq (h.asleep hearly).1
      rw [hplace] at hcores hexpects hcount
      obtain ⟨hle, hwc⟩ := hexpects
      -- the handles end here
      have hlast : k = w.count := Nat.le_antisymm hle (List.getElem?_eq_none_iff.mp hk)
      have hall : Cores w s.cores s.foreigns w.count := hlast ▸ hcores
      refine h.go hearly hall rfl trivial ?_ (fun hstored => ?_)
      · change s.count - ((w.count - wc : Nat) : Int) = ((1 : Nat) : Int) + pending s.cores
        simp only [Place.own] at hcount
        omega
      · contradiction
  | attachSwap k wc =>
    simp only [hplace, Option.map_eq_some_iff] at hstep
    obtain ⟨c, hk, rfl⟩ := hstep
    exact h.setCallbackSwap hplace hk
  | attachLoop k wc expected =>
    simp only [hplace, Option.map_eq_some_iff] at hstep
    obtain ⟨c, hk, rfl⟩ := hstep
    exact h.setCallbackLoop hplace hk
  | ready =>
    simp only [hplace, Option.some.injEq] at hstep
    subst hstep
    exact h.awaitReady hplace
  | store =>
    simp only [hplace, Option.some.injEq] at hstep
    subst hstep
    exact h.setContinuation hplace
  | sub =>
    simp only [hplace, Option.some.injEq] at hstep
    subst hstep
    exact h.subEqual hplace
  | submit =>
    simp only [hplace, Option.some.injEq] at hstep
    subst hstep
    exact h.submitSelf hplace
  | suspended | continued => simp [hplace] at hstep

/-! ### The producers, the executor and other threads -/

theorem Inv.callCallback (h : Inv w s) {next : Option Node}
    (hwalk : s.cores.walk c = .call m next) : Inv w (callCallback s c m next) := by
  have hpop := h.cores.pop hwalk
  have hpending := h.cores.pending_pop hwalk
  unfold Await.callCallback
  split
  · next hours =>
    obtain ⟨xs, hxs, -⟩ := (h.cores.sound c).held_call hwalk
    have hm : m ∈ s.cores.held c := by
      rw [hxs]
      exact List.mem_cons_self
    obtain ⟨hresumes, hsubmitted, hsubmitting, hresumings⟩ := h.waits hm hours
    obtain ⟨j, -, hj, -⟩ := h.cores.placed c m hm hours
    have hcount := h.count_eq hresumes
    rw [hours, Bool.toNat_true] at hpending
    have hlast : decide (s.count = 1) = decide (s.place.own w + pending (s.cores.pop c next) = 0) :=
      decide_eq_decide.mpr (by omega)
    rw [touch_eq hresumes]
    refine ⟨hpop, h.expects, ?_, ?_, h.continued, h.stored, ?_, h.dangling, h.unset⟩
    · intro _
      change s.count - ((1 : Nat) : Int) = s.place.own w + pending (s.cores.pop c next)
      omega
    · have hupdate := tally_update Bool.toNat s.resuming c (decide (s.count = 1))
      have hle := le_tally Bool.toNat s.resuming c
      change s.resumes + s.submitted + s.place.submitting +
        tally Bool.toNat (Function.update s.resuming c (decide (s.count = 1))) =
        once (s.place.own w + pending (s.cores.pop c next))
      unfold State.resumings at hresumings
      rw [hlast] at hupdate ⊢
      unfold once
      split
      · next hzero =>
        simp only [hzero, decide_true, Bool.toNat_true] at hupdate ⊢
        omega
      · next hzero =>
        simp only [hzero, decide_false, Bool.toNat_false] at hupdate ⊢
        omega
    · intro d hd
      by_cases hdc : d = c
      · exact hdc ▸ List.mem_of_getElem? hj
      · have hother : Function.update s.resuming c (decide (s.count = 1)) d = s.resuming d :=
          Function.update_of_ne hdc ..
        exact h.resuming d (hother.symm.trans hd)
  · next hours =>
    have hsame : pending (s.cores.pop c next) = pending s.cores := by
      rw [← hpending]
      simp [hours]
    have hcount := h.count_eq
    have honce := h.once_eq
    rw [← hsame] at hcount honce
    exact ⟨hpop, h.expects, hcount, honce, h.continued, h.stored, h.resuming, h.dangling, h.unset⟩

/-- The producer whose decrement was the last one resumes the coroutine. -/
theorem Inv.impl (h : Inv w s) (hc : s.resuming c = true) : Inv w (impl w s c) := by
  have hupdate := tally_update Bool.toNat s.resuming c false
  have hle := le_tally Bool.toNat s.resuming c
  rw [hc] at hupdate hle
  simp only [Bool.toNat_true, Bool.toNat_false] at hupdate hle
  have hpos : 0 < s.submitted + s.resumings := by
    unfold State.resumings
    omega
  obtain ⟨hplace, hresumes, hone, -⟩ := h.woken hpos
  have hrest : s.submitted + tally Bool.toNat (Function.update s.resuming c false) = 0 := by
    unfold State.resumings at hone
    omega
  have hstored : s.continuation w = some .promise := h.stored (by rw [hplace]; rfl)
  have hunset : (s.unset || decide (s.continuation w ≠ some Node.promise)) = s.unset := by
    simp [hstored]
  unfold Await.impl
  rw [touch_eq hresumes, hunset]
  have hsubmitted : s.submitted = 0 := by omega
  have hresume := h.resume (r := Function.update s.resuming c false) (a := s.submitted) hpos hrest
  have hsubmit := h.submit (r := Function.update s.resuming c false) hpos hrest
  cases w.event with
  | awaitEvent sticky =>
    cases sticky with
    | false => exact hresume
    | true => exact hsubmit
  | awaitOnEvent => exact hsubmit

theorem Inv.producer (h : Inv w s) (hstep : producerStep w s c = some t) : Inv w t := by
  unfold producerStep at hstep
  split at hstep
  · next hc =>
    obtain rfl := Option.some.inj hstep
    exact h.impl hc
  · cases hwalk : s.cores.walk c with
    | before =>
      rw [hwalk] at hstep
      obtain rfl := Option.some.inj hstep
      exact ⟨h.cores.setResult hwalk, h.expects, h.count_eq, h.once_eq, h.continued, h.stored,
        h.resuming, h.dangling, h.unset⟩
    | visit head =>
      rw [hwalk] at hstep
      obtain rfl := Option.some.inj hstep
      have htouch : (if head.ours then s.touch else s) = s := by
        split
        · next hours =>
          obtain ⟨xs, hxs, -⟩ := (h.cores.sound c).held_visit hwalk
          have hm : head ∈ s.cores.held c := by
            rw [hxs]
            exact List.mem_cons_self
          exact touch_eq (h.waits hm hours).1
        · rfl
      rw [htouch]
      exact ⟨h.cores.visit hwalk, h.expects, h.count_eq, h.once_eq, h.continued, h.stored,
        h.resuming, h.dangling, h.unset⟩
    | call head next =>
      rw [hwalk] at hstep
      obtain rfl := Option.some.inj hstep
      exact h.callCallback hwalk
    | finished =>
      rw [hwalk] at hstep
      contradiction

theorem Inv.foreign (h : Inv w s) (hstep : foreign w s c = some t) : Inv w t := by
  unfold Await.foreign at hstep
  split at hstep
  · next q hc hword =>
    obtain rfl := Option.some.inj hstep
    have hfresh : ∀ d, w.shared d = true → .foreign s.foreigns ∉ s.cores.held d := by
      intro d _ hm
      exact Nat.lt_irrefl _ (h.cores.foreign_lt d _ hm)
    have hattach := (h.cores.link (p := q) hfresh).attach (c := c) (m := .foreign s.foreigns)
      (k := s.foreigns + 1) (j := s.place.passed w.count) hword
      (by simp [Callbacks.links, hc, Callbacks.link]) (Nat.le_succ _)
      (by intro i heq; cases heq; exact Nat.lt_succ_self _) (by simp [hc]) (Nat.le_refl _)
      (by intro hours; contradiction) (by intro i hi hle; omega)
    have hpending : pending ((s.cores.link (.foreign s.foreigns) q).attach c (.foreign s.foreigns)) =
        pending s.cores := pending_attach ..
    have hcount := h.count_eq
    have honce := h.once_eq
    rw [← hpending] at hcount honce
    refine ⟨hattach, h.expects, hcount, honce, h.continued, ?_, h.resuming, h.dangling, h.unset⟩
    intro hstored
    have hold := h.stored hstored
    unfold State.continuation at hold ⊢
    cases hevent : w.event with
    | awaitEvent sticky =>
      rw [hevent] at hold
      exact hold
    | awaitOnEvent =>
      rw [hevent] at hold
      exact hold
  · contradiction

theorem inv_of_reachable (hs : (system w).Reachable s) : Inv w s := by
  refine System.Inductive.reachable (P := Inv w) ⟨?_, ?_⟩ hs
  · rintro s rfl
    have hpending : pending ({} : Callbacks κ Node) = 0 := tally_eq_zero.mpr fun _ => rfl
    have hresumings : tally Bool.toNat (fun _ : κ => false) = 0 := tally_eq_zero.mpr fun _ => rfl
    refine ⟨.initial w, ⟨Nat.zero_le _, Nat.le_refl _⟩, ?_, ?_, by simp, by simp [Place.stored],
      by simp, rfl, rfl⟩
    · intro _
      simp [Place.own, hpending]
    · rw [once_pos (by simp [Place.own])]
      change 0 + 0 + 0 + tally Bool.toNat (fun _ : κ => false) = 0
      rw [hresumings]
  · intro s e t h hstep _
    cases e with
    | advance weak => exact h.advance hstep
    | producer c => exact h.producer hstep
    | foreign c => exact h.foreign hstep
    | execute => exact h.execute hstep

/-! ### What it says of every run -/

end Yaclib.Await
