import Yaclib.Fault.Fiber.Scheduler.Lists
import Yaclib.Fault.Fiber.Scheduler.Steps

/-!
`RunLoop`: time is advanced, the entries that are over go to the run queue, and one of its
fibers is resumed.
-/

namespace Yaclib.Fault.Fiber.Scheduler

open Concurrency Intrusive

variable {φ κ : Type} {q : κ → Node φ κ} {heads : Node φ κ → Prop} {s t : State φ κ}
  {L L' : Node φ κ → List (Node φ κ)} {f g : φ} {o p : Option (Node φ κ)} {u : UInt64}

/-! ### The next fiber -/

theorem Expected.resume (h : Expected q s f (some .queue) p) (hplace : t.place f = s.place f)
    (hremoved : t.removed f = s.removed f) (hcontrol : t.control = .fiber f)
    (hstate : t.state f = .Running) : Expected q t f none p := by
  have hturn : Turn t f none := .inl ⟨hcontrol, hstate, rfl⟩
  unfold Expected at *
  rw [hplace, hremoved]
  cases hp : s.place f with
  | fresh | suspended | exited =>
    simp only [hp] at h
    cases h.2.1
  | client =>
    simp only [hp] at h
    exact ⟨h.1, hturn⟩
  | sleep u =>
    simp only [hp] at h
    exact ⟨h.1, .inl hturn⟩
  | wait k =>
    simp only [hp] at h
    dsimp only
    split at h
    · rename_i hr
      rw [if_pos hr]
      exact ⟨h.1, hturn⟩
    · cases h.2.2.2
  | timedWait k ns u =>
    simp only [hp] at h
    dsimp only
    split at h
    · rename_i hr
      rw [if_pos hr]
      exact ⟨h.1, hturn⟩
    · rename_i hr
      rw [if_neg hr]
      exact ⟨h.1, by simp [hstate], .inl hturn⟩

/-- In the run queue are scheduler nodes. -/
theorem Listed.queued (h : Listed s L) {n : Node φ κ} (hn : n ∈ L .queue) :
    ∃ f, n = .scheduler f ∧ Only (Heads s.sleep_list) L (.scheduler f) (some .queue) := by
  have hhead : Heads s.sleep_list (.queue : Node φ κ) := trivial
  obtain ⟨f, hof⟩ := h.nodes .queue hhead n hn
  obtain ⟨o, p, ho, hp, hexpected⟩ := (h.fiber f).position
  cases n with
  | scheduler g =>
    obtain rfl : g = f := hof
    obtain rfl := (ho.2 .queue hhead).mp hn
    exact ⟨g, rfl, ho⟩
  | waitQueue g =>
    obtain rfl : g = f := hof
    obtain rfl := (hp.2 .queue hhead).mp hn
    rcases hexpected.wait with heq | ⟨k, heq⟩
    · cases heq
    · cases heq
  | queue | sleep _ | wait _ | all => cases hof

/-- A fiber in a timed wait is resumed in time. If it was notified, it has to find its entry, or
this is over; if not, time has to go on. -/
def ResumeApt (tick : UInt64) (s : State φ κ) (f : φ) : Place κ → Prop
  | .timedWait _ _ u =>
    if s.removed f then u < s.time + tick ∨ u ∈ s.sleep_list else tick ≠ 0 ∨ u < s.time
  | _ => True

/-- What `WakeUpNeeded` does: the entries that are over are gone, and their fibers are in the
run queue. -/
structure Woke (time : UInt64) (keys rest : List UInt64) (L L' : Node φ κ → List (Node φ κ)) :
    Prop where
  sublist : rest.Sublist keys
  later : keys.Pairwise (· < ·) → ∀ u ∈ rest, time < u
  only : ∀ n r, Only (Heads keys) L n r → Only (Heads rest) L' n r ∨
    ∃ u, u ≤ time ∧ r = some (.sleep u) ∧ Only (Heads rest) L' n (some .queue)

/-- `AdvanceTime` in an iteration with an empty run queue. -/
theorem State.advanceTime_spec (s : State φ κ) :
    ∃ time, s.advanceTime = { s with time := time } ∧ s.time ≤ time ∧
      ∀ first rest, s.sleep_list = first :: rest → first ≤ time ∧
        (s.time ≤ first → time = first) ∧ (first < s.time → time = s.time) := by
  unfold State.advanceTime
  split
  · rename_i hnil
    refine ⟨s.time, rfl, UInt64.le_refl _, ?_⟩
    intro first rest hkeys
    rw [hnil] at hkeys
    cases hkeys
  · rename_i first rest hkeys
    have hsum : s.time + (first - s.time) = first := by
      rw [UInt64.add_comm, UInt64.sub_add_cancel]
    by_cases hlate : s.time ≤ first
    · rw [if_pos hlate]
      refine ⟨_, rfl, by rw [hsum]; exact hlate, ?_⟩
      intro first' rest' hkeys'
      rw [hkeys] at hkeys'
      obtain ⟨rfl, rfl⟩ := List.cons.inj hkeys'
      refine ⟨by rw [hsum]; exact UInt64.le_refl _, fun _ => hsum, ?_⟩
      intro hpast
      exact absurd hlate (UInt64.not_le.mpr hpast)
    · rw [if_neg hlate]
      refine ⟨s.time, rfl, UInt64.le_refl _, ?_⟩
      intro first' rest' hkeys'
      rw [hkeys] at hkeys'
      obtain ⟨rfl, rfl⟩ := List.cons.inj hkeys'
      refine ⟨UInt64.le_of_lt (UInt64.not_le.mp hlate), ?_, fun _ => rfl⟩
      intro hlate'
      exact absurd hlate' hlate

/-- What a fiber sleeps until is the key of its entry. -/
theorem Listed.until_key (h : Listed s L) {v : UInt64} (huntil : Until s f u)
    (hin : Only (Heads s.sleep_list) L (.scheduler f) (some (.sleep v))) : u = v := by
  obtain ⟨o, p, ho, -, hexpected⟩ := (h.fiber f).position
  obtain rfl := ho.eq hin
  have hturn : ∀ w, Turn s f (some (.sleep v)) ∨ Asleep s f w (some (.sleep v)) → w = v := by
    rintro w ((⟨-, -, hnone⟩ | ⟨-, hqueue⟩) | ⟨-, hkey⟩)
    · cases hnone
    · cases hqueue
    · injection hkey with hkey
      injection hkey with hkey
      exact hkey.symm
  unfold Expected at hexpected
  rcases huntil with hplace | ⟨k, ns, hplace, hremoved⟩
  · simp only [hplace] at hexpected
    exact hturn u hexpected.2
  · simp only [hplace, hremoved] at hexpected
    exact hturn u hexpected.2.2

/-- A notified fiber that does not run is in the run queue. -/
theorem Listed.woken_queued (h : Listed s L) (hwoken : Woken s f u)
    (hidle : s.control ≠ .fiber f) : .scheduler f ∈ L .queue := by
  obtain ⟨o, p, ho, -, hexpected⟩ := (h.fiber f).position
  obtain ⟨k, ns, hplace, hremoved⟩ := hwoken
  unfold Expected at hexpected
  simp only [hplace, hremoved, if_true] at hexpected
  rcases hexpected.2 with ⟨hrun, -⟩ | ⟨-, rfl⟩
  · exact absurd hrun hidle
  · exact ho.mem

/-- Time after an iteration. -/
theorem OnTime.woke (hon : OnTime s L) (h : Listed s L) {rest : List UInt64}
    (hwoke : Woke t.time s.sleep_list rest L L') (hkeys : t.sleep_list = rest)
    (hplace : t.place = s.place) (hremoved : t.removed = s.removed)
    (hcontrol : t.control = .next) (hle : s.time ≤ t.time)
    (hready : L .queue ≠ [] ∨ ∃ u ∈ s.sleep_list, u ≤ t.time ∧ L (.sleep u) ≠ []) :
    OnTime t L' := by
  have hlater := hwoke.later hon.punctual.sorted
  unfold OnTime
  rw [hkeys]
  constructor
  · refine ⟨hkeys ▸ hon.punctual.sorted.sublist hwoke.sublist, ?_, ?_, ?_, ?_⟩
    · rintro f u huntil (hrun | hqueue)
      · rw [hcontrol] at hrun
        cases hrun
      · unfold Until at huntil
        rw [hplace, hremoved] at huntil
        obtain ⟨r, hr⟩ := h.store.exists_only (.scheduler f)
        rcases hwoke.only _ r hr with hstays | ⟨v, hv, rfl, -⟩
        · obtain rfl := hstays.eq hqueue
          exact UInt64.le_trans (hon.punctual.due f u huntil (.inr hr)) hle
        · rw [h.until_key huntil hr]
          exact hv
    · intro f k ns u htimed
      exact hon.punctual.delay f k ns u (hplace ▸ htimed)
    · intro _
      rcases hready with hqueue | ⟨u, hu, hpast, hentry⟩
      · obtain ⟨n, hn⟩ := List.exists_mem_of_ne_nil _ hqueue
        obtain ⟨f, rfl, hin⟩ := h.queued hn
        rcases hwoke.only _ _ hin with hstays | ⟨v, -, heq, -⟩
        · exact List.ne_nil_of_mem hstays.mem
        · cases heq
      · obtain ⟨n, hn⟩ := List.exists_mem_of_ne_nil _ hentry
        obtain ⟨r, hr⟩ := h.store.exists_only n
        obtain rfl : r = some (.sleep u) := (hr.2 (.sleep u) hu).mp hn
        rcases hwoke.only _ _ hr with hstays | ⟨v, -, -, hmoved⟩
        · have hkept : u ∈ rest := hstays.1 _ rfl
          exact absurd hpast (UInt64.not_le.mpr (hlater u hkept))
        · exact List.ne_nil_of_mem hmoved.mem
    · intro f k ns u hrun
      rw [hcontrol] at hrun
      cases hrun
  · intro u hu hempty
    rw [hkeys] at hu
    have hold : u ∈ s.sleep_list := hwoke.sublist.subset hu
    have hnil : L (.sleep u) = [] := by
      by_contra hne
      obtain ⟨n, hn⟩ := List.exists_mem_of_ne_nil _ hne
      obtain ⟨r, hr⟩ := h.store.exists_only n
      obtain rfl : r = some (.sleep u) := (hr.2 (.sleep u) hold).mp hn
      rcases hwoke.only _ _ hr with hstays | ⟨v, hv, heq, -⟩
      · have hmem := hstays.mem
        rw [hempty] at hmem
        cases hmem
      · injection heq with heq
        injection heq with heq
        exact absurd (heq ▸ hv) (UInt64.not_le.mpr (hlater u hu))
    unfold Woken
    rw [hplace, hremoved]
    exact (hon.swept u hold hnil).imp_left fun hpast => UInt64.lt_of_lt_of_le hpast hle

variable [DecidableEq φ] [DecidableEq κ]

/-- Time does not wrap, and the next fiber is resumed in time. -/
def NextApt (tick : UInt64) (s : State φ κ) (ind : Nat) (reversed : Bool) : Prop :=
  s.time ≤ s.time + tick ∧ ∀ f, s.heap.getElement .queue ind reversed = some (.scheduler f) →
    ResumeApt tick s f (s.place f)

/-- `GetNext`, `TickTime` and `Resume` -/
theorem Listed.next (h : Listed s L) (hcontrol : s.control = .next) {tick : UInt64} {ind : Nat}
    {reversed : Bool} (ht : s.next tick ind reversed = some t) :
    t.time = s.time + tick ∧ ∃ L', Listed t L' ∧
      (OnTime s L → NextApt tick s ind reversed → OnTime t L') := by
  have hlist := h.store.list .queue trivial
  have hne : L .queue ≠ [] := by
    intro hnil
    rw [hnil] at hlist
    rw [State.next, hlist.getElement_nil] at ht
    cases ht
  obtain ⟨n, hn, hget⟩ := hlist.getElement hne ind reversed
  obtain ⟨f, rfl, hin⟩ := h.queued hn
  rw [State.next, hget] at ht
  obtain rfl := Option.some.inj ht
  obtain ⟨o, p, ho, hp, hexpected⟩ := (h.fiber f).position
  obtain rfl := ho.eq hin
  obtain ⟨heap, L', herase, hnull, hmove⟩ := h.store.move_erase hin
  have hm := move_scheduler (h.bare · f) (h.loose · f) hp hmove fun _ => hnull
  obtain ⟨t, hteq⟩ : ∃ t : State φ κ, t = { s with
    heap := (s.heap.erase (.scheduler f)).1
    time := s.time + tick
    state := Function.update s.state f .Running
    control := .fiber f } := ⟨_, rfl⟩
  rw [← hteq]
  have hheap : heap = t.heap := by rw [hteq, herase]
  have hplace : t.place = s.place := by rw [hteq]
  have hremoved : t.removed = s.removed := by rw [hteq]
  have hkeys : t.sleep_list = s.sleep_list := by rw [hteq]
  have htime : t.time = s.time + tick := by rw [hteq]
  have hrun : t.control = .fiber f := by rw [hteq]
  have hstate : t.state f = .Running := by rw [hteq]; exact Function.update_self f _ _
  have hothers : ∀ g, g ≠ f → Untouched s t g := by
    intro g hgf
    refine ⟨by rw [hplace], by rw [hremoved], ?_, ?_⟩
    · rw [hteq]
      exact Function.update_of_ne hgf _ _
    · rw [hrun, hcontrol]
      simp [Ne.symm hgf]
  rw [hheap] at hm hnull
  refine ⟨htime, L', ?_, ?_⟩
  · unfold Listed
    rw [hkeys]
    refine h.shift hm hothers
      (hexpected.resume (by rw [hplace]) (by rw [hremoved]) hrun hstate) ?_
    intro k ns u htimed hnotified
    rw [hplace] at htimed
    rw [hremoved] at hnotified
    have hout := (h.fiber f).unlinked ⟨k, ns, u, htimed⟩ hnotified
    have hsame := hmove.same (.waitQueue f) (by simp) (h.free (f := f) (by exact rfl) hout)
    rw [← hheap, hsame.1]
    exact (h.fiber f).erased k ns u htimed hnotified
  · rintro hon ⟨hwrap, hapt⟩
    have hresume := hapt f hget
    have hle : s.time ≤ t.time := htime ▸ hwrap
    unfold OnTime
    rw [hkeys]
    constructor
    · refine hon.punctual.carry h.store hm.others hothers (hkeys ▸ hon.punctual.sorted) hle
        (by simp [hrun]) ?_ ?_ ?_
      · intro u huntil _
        unfold Until at huntil
        rw [hplace, hremoved] at huntil
        exact UInt64.le_trans (hon.punctual.due f u huntil (.inr hin)) hle
      · intro k ns u htimed
        exact hon.punctual.delay f k ns u (hplace ▸ htimed)
      · intro g k ns u hrun' htimed hlate
        rw [hrun] at hrun'
        obtain rfl : f = g := Control.fiber.inj hrun'
        rw [hplace] at htimed
        rw [hkeys]
        rw [htime] at hlate
        rw [htimed] at hresume
        rw [ResumeApt] at hresume
        split at hresume
        · exact hresume.resolve_left (UInt64.not_lt.mpr hlate)
        · rename_i hnot
          exfalso
          have hdue : u ≤ s.time := hon.punctual.due f u
            (.inr ⟨k, ns, htimed, by simpa using hnot⟩) (.inr hin)
          rcases hresume with htick | hpast
          · have heq : s.time = s.time + tick :=
              UInt64.le_antisymm hwrap (UInt64.le_trans hlate hdue)
            apply htick
            have hzero : s.time + 0 = s.time + tick := by rw [UInt64.add_zero]; exact heq
            exact (UInt64.add_right_inj _).mp hzero.symm
          · exact absurd (UInt64.le_trans hwrap hlate) (UInt64.not_le.mpr hpast)
    · refine hon.swept.carry h (by simp) hm.others hothers (fun u hu => hu)
        (fun u hu _ => hkeys ▸ hu) hle ?_
      rintro u - (hasleep | hwoken) -
      · cases hin.eq hasleep
      · unfold Woken at *
        rw [hplace, hremoved]
        exact .inr hwoken

/-! ### The entries that are over -/

/-- A sleeping fiber is in the run queue when its entry was moved there. -/
theorem Expected.wake (h : Expected Node.wait s f o p) (hidle : s.control ≠ .fiber f) :
    Expected Node.wait s f (if o = some (.sleep u) then some .queue else o)
      (if p = some (.sleep u) then some .queue else p) := by
  have hp : (if p = some (.sleep u) then some .queue else p) = p := by
    apply if_neg
    rintro rfl
    rcases h.wait with heq | ⟨k, heq⟩
    · cases heq
    · cases heq
  have hturn : Turn s f o → Turn s f (if o = some (.sleep u) then some .queue else o) := by
    rintro (⟨hrun, -⟩ | ⟨hnot, rfl⟩)
    · exact absurd hrun hidle
    · exact .inr ⟨hnot, by simp⟩
  have hasleep : ∀ v, Asleep s f v o → Turn s f (if o = some (.sleep u) then some .queue else o) ∨
      Asleep s f v (if o = some (.sleep u) then some .queue else o) := by
    rintro v ⟨hnot, rfl⟩
    by_cases hv : v = u
    · exact .inl (.inr ⟨hnot, by rw [if_pos (by rw [hv])]⟩)
    · exact .inr ⟨hnot, if_neg (by simpa using hv)⟩
  rw [hp]
  unfold Expected at *
  cases hplace : s.place f with
  | fresh | suspended | exited =>
    simp only [hplace] at h
    obtain ⟨hnot, rfl, hnone⟩ := h
    exact ⟨hnot, if_neg (by simp), hnone⟩
  | client =>
    simp only [hplace] at h
    exact ⟨h.1, hturn h.2⟩
  | sleep v =>
    simp only [hplace] at h
    refine ⟨h.1, ?_⟩
    rcases h.2 with ho | ho
    · exact .inl (hturn ho)
    · exact hasleep v ho
  | wait k =>
    simp only [hplace] at h
    dsimp only
    split at h
    · rename_i hr
      rw [if_pos hr]
      exact ⟨h.1, hturn h.2⟩
    · rename_i hr
      rw [if_neg hr]
      obtain ⟨hin, hstate, hnot, rfl⟩ := h
      exact ⟨hin, hstate, hnot, if_neg (by simp)⟩
  | timedWait k ns v =>
    simp only [hplace] at h
    dsimp only
    split at h
    · rename_i hr
      rw [if_pos hr]
      exact ⟨h.1, hturn h.2⟩
    · rename_i hr
      rw [if_neg hr]
      refine ⟨h.1, h.2.1, ?_⟩
      rcases h.2.2 with ho | ho
      · exact .inl (hturn ho)
      · exact hasleep v ho

/-- The first entry goes to the run queue. -/
theorem Listed.wakeUp_cons {ns : UInt64} {keys : List UInt64} (h : Listed s L)
    (hkeys : s.sleep_list = ns :: keys) (hidle : ∀ f, s.control ≠ .fiber f) :
    ∃ heap L', s.heap.pushAll .queue (.sleep ns) = some heap ∧
      Listed { s with heap := heap, sleep_list := keys } L' ∧
      ∀ n r, Only (Heads s.sleep_list) L n r →
        Only (Heads keys) L' n (if r = some (.sleep ns) then some .queue else r) := by
  have hqueue : Heads s.sleep_list (.queue : Node φ κ) := trivial
  have hentry : Heads s.sleep_list (.sleep ns : Node φ κ) := by
    rw [hkeys]
    exact List.mem_cons_self
  obtain ⟨heap, hpush, hstore, hsame⟩ := h.store.pushAll hqueue hentry (by simp)
  have hr := h.relist_join hqueue hentry (by simp) hstore hsame
  obtain ⟨L₁, hL₁⟩ : ∃ L₁, L₁ = Function.update
    (Function.update L .queue (L .queue ++ L (.sleep ns))) (.sleep ns) [] := ⟨_, rfl⟩
  have hempty : L₁ (.sleep ns) = [] := by rw [hL₁, Function.update_self]
  rw [← hL₁] at hr
  have h₁ : Tracked Node.wait (Heads s.sleep_list) { s with heap := heap } L₁ := by
    refine h.relist (t := { s with heap := heap }) hr rfl rfl ?_
    intro f o p _ _ hexpected
    exact (hexpected.wake (hidle f)).congr ⟨rfl, rfl, rfl, Iff.rfl⟩
  have hsub : ∀ a : Node φ κ, Heads keys a → Heads s.sleep_list a := by
    intro a ha
    cases a with
    | sleep v =>
      rw [hkeys]
      exact List.mem_cons_of_mem ns ha
    | queue | wait _ => exact ha
    | all | scheduler _ | waitQueue _ => cases ha
  have hkeep : ∀ a : Node φ κ, Heads s.sleep_list a → L₁ a ≠ [] → Heads keys a := by
    intro a ha hne
    cases a with
    | sleep v =>
      rw [hkeys] at ha
      refine (List.mem_cons.mp ha).resolve_left ?_
      rintro rfl
      exact hne hempty
    | queue | wait _ => exact ha
    | all | scheduler _ | waitQueue _ => cases ha
  have hr' := h₁.relist_mono hsub hkeep
  refine ⟨heap, L₁, hpush, h₁.relist hr' rfl rfl ?_, fun n r hn => hr'.only n _ (hr.only n r hn)⟩
  intro f o p _ _ hexpected
  exact hexpected.congr ⟨rfl, rfl, rfl, Iff.rfl⟩

/-- `WakeUpNeeded` -/
theorem Listed.wakeUp (keys : List UInt64) (h : Listed s L) (hkeys : s.sleep_list = keys)
    (hidle : ∀ f, s.control ≠ .fiber f) :
    ∃ rest heap L', State.wakeUp s.time keys s.heap = some (rest, heap) ∧
      Listed { s with heap := heap, sleep_list := rest } L' ∧ Woke s.time keys rest L L' := by
  induction keys generalizing s L with
  | nil =>
    refine ⟨[], s.heap, L, rfl, ?_, List.Sublist.refl _, by simp, fun n r hn => .inl hn⟩
    rw [← hkeys]
    exact h
  | cons ns keys ih =>
    by_cases hlater : ns > s.time
    · refine ⟨ns :: keys, s.heap, L, by rw [State.wakeUp, if_pos hlater], ?_, List.Sublist.refl _, ?_,
        fun n r hn => .inl hn⟩
      · rw [← hkeys]
        exact h
      · intro hsorted u hu
        rcases List.mem_cons.mp hu with rfl | hu
        · exact hlater
        · exact UInt64.lt_trans hlater ((List.pairwise_cons.mp hsorted).1 u hu)
    · obtain ⟨heap₁, L₁, hpush, h₁, honly⟩ := h.wakeUp_cons hkeys hidle
      obtain ⟨rest, heap, L', hwake, ht, hwoke⟩ :=
        ih (s := { s with heap := heap₁, sleep_list := keys }) h₁ rfl hidle
      refine ⟨rest, heap, L', ?_, ht, hwoke.sublist.cons ns, ?_, ?_⟩
      · rw [State.wakeUp, if_neg hlater, hpush, Option.bind_some]
        exact hwake
      · intro hsorted
        exact hwoke.later (List.pairwise_cons.mp hsorted).2
      · intro n r hn
        rw [← hkeys] at hn
        have hn' := honly n r hn
        split at hn'
        · rename_i hr
          right
          refine ⟨ns, UInt64.not_lt.mp hlater, hr, ?_⟩
          rcases hwoke.only n _ hn' with hqueue | ⟨u, -, heq, -⟩
          · exact hqueue
          · cases heq
        · rcases hwoke.only n r hn' with hstays | ⟨u, hle, hr, hqueue⟩
          · exact .inl hstays
          · exact .inr ⟨u, hle, hr, hqueue⟩

/-- With an empty run queue and a stale entry, some entry that is over must not be empty. -/
def IterateApt (s : State φ κ) : Prop :=
  s.heap.empty .queue = true → (∃ u ∈ s.sleep_list, u < s.time) →
    ∃ u ∈ s.sleep_list, u ≤ s.time ∧ s.heap.empty (.sleep u) = false

/-- `RunLoop` from its condition to `GetNext` -/
theorem Listed.iterate (h : Listed s L) (hcontrol : s.control = .loop) :
    ∃ t L', s.iterate = some t ∧ s.time ≤ t.time ∧ Listed t L' ∧
      (OnTime s L → IterateApt s → OnTime t L') := by
  have hidle : ∀ f, s.control ≠ .fiber f := by simp [hcontrol]
  have hiff := (h.store.list .queue trivial).empty_iff
  unfold State.iterate
  by_cases hend : s.heap.empty .queue = true ∧ s.sleep_list = []
  · obtain ⟨t, ht⟩ : ∃ t : State φ κ, t = { s with control := .outside } := ⟨_, rfl⟩
    have hother : ∀ f, t.control ≠ .fiber f := by simp [ht]
    refine ⟨t, L, by rw [if_pos hend, ht], by rw [ht]; exact UInt64.le_refl _, ?_, ?_⟩
    · unfold Listed
      rw [show t.sleep_list = s.sleep_list by rw [ht]]
      refine h.same (by rw [ht]) ?_
      intro g
      refine ⟨by rw [ht], by rw [ht], by rw [ht], ?_⟩
      exact iff_of_false (hother g) (hidle g)
    · intro hon _
      rw [ht]
      refine ⟨⟨hon.punctual.sorted, ?_, hon.punctual.delay, nofun, nofun⟩, hon.swept⟩
      rintro f u huntil (hrun | hqueue)
      · cases hrun
      · exact hon.punctual.due f u huntil (.inr hqueue)
  · rw [if_neg hend]
    obtain ⟨time, htime, hle, hfirst⟩ : ∃ time, (if s.heap.empty .queue = true then s.advanceTime
        else s) = { s with time := time } ∧ s.time ≤ time ∧ (s.heap.empty .queue = true →
        ∀ first rest, s.sleep_list = first :: rest → first ≤ time ∧
          (s.time ≤ first → time = first) ∧ (first < s.time → time = s.time)) := by
      by_cases hempty : s.heap.empty .queue = true
      · obtain ⟨time, hadvance, hle, hfirst⟩ := s.advanceTime_spec
        exact ⟨time, by rw [if_pos hempty, hadvance], hle, fun _ => hfirst⟩
      · exact ⟨s.time, by rw [if_neg hempty], UInt64.le_refl _, fun hnot => absurd hnot hempty⟩
    dsimp only
    rw [htime]
    obtain ⟨s₁, hs₁⟩ : ∃ s₁ : State φ κ, s₁ = { s with time := time } := ⟨_, rfl⟩
    rw [← hs₁]
    have hkeys₁ : s₁.sleep_list = s.sleep_list := by rw [hs₁]
    have htime₁ : s₁.time = time := by rw [hs₁]
    have h₁ : Listed s₁ L := by
      unfold Listed
      rw [hkeys₁]
      refine h.same (by rw [hs₁]) ?_
      intro g
      rw [hs₁]
      exact ⟨rfl, rfl, rfl, Iff.rfl⟩
    obtain ⟨rest, heap, L', hwake, ht, hwoke⟩ := h₁.wakeUp s.sleep_list hkeys₁ (by rw [hs₁]; exact hidle)
    obtain ⟨t, hteq⟩ : ∃ t : State φ κ, t = { s₁ with
      heap := heap, sleep_list := rest, control := .next } := ⟨_, rfl⟩
    have hother : ∀ f, t.control ≠ .fiber f := by simp [hteq]
    have htime' : t.time = time := by rw [hteq]; exact htime₁
    refine ⟨t, L', ?_, by rw [htime']; exact hle, ?_, ?_⟩
    · rw [State.wakeUpNeeded, hkeys₁, hwake, hteq]
      rfl
    · unfold Listed
      rw [show t.sleep_list = rest by rw [hteq]]
      refine ht.same (by rw [hteq]) ?_
      intro g
      refine ⟨by rw [hteq], by rw [hteq], by rw [hteq], ?_⟩
      exact iff_of_false (hother g) (by rw [hs₁]; exact hidle g)
    · intro hon hapt
      rw [htime₁, ← htime'] at hwoke
      refine hon.woke h hwoke (by rw [hteq]) (by rw [hteq, hs₁]) (by rw [hteq, hs₁])
        (by rw [hteq]) (by rw [htime']; exact hle) ?_
      by_cases hqueue : L .queue = []
      · right
        have hempty := hiff.mpr hqueue
        obtain ⟨first, others, hkeys⟩ :=
          List.exists_cons_of_ne_nil fun hnil => hend ⟨hempty, hnil⟩
        obtain ⟨hfirst, hahead, hstale⟩ := hfirst hempty first others hkeys
        have hmem : first ∈ s.sleep_list := by
          rw [hkeys]
          exact List.mem_cons_self
        by_cases hlate : s.time ≤ first
        · refine ⟨first, hmem, htime' ▸ hfirst, ?_⟩
          intro hnil
          rcases hon.swept first hmem hnil with hpast | ⟨f, hwoken⟩
          · exact absurd hlate (UInt64.not_le.mpr hpast)
          · have hin := h.woken_queued hwoken (hidle f)
            rw [hqueue] at hin
            cases hin
        · obtain ⟨u, hu, hpast, hentry⟩ := hapt hempty ⟨first, hmem, UInt64.not_le.mp hlate⟩
          refine ⟨u, hu, by rw [htime']; exact UInt64.le_trans hpast hle, ?_⟩
          intro hnil
          rw [(h.store.list (.sleep u) hu).empty_iff.mpr hnil] at hentry
          cases hentry
      · exact .inl hqueue

end Yaclib.Fault.Fiber.Scheduler
