import Yaclib.Coro.Mutex.Safety

/-!
The order in which the suspended coroutines become owners. A record beside the
state keeps the pushes of `AwaitLock`, cut where `GetHead` exchanged `_sender`,
and the resumptions.
-/

namespace Yaclib.Mutex

open Concurrency

variable {ι E : Type}

/-- What happened so far: the pushes that each exchange of `GetHead` took, in
the order of the exchanges, the pushes since the last of them, and the suspended
coroutines that became owners. -/
structure History (ι : Type) where
  taken : List (List ι) := []
  current : List ι := []
  owners : List ι := []

namespace History

/-- All coroutines that were pushed, in the order of their pushes. -/
def pushes (h : History ι) : List ι :=
  h.taken.flatten ++ h.current

end History

/-- The order in which the coroutines that were taken become owners. -/
def Config.served (cfg : Config) (h : History ι) : List ι :=
  h.taken.flatMap cfg.serve

variable {cfg : Config} {s t : State ι E} {h : History ι} {a : Actor ι} {i n : ι}

/-- The exchange of `GetHead` serves the pushes since the one before. -/
theorem served_take (h : History ι) :
    cfg.served { h with taken := h.taken ++ [h.current], current := [] } =
      cfg.served h ++ cfg.serve h.current := by
  simp [Config.served]

/-- The owner has the token of the mutex. -/
theorem owns_iff : Owns s i ↔ (s.pc i).token = 1 := by
  unfold Owns
  cases s.pc i <;> simp

theorem lockFailed_token (await : Bool) : (lockFailed await : Pc ι E).token = 0 := by
  cases await <;> rfl

variable [DecidableEq ι]

namespace History

def unlock (h : History ι) (s : State ι E) : Unlock ι E → History ι
  | .slow _ =>
    if s.receiver = none then { h with taken := h.taken ++ [h.current], current := [] } else h
  | .submit n | .transfer n => { h with owners := h.owners ++ [n] }
  | _ => h

/-- What is written down about the step `e` from `s` to `t`. -/
def record (s : State ι E) (e : Event ι E) (t : State ι E) (h : History ι) : History ι :=
  match e with
  | .advance i _ =>
    match s.pc i with
    | .awaitLoop _ => if t.pc i matches .waiting then { h with current := h.current ++ [i] } else h
    | .unlock u => h.unlock s u
    | _ => h
  | .detached k => (s.detached[k]?).elim h (h.unlock s)
  | _ => h

end History

/-- The mutex with the record of its run. -/
def recorded [Fintype ι] (cfg : Config) : System (State ι E × History ι) (Event ι E) :=
  (system cfg).recorded {} History.record

/-- The coroutine that an unlock chose. -/
def Unlock.chosen : Unlock ι E → List ι
  | submit n | transfer n => [n]
  | _ => []

/-- The chain of `_sender` holds the pushes since the last exchange, the newest
first. The owners so far, the one that was chosen and the chain of `_receiver`
are what was taken, in the order of service. -/
def Ordered (cfg : Config) (s : State ι E) (h : History ι) : Prop :=
  ∃ xs ys zs, Chain s.next s.sender.toPtr xs ∧ Chain s.next s.receiver ys ∧
    (∀ n, xs.count n + ys.count n + zs.count n = (s.pc n).parked) ∧
    xs = h.current.reverse ∧ h.owners ++ zs ++ ys = cfg.served h
variable {p : Pc ι E} {u : Unlock ι E} {k : Kind E}

/-- A step that leaves the chains, and who is suspended. -/
theorem Ordered.keep (ho : Ordered cfg s h)
    (hnext : ∀ i, (s.pc i).parked ≠ 0 → t.next i = s.next i)
    (hsender : t.sender.toPtr = s.sender.toPtr) (hreceiver : t.receiver = s.receiver)
    (hparked : ∀ i, (t.pc i).parked = (s.pc i).parked) : Ordered cfg t h := by
  obtain ⟨xs, ys, zs, hxs, hys, hcount, hcurrent, howners⟩ := ho
  refine ⟨xs, ys, zs, ?_, ?_, ?_, hcurrent, howners⟩
  · rw [hsender]
    apply hxs.frame
    intro i hi
    have hpos := List.count_pos_iff.mpr hi
    have hcounti := hcount i
    exact hnext i (by omega)
  · rw [hreceiver]
    apply hys.frame
    intro i hi
    have hpos := List.count_pos_iff.mpr hi
    have hcounti := hcount i
    exact hnext i (by omega)
  · intro n
    rw [hparked]
    exact hcount n

/-- A move of a coroutine that is not suspended. -/
theorem Ordered.goto (ho : Ordered cfg s h) (hparked : (s.pc i).parked = p.parked) :
    Ordered cfg (s.goto i p) h :=
  ho.keep (fun _ _ => rfl) rfl rfl (parked_update hparked)

/-- An unlock owes the resumption of the coroutine that it chose. -/
theorem count_chosen (n : ι) : u.chosen.count n = u.owes n := by
  cases u <;> simp [Unlock.chosen, List.count_cons]

/-- A step of an unlock that neither chooses nor resumes a coroutine. -/
theorem Ordered.look (ho : Ordered cfg s h) (ha : s.unlockAt a = some u) {v : State ι E}
    (hsender : v.sender.toPtr = s.sender.toPtr) (hreceiver : v.receiver = s.receiver)
    (hnext : v.next = s.next) (hpc : v.pc = s.pc) (hdetached : v.detached = s.detached)
    {o : Option (Unlock ι E)} : Ordered cfg (v.put a o) h := by
  have hva : v.unlockAt a = some u := (unlockAt_congr hpc hdetached).trans ha
  apply ho.keep
  · intro i _
    rw [put_next, hnext]
  · rw [put_sender, hsender]
  · rw [put_receiver, hreceiver]
  · intro i
    rw [parked_put hva, hpc]

/-- A coroutine links itself in front of the chain of `_sender`. -/
theorem Ordered.park (ho : Ordered cfg s h) {q : Option ι} (hsender : s.sender = .ptr q)
    (hparked : (s.pc i).parked = 0) {parks : ι → Nat} :
    Ordered cfg ({ s with
      next := Function.update s.next i q
      sender := .ptr (some i)
      parks := parks }.goto i .waiting) { h with current := h.current ++ [i] } := by
  obtain ⟨xs, ys, zs, hxs, hys, hcount, hcurrent, howners⟩ := ho
  rw [hsender] at hxs
  have hi := hcount i
  rw [hparked] at hi
  have hfresh : i ∉ xs ∧ i ∉ ys :=
    ⟨List.count_eq_zero.mp (by omega), List.count_eq_zero.mp (by omega)⟩
  refine ⟨i :: xs, ys, zs, hxs.push hfresh.1, hys.update hfresh.2 q, fun n => ?_, ?_, howners⟩
  · have hn := hcount n
    simp only [State.goto, List.count_cons, beq_iff_eq]
    by_cases hin : i = n
    · subst hin
      rw [Function.update_self, if_pos rfl, Pc.parked]
      omega
    · rw [Function.update_of_ne (Ne.symm hin), if_neg hin]
      exact hn
  · rw [hcurrent, List.reverse_append]
    rfl

/-- A lock of an open mutex. -/
theorem Ordered.acquire (ho : Ordered cfg s h) (hopen : s.sender = .kNotLocked)
    (hparked : (s.pc i).parked = 0) :
    Ordered cfg ({ s with sender := kLockedNoWaiters }.goto i .held) h := by
  apply ho.keep
  · intro j _
    rfl
  · rw [hopen]
    rfl
  · rfl
  · exact parked_update hparked

/-- Links of coroutines that are not suspended here are free for other uses. -/
theorem Ordered.relink (ho : Ordered cfg s h) (hparked : (s.pc i).parked = 0) (q : Option ι) :
    Ordered cfg { s with next := Function.update s.next i q } h := by
  apply ho.keep
  · intro j hj
    apply Function.update_of_ne
    rintro rfl
    exact hj hparked
  · rfl
  · rfl
  · intro j
    rfl

theorem Ordered.awaitLock (ho : Ordered cfg s h) {expected : Word ι} {weak : Bool}
    (hpc : s.pc i = .awaitLoop expected) :
    let t := awaitLock s i expected weak
    Ordered cfg t (h.record s (.advance i weak) t) := by
  have hparked : (s.pc i).parked = 0 := by
    rw [hpc]
    rfl
  simp only [History.record, hpc]
  cases expected with
  | kNotLocked =>
    simp only [Mutex.awaitLock]
    split
    · next hswap =>
      simp only [State.goto, Function.update_self]
      exact ho.acquire hswap.1 hparked
    · simp only [State.goto, Function.update_self]
      exact ho.goto hparked
  | ptr q =>
    simp only [Mutex.awaitLock]
    split
    · next hswap =>
      simp only [State.goto, Function.update_self]
      exact ho.park hswap.1 hparked
    · simp only [State.goto, Function.update_self]
      exact (ho.relink hparked q).goto hparked

theorem Ordered.call (ho : Ordered cfg s h) {op : Op E} (hstep : call s i op = some t) :
    Ordered cfg t h := by
  have htry : ∀ await, s.pc i = .running → Ordered cfg (tryLockAwait s i await) h := by
    intro await hpc
    apply ho.goto
    split <;> cases await <;> simp [hpc, lockFailed]
  unfold Mutex.call at hstep
  split at hstep
  · next hpc => exact Option.some.inj hstep ▸ htry true hpc
  · next hpc => exact Option.some.inj hstep ▸ htry false hpc
  · next hpc => exact Option.some.inj hstep ▸ ho.goto (by simp [hpc])
  · next hpc => exact Option.some.inj hstep ▸ ho.goto (by simp [hpc])
  · next hpc =>
    cases hstep
    exact ho.keep (fun _ _ => rfl) rfl rfl (parked_update (by simp [hpc]))
  · contradiction

/-- `put` moves nobody but the owner. -/
theorem put_pc (ha : s.unlockAt a = some u) {o : Option (Unlock ι E)} (hi : ¬ Owns s i) :
    (s.put a o).pc i = s.pc i := by
  cases a with
  | coroutine j =>
    have hij : i ≠ j := by
      rintro rfl
      exact hi (.inr (.inr ⟨u, unlockAt_coroutine.mp ha⟩))
    cases o <;> simp [State.put, State.goto, hij]
  | detached k => cases o <;> rfl

theorem owns_goto {j : ι} (hi : ¬ Owns s i) (howns : Owns (s.goto j p) i) : i = j ∧ p.token = 1 := by
  rw [owns_iff] at hi howns
  by_cases hij : i = j
  · simp only [State.goto, hij, Function.update_self] at howns
    exact ⟨hij, howns⟩
  · simp only [State.goto, Function.update_of_ne hij] at howns
    contradiction

/-- No call makes its caller the owner at once. -/
theorem not_owns_call {op : Op E} (hstep : call s n op = some t) (hi : ¬ Owns s i) :
    ¬ Owns t i := by
  intro howns
  have htry : ∀ await, ¬ Owns (tryLockAwait s n await) i := by
    intro await howns
    obtain ⟨-, htoken⟩ := owns_goto hi howns
    split at htoken
    · simp at htoken
    · rw [lockFailed_token] at htoken
      contradiction
  have hheld : s.pc n = .held → i ≠ n := by
    rintro hpc rfl
    exact hi (.inr (.inl hpc))
  unfold Mutex.call at hstep
  split at hstep
  · exact htry true (Option.some.inj hstep ▸ howns)
  · exact htry false (Option.some.inj hstep ▸ howns)
  · next hpc =>
    cases hstep
    exact hheld hpc (owns_goto hi howns).1
  · next hpc =>
    cases hstep
    exact hheld hpc (owns_goto hi howns).1
  · next hpc =>
    cases hstep
    exact hheld hpc (owns_goto (s := { s with executor := _, detached := _ }) hi howns).1
  · contradiction

/-- `AwaitLock` makes an owner only of a mutex that is not locked. -/
theorem open_of_awaitLock {expected : Word ι} {weak : Bool} (hi : ¬ Owns s i)
    (howns : Owns (awaitLock s n expected weak) i) : s.sender = .kNotLocked := by
  cases expected with
  | kNotLocked =>
    simp only [Mutex.awaitLock] at howns
    split at howns
    · next hswap => exact hswap.1
    · have htoken := (owns_goto hi howns).2
      simp at htoken
  | ptr q =>
    simp only [Mutex.awaitLock] at howns
    split at howns
    · have htoken := (owns_goto (s := { s with next := _, sender := _, parks := _ }) hi howns).2
      simp at htoken
    · have htoken := (owns_goto (s := { s with next := _ }) hi howns).2
      simp at htoken

variable [Fintype ι]

/-- Nothing is owed but by the unlock that holds the token. -/
theorem Inv.owed_eq (hinv : Inv s) (ha : s.unlockAt a = some u) (n : ι) :
    s.owed n = u.owes n := by
  have hnone := tokens_put_none ha
  have hone := hinv.tokens_le
  have hput := owed_put (o := none) ha n
  have hzero : (s.put a none).tokens = 0 := by omega
  simp only [State.tokens, Nat.add_eq_zero_iff, tally_eq_zero, List.length_eq_zero_iff] at hzero
  have howed : (s.put a none).owed n = 0 := by
    simp only [State.owed, hzero.2, List.map_nil, List.sum_nil, Nat.add_zero, tally_eq_zero]
    intro i
    have hi := hzero.1 i
    cases hpc : (s.put a none).pc i with
    | unlock u => simp [hpc] at hi
    | _ => rfl
  simp only [owes?, Option.elim] at hput
  omega

/-- What the chains leave of the suspended coroutines is the chosen one. -/
theorem Inv.chosen (hinv : Inv s) (ha : s.unlockAt a = some u) {xs ys zs : List ι}
    (hxs : Chain s.next s.sender.toPtr xs) (hys : Chain s.next s.receiver ys)
    (hcount : ∀ n, xs.count n + ys.count n + zs.count n = (s.pc n).parked) : zs = u.chosen := by
  obtain ⟨xs', ys', hqueued⟩ := hinv.queued
  obtain rfl := hxs.eq_of_chain hqueued.sender
  obtain rfl := hys.eq_of_chain hqueued.receiver
  have hperm : zs.Perm u.chosen := by
    apply List.perm_iff_count.mpr
    intro n
    have hn := hcount n
    have hqn := hqueued.count n
    have howed := hinv.owed_eq ha n
    have hchosen := count_chosen (u := u) n
    omega
  cases u with
  | submit m => exact List.perm_singleton.mp hperm
  | transfer m => exact List.perm_singleton.mp hperm
  | _ => exact List.perm_nil.mp hperm

/-! The steps. -/

/-- `GetHead` and what its caller does with `_receiver`. -/
theorem Ordered.unlockSlow (ho : Ordered cfg s h) (hinv : Inv s)
    (ha : s.unlockAt a = some (.slow k)) :
    Ordered cfg (unlockSlow cfg s a k) (h.unlock s (.slow k : Unlock ι E)) := by
  obtain ⟨xs, ys, zs, hxs, hys, hcount, hcurrent, howners⟩ := ho
  obtain rfl := hinv.chosen ha hxs hys hcount
  have hnodup : xs.Nodup := by
    obtain ⟨xs', ys', hqueued⟩ := hinv.queued
    obtain rfl := hxs.eq_of_chain hqueued.sender
    exact hqueued.nodup
  obtain ⟨n, rest, v, hhead, hv, hchain, hcase⟩ :=
    getHead_chain cfg hxs hys hnodup (hinv.good a _ ha)
  have hrest : Chain v.next (v.next n) rest := by
    cases hchain with
    | cons hchain => exact hchain
  have hpc : v.pc = s.pc ∧ v.detached = s.detached := by
    rw [hv]
    exact ⟨rfl, rfl⟩
  -- the chain of `_receiver` after the hand-off, and what is left in `_sender`
  have hlists : ∃ xs', Chain v.next v.sender.toPtr xs' ∧
      (∀ m, xs'.count m + rest.count m + [n].count m = (s.pc m).parked) ∧
      xs' = (h.unlock s (.slow k : Unlock ι E)).current.reverse ∧
      (h.unlock s (.slow k : Unlock ι E)).owners ++ [n] ++ rest =
        cfg.served (h.unlock s (.slow k : Unlock ι E)) := by
    rcases hcase with ⟨hreceiver, rfl, rfl⟩ | ⟨hreceiver, rfl, hsender, hserve⟩
    · refine ⟨xs, hxs, fun m => ?_, ?_, ?_⟩
      · have hm := hcount m
        simp only [Unlock.chosen, List.count_cons, List.count_nil] at hm ⊢
        omega
      · rwa [History.unlock, if_neg hreceiver]
      · rw [History.unlock, if_neg hreceiver]
        simpa [Unlock.chosen] using howners
    · refine ⟨[], ?_, fun m => ?_, ?_, ?_⟩
      · rw [hsender]
        exact .nil
      · have hm := hcount m
        have hserved := congrArg (List.count m) hserve
        rw [Config.count_serve, List.count_reverse] at hserved
        simp only [Unlock.chosen, List.count_cons, List.count_nil] at hm hserved ⊢
        omega
      · rw [History.unlock, if_pos hreceiver]
        rfl
      · rw [History.unlock, if_pos hreceiver, served_take, ← howners]
        rw [hcurrent, List.reverse_reverse] at hserve
        simp [Unlock.chosen, ← hserve]
  obtain ⟨xs', hxs', hcount', hcurrent', howners'⟩ := hlists
  have hstep : ∀ (u' : Unlock ι E) (executor : ι → E),
      Ordered cfg ({ v with receiver := v.next n, executor := executor }.put a (some u'))
        (h.unlock s (.slow k : Unlock ι E)) := by
    intro u' executor
    refine ⟨xs', rest, [n], ?_, ?_, fun m => ?_, hcurrent', howners'⟩
    · simpa using hxs'
    · simpa using hrest
    · have hva := (unlockAt_congr (v := { v with receiver := v.next n, executor := executor })
        hpc.1 hpc.2).trans ha
      rw [parked_put hva]
      exact hpc.1 ▸ hcount' m
  rw [Mutex.unlockSlow, hhead]
  cases k with
  | on executor =>
    simp only
    split
    · exact hstep _ _
    · exact hstep _ _
  | _ => exact hstep _ _

/-- The next owner is the first of the chain of `_receiver`. -/
theorem Ordered.awaitUnlock (ho : Ordered cfg s h) (hinv : Inv s)
    (hpc : s.pc i = .unlock (.slow k)) (hreceiver : s.receiver ≠ none) :
    Ordered cfg (awaitUnlock s i) h := by
  obtain ⟨n, hn⟩ := Option.ne_none_iff_exists'.mp hreceiver
  obtain ⟨xs, ys, zs, hxs, hys, hcount, hcurrent, howners⟩ := ho
  obtain rfl := hinv.chosen (unlockAt_coroutine.mpr hpc) hxs hys hcount
  rw [hn] at hys
  obtain ⟨rest, rfl, hrest⟩ := hys.of_some
  simp only [Mutex.awaitUnlock, hn]
  refine ⟨xs, rest, [n], hxs, hrest, fun m => ?_, hcurrent, ?_⟩
  · have hm := hcount m
    have hplace := parked_update (s := s) (i := i) (p := .ready) (by simp [hpc]) m
    simp only [Unlock.chosen, List.count_cons, List.count_nil] at hm
    simp only [State.goto, hplace, List.count_cons, List.count_nil]
    omega
  · simpa [Unlock.chosen] using howners

/-- The chosen coroutine is resumed. -/
theorem Ordered.deliver (ho : Ordered cfg s h) (hinv : Inv s) (ha : s.unlockAt a = some u)
    (hchosen : u.chosen = [n]) (hp : p.parked = 0) :
    Ordered cfg ((s.put a none).resume n p) { h with owners := h.owners ++ [n] } := by
  obtain ⟨xs, ys, zs, hxs, hys, hcount, hcurrent, howners⟩ := ho
  obtain rfl := hinv.chosen ha hxs hys hcount
  rw [hchosen] at hcount howners
  refine ⟨xs, ys, [], ?_, ?_, fun m => ?_, hcurrent, ?_⟩
  · simpa [State.resume] using hxs
  · simpa [State.resume] using hys
  · have hm := hcount m
    have hle : (s.pc m).parked ≤ 1 := by cases s.pc m <;> simp
    simp only [State.resume, List.count_nil]
    by_cases hmn : m = n
    · subst hmn
      rw [List.count_singleton_self] at hm
      rw [Function.update_self, hp]
      omega
    · rw [Function.update_of_ne hmn, parked_put ha, ← hm]
      simp [Ne.symm hmn]
  · simpa [Config.served] using howners

theorem Ordered.unlockStep (ho : Ordered cfg s h) (hinv : Inv s) (ha : s.unlockAt a = some u) :
    Ordered cfg (unlockStep cfg s a u) (h.unlock s u) := by
  cases u with
  | tryUnlock k => exact ho.look (v := s.check _) ha rfl rfl rfl rfl rfl
  | load k => exact ho.look ha rfl rfl rfl rfl rfl
  | swap k =>
    simp only [Mutex.unlockStep]
    split
    · next hsender =>
      refine ho.look (v := { s with sender := .kNotLocked }) ha ?_ rfl rfl rfl rfl
      rw [hsender]
      rfl
    · exact ho.look ha rfl rfl rfl rfl rfl
  | slow k =>
    cases a with
    | coroutine i =>
      cases k with
      | await =>
        simp only [Mutex.unlockStep]
        split
        · next hbatching =>
          rw [History.unlock, if_neg hbatching.2]
          exact ho.awaitUnlock hinv (unlockAt_coroutine.mp ha) hbatching.2
        · exact ho.unlockSlow hinv ha
      | _ => exact ho.unlockSlow hinv ha
    | detached m => exact ho.unlockSlow hinv ha
  | submit n => exact ho.deliver hinv ha rfl rfl
  | transfer n => exact ho.deliver hinv ha rfl rfl

/-- Every step of a coroutine keeps the order. -/
theorem Ordered.advance (ho : Ordered cfg s h) (hinv : Inv s) {weak : Bool}
    (hstep : advance cfg s i weak = some t) : Ordered cfg t (h.record s (.advance i weak) t) := by
  unfold Mutex.advance at hstep
  cases hpc : s.pc i with
  | running | waiting | held => simp [hpc] at hstep
  | tryLock await =>
    simp only [hpc, Option.some.injEq] at hstep
    simp only [History.record, hpc, ← hstep]
    unfold tryLockAwaitSwap
    split
    · next hopen => exact ho.acquire hopen (by simp [hpc])
    · apply ho.goto
      cases await <;> simp [hpc, lockFailed]
  | awaitLoop expected =>
    simp only [hpc, Option.some.injEq] at hstep
    exact hstep ▸ ho.awaitLock hpc
  | awaitLock | resumed | ready =>
    simp only [hpc, Option.some.injEq] at hstep
    simp only [History.record, hpc, ← hstep]
    exact ho.goto (by simp [hpc])
  | unlock u =>
    simp only [hpc, Option.some.injEq] at hstep
    simp only [History.record, hpc, ← hstep]
    exact ho.unlockStep hinv (unlockAt_coroutine.mpr hpc)

/-- The run lemma: in every recorded run the chains continue the record. -/
theorem ordered_of_reachable {r : State ι E × History ι} (hr : (recorded cfg).Reachable r) :
    Ordered cfg r.1 r.2 := by
  refine System.ReachableIf.recorded_holds (C := fun _ _ _ => True) (fun s hs => ?_)
    (fun s e t h hs hstep _ ho => ?_) hr
  · obtain ⟨next, executor, rfl⟩ := hs
    exact ⟨[], [], [], .nil, .nil, fun n => rfl, rfl, rfl⟩
  · have hinv := inv_of_reachable hs
    cases e with
    | call i op => exact ho.call hstep
    | advance i weak => exact ho.advance hinv hstep
    | detached k =>
      simp only [system, step, Option.map_eq_some_iff] at hstep
      obtain ⟨u, hu, rfl⟩ := hstep
      simp only [History.record, hu, Option.elim]
      exact ho.unlockStep hinv hu
    | relink i p =>
      simp only [system, step] at hstep
      split at hstep
      · contradiction
      · next hpc =>
        cases hstep
        apply ho.relink
        cases hi : s.pc i with
        | waiting => exact absurd hi hpc
        | _ => rfl

/-! Who becomes the owner without being suspended. -/

/-- An unlock makes nobody the owner but a suspended coroutine. -/
theorem Inv.unlockStep_pc (hinv : Inv s) (ha : s.unlockAt a = some u) (hi : ¬ Owns s i)
    (hpc : s.pc i ≠ .waiting) : (Mutex.unlockStep cfg s a u).pc i = s.pc i := by
  have hslow : ∀ k, u = .slow k → (Mutex.unlockSlow cfg s a k).pc i = s.pc i := by
    rintro k rfl
    obtain ⟨n, v, xs, ys, hhead, hv, -⟩ := hinv.getHead cfg ha
    have hvpc : v.pc = s.pc ∧ v.detached = s.detached := by
      rw [hv]
      exact ⟨rfl, rfl⟩
    have hput : ∀ (w : State ι E) o, w.pc = s.pc → w.detached = s.detached →
        (w.put a o).pc i = s.pc i := by
      intro w o hwpc hwdetached
      have hwa := (unlockAt_congr hwpc hwdetached).trans ha
      rw [put_pc hwa (by rwa [Owns, hwpc]), hwpc]
    rw [Mutex.unlockSlow, hhead]
    cases k with
    | on executor =>
      simp only
      split
      · exact hput _ _ hvpc.1 hvpc.2
      · exact hput _ _ hvpc.1 hvpc.2
    | _ => exact hput _ _ hvpc.1 hvpc.2
  have hresume : ∀ n p, u.owes n = 1 → ((s.put a none).resume n p).pc i = s.pc i := by
    intro n p howes
    have hin : i ≠ n := by
      rintro rfl
      obtain ⟨xs, ys, hqueued⟩ := hinv.queued
      have hcount := hqueued.count i
      rw [hinv.owed_eq ha, howes] at hcount
      exact hpc (Pc.eq_waiting (by omega))
    simp only [State.resume, Function.update_of_ne hin]
    exact put_pc ha hi
  cases u with
  | tryUnlock k => exact put_pc (s := s.check _) ha hi
  | load k => exact put_pc ha hi
  | swap k =>
    simp only [Mutex.unlockStep]
    split
    · exact put_pc (s := { s with sender := .kNotLocked }) ha hi
    · exact put_pc ha hi
  | slow k =>
    cases a with
    | coroutine j =>
      cases k with
      | await =>
        simp only [Mutex.unlockStep]
        split
        · next hbatching =>
          have hij : i ≠ j := by
            rintro rfl
            exact hi (.inr (.inr ⟨_, unlockAt_coroutine.mp ha⟩))
          obtain ⟨n, hn⟩ := Option.ne_none_iff_exists'.mp hbatching.2
          simp [Mutex.awaitUnlock, hn, State.goto, hij]
        · exact hslow _ rfl
      | _ => exact hslow _ rfl
    | detached m => exact hslow _ rfl
  | submit n => exact hresume n _ (by simp)
  | transfer n => exact hresume n _ (by simp)

/-- Only an open mutex is acquired without a suspension. -/
theorem Inv.open_of_acquire (hinv : Inv s) {e : Event ι E} (hstep : step cfg s e = some t)
    (hi : ¬ Owns s i) (hpc : s.pc i ≠ .waiting) (howns : Owns t i) : s.sender = .kNotLocked := by
  have hunlock : ∀ a u, s.unlockAt a = some u → ¬ Owns (Mutex.unlockStep cfg s a u) i := by
    intro a u ha
    rw [Owns, hinv.unlockStep_pc ha hi hpc]
    exact hi
  cases e with
  | call n op => exact absurd howns (not_owns_call hstep hi)
  | advance n weak =>
    simp only [step, Mutex.advance] at hstep
    cases hpcn : s.pc n with
    | running | waiting | held => simp [hpcn] at hstep
    | tryLock await =>
      simp only [hpcn, Option.some.injEq] at hstep
      subst hstep
      unfold Mutex.tryLockAwaitSwap at howns
      split at howns
      · next hopen => exact hopen
      · have htoken := (owns_goto hi howns).2
        rw [lockFailed_token] at htoken
        contradiction
    | awaitLock =>
      simp only [hpcn, Option.some.injEq] at hstep
      subst hstep
      have htoken := (owns_goto hi howns).2
      simp at htoken
    | awaitLoop expected =>
      simp only [hpcn, Option.some.injEq] at hstep
      subst hstep
      exact open_of_awaitLock hi howns
    | resumed =>
      simp only [hpcn, Option.some.injEq] at hstep
      subst hstep
      obtain ⟨rfl, -⟩ := owns_goto hi howns
      exact absurd (.inl hpcn) hi
    | ready =>
      simp only [hpcn, Option.some.injEq] at hstep
      subst hstep
      have htoken := (owns_goto hi howns).2
      simp at htoken
    | unlock u =>
      simp only [hpcn, Option.some.injEq] at hstep
      subst hstep
      exact absurd howns (hunlock _ _ (unlockAt_coroutine.mpr hpcn))
  | detached k =>
    simp only [step, Option.map_eq_some_iff] at hstep
    obtain ⟨u, hu, rfl⟩ := hstep
    exact absurd howns (hunlock _ _ hu)
  | relink n q =>
    simp only [step] at hstep
    split at hstep
    · contradiction
    · cases hstep
      exact absurd howns hi

/-- Nobody waits for an open mutex. -/
theorem Inv.nobody_waits (hinv : Inv s) (hopen : s.sender = .kNotLocked) :
    s.receiver = none ∧ ∀ i, s.pc i ≠ .waiting := by
  have hreceiver := hinv.open_eq hopen
  refine ⟨hreceiver, fun i hi => ?_⟩
  obtain ⟨xs, ys, hxs, hys, hcount⟩ := hinv.queued
  rw [hopen] at hxs
  rw [hreceiver] at hys
  obtain rfl := hxs.of_none
  obtain rfl := hys.of_none
  have hcounti := hcount i
  rw [hi] at hcounti
  have howed : HandedTo s i := owed_pos.mp (by simp at hcounti; omega)
  obtain ⟨a, ha | ha⟩ := howed
  · exact hinv.locked ha hopen
  · exact hinv.locked ha hopen

/-- In every run: with `FIFO` the suspended coroutines became owners in the
order of their pushes; without it the ones that one exchange took did so in
reverse order, before all that pushed after that exchange; and whoever becomes
the owner without being suspended found an open mutex that nobody waited for. -/
theorem lock_order (cfg : Config) (r : State ι E × History ι) (hr : (recorded cfg).Reachable r) :
    (cfg.fifo = true → r.2.owners <+: r.2.pushes) ∧
      (cfg.fifo = false → r.2.owners <+: r.2.taken.flatMap List.reverse) ∧
      ∀ e t i, (system cfg).step r.1 e = some t → ¬ Owns r.1 i → r.1.pc i ≠ .waiting → Owns t i →
        r.1.sender = .kNotLocked ∧ r.1.receiver = none ∧ ∀ j, r.1.pc j ≠ .waiting := by
  have hinv := inv_of_reachable (System.ReachableIf.of_recorded (C := fun _ _ _ => True) hr)
  obtain ⟨xs, ys, zs, -, -, -, -, howners⟩ := ordered_of_reachable hr
  rw [List.append_assoc] at howners
  have hserved : r.2.owners <+: cfg.served r.2 := ⟨_, howners⟩
  refine ⟨fun hfifo => ?_, fun hlifo => ?_, fun e t i hstep hi hpc howns => ?_⟩
  · have hserve : cfg.serve = (fun batch : List ι => batch) := by
      funext batch
      rw [Config.serve, if_pos hfifo]
    rw [Config.served, hserve, List.flatMap_id'] at hserved
    exact hserved.trans (List.prefix_append _ _)
  · have hserve : cfg.serve = (List.reverse : List ι → List ι) := by
      funext batch
      rw [Config.serve, hlifo, if_neg Bool.false_ne_true]
    rwa [Config.served, hserve] at hserved
  · have hopen := hinv.open_of_acquire hstep hi hpc howns
    exact ⟨hopen, hinv.nobody_waits hopen⟩

/-- Coroutines 1 and 2 wait for coroutine 0, which unlocks; then coroutine 0
waits too. -/
def queue : List (Event (Fin 3) Unit) :=
  [.call 0 .lock, .advance 0 false, .call 1 .lock, .advance 1 false, .advance 1 false,
    .call 2 .lock, .advance 2 false, .advance 2 false, .call 0 .unlockHere, .advance 0 false,
    .advance 0 false, .advance 0 false, .advance 0 false, .call 0 .lock, .advance 0 false,
    .advance 0 false]

theorem lock_order_queue :
    let r := ((recorded ⟨false, true⟩).run
      (({ next := fun _ => none, executor := fun _ => () } : State (Fin 3) Unit), {}) queue).get
        (by decide)
    r.2.pushes = [1, 2, 0] ∧ r.2.owners = [2] ∧ r.2.owners <+: r.2.taken.flatMap List.reverse := by
  refine ⟨by decide, by decide, ?_⟩
  exact (lock_order ⟨false, true⟩ _ (.run (fun _ _ _ _ => trivial) (.init ⟨⟨_, _, rfl⟩, rfl⟩)
    (Option.some_get _).symm)).2.1 rfl

end Yaclib.Mutex
