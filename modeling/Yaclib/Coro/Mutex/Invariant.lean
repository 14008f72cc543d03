import Yaclib.Concurrency.Tally
import Yaclib.Coro.Mutex.Model

/-!
The invariant of the mutex. Whoever owns it, or unlocks it for a coroutine that
went on, carries the one token of the mutex; every suspended coroutine is in one
of the two chains or with the unlock that is about to resume it.
-/

namespace Yaclib.Mutex

open Concurrency

variable {ι E : Type}

variable {s t : State ι E} {a b : Actor ι} {i n : ι} {p : Pc ι E} {u u' : Unlock ι E}

theorem unlockAt_coroutine : s.unlockAt (.coroutine i) = some u ↔ s.pc i = .unlock u := by
  cases hpc : s.pc i <;> simp [State.unlockAt, hpc]

variable [DecidableEq ι]

def Word.toPtr : Word ι → Option ι
  | kNotLocked => none
  | ptr p => p

namespace Unlock

/-- 1 if the unlock is about to resume `n`. -/
@[simp] def owes (n : ι) : Unlock ι E → Nat
  | submit m | transfer m => if m = n then 1 else 0
  | _ => 0

end Unlock

namespace Pc

@[simp] def token : Pc ι E → Nat
  | resumed | held | unlock _ => 1
  | _ => 0

@[simp] def parked : Pc ι E → Nat
  | waiting => 1
  | _ => 0

@[simp] def owes (n : ι) : Pc ι E → Nat
  | unlock u => u.owes n
  | _ => 0

end Pc

/-- What an unlock knows at its place about the two words of the mutex. -/
def State.Good (s : State ι E) : Unlock ι E → Prop
  | .load _ | .swap _ => s.receiver = none
  | .slow _ => s.receiver = none → ∃ n, s.sender = .ptr (some n)
  | _ => True
variable {o : Option (Unlock ι E)}

/-! What a move of one coroutine changes. -/

theorem unlockAt_update (hb : t.unlockAt b = some u) (hp : ∀ u, p ≠ .unlock u)
    (hpc : t.pc = Function.update s.pc i p) (hdetached : t.detached = s.detached) :
    s.unlockAt b = some u := by
  cases b with
  | coroutine j =>
    have hj := unlockAt_coroutine.mp hb
    rw [hpc] at hj
    by_cases hji : j = i
    · rw [hji, Function.update_self] at hj
      exact absurd hj (hp u)
    · rw [Function.update_of_ne hji] at hj
      exact unlockAt_coroutine.mpr hj
  | detached k =>
    simp only [State.unlockAt, hdetached] at hb
    exact hb

theorem parked_update (hp : (s.pc i).parked = p.parked) (n : ι) :
    ((Function.update s.pc i p) n).parked = (s.pc n).parked := by
  by_cases hni : n = i
  · rw [hni, Function.update_self, hp]
  · rw [Function.update_of_ne hni]

theorem parked_put (h : s.unlockAt a = some u) (n : ι) :
    ((s.put a o).pc n).parked = (s.pc n).parked := by
  cases a with
  | coroutine i =>
    have hpc := unlockAt_coroutine.mp h
    by_cases hni : n = i
    · subst hni
      cases o <;> simp [State.put, State.goto, hpc]
    · cases o <;> simp [State.put, State.goto, hni]
  | detached k => cases o <;> rfl

variable [Fintype ι]

def State.tokens (s : State ι E) : Nat :=
  tally Pc.token s.pc + s.detached.length

def State.owed (s : State ι E) (n : ι) : Nat :=
  tally (Pc.owes n) s.pc + (s.detached.map (Unlock.owes n)).sum

def Pc.weigh (w : Unlock ι E → Nat) : Pc ι E → Nat
  | unlock u => w u
  | _ => 0

/-- What the unlocks in progress weigh together. -/
def State.weigh (s : State ι E) (w : Unlock ι E → Nat) : Nat :=
  tally (Pc.weigh w) s.pc + (s.detached.map w).sum

/-- The chains of `_sender` and of `_receiver`, and where the suspended
coroutines are. -/
structure Queued (s : State ι E) (xs ys : List ι) : Prop where
  sender : Chain s.next s.sender.toPtr xs
  receiver : Chain s.next s.receiver ys
  count : ∀ n, xs.count n + ys.count n + s.owed n = (s.pc n).parked

/-- The mutex is free or there is one token of it, with the owner or with an unlock that goes
on without it. A suspended coroutine is in one of the two chains or is owed its resumption by
one unlock, once, and every unlock finds the two words as its place in the code expects them.
-/
structure Inv (s : State ι E) : Prop where
  tokens_eq : s.tokens = if s.sender = .kNotLocked then 0 else 1
  queued : ∃ xs ys, Queued s xs ys
  open_eq : s.sender = .kNotLocked → s.receiver = none
  good : ∀ a u, s.unlockAt a = some u → s.Good u
  wakes_eq : ∀ i, s.parks i = s.wakes i + (s.pc i).parked
  asserts_eq : s.asserts = true
  derefs_eq : s.derefs = true

theorem Queued.fresh {xs ys : List ι} (h : Queued s xs ys) (hpc : (s.pc i).parked = 0) :
    i ∉ xs ∧ i ∉ ys := by
  have hi := h.count i
  rw [hpc] at hi
  exact ⟨List.count_eq_zero.mp (by omega), List.count_eq_zero.mp (by omega)⟩

theorem Queued.nodup {xs ys : List ι} (h : Queued s xs ys) : xs.Nodup := by
  apply List.nodup_iff_count_le_one.mpr
  intro m
  have hm := h.count m
  have hle : (s.pc m).parked ≤ 1 := by cases s.pc m <;> simp
  omega

/-! What `put` changes. -/

theorem tokens_put_some (h : s.unlockAt a = some u) : (s.put a (some u')).tokens = s.tokens := by
  cases a with
  | coroutine i =>
    have hpc := unlockAt_coroutine.mp h
    simp only [State.put, State.goto, State.tokens]
    rw [tally_stay (by simp [hpc])]
  | detached k => simp [State.put, State.tokens]

theorem tokens_put_none (h : s.unlockAt a = some u) : (s.put a none).tokens + 1 = s.tokens := by
  cases a with
  | coroutine i =>
    have hpc := unlockAt_coroutine.mp h
    have hupdate := tally_update Pc.token s.pc i (.running : Pc ι E)
    simp only [hpc, Pc.token] at hupdate
    simp only [State.put, State.goto, State.tokens]
    omega
  | detached k =>
    obtain ⟨hk, -⟩ := List.getElem?_eq_some_iff.mp h
    simp only [State.put, State.tokens, List.length_eraseIdx_of_lt hk]
    omega

/-- How much `n` is owed by an unlock that may have ended. -/
def owes? (o : Option (Unlock ι E)) (n : ι) : Nat :=
  o.elim 0 (Unlock.owes n)

theorem weigh_put (w : Unlock ι E → Nat) (h : s.unlockAt a = some u) :
    (s.put a o).weigh w + w u = s.weigh w + o.elim 0 w := by
  cases a with
  | coroutine i =>
    have hpc := unlockAt_coroutine.mp h
    cases o with
    | none =>
      have hupdate := tally_update (Pc.weigh w) s.pc i (.running : Pc ι E)
      simp only [hpc, Pc.weigh] at hupdate
      simp only [State.put, State.goto, State.weigh, Option.elim]
      omega
    | some u' =>
      have hupdate := tally_update (Pc.weigh w) s.pc i (.unlock u')
      simp only [hpc, Pc.weigh] at hupdate
      simp only [State.put, State.goto, State.weigh, Option.elim]
      omega
  | detached k =>
    cases o with
    | none =>
      have hsum := sum_map_eraseIdx w h
      simp only [State.put, State.weigh, Option.elim]
      omega
    | some u' =>
      have hsum := sum_map_set w (b := u') h
      simp only [State.put, State.weigh, Option.elim]
      omega

/-- What is owed is a weight of the unlocks in progress. -/
theorem owed_eq_weigh (n : ι) : s.owed n = s.weigh (Unlock.owes n) := by
  have hpc : tally (Pc.owes n) s.pc = tally (Pc.weigh (Unlock.owes n)) s.pc := by
    unfold tally
    refine Finset.sum_congr rfl fun i _ => ?_
    cases s.pc i <;> rfl
  rw [State.owed, State.weigh, hpc]

theorem owed_put (h : s.unlockAt a = some u) (n : ι) :
    (s.put a o).owed n + u.owes n = s.owed n + owes? o n := by
  rw [owed_eq_weigh, owed_eq_weigh]
  exact weigh_put (Unlock.owes n) h

/-- The token is with the unlock at `a` alone. -/
theorem unlockAt_put (htokens : s.tokens ≤ 1) (h : s.unlockAt a = some u)
    (hb : (s.put a o).unlockAt b = some u') : o = some u' := by
  cases a with
  | coroutine i =>
    have hpc := unlockAt_coroutine.mp h
    have hle := le_tally_of Pc.token hpc
    simp only [State.tokens, Pc.token] at htokens hle
    have hdetached : s.detached = [] := List.length_eq_zero_iff.mp (by omega)
    cases b with
    | coroutine j =>
      have hj := unlockAt_coroutine.mp hb
      by_cases hji : j = i
      · subst hji
        cases o with
        | none => simp [State.put, State.goto] at hj
        | some u'' => simpa [State.put, State.goto] using hj
      · have hpcj : s.pc j = .unlock u' := by
          cases o <;> simpa [State.put, State.goto, hji] using hj
        have hsum := add_le_tally Pc.token s.pc hji
        rw [hpc, hpcj] at hsum
        simp only [Pc.token] at hsum
        omega
    | detached k => cases o <;> simp [State.put, State.goto, State.unlockAt, hdetached] at hb
  | detached k =>
    obtain ⟨hk, -⟩ := List.getElem?_eq_some_iff.mp h
    simp only [State.tokens] at htokens
    obtain ⟨u₀, hu₀⟩ := List.length_eq_one_iff.mp (show s.detached.length = 1 by omega)
    have hk₀ : k = 0 := by omega
    subst hk₀
    cases b with
    | coroutine j =>
      have hj := unlockAt_coroutine.mp hb
      have hpcj : s.pc j = .unlock u' := by
        cases o <;> exact hj
      have hle := le_tally_of Pc.token hpcj
      simp only [Pc.token] at hle
      omega
    | detached k' =>
      cases o with
      | none => simp [State.put, State.unlockAt, hu₀] at hb
      | some u'' =>
        cases k' with
        | zero => simpa [State.put, State.unlockAt, hu₀] using hb
        | succ k' => simp [State.put, State.unlockAt, hu₀] at hb

end Yaclib.Mutex
