import Yaclib.Concurrency.Tally
import Yaclib.Coro.Await.Model

/-!
The invariant of an await. The counter is what the coroutine has not subtracted yet
(`own`) plus one for every callback of it that a core still holds (`pending`). Once
both are gone, the coroutine goes on, or one thread or the executor is about to resume
it.
-/

namespace Yaclib.Await

open Concurrency

variable {κ : Type}

namespace Place

/-- How many handles `SetCallback` is done for, out of `n`. -/
def passed (n : Nat) : Place → Nat
  | attach k _ | attachSwap k _ | attachLoop k _ _ => k
  | _ => n

/-- The part of the counter that the coroutine still has to subtract. -/
def own (w : Call κ) : Place → Nat
  | attach _ wc | attachSwap _ wc | attachLoop _ wc _ => w.count + 1 - wc
  | ready | store | sub => 1
  | _ => 0

def submitting : Place → Nat
  | submit => 1
  | _ => 0

def stored : Place → Bool
  | sub | submit | suspended => true
  | _ => false

/-- The kind of the core decides how `SetCallback` goes on. -/
def Expects (w : Call κ) : Place → Prop
  | attach k wc => k ≤ w.count ∧ wc ≤ k
  | attachSwap k wc => wc ≤ k ∧ ∃ c, w.handles[k]? = some c ∧ w.shared c = false
  | attachLoop k wc _ => wc ≤ k ∧ ∃ c, w.handles[k]? = some c ∧ w.shared c = true
  | _ => True

end Place

/-- The cores, when `SetCallback` is done for the first `n` handles: what they hold is
made of callbacks of other threads and of those of these handles, and each of the
handles has its result or is still to be called back. -/
structure Cores (w : Call κ) (s : Callbacks κ Node) (foreigns n : Nat) : Prop where
  sound : ∀ c, s.Sound w.shared c
  foreign_lt : ∀ c m, .foreign m ∈ s.held c → m < foreigns
  unique : ∀ c, w.shared c = false → ∀ m ∈ s.held c, m.ours = true
  placed : ∀ c, ∀ m ∈ s.held c, m.ours = true → ∃ j < n, w.handles[j]? = some c ∧ w.node j c = m
  settled : ∀ j < n, ∀ c, w.handles[j]? = some c → s.callback c = .kResult ∨ w.node j c ∈ s.held c

/-- How many callbacks of the coroutine the cores hold. -/
def pending [Fintype κ] (s : Callbacks κ Node) : Nat := tallyP Node.ours s.held

def State.resumings [Fintype κ] (s : State κ) : Nat := tally Bool.toNat s.resuming

/-- The counter is what the coroutine has to subtract (`own`) plus the callbacks that the
cores hold (`pending`). Until both are gone nobody resumes the coroutine, and then exactly
one does: itself, a producer or the executor it was submitted to. By then the pointer to it
is written, and nobody uses its frame after it went on. -/
structure Inv [Fintype κ] (w : Call κ) (s : State κ) : Prop where
  cores : Cores w s.cores s.foreigns (s.place.passed w.count)
  expects : s.place.Expects w
  count_eq : s.resumes = 0 → s.count = s.place.own w + pending s.cores
  once_eq : s.resumes + s.submitted + s.place.submitting + s.resumings =
    once (s.place.own w + pending s.cores)
  continued : s.place = .continued ↔ 0 < s.resumes
  stored : s.place.stored = true → s.continuation w = some .promise
  resuming : ∀ c, s.resuming c = true → c ∈ w.handles
  dangling : s.dangling = false
  unset : s.unset = false

variable {w : Call κ} {s t : Callbacks κ Node} {c d : κ} {m : Node} {f j k n : Nat}

/-! ### The callbacks of the handles -/

namespace Call

theorem callbackCount_lt (hk : w.handles[k]? = some c) (hc : w.shared c = true) (hlt : k < n) :
    w.callbackCount k < w.callbackCount n := by
  have htake : w.handles.take (k + 1) = w.handles.take k ++ [c] := by
    rw [List.take_add_one, hk]
    rfl
  have hsucc : w.callbackCount (k + 1) = w.callbackCount k + 1 := by
    unfold callbackCount
    rw [htake, List.countP_append]
    simp [hc]
  have hle : w.callbackCount (k + 1) ≤ w.callbackCount n :=
    (List.take_sublist_take_left hlt).countP_le
  omega

theorem node_ours (w : Call κ) (k : Nat) (c : κ) : (w.node k c).ours = true := by
  unfold node
  split <;> rfl

theorem node_unique (hc : w.shared c = false) : w.node k c = .event := by
  simp [node, hc]

/-- Each shared handle has a callback of its own. -/
theorem node_ne (hj : w.handles[j]? = some d) (hd : w.shared d = true) (hc : w.shared c = true)
    (hlt : j < k) : w.node j d ≠ w.node k c := by
  have hcount := callbackCount_lt hj hd hlt
  simp only [node, hc, hd, if_true, ne_eq, Node.callback.injEq]
  split <;> omega

theorem lt_count (hk : w.handles[k]? = some c) : k < w.count := by
  obtain ⟨hlt, -⟩ := List.getElem?_eq_some_iff.mp hk
  exact hlt

end Call

/-! ### The cores, step by step -/

theorem Cores.initial (w : Call κ) : Cores w {} 0 0 :=
  ⟨fun c => .initial w.shared c, by simp, by simp, by simp, by simp⟩

/-- The unique core holds the event, or nothing. -/
theorem Cores.held_event (h : Cores w s f n) (hc : w.shared c = false) (hm : m ∈ s.held c) :
    m = .event := by
  obtain ⟨j, -, -, rfl⟩ := h.placed c m hm (h.unique c hc m hm)
  exact Call.node_unique hc

/-- The callback for a handle without `SetCallback` is in no list of a shared core. -/
theorem Cores.fresh (h : Cores w s f k) (hc : w.shared c = true) (hd : w.shared d = true) :
    w.node k c ∉ s.held d := by
  intro hm
  obtain ⟨j, hj, hhandle, hnode⟩ := h.placed d _ hm (w.node_ours k c)
  exact Call.node_ne hhandle hd hc hj hnode

/-- One more handle needs no callback, or has it already. -/
theorem Cores.pass (h : Cores w s f k) (hk : w.handles[k]? = some c)
    (hdone : s.callback c = .kResult ∨ w.node k c ∈ s.held c) : Cores w s f (k + 1) := by
  refine ⟨h.sound, h.foreign_lt, h.unique, ?_, ?_⟩
  · intro d m hm hours
    obtain ⟨j, hj, hnode⟩ := h.placed d m hm hours
    exact ⟨j, by omega, hnode⟩
  · intro j hj d hd
    rcases Nat.lt_succ_iff_lt_or_eq.mp hj with hlt | rfl
    · exact h.settled j hlt d hd
    · rw [hk, Option.some.injEq] at hd
      exact hd ▸ hdone

theorem Cores.link (h : Cores w s f n) {p : Option Node}
    (hfresh : ∀ d, w.shared d = true → m ∉ s.held d) : Cores w (s.link m p) f n :=
  ⟨fun d => (h.sound d).link (hfresh d), h.foreign_lt, h.unique, h.placed, h.settled⟩

/-- When no core holds a callback of the coroutine, every handle has its result. -/
theorem Cores.results [Fintype κ]
    (h : Cores w s f w.count) (hpending : pending s = 0) (hc : c ∈ w.handles) :
    s.callback c = .kResult := by
  obtain ⟨j, hj⟩ := List.mem_iff_getElem?.mp hc
  rcases h.settled j (Call.lt_count hj) c hj with hresult | hmem
  · exact hresult
  · have hpos : 0 < pending s := tallyP_pos hmem (w.node_ours j c)
    omega

variable [DecidableEq κ]

/-- A new callback in front of the list of the core `c`. -/
theorem Cores.attach (h : Cores w s f n) {p : Option Node} (hword : s.callback c = .ptr p)
    (hlink : s.links w.shared c m = p) (hf : f ≤ k) (hforeign : ∀ i, m = .foreign i → i < k)
    (hunique : w.shared c = false → m.ours = true) (hn : n ≤ j)
    (hplaced : m.ours = true → ∃ i < j, w.handles[i]? = some c ∧ w.node i c = m)
    (hsettled : ∀ i < j, n ≤ i → ∀ d, w.handles[i]? = some d → d = c ∧ w.node i d = m) :
    Cores w (s.attach c m) k j := by
  have hheld : (s.attach c m).held c = m :: s.held c := Function.update_self ..
  have hother : ∀ d, d ≠ c → (s.attach c m).held d = s.held d :=
    fun d hd => Function.update_of_ne hd ..
  constructor
  · intro d
    by_cases hd : d = c
    · subst hd
      exact (h.sound d).attach hword hlink
    · exact (h.sound d).attach_other hd
  · intro d i hi
    by_cases hd : d = c
    · subst hd
      rw [hheld] at hi
      rcases List.mem_cons.mp hi with heq | hi
      · exact hforeign i heq.symm
      · exact Nat.lt_of_lt_of_le (h.foreign_lt d i hi) hf
    · rw [hother d hd] at hi
      exact Nat.lt_of_lt_of_le (h.foreign_lt d i hi) hf
  · intro d hd i hi
    by_cases hdc : d = c
    · subst hdc
      rw [hheld] at hi
      rcases List.mem_cons.mp hi with rfl | hi
      · exact hunique hd
      · exact h.unique d hd i hi
    · rw [hother d hdc] at hi
      exact h.unique d hd i hi
  · intro d i hi hours
    have hold : i ∈ s.held d → ∃ l < j, w.handles[l]? = some d ∧ w.node l d = i := by
      intro hi
      obtain ⟨l, hl, hnode⟩ := h.placed d i hi hours
      exact ⟨l, Nat.lt_of_lt_of_le hl hn, hnode⟩
    by_cases hdc : d = c
    · subst hdc
      rw [hheld] at hi
      rcases List.mem_cons.mp hi with rfl | hi
      · exact hplaced hours
      · exact hold hi
    · rw [hother d hdc] at hi
      exact hold hi
  · intro i hi d hd
    by_cases hlt : i < n
    · by_cases hdc : d = c
      · subst hdc
        right
        rw [hheld]
        rcases h.settled i hlt d hd with hresult | hmem
        · rw [hword] at hresult
          contradiction
        · exact List.mem_cons_of_mem _ hmem
      · rw [hother d hdc]
        have hcallback : (s.attach c m).callback d = s.callback d := Function.update_of_ne hdc ..
        rw [hcallback]
        exact h.settled i hlt d hd
    · obtain ⟨rfl, hnode⟩ := hsettled i hi (by omega) d hd
      right
      rw [hheld, hnode]
      exact List.mem_cons_self

theorem Cores.setResult (h : Cores w s f n) (hwalk : s.walk c = .before) :
    Cores w (s.setResult w.shared c) f n := by
  refine ⟨?_, h.foreign_lt, h.unique, h.placed, ?_⟩
  · intro d
    by_cases hd : d = c
    · subst hd
      exact (h.sound d).setResult hwalk
    · exact (h.sound d).setResult_other hd
  · intro j hj d hd
    by_cases hdc : d = c
    · exact .inl (by rw [hdc]; exact Function.update_self ..)
    · have hcallback : (s.setResult w.shared c).callback d = s.callback d :=
        Function.update_of_ne hdc ..
      rw [hcallback]
      exact h.settled j hj d hd

theorem Cores.visit (h : Cores w s f n) (hwalk : s.walk c = .visit m) :
    Cores w (s.visit c m) f n := by
  refine ⟨?_, h.foreign_lt, h.unique, h.placed, h.settled⟩
  intro d
  by_cases hd : d = c
  · subst hd
    exact (h.sound d).visit hwalk
  · exact (h.sound d).visit_other hd

theorem Cores.pop (h : Cores w s f n) {next : Option Node} (hwalk : s.walk c = .call m next) :
    Cores w (s.pop c next) f n := by
  have hmem : ∀ d i, i ∈ (s.pop c next).held d → i ∈ s.held d := by
    intro d i hi
    by_cases hd : d = c
    · subst hd
      have hheld : (s.pop d next).held d = (s.held d).tail := Function.update_self ..
      rw [hheld] at hi
      exact List.mem_of_mem_tail hi
    · have hheld : (s.pop c next).held d = s.held d := Function.update_of_ne hd ..
      rwa [hheld] at hi
  refine ⟨?_, fun d i hi => h.foreign_lt d i (hmem d _ hi),
    fun d hd i hi => h.unique d hd i (hmem d i hi),
    fun d i hi hours => h.placed d i (hmem d i hi) hours, ?_⟩
  · intro d
    by_cases hd : d = c
    · subst hd
      exact (h.sound d).pop hwalk
    · exact (h.sound d).pop_other hd
  · intro j hj d hd
    by_cases hdc : d = c
    · subst hdc
      exact .inl ((h.sound d).result.mpr (by simp [hwalk]))
    · have hheld : (s.pop c next).held d = s.held d := Function.update_of_ne hdc ..
      rw [hheld]
      exact h.settled j hj d hd

/-! ### Counting the callbacks -/

variable [Fintype κ]

theorem pending_attach (s : Callbacks κ Node) (c : κ) (m : Node) :
    pending (s.attach c m) = pending s + m.ours.toNat :=
  tallyP_cons Node.ours s.held c m

theorem Cores.pending_pop (h : Cores w s f n) {next : Option Node}
    (hwalk : s.walk c = .call m next) :
    pending (s.pop c next) + m.ours.toNat = pending s := by
  obtain ⟨xs, hxs, -⟩ := (h.sound c).held_call hwalk
  exact tallyP_tail Node.ours hxs

end Yaclib.Await
