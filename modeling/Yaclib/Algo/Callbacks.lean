import Yaclib.Algo.BaseCore
import Yaclib.Concurrency.Chain

/-!
The `_callback` words of several cores, with the lists of callbacks that hang on
them: what a successful `SetCallbackImpl` and the steps of `SetResultImpl` do to
them, of `src/algo/base_core.cpp`.

`κ` are the cores and `ν` the `InlineCore` objects. One object can be linked
into the list of a shared core through its `next`; a unique core has at most one
callback, and never looks at its `next`.
-/

namespace Yaclib

open Concurrency

/-- Where the producer of a core is, in `SetResultImpl`. -/
inductive Walk (ν : Type) where
  /-- its `exchange` is next -/
  | before
  /-- `while (auto* next = head->next)` -/
  | visit (head : ν)
  /-- `Loop(this, head)` -/
  | call (head : ν) (next : Option ν)
  | finished
  deriving DecidableEq

namespace Walk

variable {ν : Type}

/-- After a callback: the next one of the list. -/
def rest : Option ν → Walk ν
  | none => finished
  | some m => visit m

/-- The callback that the producer has taken out of the list. -/
def inHand : Walk ν → List ν
  | call head _ => [head]
  | _ => []

/-- Where the rest of the list starts. -/
def head : Walk ν → Callback ν → Option ν
  | before, callback => callback.toPtr
  | visit m, _ => some m
  | call _ next, _ => next
  | finished, _ => none

@[simp] theorem rest_inHand (p : Option ν) : (rest p).inHand = [] := by
  cases p <;> rfl

@[simp] theorem rest_head (p : Option ν) (callback : Callback ν) : (rest p).head callback = p := by
  cases p <;> rfl

theorem rest_ne_before (p : Option ν) : rest p ≠ before := by
  cases p <;> simp [rest]

end Walk

/-- The words of the cores, the links of the callbacks and the producers. `held` is a
ghost: the callbacks that a core or its producer still holds. -/
structure Callbacks (κ ν : Type) where
  callback : κ → Callback ν := fun _ => .kEmpty
  next : ν → Option ν := fun _ => none
  walk : κ → Walk ν := fun _ => .before
  held : κ → List ν := fun _ => []

namespace Callbacks

variable {κ ν : Type}

/-- The links that the producer of the core follows. That of a unique core
follows none. -/
def links (shared : κ → Bool) (s : Callbacks κ ν) (c : κ) : ν → Option ν :=
  if shared c then s.next else fun _ => none

/-- What hangs on the core `c` is linked, and its producer is in step with its word. -/
structure Sound (shared : κ → Bool) (s : Callbacks κ ν) (c : κ) : Prop where
  linked : ∃ xs, s.held c = (s.walk c).inHand ++ xs ∧
    Chain (s.links shared c) ((s.walk c).head (s.callback c)) xs
  result : s.callback c = .kResult ↔ s.walk c ≠ .before
  unique : shared c = false → (s.walk c).head .kEmpty = none

variable {shared : κ → Bool} {s t : Callbacks κ ν} {c d : κ} {m head : ν} {p next : Option ν}

theorem Sound.initial (shared : κ → Bool) (c : κ) : Sound shared ({} : Callbacks κ ν) c :=
  ⟨⟨[], rfl, .nil⟩, by simp [Callback.kEmpty], fun _ => rfl⟩

/-- A core stays as it is, apart from links outside of its list. -/
theorem Sound.frame (h : Sound shared s c) (hcallback : t.callback c = s.callback c)
    (hheld : t.held c = s.held c) (hwalk : t.walk c = s.walk c)
    (hnext : shared c = true → ∀ m ∈ s.held c, t.next m = s.next m) : Sound shared t c := by
  obtain ⟨xs, hxs, hchain⟩ := h.linked
  constructor
  · refine ⟨xs, ?_, ?_⟩
    · rw [hheld, hwalk, hxs]
    · rw [hcallback, hwalk]
      apply hchain.frame
      intro m hm
      by_cases hc : shared c = true
      · simp only [links, hc, if_true]
        apply hnext hc
        rw [hxs]
        exact List.mem_append_right _ hm
      · simp [links, hc]
  · rw [hcallback, hwalk]
    exact h.result
  · rw [hwalk]
    exact h.unique

/-- Before the exchange the producer has not begun with the list. -/
theorem Sound.walk_eq (h : Sound shared s c) (hword : s.callback c = .ptr p) :
    s.walk c = .before := by
  by_contra hne
  have hresult := h.result.mpr hne
  rw [hword] at hresult
  contradiction

/-- The list that hangs on the word is what the core holds. -/
theorem Sound.chain (h : Sound shared s c) (hword : s.callback c = .ptr p) :
    Chain (s.links shared c) p (s.held c) := by
  obtain ⟨xs, hxs, hchain⟩ := h.linked
  rw [h.walk_eq hword] at hxs hchain
  rw [hword] at hchain
  rw [hxs]
  exact hchain

/-- The word of a unique core is all that hangs on it. -/
theorem Sound.held_unique (h : Sound shared s c) (hc : shared c = false)
    (hword : s.callback c = .ptr p) : s.held c = p.toList := by
  have hchain := h.chain hword
  have hlinks : s.links shared c = fun _ => none := by simp [links, hc]
  rw [hlinks] at hchain
  exact hchain.unlinked

/-- The callback in the hand of the producer is the first one that it holds. -/
theorem Sound.held_call (h : Sound shared s c) (hwalk : s.walk c = .call head next) :
    ∃ xs, s.held c = head :: xs ∧ Chain (s.links shared c) next xs := by
  obtain ⟨xs, hxs, hchain⟩ := h.linked
  rw [hwalk] at hxs hchain
  exact ⟨xs, hxs, hchain⟩

/-- The producer is at the first callback that the core still holds. -/
theorem Sound.held_visit (h : Sound shared s c) (hwalk : s.walk c = .visit head) :
    ∃ xs, s.held c = head :: xs ∧ Chain (s.links shared c) (s.links shared c head) xs := by
  obtain ⟨xs, hxs, hchain⟩ := h.linked
  rw [hwalk] at hxs hchain
  obtain ⟨ys, rfl, hys⟩ := hchain.of_some
  exact ⟨ys, hxs, hys⟩

/-- Only the list of a shared core is gone through. -/
theorem Sound.shared_visit (h : Sound shared s c) (hwalk : s.walk c = .visit head) :
    shared c = true := by
  by_contra hc
  have hnone := h.unique (by simpa using hc)
  rw [hwalk] at hnone
  contradiction

/-- The producer has called all callbacks. -/
theorem Sound.held_finished (h : Sound shared s c) (hwalk : s.walk c = .finished) :
    s.held c = [] := by
  obtain ⟨xs, hxs, hchain⟩ := h.linked
  rw [hwalk] at hxs hchain
  obtain rfl := hchain.of_none
  exact hxs

/-- `m.next = p` -/
def link [DecidableEq ν] (s : Callbacks κ ν) (m : ν) (p : Option ν) : Callbacks κ ν :=
  { s with next := Function.update s.next m p }

section Steps

/-- The links of a callback that no core holds may change. -/
theorem Sound.link [DecidableEq ν] (h : Sound shared s c) (hm : shared c = true → m ∉ s.held c) :
    Sound shared (s.link m p) c := by
  refine h.frame rfl rfl rfl ?_
  intro hc i hi
  apply Function.update_of_ne
  rintro rfl
  exact hm hc hi

end Steps

variable [DecidableEq κ]

/-- The compare-and-swap of `SetCallbackImpl` succeeds. -/
def attach (s : Callbacks κ ν) (c : κ) (m : ν) : Callbacks κ ν :=
  { s with
    callback := Function.update s.callback c (.ptr (some m))
    held := Function.update s.held c (m :: s.held c) }

/-- The `exchange` of `SetResultImpl`. -/
def setResult (shared : κ → Bool) (s : Callbacks κ ν) (c : κ) : Callbacks κ ν :=
  { s with
    callback := Function.update s.callback c .kResult
    walk := Function.update s.walk c
      (match s.callback c with
      | .kResult | .ptr none => .finished
      | .ptr (some head) => if shared c then .visit head else .call head none) }

/-- `head->next` is read. -/
def visit (s : Callbacks κ ν) (c : κ) (head : ν) : Callbacks κ ν :=
  { s with walk := Function.update s.walk c (.call head (s.next head)) }

/-- The callback in the hand of the producer is called. -/
def pop (s : Callbacks κ ν) (c : κ) (next : Option ν) : Callbacks κ ν :=
  { s with
    walk := Function.update s.walk c (.rest next)
    held := Function.update s.held c (s.held c).tail }

section Steps

/-- The new callback is linked to the list that was there at the successful swap. -/
theorem Sound.attach (h : Sound shared s c) (hword : s.callback c = .ptr p)
    (hnext : s.links shared c m = p) : Sound shared (s.attach c m) c := by
  have hbefore := h.walk_eq hword
  have hheld : (s.attach c m).held c = m :: s.held c := Function.update_self ..
  have hcallback : (s.attach c m).callback c = .ptr (some m) := Function.update_self ..
  constructor
  · refine ⟨m :: s.held c, ?_, ?_⟩
    · rw [hheld]
      change _ = (s.walk c).inHand ++ _
      rw [hbefore]
      rfl
    · rw [hcallback]
      change Chain (s.links shared c) ((s.walk c).head (.ptr (some m))) (m :: s.held c)
      rw [hbefore]
      refine .cons ?_
      rw [hnext]
      exact h.chain hword
  · rw [hcallback]
    change _ ↔ s.walk c ≠ .before
    simp [hbefore]
  · exact h.unique

theorem Sound.attach_other (h : Sound shared s d) (hd : d ≠ c) : Sound shared (s.attach c m) d :=
  h.frame (Function.update_of_ne hd ..) (Function.update_of_ne hd ..) rfl fun _ _ _ => rfl

/-- The exchange hands the whole list to the producer. -/
theorem Sound.setResult (h : Sound shared s c) (hwalk : s.walk c = .before) :
    Sound shared (s.setResult shared c) c := by
  have hcallback : (s.setResult shared c).callback c = .kResult := Function.update_self ..
  obtain ⟨xs, hxs, hchain⟩ := h.linked
  rw [hwalk] at hxs hchain
  cases hword : s.callback c with
  | kResult => exact absurd hwalk (h.result.mp hword)
  | ptr p =>
    cases p with
    | none =>
      have hfinished : (s.setResult shared c).walk c = .finished := by
        simp [Callbacks.setResult, hword]
      rw [hword] at hchain
      exact ⟨⟨xs, by rw [hfinished]; exact hxs, by rw [hfinished]; exact hchain⟩,
        by simp [hcallback, hfinished], fun _ => by rw [hfinished]; rfl⟩
    | some head =>
      rw [hword] at hchain
      cases hc : shared c with
      | true =>
        have hvisit : (s.setResult shared c).walk c = .visit head := by
          simp [Callbacks.setResult, hword, hc]
        exact ⟨⟨xs, by rw [hvisit]; exact hxs, by rw [hvisit]; exact hchain⟩,
          by simp [hcallback, hvisit], fun hfalse => by simp [hc] at hfalse⟩
      | false =>
        have hcall : (s.setResult shared c).walk c = .call head none := by
          simp [Callbacks.setResult, hword, hc]
        have hheld := h.held_unique hc hword
        exact ⟨⟨[], by rw [hcall]; exact hheld, by rw [hcall]; exact .nil⟩,
          by simp [hcallback, hcall], fun _ => by rw [hcall]; rfl⟩

theorem Sound.setResult_other (h : Sound shared s d) (hd : d ≠ c) :
    Sound shared (s.setResult shared c) d :=
  h.frame (Function.update_of_ne hd ..) rfl (Function.update_of_ne hd ..) fun _ _ _ => rfl

theorem Sound.visit (h : Sound shared s c) (hwalk : s.walk c = .visit head) :
    Sound shared (s.visit c head) c := by
  have hc := h.shared_visit hwalk
  have hcall : (s.visit c head).walk c = .call head (s.next head) := Function.update_self ..
  have hresult : s.callback c = .kResult := h.result.mpr (by simp [hwalk])
  obtain ⟨xs, hxs, hchain⟩ := h.held_visit hwalk
  refine ⟨⟨xs, ?_, ?_⟩, ?_, ?_⟩
  · rw [hcall]
    exact hxs
  · rw [hcall]
    change Chain (s.links shared c) (s.next head) xs
    have hlinks : s.links shared c head = s.next head := by simp [links, hc]
    rwa [hlinks] at hchain
  · rw [hcall]
    simp [Callbacks.visit, hresult]
  · intro hfalse
    simp [hc] at hfalse

theorem Sound.visit_other (h : Sound shared s d) (hd : d ≠ c) : Sound shared (s.visit c head) d :=
  h.frame rfl rfl (Function.update_of_ne hd ..) fun _ _ _ => rfl

/-- A callback that is called leaves the list. -/
theorem Sound.pop (h : Sound shared s c) (hwalk : s.walk c = .call head next) :
    Sound shared (s.pop c next) c := by
  have hrest : (s.pop c next).walk c = .rest next := Function.update_self ..
  have hheld : (s.pop c next).held c = (s.held c).tail := Function.update_self ..
  have hresult : s.callback c = .kResult := h.result.mpr (by simp [hwalk])
  obtain ⟨xs, hxs, hchain⟩ := h.held_call hwalk
  refine ⟨⟨xs, ?_, ?_⟩, ?_, ?_⟩
  · rw [hrest, hheld, hxs, Walk.rest_inHand]
    rfl
  · rw [hrest, Walk.rest_head]
    exact hchain
  · rw [hrest]
    simp [Callbacks.pop, hresult, Walk.rest_ne_before]
  · intro hc
    have hunique := h.unique hc
    rw [hwalk] at hunique
    rw [hrest, Walk.rest_head]
    exact hunique

theorem Sound.pop_other (h : Sound shared s d) (hd : d ≠ c) : Sound shared (s.pop c next) d :=
  h.frame rfl (Function.update_of_ne hd ..) (Function.update_of_ne hd ..) fun _ _ _ => rfl

end Steps

variable [DecidableEq ν]

end Callbacks

end Yaclib
