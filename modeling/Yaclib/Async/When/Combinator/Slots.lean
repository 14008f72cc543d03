import Yaclib.Async.When.Combinator.Model

/-!
Which callback object and which index the types of the inputs lead to: a callback
object on a shared core belongs to one input, and every path hands the strategy the
index of the input.
-/

namespace Yaclib.When

open Concurrency

section CallbackSlots

variable {τ : Type} [DecidableEq τ]

/-- `GetCallbackHelper` of a `StaticCombinator` for `cores`, for an unordered strategy. -/
def GetCallbackHelper (cores : List (CoreType τ)) (index : Nat) (core : CoreType τ) : Node :=
  if IsSharedCore core then .sharedTuple (translateIndex index cores (Filter IsSharedCore cores))
  else .uniqueTuple (indexOf core (Unique (Filter IsUniqueCore cores)))

/-- The callback of a shared input is an element of `shared_tuple` for its type. -/
theorem GetCallbackHelper_shared {cores : List (CoreType τ)} {i : Nat} {core : CoreType τ}
    (hi : cores[i]? = some core) (hcore : IsSharedCore core = true) :
    ∃ k, GetCallbackHelper cores i core = .sharedTuple (some k) ∧
      (Filter IsSharedCore cores)[k]? = some core := by
  refine ⟨(cores.take i).countP IsSharedCore, ?_, getElem?_Filter hi hcore⟩
  rw [GetCallbackHelper, if_pos hcore, translateIndex_Filter hi hcore]

/-- The callback of a unique input is an element of `unique_tuple` for its type. -/
theorem GetCallbackHelper_unique {cores : List (CoreType τ)} {i : Nat} {core : CoreType τ}
    (hi : cores[i]? = some core) (hcore : IsUniqueCore core = true) :
    ∃ k, GetCallbackHelper cores i core = .uniqueTuple (some k) ∧
      (Unique (Filter IsUniqueCore cores))[k]? = some core := by
  have hmem : core ∈ Unique (Filter IsUniqueCore cores) := by
    rw [mem_Unique, Filter_eq]
    exact List.mem_filter.mpr ⟨List.mem_of_getElem? hi, hcore⟩
  obtain ⟨k, hk, hget⟩ := indexOf_of_mem hmem
  have hshared : ¬ IsSharedCore core = true := by
    cases core with
    | unique t => simp [IsSharedCore]
    | shared t => simp [IsUniqueCore] at hcore
  refine ⟨k, ?_, hget⟩
  rw [GetCallbackHelper, if_neg hshared, hk]

/-- Shared inputs, also of one type, have different callbacks. -/
theorem GetCallbackHelper_ne {cores : List (CoreType τ)} {i j : Nat} {a b : CoreType τ}
    (hi : cores[i]? = some a) (ha : IsSharedCore a = true) (hj : cores[j]? = some b)
    (hb : IsSharedCore b = true) (hij : i ≠ j) :
    GetCallbackHelper cores i a ≠ GetCallbackHelper cores j b := by
  rw [GetCallbackHelper, if_pos ha, GetCallbackHelper, if_pos hb]
  intro heq
  rw [Node.sharedTuple.injEq] at heq
  rcases Nat.lt_or_gt_of_ne hij with hlt | hgt
  · exact translateIndex_Filter_ne hi ha hj hb hlt heq
  · exact translateIndex_Filter_ne hj hb hi ha hgt heq.symm

/-- The index translation counts the positions with the predicate, whatever the types and
their repetitions; so the inputs of a combinator find callbacks of their own type, and
shared ones each their own. -/
theorem callback_slots (cores : List (CoreType τ)) :
    (∀ p i core, cores[i]? = some core → p core = true →
      translateIndex i cores (Filter p cores) = some ((cores.take i).countP p)) ∧
    (∀ i core, cores[i]? = some core → IsSharedCore core = true →
      ∃ k, GetCallbackHelper cores i core = .sharedTuple (some k) ∧
        (Filter IsSharedCore cores)[k]? = some core) ∧
    (∀ i j a b, cores[i]? = some a → IsSharedCore a = true → cores[j]? = some b →
      IsSharedCore b = true → i ≠ j →
      GetCallbackHelper cores i a ≠ GetCallbackHelper cores j b) ∧
    (∀ i core, cores[i]? = some core → IsUniqueCore core = true →
      ∃ k, GetCallbackHelper cores i core = .uniqueTuple (some k) ∧
        (Unique (Filter IsUniqueCore cores))[k]? = some core) := by
  refine ⟨?_, ?_, ?_, ?_⟩
  · intro p i core hi hcore
    exact translateIndex_Filter hi hcore
  · intro i core hi hcore
    exact GetCallbackHelper_shared hi hcore
  · intro i j a b hi ha hj hb hij
    exact GetCallbackHelper_ne hi ha hj hb hij
  · intro i core hi hcore
    exact GetCallbackHelper_unique hi hcore

/-- Two shared inputs of one type around two unique ones of another. -/
theorem callback_slots_repeated :
    let cores : List (CoreType Bool) := [.shared true, .unique false, .shared true, .unique false]
    translateIndex 2 cores (Filter IsSharedCore cores) = some 1 ∧
      GetCallbackHelper cores 0 (.shared true) ≠ GetCallbackHelper cores 2 (.shared true) ∧
      ∃ k, GetCallbackHelper cores 3 (.unique false) = .uniqueTuple (some k) ∧
        (Unique (Filter IsUniqueCore cores))[k]? = some (.unique false) := by
  intro cores
  obtain ⟨htranslate, -, hne, hunique⟩ := callback_slots cores
  exact ⟨htranslate IsSharedCore 2 (.shared true) rfl rfl,
    hne 0 2 (.shared true) (.shared true) rfl rfl rfl rfl (by decide),
    hunique 3 (.unique false) rfl rfl⟩

end CallbackSlots

namespace Futures

variable {n : Nat} {κ τ R : Type} (F : Futures n κ τ R) {P : ConsumePolicy}
variable {i j : Fin n}

theorem types_getElem? (i : Fin n) : F.types[i.val]? = some (F.type (F.core i)) := by
  simp [types]

theorem length_types : F.types.length = n := by
  simp [types]

variable [DecidableEq τ]

/-- The callback that `Set` gives to an input of an unordered static combinator. -/
theorem node_static (hkind : F.kind P = .static) (hordered : P.kIsOrdered = false) :
    F.node P i = GetCallbackHelper F.types i (F.type (F.core i)) := by
  simp only [node, hkind, hordered, Bool.false_eq_true, if_false]
  rfl

/-- A shared input next to a single callback object is the only input. -/
theorem eq_of_kTotalCount (htotal : F.kTotalCount = 1) (hj : F.shared (F.core j) = true) :
    i = j := by
  have hmem : F.type (F.core j) ∈ F.SharedCores := by
    rw [SharedCores, Filter_eq]
    exact List.mem_filter.mpr ⟨List.mem_of_getElem? (F.types_getElem? j), hj⟩
  have hpos : 0 < F.SharedCores.length := List.length_pos_of_mem hmem
  have hcount : F.UniqueUniqueCores.length + F.SharedCores.length = 1 := htotal
  have hnil : F.UniqueUniqueCores = [] := List.eq_nil_of_length_eq_zero (by omega)
  rw [UniqueUniqueCores, Unique_eq_nil, Filter_eq, List.filter_eq_nil_iff] at hnil
  -- without unique inputs, every input is in `SharedCores`
  have hall : F.types.filter IsSharedCore = F.types := by
    apply List.filter_eq_self.mpr
    intro t ht
    have hunique := hnil t ht
    cases t with
    | unique t => simp [IsUniqueCore] at hunique
    | shared t => rfl
  have hlength : F.SharedCores.length = n := by
    rw [SharedCores, Filter_eq, hall, F.length_types]
  apply Fin.ext
  omega

/-- The combinator itself is a callback of a shared core only for a single input. -/
theorem eq_of_single (hkind : F.kind P = .single) (hj : F.shared (F.core j) = true) : i = j := by
  unfold kind at hkind
  by_cases hiter : F.iterator = true
  · rw [if_pos hiter] at hkind
    have hhead : F.head = F.type (F.core j) := F.sameCore hiter _ j
    have hnot : IsUniqueCore F.head = false := by
      rw [hhead]
      unfold shared at hj
      cases htype : F.type (F.core j) with
      | unique t => simp [htype, IsSharedCore] at hj
      | shared t => rfl
    simp [hnot] at hkind
  · rw [if_neg hiter] at hkind
    by_cases hone : F.kTotalCount = 1
    · exact F.eq_of_kTotalCount hone hj
    · simp [hone] at hkind

/-- No other input has the callback object of a shared one. -/
theorem node_inj (hnode : F.node P i = F.node P j) (hj : F.shared (F.core j) = true) : i = j := by
  cases hkind : F.kind P with
  | single => exact F.eq_of_single hkind hj
  | dynamic =>
    simp only [node, hkind, Node.callbacks.injEq] at hnode
    exact Fin.ext hnode
  | static =>
    by_cases hordered : P.kIsOrdered = true
    · simp only [node, hkind, hordered, if_true, Node.callbacks.injEq] at hnode
      exact Fin.ext hnode
    · rw [Bool.not_eq_true] at hordered
      rw [F.node_static hkind hordered, F.node_static hkind hordered] at hnode
      by_cases hi : F.shared (F.core i) = true
      · by_contra hne
        exact GetCallbackHelper_ne (F.types_getElem? i) hi (F.types_getElem? j) hj
          (fun heq => hne (Fin.ext heq)) hnode
      · rw [shared] at hi hj
        rw [GetCallbackHelper, if_neg hi, GetCallbackHelper, if_pos hj] at hnode
        contradiction

/-- A core and a callback object determine the input. -/
theorem eq_of_node (hcore : F.core i = F.core j) (hnode : F.node P i = F.node P j) : i = j := by
  by_cases hj : F.shared (F.core j) = true
  · exact F.node_inj hnode hj
  · apply F.distinct i j hcore
    rw [hcore]
    simpa [shared] using hj

theorem node_ours (i : Fin n) : (F.node P i).ours = true := by
  unfold node
  cases F.kind P with
  | single | dynamic => rfl
  | static =>
    dsimp only
    by_cases hordered : P.kIsOrdered = true
    · rw [if_pos hordered]
      rfl
    · rw [if_neg hordered]
      by_cases hi : F.shared (F.core i) = true
      · rw [if_pos hi]
        rfl
      · rw [if_neg hi]
        rfl

theorem inputOf_eq_some [DecidableEq κ] {c : κ} {m : Node} :
    F.inputOf P c m = some i ↔ F.core i = c ∧ F.node P i = m := by
  unfold inputOf
  constructor
  · intro hfind
    simpa using List.find?_some hfind
  · rintro ⟨rfl, rfl⟩
    cases hfind : (List.finRange n).find? fun j =>
        F.core j = F.core i && F.node P j = F.node P i with
    | none =>
      have hnone := List.find?_eq_none.mp hfind i (List.mem_finRange i)
      simp at hnone
    | some j =>
      have hj : F.core j = F.core i ∧ F.node P j = F.node P i := by
        simpa using List.find?_some hfind
      rw [F.eq_of_node hj.1 hj.2]

/-- Only unordered strategies have callbacks that do not know their index. -/
theorem kind_ordered (hordered : P.kIsOrdered = true) : F.kind P ≠ .single := by
  unfold kind
  by_cases hiter : F.iterator = true
  · simp [hiter, hordered]
  · simp [hiter, hordered]

end Futures

namespace StrategyClass

variable {n : Nat} {κ τ R : Type} [DecidableEq τ] (F : Futures n κ τ R) (S : StrategyClass n R)
variable (i : Fin n)

/-- The callback of an input hands on the index of the input. -/
theorem argument_node : S.argument (F.node S.kConsumePolicy i).index = S.argument i := by
  unfold argument
  by_cases hordered : S.kConsumePolicy.kIsOrdered = true
  · have hsingle := F.kind_ordered hordered
    rw [if_pos hordered, if_pos hordered]
    unfold Futures.node
    cases hkind : F.kind S.kConsumePolicy with
    | single => contradiction
    | dynamic => rfl
    | static =>
      dsimp only
      rw [if_pos hordered]
      rfl
  · rw [if_neg hordered, if_neg hordered]

/-- So does `Set`, where it consumes an input itself. -/
theorem argument_setIndex : S.argument (F.setIndex S.kConsumePolicy i) = S.argument i := by
  unfold argument
  by_cases hordered : S.kConsumePolicy.kIsOrdered = true
  · have hsingle := F.kind_ordered hordered
    rw [if_pos hordered, if_pos hordered]
    simp [Futures.setIndex, hsingle]
  · rw [if_neg hordered, if_neg hordered]

end StrategyClass

end Yaclib.When
