import Yaclib.Concurrency.System

/-!
`ThreadLocalPtrProxy` of `fault/detail/fiber/thread_local_proxy.hpp`, with `GetImpl`, `Set`
and `SetDefault`, and the map of a fiber.

`τ` are the pointee types, `κ` the proxies, `φ` the fibers and `V` the objects.

Reading through a pointer and the comparisons are left out: they are those of the pointer
that `Get` returns.
-/

namespace Yaclib.Fault.Fiber.ThreadLocal

open Concurrency

abbrev Pointer (V : Type) : Type := Option V

/-- `sNextFreeIndex` of each `ThreadLocalPtrProxy<Type>`, the `_i` of the proxies that are
constructed, `_tls` of the fibers and `sDefaults`. -/
structure State (τ κ φ V : Type) where
  sNextFreeIndex : τ → UInt64 := fun _ => 0
  index : κ → Option UInt64 := fun _ => none
  tls : φ → UInt64 → Option (Pointer V) := fun _ _ => none
  sDefaults : UInt64 → Pointer V := fun _ => none

inductive Op (κ V : Type) where
  | construct (p : κ) (value : Pointer V)
  | copyConstruct (p other : κ)
  | moveConstruct (p other : κ)
  | assign (p : κ) (value : Pointer V)
  | copyAssign (p other : κ)
  | moveAssign (p other : κ)

structure Event (κ φ V : Type) where
  fiber : φ
  op : Op κ V

variable {τ κ φ V : Type}

namespace State

/-- `GetTLS`: `operator[]` of `sDefaults` gives null where nothing was stored. -/
def getTLS (s : State τ κ φ V) (f : φ) (i : UInt64) : Pointer V :=
  (s.tls f i).getD (s.sDefaults i)

def set [DecidableEq φ] (s : State τ κ φ V) (f : φ) (value : Pointer V) (i : UInt64) : State τ κ φ V :=
  { s with tls := Function.update s.tls f (Function.update (s.tls f) i (some value)) }

def setDefault (s : State τ κ φ V) (value : Pointer V) (i : UInt64) : State τ κ φ V :=
  { s with sDefaults := Function.update s.sDefaults i value }

/-- `_i(sNextFreeIndex++)` -/
def allocate [DecidableEq τ] [DecidableEq κ] (s : State τ κ φ V) (T : τ) (p : κ) :
    State τ κ φ V :=
  { s with
    index := Function.update s.index p (some (s.sNextFreeIndex T))
    sNextFreeIndex := Function.update s.sNextFreeIndex T (s.sNextFreeIndex T + 1) }

/-- `_i = other._i` -/
def share [DecidableEq κ] (s : State τ κ φ V) (p : κ) (j : UInt64) : State τ κ φ V :=
  { s with index := Function.update s.index p (some j) }

section Reads

variable {s : State τ κ φ V} {f g : φ} {i j : UInt64} {v w : Pointer V}

theorem getTLS_set_self [DecidableEq φ] : (s.set f v i).getTLS f i = v := by
  simp [getTLS, set]

theorem getTLS_set_of_ne [DecidableEq φ] (h : g ≠ f ∨ j ≠ i) :
    (s.set f v i).getTLS g j = s.getTLS g j := by
  unfold getTLS set
  by_cases hg : g = f
  · subst hg
    have hj : j ≠ i := h.resolve_left fun hne => hne rfl
    simp [hj]
  · simp [hg]

theorem getTLS_setDefault_of_ne (h : j ≠ i) : (s.setDefault v i).getTLS g j = s.getTLS g j := by
  simp [getTLS, setDefault, h]

/-- After `SetDefault`, a fiber reads `v` if it has no pointer of its own but `v`. -/
theorem getTLS_setDefault_self :
    (s.setDefault v i).getTLS g i = v ↔ ∀ w, s.tls g i = some w → w = v := by
  unfold getTLS setDefault
  cases s.tls g i <;> simp

/-- `SetDefault` is not seen where the default is not read or stays. -/
theorem getTLS_setDefault_eq :
    (s.setDefault v i).getTLS g i = s.getTLS g i ↔ (s.tls g i = none → s.sDefaults i = v) := by
  unfold getTLS setDefault
  cases s.tls g i <;> simp [eq_comm]

end Reads

end State

section

variable [DecidableEq τ] [DecidableEq κ] [DecidableEq φ] [DecidableEq V] (type : κ → τ)

/-- A constructor needs a proxy that is not there yet, everything else proxies that are. -/
def step (s : State τ κ φ V) (e : Event κ φ V) : Option (State τ κ φ V) :=
  match e.op with
  | .construct p value =>
    match s.index p with
    | some _ => none
    | none =>
      let t := s.allocate (type p) p
      some (if value = none then t else t.setDefault value (s.sNextFreeIndex (type p)))
  | .copyConstruct p other =>
    match s.index p, s.index other with
    | none, some j =>
      some ((s.allocate (type p) p).setDefault (s.getTLS e.fiber j) (s.sNextFreeIndex (type p)))
    | _, _ => none
  | .moveConstruct p other =>
    match s.index p, s.index other with
    | none, some j => some (s.share p j)
    | _, _ => none
  | .assign p value => (s.index p).map fun i => s.set e.fiber value i
  | .copyAssign p other =>
    match s.index p, s.index other with
    | some i, some j =>
      -- the template for another type does not compare
      if type p = type other ∧ s.getTLS e.fiber i = s.getTLS e.fiber j then some s
      else some (s.setDefault (s.getTLS e.fiber j) i)
    | _, _ => none
  | .moveAssign p other =>
    match s.index p, s.index other with
    | some _, some j => some (s.share p j)
    | _, _ => none

/-! ### A native thread_local -/

/-- The pointers of each proxy in each fiber, if they were `thread_local Type*`. -/
def native (value : κ → φ → Pointer V) (e : Event κ φ V) : κ → φ → Pointer V :=
  match e.op with
  | .construct p v => Function.update value p fun _ => v
  | .copyConstruct p other | .moveConstruct p other =>
    Function.update value p fun _ => value other e.fiber
  | .assign p v => Function.update value p (Function.update (value p) e.fiber v)
  | .copyAssign p other | .moveAssign p other =>
    Function.update value p (Function.update (value p) e.fiber (value other e.fiber))

/-- The proxies beside native pointers. -/
def system : System (State τ κ φ V × (κ → φ → Pointer V)) (Event κ φ V) :=
  System.recorded ⟨fun s => s = {}, step type⟩ (fun _ _ => none) fun _ e _ value => native value e

/-- Every proxy reads in every fiber what the native pointer would be. -/
def Agrees (s : State τ κ φ V × (κ → φ → Pointer V)) : Prop :=
  ∀ p i, s.1.index p = some i → ∀ g, s.1.getTLS g i = s.2 p g

/-! ### Where they agree -/

/-- No fiber reads the default of the index, unless it is `value` already. -/
def Unread (s : State τ κ φ V) (i : UInt64) (value : Pointer V) : Prop :=
  ∀ g, s.tls g i = none → s.sDefaults i = value

/-- Another proxy has the index. -/
def Taken (s : State τ κ φ V) (p : κ) (i : UInt64) : Prop :=
  ∃ q, q ≠ p ∧ s.index q = some i

/-- When an operation meets the native one. A constructor draws an index for which no
fiber has another pointer and that no other proxy has, or whose default stays as it is.
Who assigns a pointer is the only proxy with the index, or it is there already. A copy
assignment finds the same pointer at a proxy of the same type, or a default that only this
fiber reads, and only for this proxy. A move finds the same pointers in the other fibers. -/
def Keeps (s : State τ κ φ V) (e : Event κ φ V) : Prop :=
  match e.op with
  | .construct p value =>
    (∀ g v, s.tls g (s.sNextFreeIndex (type p)) = some v → v = value) ∧
    (value = none ∨ Taken s p (s.sNextFreeIndex (type p)) →
      Unread s (s.sNextFreeIndex (type p)) value)
  | .copyConstruct p other =>
    ∀ j, s.index other = some j →
      (∀ g v, s.tls g (s.sNextFreeIndex (type p)) = some v → v = s.getTLS e.fiber j) ∧
      (Taken s p (s.sNextFreeIndex (type p)) →
        Unread s (s.sNextFreeIndex (type p)) (s.getTLS e.fiber j))
  | .moveConstruct _ other =>
    ∀ j, s.index other = some j → ∀ g, s.getTLS g j = s.getTLS e.fiber j
  | .assign p value => ∀ i, s.index p = some i → Taken s p i → s.getTLS e.fiber i = value
  | .copyAssign p other =>
    ∀ i j, s.index p = some i → s.index other = some j →
      type p = type other ∧ s.getTLS e.fiber i = s.getTLS e.fiber j ∨
      (∀ v, s.tls e.fiber i = some v → v = s.getTLS e.fiber j) ∧
      (∀ g, g ≠ e.fiber ∨ Taken s p i → s.tls g i = none → s.sDefaults i = s.getTLS e.fiber j)
  | .moveAssign p other =>
    ∀ i j, s.index p = some i → s.index other = some j →
      ∀ g, g ≠ e.fiber → s.getTLS g i = s.getTLS g j

end
variable {type : κ → τ} {s t : State τ κ φ V} {value : κ → φ → Pointer V} {f g : φ} {p other : κ}
variable {i j : UInt64} {v : Pointer V} {x : φ → Pointer V}

theorem Agrees.read (h : Agrees (s, value)) (hp : s.index p = some i) (g : φ) :
    s.getTLS g i = value p g :=
  h p i hp g

/-- The other proxies do not see a `SetDefault`. -/
theorem others_setDefault (hs : t = s.setDefault v i) :
    (∀ q k, q ≠ p → s.index q = some k → ∀ g, t.getTLS g k = s.getTLS g k) ↔
      (Taken s p i → Unread s i v) := by
  subst hs
  constructor
  · rintro hothers ⟨q, hq, hi⟩ g
    exact State.getTLS_setDefault_eq.mp (hothers q i hq hi g)
  · intro hunread q k hq hk g
    by_cases hki : k = i
    · subst hki
      exact State.getTLS_setDefault_eq.mpr (hunread ⟨q, hq, hk⟩ g)
    · exact State.getTLS_setDefault_of_ne hki

variable [DecidableEq κ]

/-- An operation on one proxy is right if that proxy reads what it should, and the others
what they did. -/
theorem agrees_update (h : Agrees (s, value)) (hindex : ∀ q, q ≠ p → t.index q = s.index q) :
    Agrees (t, Function.update value p x) ↔
      (∀ i, t.index p = some i → ∀ g, t.getTLS g i = x g) ∧
      ∀ q i, q ≠ p → s.index q = some i → ∀ g, t.getTLS g i = s.getTLS g i := by
  constructor
  · intro ht
    refine ⟨?_, ?_⟩
    · intro i hi g
      have hp : t.getTLS g i = Function.update value p x p g := ht p i hi g
      rwa [Function.update_self] at hp
    · intro q i hq hi g
      have hnew : t.getTLS g i = Function.update value p x q g :=
        ht q i (by rw [hindex q hq]; exact hi) g
      rw [Function.update_of_ne hq] at hnew
      rw [hnew]
      exact (h q i hi g).symm
  · rintro ⟨hp, hothers⟩ q i hi g
    show t.getTLS g i = Function.update value p x q g
    by_cases hq : q = p
    · subst hq
      rw [Function.update_self]
      exact hp i hi g
    · have hold : s.index q = some i := by
        rw [← hindex q hq]
        exact hi
      rw [Function.update_of_ne hq, hothers q i hq hold g]
      exact h q i hold g

/-- A move: both proxies have one index. -/
theorem share_keeps (h : Agrees (s, value)) :
    Agrees (s.share p j, Function.update value p x) ↔ ∀ g, s.getTLS g j = x g := by
  have hindex : ∀ q, q ≠ p → (s.share p j).index q = s.index q := by
    intro q hq
    exact Function.update_of_ne hq _ _
  have hnew : (s.share p j).index p = some j := Function.update_self p _ _
  rw [agrees_update h hindex, hnew]
  constructor
  · rintro ⟨hreads, -⟩ g
    exact hreads j rfl g
  · intro hreads
    refine ⟨?_, fun q i hq hi g => rfl⟩
    rintro i ⟨⟩ g
    exact hreads g

theorem assign_keeps [DecidableEq φ] (h : Agrees (s, value)) (hp : s.index p = some i) :
    Agrees (s.set f v i, Function.update value p (Function.update (value p) f v)) ↔
      (Taken s p i → s.getTLS f i = v) := by
  rw [agrees_update (t := s.set f v i) h fun q hq => rfl]
  have hreads : ∀ g, (s.set f v i).getTLS g i = Function.update (value p) f v g := by
    intro g
    by_cases hg : g = f
    · subst hg
      rw [Function.update_self]
      exact State.getTLS_set_self
    · rw [Function.update_of_ne hg, State.getTLS_set_of_ne (.inl hg)]
      exact h.read hp g
  constructor
  · rintro ⟨-, hothers⟩ ⟨q, hq, hi⟩
    rw [← hothers q i hq hi f]
    exact State.getTLS_set_self
  · intro htaken
    refine ⟨?_, ?_⟩
    · intro k hk g
      have hki : k = i := by
        rw [show (s.set f v i).index p = s.index p from rfl, hp] at hk
        exact (Option.some.inj hk).symm
      rw [hki]
      exact hreads g
    · intro q k hq hk g
      by_cases hsame : g = f ∧ k = i
      · obtain ⟨rfl, rfl⟩ := hsame
        rw [htaken ⟨q, hq, hk⟩]
        exact State.getTLS_set_self
      · exact State.getTLS_set_of_ne (not_and_or.mp hsame)

/-- A copy assignment that overwrites the default. -/
theorem setDefault_keeps [DecidableEq φ] (h : Agrees (s, value)) (hp : s.index p = some i) :
    Agrees (s.setDefault v i, Function.update value p (Function.update (value p) f v)) ↔
      (∀ w, s.tls f i = some w → w = v) ∧
      (∀ g, g ≠ f ∨ Taken s p i → s.tls g i = none → s.sDefaults i = v) := by
  rw [agrees_update (t := s.setDefault v i) h fun q hq => rfl, others_setDefault rfl]
  constructor
  · rintro ⟨hreads, hothers⟩
    refine ⟨?_, ?_⟩
    · have hread := hreads i hp f
      rw [Function.update_self] at hread
      exact State.getTLS_setDefault_self.mp hread
    · intro g hg hnone
      by_cases hgf : g = f
      · exact hothers (hg.resolve_left fun hne => hne hgf) g hnone
      · have hread := hreads i hp g
        rw [Function.update_of_ne hgf, ← h.read hp g] at hread
        exact State.getTLS_setDefault_eq.mp hread hnone
  · rintro ⟨hown, hdefault⟩
    refine ⟨?_, fun htaken g hnone => hdefault g (.inr htaken) hnone⟩
    intro k hk g
    have hki : k = i := by
      rw [show (s.setDefault v i).index p = s.index p from rfl, hp] at hk
      exact (Option.some.inj hk).symm
    rw [hki]
    by_cases hgf : g = f
    · subst hgf
      rw [Function.update_self]
      exact State.getTLS_setDefault_self.mpr hown
    · rw [Function.update_of_ne hgf, State.getTLS_setDefault_eq.mpr (hdefault g (.inl hgf))]
      exact h.read hp g

variable [DecidableEq τ]

/-- A constructor that stores its default. -/
theorem construct_keeps (h : Agrees (s, value)) :
    Agrees ((s.allocate (type p) p).setDefault v (s.sNextFreeIndex (type p)),
        Function.update value p fun _ => v) ↔
      (∀ g w, s.tls g (s.sNextFreeIndex (type p)) = some w → w = v) ∧
      (Taken s p (s.sNextFreeIndex (type p)) → Unread s (s.sNextFreeIndex (type p)) v) := by
  have hindex : ∀ q, q ≠ p →
      ((s.allocate (type p) p).setDefault v (s.sNextFreeIndex (type p))).index q = s.index q := by
    intro q hq
    exact Function.update_of_ne hq _ _
  have hnew : ((s.allocate (type p) p).setDefault v (s.sNextFreeIndex (type p))).index p =
      some (s.sNextFreeIndex (type p)) := Function.update_self p _ _
  rw [agrees_update h hindex, hnew, ← others_setDefault rfl]
  apply and_congr
  · constructor
    · intro hreads g
      exact State.getTLS_setDefault_self.mp (hreads _ rfl g)
    · rintro hown i ⟨⟩ g
      exact State.getTLS_setDefault_self.mpr (hown g)
  · exact Iff.rfl

/-- A constructor without a pointer leaves the default as it is. -/
theorem construct_null_keeps (h : Agrees (s, value)) :
    Agrees (s.allocate (type p) p, Function.update value p fun _ => none) ↔
      (∀ g w, s.tls g (s.sNextFreeIndex (type p)) = some w → w = none) ∧
      Unread s (s.sNextFreeIndex (type p)) none := by
  have hindex : ∀ q, q ≠ p → (s.allocate (type p) p).index q = s.index q := by
    intro q hq
    exact Function.update_of_ne hq _ _
  have hnew : (s.allocate (type p) p).index p = some (s.sNextFreeIndex (type p)) :=
    Function.update_self p _ _
  rw [agrees_update h hindex, hnew]
  constructor
  · rintro ⟨hreads, -⟩
    refine ⟨?_, ?_⟩
    · intro g w hg
      have hread := hreads _ rfl g
      unfold State.getTLS at hread
      rwa [show (s.allocate (type p) p).tls g = s.tls g from rfl, hg] at hread
    · intro g hg
      have hread := hreads _ rfl g
      unfold State.getTLS at hread
      rwa [show (s.allocate (type p) p).tls g = s.tls g from rfl, hg] at hread
  · rintro ⟨hown, hunread⟩
    refine ⟨?_, fun q i hq hi g => rfl⟩
    rintro i ⟨⟩ g
    show (s.tls g _).getD (s.sDefaults _) = none
    cases hg : s.tls g (s.sNextFreeIndex (type p)) with
    | none => exact hunread g hg
    | some w => exact hown g w hg

variable [DecidableEq φ] [DecidableEq V]

/-- The step lemma: an operation keeps the agreement exactly if it meets the condition. -/
theorem agrees_step (h : Agrees (s, value)) {e : Event κ φ V} (hstep : step type s e = some t) :
    Agrees (t, native value e) ↔ Keeps type s e := by
  obtain ⟨f, op⟩ := e
  cases op with
  | construct p v =>
    cases hp : s.index p with
    | some i => simp [step, hp] at hstep
    | none =>
      simp only [step, hp, Option.some.injEq] at hstep
      subst hstep
      cases v with
      | none =>
        rw [if_pos rfl]
        show Agrees (_, Function.update value p fun _ => none) ↔ _
        rw [construct_null_keeps h]
        simp [Keeps]
      | some v =>
        rw [if_neg (Option.some_ne_none v)]
        show Agrees (_, Function.update value p fun _ => some v) ↔ _
        rw [construct_keeps h]
        simp [Keeps]
  | copyConstruct p other =>
    cases hp : s.index p with
    | some i => simp [step, hp] at hstep
    | none =>
      cases hother : s.index other with
      | none => simp [step, hp, hother] at hstep
      | some j =>
        simp only [step, hp, hother, Option.some.injEq] at hstep
        subst hstep
        show Agrees (_, Function.update value p fun _ => value other f) ↔ _
        rw [← show s.getTLS f j = value other f from h.read hother f, construct_keeps h]
        simp [Keeps, hother]
  | moveConstruct p other =>
    cases hp : s.index p with
    | some i => simp [step, hp] at hstep
    | none =>
      cases hother : s.index other with
      | none => simp [step, hp, hother] at hstep
      | some j =>
        simp only [step, hp, hother, Option.some.injEq] at hstep
        subst hstep
        show Agrees (_, Function.update value p fun _ => value other f) ↔ _
        rw [← show s.getTLS f j = value other f from h.read hother f, share_keeps h]
        simp [Keeps, hother]
  | assign p v =>
    cases hp : s.index p with
    | none => simp [step, hp] at hstep
    | some i =>
      simp only [step, hp, Option.map_some, Option.some.injEq] at hstep
      subst hstep
      show Agrees (_, Function.update value p (Function.update (value p) f v)) ↔ _
      rw [assign_keeps h hp]
      simp [Keeps, hp]
  | copyAssign p other =>
    cases hp : s.index p with
    | none => simp [step, hp] at hstep
    | some i =>
      cases hother : s.index other with
      | none => simp [step, hp, hother] at hstep
      | some j =>
        have hread : s.getTLS f j = value other f := h.read hother f
        simp only [step, hp, hother] at hstep
        show Agrees (_, Function.update value p (Function.update (value p) f (value other f))) ↔ _
        by_cases hsame : type p = type other ∧ s.getTLS f i = s.getTLS f j
        · rw [if_pos hsame, Option.some.injEq] at hstep
          subst hstep
          have hvalue : value other f = value p f := by
            rw [← hread, ← hsame.2]
            exact h.read hp f
          rw [hvalue, Function.update_eq_self, Function.update_eq_self]
          apply iff_of_true h
          rintro i' j' hi' hj'
          rw [hp] at hi'
          rw [hother] at hj'
          cases hi'
          cases hj'
          exact .inl hsame
        · rw [if_neg hsame, Option.some.injEq] at hstep
          subst hstep
          rw [← hread, setDefault_keeps h hp]
          simp [Keeps, hp, hother, hsame]
  | moveAssign p other =>
    cases hp : s.index p with
    | none => simp [step, hp] at hstep
    | some i =>
      cases hother : s.index other with
      | none => simp [step, hp, hother] at hstep
      | some j =>
        simp only [step, hp, hother, Option.some.injEq] at hstep
        subst hstep
        show Agrees (_, Function.update value p (Function.update (value p) f (value other f))) ↔ _
        rw [share_keeps h]
        constructor
        · intro hreads i' j' hi' hj' g hg
          rw [hp] at hi'
          rw [hother] at hj'
          cases hi'
          cases hj'
          have hread := hreads g
          rw [Function.update_of_ne hg, ← h.read hp g] at hread
          exact hread.symm
        · intro hkeeps g
          by_cases hg : g = f
          · subst hg
            rw [Function.update_self]
            exact h.read hother g
          · rw [Function.update_of_ne hg, ← h.read hp g]
            exact (hkeeps i j hp hother g hg).symm

/-- In every replay of operations of the fibers, from no proxies, all proxies always read
in all fibers what native pointers would be if and only if each operation meets the
condition when it runs. -/
theorem proxy_agrees (type : κ → τ) (events : List (Event κ φ V)) :
    (system (φ := φ) (V := V) type).Always Agrees ({}, fun _ _ => none) events ↔
      (system type).Each (fun s e => Keeps type s.1 e) ({}, fun _ _ => none) events := by
  apply System.always_iff_each
  · rintro ⟨s, value⟩ e ⟨t, value'⟩ h hstep
    obtain ⟨u, hu, heq⟩ := Option.map_eq_some_iff.mp hstep
    cases heq
    exact agrees_step h hu
  · intro p i hi
    contradiction

/-- The first proxy of each of two pointee types: the second constructor changes what the
first proxy reads. -/
def twoTypes : List (Event Bool (Fin 2) Nat) :=
  [⟨0, .construct false (some 1)⟩, ⟨0, .construct true (some 2)⟩]

/-- Two proxies of one type, and a copy assignment in fiber 0, that fiber 1 sees. -/
def copied : List (Event Bool (Fin 2) Nat) :=
  [⟨0, .construct false (some 1)⟩, ⟨0, .construct true (some 2)⟩, ⟨0, .copyAssign false true⟩]

theorem not_proxy_agrees :
    ¬ (system fun p : Bool => p).Always Agrees ({}, fun _ _ => none) twoTypes ∧
    ¬ (system fun _ : Bool => ()).Always Agrees ({}, fun _ _ => none) copied := by
  refine ⟨?_, ?_⟩
  · intro h
    have hend := (h.2 _ rfl).2 _ rfl
    have hread := hend false 0 rfl 0
    revert hread
    decide
  · intro h
    have hend := ((h.2 _ rfl).2 _ rfl).2 _ rfl
    have hread := hend false 0 rfl 1
    revert hread
    decide

end Yaclib.Fault.Fiber.ThreadLocal
