import Yaclib.Algo.SharedCore.Act

/-!
What holds in every run of the shared cores: where a result is read that is not there, which
results the cores get, when a core is deleted, when its value may be moved out, and that the
callbacks are called.
-/

namespace Yaclib.SharedCore

open Concurrency

variable {κ φ ν ρ : Type} {cfg : Config κ ν} {s t : State κ φ ν ρ} {m m' : Machine κ φ ν ρ}
  {c d : κ} {f : φ} {j : ν} {r : ρ} {e : Event κ φ ν ρ}

theorem inv_empty : Inv cfg ({} : State κ φ ν ρ) := by
  refine ⟨⟨?_, ?_, ?_, ?_, ?_, ?_⟩, ⟨?_, ?_, ?_⟩, ⟨?_, ?_, ?_, ?_⟩, ⟨?_, ?_, ?_, ?_, ?_, ?_⟩,
    ⟨?_, ?_, ?_⟩, ?_, ?_, ⟨?_, ?_⟩⟩
  · exact fun c => .initial cfg.shared c
  · exact fun c => List.nodup_nil
  · simp
  · simp
  · simp
  · simp
  · simp
  · simp
  · simp
  · simp
  · simp
  · simp
  · simp
  · intro c
    refine ⟨0, Counts.zero ?_, by simp [share]⟩
    rintro (f | j) h
    · cases h
    · exact not_holds_idle rfl h
  · intro c _
    refine ⟨by simp, ?_⟩
    rintro j ⟨script, hscript⟩
    cases hscript
  · simp
  · simp
  · rintro c j i _ ⟨script, hscript⟩
    cases hscript
  · rintro c f j _ hf
    cases hf
  · simp
  · rintro j d c script _ hscript
    cases hscript
  · simp
  · simp
  · simp
  · simp
  · simp

/-- A call that has begun only goes on. -/
def Onward (s t : State κ φ ν ρ) : Prop :=
  ∀ j, t.call j = s.call j ∨ s.call j = .idle ∨
    ∃ c caller script ref value, t.call j = .running c caller script ref value

theorem Onward.of_eq (h : t.call = s.call) : Onward s t := fun j => .inl (congrFun h j)

theorem Derived.stored_eq (h : Derived s r c) : s.stored c = some r := by
  cases h with
  | set _ hr => exact hr
  | connect _ hr _ => exact hr

/-- The callback is in the list of the core, or it was called. -/
def Attached (s : State κ φ ν ρ) (c : κ) (j : ν) : Prop :=
  s.call j = .listed c ∨
    ∃ d caller script ref value, s.call j = .running d caller script ref value

/-- A callback that is attached stays so until it is called. -/
theorem Onward.attached (h : Onward s t) (ha : Attached s c j) : Attached t c j := by
  rcases h j with hcall | hidle | hrunning
  · rw [Attached, hcall]
    exact ha
  · rcases ha with hlisted | ⟨_, _, _, _, _, hrunning⟩
    · rw [hidle] at hlisted
      cases hlisted
    · rw [hidle] at hrunning
      cases hrunning
  · exact .inr hrunning

/-- A call that begins is in a list, or it is served. -/
def Begun [DecidableEq ν] (j : ν) (s t : State κ φ ν ρ) : Prop :=
  s.call j = .idle ∧ ∃ x, t.call = Function.update s.call j x ∧
    ((∃ c, x = .listed c) ∨ ∃ c caller script ref value, x = .running c caller script ref value)

variable [DecidableEq κ]

/-- A word that is not empty and leads to no callback is the result. -/
theorem kResult_of_ready {word : Callback ν} (h : word.toPtr = none) (hne : word ≠ .kEmpty) :
    word = .kResult := by
  cases word with
  | kResult => rfl
  | ptr p => exact absurd (congrArg Callback.ptr h) hne

variable [DecidableEq ν]

variable [DecidableEq φ]

/-! Every reachable state. -/

/-- The core that is read because `Ready` holds. -/
def relies (s : State κ φ ν ρ) : Event κ φ ν ρ → Option κ
  | .look f true => s.future f
  | .take _ f true => s.future f
  | _ => none

/-- `Ready` is relied on only where no callback is attached: there a callback that waits looks
like a result. -/
def Careful (m : Machine κ φ ν ρ) (e : Event κ φ ν ρ) (_ : Machine κ φ ν ρ) : Prop :=
  ∀ c ∈ relies m.state e, (m.state.cores.callback c).toPtr = none

instance (m : Machine κ φ ν ρ) (e : Event κ φ ν ρ) (m' : Machine κ φ ν ρ) :
    Decidable (Careful m e m') :=
  inferInstanceAs (Decidable (∀ c ∈ relies m.state e, (m.state.cores.callback c).toPtr = none))

/-- One event keeps the invariant, and is no undefined behaviour. -/
theorem Inv.exec (hi : Inv cfg s) {y : Except Fault (State κ φ ν ρ)}
    (hcareful : ∀ c ∈ relies s e, (s.cores.callback c).toPtr = none) (h : exec cfg s e = some y) :
    ∃ t, y = .ok t ∧ Inv cfg t := by
  cases e with
  | make c f =>
    obtain ⟨t, ht, rfl⟩ := Option.map_eq_some_iff.mp h
    exact ⟨t, rfl, hi.make ht⟩
  | makePromise c =>
    obtain ⟨t, ht, rfl⟩ := Option.map_eq_some_iff.mp h
    exact ⟨t, rfl, hi.makePromise ht⟩
  | copy f g => exact hi.copy h
  | split c g => exact hi.split h
  | drop f => exact hi.drop h
  | look f byReady =>
    refine hi.look ?_ h
    rintro c hf rfl hne
    exact kResult_of_ready (hcareful c hf) hne
  | attach m f => exact hi.attach h
  | subsume m c => exact hi.subsume h
  | take m f byReady =>
    obtain ⟨t, ht, rfl⟩ := Option.map_eq_some_iff.mp h
    refine ⟨t, rfl, hi.take ?_ ht⟩
    rintro c hf rfl hne
    exact kResult_of_ready (hcareful c hf) hne
  | set c r => exact hi.set h
  | exchange c => exact hi.exchange h
  | visit c =>
    obtain ⟨t, ht, rfl⟩ := Option.map_eq_some_iff.mp h
    exact ⟨t, rfl, hi.visit ht⟩
  | release c => exact hi.release h
  | call c =>
    obtain ⟨t, ht, rfl⟩ := Option.map_eq_some_iff.mp h
    exact ⟨t, rfl, hi.callHere ht⟩
  | act m => exact hi.act h

theorem step_eq (h : (system cfg).step m e = some m') :
    ∃ y, exec cfg m.state e = some y ∧ m' = settle m.state y := by
  simp only [system, step] at h
  split at h
  · cases h
  · obtain ⟨y, hy, rfl⟩ := Option.map_eq_some_iff.mp h
    exact ⟨y, hy, rfl⟩

/-- No careful run meets undefined behaviour, and each keeps the invariant. -/
theorem inv_of_reachable (hs : (system cfg).ReachableIf Careful m) :
    m.fault = none ∧ Inv cfg m.state := by
  refine System.Inductive.reachable (P := fun m => m.fault = none ∧ Inv cfg m.state) ⟨?_, ?_⟩ hs
  · rintro m rfl
    exact ⟨rfl, inv_empty⟩
  · rintro m e m' ⟨-, hi⟩ h hcareful
    obtain ⟨y, hy, rfl⟩ := step_eq h
    obtain ⟨t, rfl, ht⟩ := hi.exec hcareful hy
    exact ⟨rfl, ht⟩

/-! The calls of a step. -/

def connected : Config (Fin 2) (Fin 3) where
  shared c := c = 0
  kind
    | 0 => .connect 1
    | 1 => .inline
    | 2 => .get

/-- The step and the promise of the unique core are attached. -/
def connectedRun : List (Event (Fin 2) (Fin 3) (Fin 3) Nat) :=
  [.make 0 0, .copy 0 1, .make 1 2, .attach 1 0, .attach 0 0]

def connectedWaiting : Machine (Fin 2) (Fin 3) (Fin 3) Nat :=
  ((system connected).runIf Careful {} connectedRun).get (by decide)

theorem reachable_connectedWaiting : (system connected).ReachableIf Careful connectedWaiting :=
  System.ReachableIf.runIf (.init rfl) (Option.some_get _).symm

/-- The result is copied to the unique core, and moved out of it at last. -/
def connectedRest : List (Event (Fin 2) (Fin 3) (Fin 3) Nat) :=
  [.set 0 5, .exchange 0, .visit 0, .call 0, .act 0, .act 0, .act 0, .act 0, .act 0, .exchange 1,
    .act 0, .act 0, .visit 0, .release 0, .call 0, .act 1, .act 1, .release 0, .release 0, .drop 0,
    .drop 1, .take 2 2 false, .act 2, .act 2]

def connectedEnd : Machine (Fin 2) (Fin 3) (Fin 3) Nat :=
  ((system connected).runIf Careful connectedWaiting connectedRest).get (by decide)

theorem reachable_connectedEnd : (system connected).ReachableIf Careful connectedEnd :=
  System.ReachableIf.runIf reachable_connectedWaiting (Option.some_get _).symm

/-! Undefined behaviour. -/

/-- Every result is the one that was set by the promise at the root of its connections, and a
call reads the result of its core and no other one. -/
theorem stored_derived (hs : (system cfg).ReachableIf Careful m) :
    (∀ c r, m.state.stored c = some r → Derived m.state r c) ∧
    (∀ c d r, m.state.source d = some c → m.state.stored d = some r → m.state.stored c = some r) ∧
    (∀ c r, m.state.slot c = .full r → m.state.stored c = some r) ∧
    ∀ j c caller script ref r, m.state.call j = .running c caller script ref (some r) →
      m.state.stored c = some r := by
  have hi := (inv_of_reachable hs).2
  refine ⟨hi.derived, ?_, hi.results.full, ?_⟩
  · intro c d r hsource hstored
    cases hi.derived d r hstored with
    | set hnone _ =>
      rw [hsource] at hnone
      cases hnone
    | connect hsource' _ hderived =>
      rw [hsource] at hsource'
      cases hsource'
      exact hderived.stored_eq
  · intro j c caller script ref r hcall
    exact (hi.calls.running j c caller script ref (some r) hcall).value r rfl

theorem stored_derived_connected :
    connectedEnd.state.source 1 = some 0 ∧ connectedEnd.state.stored 0 = some 5 := by
  have hsource : connectedEnd.state.source 1 = some 0 := by decide
  exact ⟨hsource, (stored_derived reachable_connectedEnd).2.1 0 1 5 hsource (by decide)⟩

end Yaclib.SharedCore
