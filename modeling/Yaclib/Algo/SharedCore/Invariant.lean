import Yaclib.Algo.SharedCore.Model
import Yaclib.Concurrency.Counts

/-!
What holds between the steps: which calls a script leaves to do, who holds a reference of a
core, and which of them may still read its result.
-/

namespace Yaclib.SharedCore

open Concurrency

variable {κ φ ν ρ : Type}

/-! The scripts. -/

/-- The script gives a reference back that it holds. -/
def owes (shared : Bool) : List (Act κ) → Bool
  | [] => false
  | .decRef :: _ => true
  | .incRef :: _ => false
  | .decRefIfOne :: rest => !shared || owes shared rest
  | _ :: rest => owes shared rest

/-- It reads the result, or takes a reference. -/
def Act.reads : Act κ → Bool
  | read _ | incRef => true
  | _ => false

def Act.stores : Act κ → Bool
  | store _ => true
  | _ => false

def Act.sets : Act κ → Bool
  | setResult _ => true
  | _ => false

/-- The core is there for the rest of the script: it holds a reference, or its caller does. -/
def Guarded (shared : Bool) (caller : Caller φ) (rest : List (Act κ)) : Prop :=
  owes shared rest = true ∨ (shared = true ∧ caller ≠ .self)

/-- What a read that may move relies on. -/
def Moving (shared : Bool) (caller : Caller φ) (rest : List (Act κ)) : Mode → Prop
  | .copy => True
  | .move => shared = false ∧ rest.any Act.reads = false
  | .one => shared = true ∧ owes shared rest = true ∧ rest.any Act.reads = false
  | .last => (shared = true → caller = .producer) ∧ rest.any Act.reads = false

/-- The reference count is loaded before a read that asks for it. -/
def Plain (rest : List (Act κ)) : Prop :=
  ∀ mode more, rest = .read mode :: more → mode = .copy ∨ mode = .move

/-- The script is in order, where `target` is the core it connects to and `fed` says that it
has read the result. -/
def Fits (shared : Bool) (target : Option κ) : Caller φ → Bool → List (Act κ) → Prop
  | caller, _, [] => caller = .self
  | caller, fed, .getRef :: rest =>
    Guarded shared caller rest ∧
      (.decRefIfOne ∈ rest → shared = true → caller = .producer) ∧
      Fits shared target caller fed rest
  | caller, _, .read mode :: rest =>
    Guarded shared caller rest ∧ Moving shared caller rest mode ∧ .getRef ∉ rest ∧
      Plain rest ∧ Fits shared target caller true rest
  | caller, fed, .incRef :: rest =>
    shared = true ∧ caller ≠ .self ∧ owes shared rest = true ∧ Plain rest ∧
      Fits shared target caller fed rest
  | caller, fed, .decRef :: rest =>
    owes shared rest = false ∧ rest.any Act.reads = false ∧ Fits shared target caller fed rest
  | caller, fed, .decRefIfOne :: rest =>
    owes shared rest = false ∧ rest.any Act.reads = false ∧ .getRef ∉ rest ∧
      .decRefIfOne ∉ rest ∧ Fits shared target caller fed rest
  | caller, fed, .store d :: rest =>
    target = some d ∧ fed = true ∧ rest.any Act.stores = false ∧ rest.any Act.sets = true ∧
      Plain rest ∧ Fits shared target caller fed rest
  | caller, fed, .setResult d :: rest =>
    target = some d ∧ rest.any Act.stores = false ∧ rest.any Act.sets = false ∧
      Plain rest ∧ Fits shared target caller fed rest
  | caller, fed, .finish _ :: rest => Plain rest ∧ Fits shared target caller fed rest
  | _, fed, .ret :: rest => Plain rest ∧ Fits shared target .self fed rest

variable {shared : Bool} {target : Option κ} {caller : Caller φ} {fed : Bool}
  {rest : List (Act κ)} {k : Kind κ}

theorem fits_here (h : attachable shared k = true) :
    Fits (φ := φ) shared k.target .producer false (here shared k) := by
  cases k <;> cases shared <;>
    simp [attachable] at h <;>
      simp [here, Fits, Guarded, Moving, Plain, owes, Act.reads, Act.stores, Act.sets, Kind.target]

/-- A callback that holds a reference holds it in the list already. -/
theorem owes_here (h : attachable shared k = true) :
    owes shared (here shared k) = consumes shared k := by
  cases k <;> cases shared <;> simp [attachable] at h <;> simp [here, owes, consumes]

theorem owes_refused (h : attachable shared k = true) :
    owes shared (refused shared k) = consumes shared k := by
  cases k <;> cases shared <;> simp [attachable] at h <;> simp [refused, here, owes, consumes]

theorem fits_refused (h : attachable shared k = true) (f : φ) :
    Fits shared k.target (if consumes shared k then .self else .user f) false
      (refused shared k) := by
  cases k <;> cases shared <;>
    simp [attachable] at h <;>
      simp [refused, here, consumes, Fits, Guarded, Moving, Plain, owes, Act.reads, Act.stores,
        Act.sets, Kind.target]

theorem fits_take (h : k = .get ∨ k = .await) :
    Fits (φ := φ) shared k.target .self false (here shared k) := by
  rcases h with rfl | rfl <;> cases shared <;>
    simp [here, Fits, Guarded, Moving, Plain, owes, Act.reads, Kind.target]

/-- A call that runs on its own reads only while it holds a reference. -/
theorem Fits.owes_of_reads {script : List (Act κ)} (h : Fits shared target caller fed script)
    (hcaller : caller = .self) (hreads : script.any Act.reads = true) :
    owes shared script = true := by
  induction script generalizing caller fed with
  | nil => simp at hreads
  | cons a rest ih =>
    cases a with
    | getRef => exact ih h.2.2 hcaller (by simpa [Act.reads] using hreads)
    | read mode =>
      rcases h.1 with howes | ⟨-, hne⟩
      · exact howes
      · exact absurd hcaller hne
    | incRef => exact absurd hcaller h.2.1
    | decRef => rfl
    | decRefIfOne =>
      have hquiet := h.2.1
      simp [Act.reads] at hreads hquiet
      obtain ⟨x, hx, hreads⟩ := hreads
      rw [hquiet x hx] at hreads
      cases hreads
    | store d => exact ih h.2.2.2.2.2 hcaller (by simpa [Act.reads] using hreads)
    | setResult d => exact ih h.2.2.2.2 hcaller (by simpa [Act.reads] using hreads)
    | finish d => exact ih h.2 hcaller (by simpa [Act.reads] using hreads)
    | ret => exact ih h.2 rfl (by simpa [Act.reads] using hreads)

/-! The holders. -/

variable [DecidableEq κ] [DecidableEq φ] [DecidableEq ν] {cfg : Config κ ν} {s t : State κ φ ν ρ}

/-- What a call has to do yet, and with which core. -/
def pending (cfg : Config κ ν) (m : ν) : Call κ φ ρ → Option (κ × List (Act κ))
  | .idle => none
  | .listed c => some (c, here (cfg.shared c) (cfg.kind m))
  | .running c _ script _ _ => some (c, script)

def Uses (cfg : Config κ ν) (s : State κ φ ν ρ) (m : ν) (c : κ) : Prop :=
  ∃ script, pending cfg m (s.call m) = some (c, script)

/-- A future or a call holds a reference of the core `c`. -/
def Holds (cfg : Config κ ν) (s : State κ φ ν ρ) (c : κ) : φ ⊕ ν → Prop
  | .inl f => s.future f = some c
  | .inr m => ∃ script, pending cfg m (s.call m) = some (c, script) ∧
      owes (cfg.shared c) script = true

/-- The references that the producer did not give back. -/
def share (cfg : Config κ ν) (s : State κ φ ν ρ) (c : κ) : Nat :=
  if cfg.shared c = true ∧ s.promise c ≠ .none then 3 - s.given c else 0

/-- The call `m` is the last one that can read the result. -/
structure Sole (cfg : Config κ ν) (s : State κ φ ν ρ) (c : κ) (m : ν) : Prop where
  holds : ∀ x, Holds cfg s c x → x = .inr m
  held : ∀ j ∈ s.cores.held c, j = m

/-- Nobody can read the result any more. -/
structure Spent (cfg : Config κ ν) (s : State κ φ ν ρ) (c : κ) : Prop where
  given : s.promise c = .given
  futures : ∀ f, s.future f ≠ some c
  calls : ∀ m script, pending cfg m (s.call m) = some (c, script) → script.any Act.reads = false

/-- The callbacks that are linked to a core are those that wait for it and the one that its
producer runs, each of them once. -/
structure Links (cfg : Config κ ν) (s : State κ φ ν ρ) : Prop where
  sound : ∀ c, s.cores.Sound cfg.shared c
  nodup : ∀ c, (s.cores.held c).Nodup
  mem : ∀ c m, m ∈ s.cores.held c ↔ s.call m = .listed c ∨
    ∃ script ref value, s.call m = .running c .producer script ref value
  hand : ∀ c m script ref value, s.call m = .running c .producer script ref value →
    ∃ next, s.cores.walk c = .call m next
  attached : ∀ c m, s.call m = .listed c → attachable (cfg.shared c) (cfg.kind m) = true
  walk : ∀ c, s.promise c = .given ↔ s.cores.walk c ≠ .before

/-- The producer of a shared core gives back one reference before its last callback and the
others at its end; that of a unique core gives back none. -/
structure Given (cfg : Config κ ν) (s : State κ φ ν ρ) : Prop where
  le : ∀ c, s.given c ≤ 3
  unique : ∀ c, cfg.shared c = false → s.given c = 0
  early : ∀ c, s.given c ≠ 0 → s.cores.walk c = .finished ∨
    s.given c = 1 ∧ ∃ head, s.cores.walk c = .call head none

/-- The result of a core is there from the time its promise is fulfilled, and it is the one
that was stored, until it is moved out by the last one who can read it. -/
structure Results (cfg : Config κ ν) (s : State κ φ ν ρ) : Prop where
  unset : ∀ c, s.promise c = .none ∨ s.promise c = .held → s.slot c = .empty ∧ s.stored c = none
  set : ∀ c, s.promise c = .stored ∨ s.promise c = .given → s.slot c ≠ .empty
  full : ∀ c r, s.slot c = .full r → s.stored c = some r
  moved : ∀ c, s.slot c = .moved → Spent cfg s c

/-- The count of a core is the number of futures and calls that hold a reference, with the
share that its producer has not given back. A unique core has one of them at most. -/
structure Owners (cfg : Config κ ν) (s : State κ φ ν ρ) : Prop where
  counted : ∀ c, ∃ n, Counts (Holds cfg s c) n ∧ s.count c = n + share cfg s c
  made : ∀ c, s.promise c = .none → (∀ f, s.future f ≠ some c) ∧ ∀ m, ¬ Uses cfg s m c
  early : ∀ c, cfg.shared c = false → s.promise c ≠ .none → s.promise c ≠ .given → s.count c ≠ 0
  futures : ∀ c f g, cfg.shared c = false → s.future f = some c → s.future g = some c → f = g
  calls : ∀ c m j, cfg.shared c = false → Uses cfg s m c → Uses cfg s j c → m = j
  apart : ∀ c f m, cfg.shared c = false → s.future f = some c → ¬ Uses cfg s m c

/-- What holds of a call that is running. -/
structure Running (cfg : Config κ ν) (s : State κ φ ν ρ) (m : ν) (c : κ) (caller : Caller φ)
    (script : List (Act κ)) (ref : Nat) (value : Option ρ) : Prop where
  given : s.promise c = .given
  fits : Fits (cfg.shared c) (cfg.kind m).target caller value.isSome script
  user : ∀ f, caller = .user f → cfg.shared c = true ∧ s.future f = some c ∧ m ∈ s.users f
  sole : ∀ mode rest, script = .read mode :: rest → mode.moves ref = true → Sole cfg s c m
  one : .decRefIfOne ∈ script → .getRef ∉ script → (ref = 1 ↔ cfg.shared c = false)
  value : ∀ r, value = some r → s.stored c = some r

/-- What holds of a call that connects the core `d` to `c`: until it stores the result `d` is
empty, and then `d` has what `c` has. -/
structure Connecting (cfg : Config κ ν) (s : State κ φ ν ρ) (m : ν) (d c : κ)
    (script : List (Act κ)) : Prop where
  source : s.source d = some c
  before : script.any Act.stores = true → s.promise d = .connected ∧ s.slot d = .empty ∧
    s.stored d = none
  between : script.any Act.stores = false → script.any Act.sets = true →
    s.promise d = .connected ∧ ∃ r, s.slot d = .full r
  after : script.any Act.sets = false → s.promise d = .stored ∨ s.promise d = .given
  copied : script.any Act.stores = false → ∃ r, s.stored c = some r ∧ s.stored d = some r

/-- What is known of the calls that have begun; one of them at most connects a core. -/
structure Calls (cfg : Config κ ν) (s : State κ φ ν ρ) : Prop where
  running : ∀ m c caller script ref value, s.call m = .running c caller script ref value →
    Running cfg s m c caller script ref value
  connecting : ∀ m d c script, cfg.kind m = .connect d →
    pending cfg m (s.call m) = some (c, script) → Connecting cfg s m d c script
  targets : ∀ m j d, cfg.kind m = .connect d → cfg.kind j = .connect d → s.call m ≠ .idle →
    s.call j ≠ .idle → m = j

/-- The result of a core was set by its promise, or came through the cores it is connected
to. -/
inductive Derived (s : State κ φ ν ρ) (r : ρ) : κ → Prop
  | set {c : κ} : s.source c = none → s.stored c = some r → Derived s r c
  | connect {c d : κ} : s.source d = some c → s.stored d = some r → Derived s r c → Derived s r d

/-- A core is deleted once, when its count reaches zero, and a call is run by one thread. -/
structure Once (s : State κ φ ν ρ) : Prop where
  deleted : ∀ c, s.deleted c = if s.promise c ≠ .none ∧ s.count c = 0 then 1 else 0
  runs : ∀ m, s.runs m = match s.call m with
    | .running .. => 1
    | _ => 0

/-- The invariant of the shared cores, which every step keeps that relies on `Ready` only
where it may. The result of a core comes from the promise at the root of its connections. -/
structure Inv (cfg : Config κ ν) (s : State κ φ ν ρ) : Prop where
  links : Links cfg s
  given : Given cfg s
  results : Results cfg s
  owners : Owners cfg s
  calls : Calls cfg s
  derived : ∀ c r, s.stored c = some r → Derived s r c
  sources : ∀ c, s.promise c = .none ∨ s.promise c = .held → s.source c = none
  once : Once s

end Yaclib.SharedCore
