import Yaclib.Algo.BaseCore
import Yaclib.Concurrency.System

/-!
Delivery through the word `_callback` of a unique core: `SetCallbackImpl`,
`ResetImpl`, `SetInlineImpl` and `SetResultImpl` of `algo/base_core.cpp`, raced by
one producer and one consumer. One step is one atomic operation, or the run of
a callback. `ν` are the callbacks.

Left out are the results and the executors, what the callbacks do, and the reference count of
the core.
-/

namespace Yaclib.UniqueCore

open Concurrency

/-- What the two sides did. Attempts to attach say whether they were a `SetInline`. -/
inductive Entry (ν : Type) where
  | stored
  | exchanged
  /-- the producer ran the callback -/
  | ran (c : ν)
  /-- `SetCallback` or `SetInline` attached the callback -/
  | attached (c : ν) (inline : Bool)
  /-- `SetCallback` or `SetInline` found the result -/
  | refused (c : ν) (inline : Bool)
  /-- the consumer ran the callback, after a `SetInline` that found the result -/
  | ranInline (c : ν)
  | wasReset
  /-- `Reset` found the result -/
  | resetRefused
  /-- `Empty` returned -/
  | empty (result : Bool)
  deriving DecidableEq

/-- Where the producer is: `Store`, then `SetResult`. -/
inductive Producer (ν : Type) where
  | store
  | exchange
  | run (c : ν)
  | finished
  deriving DecidableEq

inductive Consumer (ν : Type) where
  | idle
  /-- the compare-and-swap of `SetCallbackImpl<false>` -/
  | setSwap (c : ν) (inline : Bool)
  /-- `Step` of `SetInlineImpl` -/
  | step (c : ν)
  /-- the compare-and-swap of `ResetImpl` -/
  | resetSwap (expected : Option ν)
  deriving DecidableEq

/-- The word, where the two sides are, and the history, newest first. -/
structure State (ν : Type) where
  callback : Callback ν := .kEmpty
  producer : Producer ν := .store
  consumer : Consumer ν := .idle
  log : List (Entry ν) := []

variable {ν : Type}

/-- The last callback that was attached and not reset since. -/
def lastAttached : List (Entry ν) → Option ν
  | [] => none
  | .attached c _ :: _ => some c
  | .wasReset :: _ => none
  | _ :: log => lastAttached log

/-- The callbacks that the producer ran. -/
def runs : List (Entry ν) → List ν
  | [] => []
  | .ran c :: log => c :: runs log
  | _ :: log => runs log

/-- The attempt to attach a callback ended with the result. -/
def refuse (s : State ν) (c : ν) (inline : Bool) : State ν :=
  { s with
    consumer := if inline then .step c else .idle
    log := .refused c inline :: s.log }

/-- The load of `ResetImpl`. -/
def reset (s : State ν) : State ν :=
  match s.callback with
  | .kResult => { s with log := .resetRefused :: s.log }
  | .ptr p => { s with consumer := .resetSwap p }

/-- What lies behind an entry: the callback that the producer runs is the last one
attached and not reset, and it runs it once; an attempt before the exchange
succeeds, and one after it finds the result. -/
def Explains (log : List (Entry ν)) : Entry ν → Prop
  | .stored => .stored ∉ log
  | .exchanged => .stored ∈ log ∧ .exchanged ∉ log
  | .ran c => .stored ∈ log ∧ .exchanged ∈ log ∧ lastAttached log = some c ∧ runs log = []
  | .attached _ _ => .exchanged ∉ log ∧ lastAttached log = none
  | .wasReset => .exchanged ∉ log
  | .refused _ _ | .ranInline _ => .stored ∈ log ∧ .exchanged ∈ log ∧ lastAttached log = none
  | .resetRefused => .stored ∈ log ∧ .exchanged ∈ log
  | .empty result => result = true ↔ .exchanged ∉ log ∧ lastAttached log = none

/-- Every entry of the history is explained by the ones before it. -/
def Explained (log : List (Entry ν)) : Prop :=
  ∀ e l, e :: l <:+ log → Explains l e

theorem explained_cons {e : Entry ν} {log : List (Entry ν)} (h : Explained log)
    (he : Explains log e) : Explained (e :: log) := by
  intro e' l hsuffix
  rcases List.suffix_cons_iff.mp hsuffix with heq | hsuffix
  · cases heq
    exact he
  · exact h e' l hsuffix

/-- What the place of the producer says about the history. -/
def Producer.Past (log : List (Entry ν)) : Producer ν → Prop
  | .store => .stored ∉ log ∧ .exchanged ∉ log ∧ runs log = []
  | .exchange => .stored ∈ log ∧ .exchanged ∉ log ∧ runs log = []
  | .run c => .stored ∈ log ∧ .exchanged ∈ log ∧ lastAttached log = some c ∧ runs log = []
  | .finished => .stored ∈ log ∧ .exchanged ∈ log ∧ runs log = (lastAttached log).toList

def Consumer.Past (s : State ν) : Consumer ν → Prop
  | .idle => True
  | .setSwap _ _ => lastAttached s.log = none
  | .step _ => .stored ∈ s.log ∧ .exchanged ∈ s.log ∧ lastAttached s.log = none
  | .resetSwap expected => s.callback = .ptr expected ∨ s.callback = .kResult

variable {s t : State ν} {c : ν} {inline : Bool}

/-- The producer does not disturb the consumer. -/
theorem Consumer.Past.frame {q : Consumer ν} (h : q.Past s)
    (hlast : lastAttached t.log = lastAttached s.log) (hlog : ∀ e ∈ s.log, e ∈ t.log)
    (hword : t.callback = s.callback ∨ t.callback = .kResult) : q.Past t := by
  cases q with
  | idle => trivial
  | setSwap c inline => exact hlast.trans h
  | step c => exact ⟨hlog _ h.1, hlog _ h.2.1, hlast.trans h.2.2⟩
  | resetSwap expected =>
    rcases hword with hword | hword
    · simp only [Consumer.Past, hword]
      exact h
    · exact .inr hword

/-- Where the producer is does not depend on the entries of the consumer that
neither attach nor reset. -/
theorem Producer.Past.cons {p : Producer ν} {log : List (Entry ν)} {e : Entry ν}
    (h : p.Past log) (hstored : e ≠ .stored) (hexchanged : e ≠ .exchanged)
    (hlast : lastAttached (e :: log) = lastAttached log) (hruns : runs (e :: log) = runs log) :
    p.Past (e :: log) := by
  cases p <;> simpa [Producer.Past, hlast, hruns, hstored.symm, hexchanged.symm] using h

variable [DecidableEq ν]

def produce (s : State ν) : Option (State ν) :=
  match s.producer with
  | .store => some { s with producer := .exchange, log := .stored :: s.log }
  | .exchange =>
    some { s with
      callback := .kResult
      producer := match s.callback.toPtr with
        | none => .finished
        | some c => .run c
      log := .exchanged :: s.log }
  | .run c => some { s with producer := .finished, log := .ran c :: s.log }
  | .finished => none

/-- The load of `SetCallbackImpl<false>`. -/
def setCallback (s : State ν) (c : ν) (inline : Bool) : State ν :=
  if s.callback = .kEmpty then { s with consumer := .setSwap c inline } else refuse s c inline

/-- The next step of a call that the consumer is in. -/
def advance (s : State ν) : Option (State ν) :=
  match s.consumer with
  | .idle => none
  | .setSwap c inline =>
    if s.callback = .kEmpty then
      some { s with
        callback := .ptr (some c)
        consumer := .idle
        log := .attached c inline :: s.log }
    else some (refuse s c inline)
  | .step c => some { s with consumer := .idle, log := .ranInline c :: s.log }
  | .resetSwap expected =>
    if s.callback = .ptr expected then
      some { s with callback := .kEmpty, consumer := .idle, log := .wasReset :: s.log }
    else some { s with consumer := .idle, log := .resetRefused :: s.log }

/-- What the scheduler chooses. `setCallback` with `inline` is `SetInline`. -/
inductive Event (ν : Type) where
  | producer
  | setCallback (c : ν) (inline : Bool)
  | reset
  | empty
  | advance

/-- The consumer attaches again only after a successful `Reset`. -/
def step (s : State ν) : Event ν → Option (State ν)
  | .producer => produce s
  | .setCallback c inline =>
    if s.consumer = .idle ∧ lastAttached s.log = none then some (setCallback s c inline) else none
  | .reset => if s.consumer = .idle then some (reset s) else none
  | .empty =>
    if s.consumer = .idle then some { s with log := .empty (s.callback = .kEmpty) :: s.log }
    else none
  | .advance => advance s

def system (ν : Type) [DecidableEq ν] : System (State ν) (Event ν) where
  Init s := s = {}
  step := step

/-- Both sides are through. -/
def Settled (s : State ν) : Prop :=
  s.producer = .finished ∧ s.consumer = .idle

/-! ### What the history shows -/

/-- An attempt of the consumer reported the result. -/
def Entry.Report : Entry ν → Prop
  | .refused _ _ | .resetRefused => True
  | _ => False

/-- `Step` of a refused `SetInline` is still to come. -/
def Consumer.owes (c : ν) : Consumer ν → Nat
  | .step d => if d = c then 1 else 0
  | _ => 0

/-- The word and the places of the two sides are what the history makes of them: the result
is in the word after the exchange, and before it the last callback that was attached and not
reset. Every entry of the history is explained by those before it. -/
structure Inv (s : State ν) : Prop where
  word : s.callback = .kResult ↔ .exchanged ∈ s.log
  attached : ∀ p, s.callback = .ptr p → lastAttached s.log = p
  producer : s.producer.Past s.log
  consumer : s.consumer.Past s
  refused : ∀ c inline, .refused c inline ∈ s.log → .exchanged ∈ s.log ∧ lastAttached s.log = none
  inlined : ∀ c, s.log.count (.ranInline c) + s.consumer.owes c = s.log.count (.refused c true)
  explained : Explained s.log

theorem Inv.init : Inv ({} : State ν) := by
  refine ⟨by simp [Callback.kEmpty], ?_, by simp [Producer.Past, runs], trivial, by simp,
    fun c => rfl, ?_⟩
  · rintro p ⟨⟩
    rfl
  · intro e l hsuffix
    simp at hsuffix

theorem Inv.stored (h : Inv s) (hexchanged : .exchanged ∈ s.log) : .stored ∈ s.log := by
  have hpast := h.producer
  cases hproducer : s.producer with
  | store | exchange =>
    rw [hproducer] at hpast
    exact absurd hexchanged hpast.2.1
  | run c | finished =>
    rw [hproducer] at hpast
    exact hpast.1

/-- A word that is not empty, with nothing attached, is the result. -/
theorem Inv.exchanged (h : Inv s) (hnone : lastAttached s.log = none)
    (hword : s.callback ≠ .kEmpty) : .exchanged ∈ s.log := by
  cases hcallback : s.callback with
  | kResult => exact h.word.mp hcallback
  | ptr p =>
    have hlast := h.attached p hcallback
    rw [hnone] at hlast
    subst hlast
    exact absurd hcallback hword

theorem Inv.produce (h : Inv s) (hstep : produce s = some t) : Inv t := by
  have hpast := h.producer
  unfold UniqueCore.produce at hstep
  cases hproducer : s.producer with
  | store =>
    rw [hproducer] at hpast
    simp only [hproducer, Option.some.injEq] at hstep
    subst hstep
    obtain ⟨hstored, hexchanged, hruns⟩ := hpast
    refine ⟨?_, h.attached, ?_, ?_, ?_, ?_, ?_⟩
    · simpa using h.word
    · simp [Producer.Past, runs, hexchanged, hruns]
    · exact h.consumer.frame rfl (fun _ => List.mem_cons_of_mem _) (.inl rfl)
    · simpa [lastAttached] using h.refused
    · simpa using h.inlined
    · exact explained_cons h.explained hstored
  | exchange =>
    rw [hproducer] at hpast
    simp only [hproducer, Option.some.injEq] at hstep
    subst hstep
    obtain ⟨hstored, hexchanged, hruns⟩ := hpast
    refine ⟨by simp, by simp, ?_, ?_, ?_, ?_, ?_⟩
    · cases hword : s.callback with
      | kResult => exact absurd (h.word.mp hword) hexchanged
      | ptr p =>
        have hlast := h.attached p hword
        cases p <;> simp [Producer.Past, runs, lastAttached, hstored, hruns, hlast]
    · exact h.consumer.frame rfl (fun _ => List.mem_cons_of_mem _) (.inr rfl)
    · intro c inline hmem
      have hold := h.refused c inline (by simpa using hmem)
      exact absurd hold.1 hexchanged
    · simpa using h.inlined
    · exact explained_cons h.explained ⟨hstored, hexchanged⟩
  | run c =>
    rw [hproducer] at hpast
    simp only [hproducer, Option.some.injEq] at hstep
    subst hstep
    obtain ⟨hstored, hexchanged, hlast, hruns⟩ := hpast
    refine ⟨?_, h.attached, ?_, ?_, ?_, ?_, ?_⟩
    · simpa using h.word
    · simp [Producer.Past, runs, lastAttached, hstored, hexchanged, hlast, hruns]
    · exact h.consumer.frame rfl (fun _ => List.mem_cons_of_mem _) (.inl rfl)
    · simpa [lastAttached] using h.refused
    · simpa using h.inlined
    · exact explained_cons h.explained ⟨hstored, hexchanged, hlast, hruns⟩
  | finished =>
    simp only [hproducer] at hstep
    contradiction

/-- `SetCallback` or `SetInline` finds the result. -/
theorem Inv.refuse (h : Inv s) (hexchanged : .exchanged ∈ s.log)
    (hnone : lastAttached s.log = none) (howes : ∀ d, s.consumer.owes d = 0) :
    Inv (refuse s c inline) := by
  have hstored := h.stored hexchanged
  refine ⟨?_, h.attached, ?_, ?_, ?_, ?_, ?_⟩
  · simpa [UniqueCore.refuse] using h.word
  · exact h.producer.cons (by simp) (by simp) rfl rfl
  · cases inline <;>
      simp [UniqueCore.refuse, Consumer.Past, lastAttached, hstored, hexchanged, hnone]
  · intro d b _
    exact ⟨List.mem_cons_of_mem _ hexchanged, hnone⟩
  · intro d
    have hold := h.inlined d
    rw [howes d] at hold
    cases inline
    · simpa [UniqueCore.refuse, Consumer.owes] using hold
    · by_cases hd : c = d <;>
        simpa [UniqueCore.refuse, Consumer.owes, List.count_cons, hd] using hold
  · exact explained_cons h.explained ⟨hstored, hexchanged, hnone⟩

theorem Inv.setCallback (h : Inv s) (hidle : s.consumer = .idle)
    (hnone : lastAttached s.log = none) : Inv (setCallback s c inline) := by
  unfold UniqueCore.setCallback
  split
  · refine ⟨h.word, h.attached, h.producer, hnone, h.refused, ?_, h.explained⟩
    intro d
    have hold := h.inlined d
    rw [hidle] at hold
    exact hold
  · next hword =>
    refine h.refuse (h.exchanged hnone hword) hnone ?_
    intro d
    rw [hidle]
    rfl

/-- An entry of the consumer that attaches nothing. -/
theorem Inv.note (h : Inv s) {e : Entry ν} {q : Consumer ν} (hstored : e ≠ .stored)
    (hexchanged : e ≠ .exchanged) (hlast : lastAttached (e :: s.log) = lastAttached s.log)
    (hruns : runs (e :: s.log) = runs s.log) (hrefused : ∀ d b, e ≠ .refused d b)
    (hconsumer : q.Past { s with log := e :: s.log })
    (howes : ∀ d, (e :: s.log).count (.ranInline d) + q.owes d = s.log.count (.refused d true))
    (he : Explains s.log e) : Inv { s with consumer := q, log := e :: s.log } := by
  refine ⟨?_, ?_, h.producer.cons hstored hexchanged hlast hruns, ?_, ?_, ?_,
    explained_cons h.explained he⟩
  · simpa [hexchanged.symm] using h.word
  · intro p hp
    rw [hlast]
    exact h.attached p hp
  · cases q <;> exact hconsumer
  · intro d b hmem
    rw [hlast]
    rcases List.mem_cons.mp hmem with heq | hmem
    · exact absurd heq.symm (hrefused d b)
    · exact ⟨List.mem_cons_of_mem _ (h.refused d b hmem).1, (h.refused d b hmem).2⟩
  · intro d
    rw [howes d, List.count_cons_of_ne (hrefused d true)]

theorem Inv.resetRefused (h : Inv s) (hword : s.callback = .kResult)
    (howes : ∀ d, s.consumer.owes d = 0) :
    Inv { s with consumer := .idle, log := .resetRefused :: s.log } := by
  have hexchanged := h.word.mp hword
  refine h.note (by simp) (by simp) rfl rfl (by simp) trivial ?_ ⟨h.stored hexchanged, hexchanged⟩
  intro d
  have hold := h.inlined d
  rw [howes d] at hold
  simpa [Consumer.owes] using hold

theorem Inv.reset (h : Inv s) (hidle : s.consumer = .idle) : Inv (reset s) := by
  have howes : ∀ d, s.consumer.owes d = 0 := by
    intro d
    rw [hidle]
    rfl
  unfold UniqueCore.reset
  split
  · next hword =>
    have hrefused := h.resetRefused hword howes
    rw [← hidle] at hrefused
    exact hrefused
  · next p hword =>
    refine ⟨h.word, h.attached, h.producer, .inl hword, h.refused, ?_, h.explained⟩
    intro d
    have hold := h.inlined d
    rw [hidle] at hold
    exact hold

theorem Inv.empty (h : Inv s) (hidle : s.consumer = .idle) :
    Inv { s with log := .empty (s.callback = .kEmpty) :: s.log } := by
  have hnote := h.note (e := .empty (s.callback = .kEmpty)) (q := s.consumer) (by simp) (by simp)
    rfl rfl (by simp) (by rw [hidle]; trivial) ?_ ?_
  · exact hnote
  · intro d
    simpa using h.inlined d
  · simp only [Explains, decide_eq_true_eq]
    constructor
    · intro hword
      refine ⟨?_, h.attached none hword⟩
      intro hexchanged
      rw [h.word.mpr hexchanged] at hword
      contradiction
    · rintro ⟨hexchanged, hnone⟩
      by_contra hword
      exact hexchanged (h.exchanged hnone hword)

theorem Inv.advance (h : Inv s) (hstep : advance s = some t) : Inv t := by
  have hpast := h.consumer
  unfold UniqueCore.advance at hstep
  cases hconsumer : s.consumer with
  | idle =>
    simp only [hconsumer] at hstep
    contradiction
  | setSwap c inline =>
    rw [hconsumer] at hpast
    have howes : ∀ d, s.consumer.owes d = 0 := by
      intro d
      rw [hconsumer]
      rfl
    simp only [hconsumer] at hstep
    split at hstep
    · next hword =>
      cases hstep
      have hexchanged : .exchanged ∉ s.log := by
        intro hexchanged
        rw [h.word.mpr hexchanged] at hword
        contradiction
      have hproducer := h.producer
      refine ⟨by simpa using hexchanged, ?_, ?_, trivial, ?_, ?_, ?_⟩
      · intro p hp
        cases hp
        rfl
      · cases hphase : s.producer with
        | store | exchange =>
          rw [hphase] at hproducer
          simpa [Producer.Past, runs] using hproducer
        | run d | finished =>
          rw [hphase] at hproducer
          exact absurd hproducer.2.1 hexchanged
      · intro d b hmem
        have hold := h.refused d b (by simpa using hmem)
        exact absurd hold.1 hexchanged
      · intro d
        have hold := h.inlined d
        rw [howes d] at hold
        simpa [Consumer.owes] using hold
      · exact explained_cons h.explained ⟨hexchanged, hpast⟩
    · next hword =>
      cases hstep
      exact h.refuse (h.exchanged hpast hword) hpast howes
  | step c =>
    rw [hconsumer] at hpast
    simp only [hconsumer, Option.some.injEq] at hstep
    subst hstep
    refine h.note (by simp) (by simp) rfl rfl (by simp) trivial ?_ hpast
    intro d
    have hold := h.inlined d
    rw [hconsumer] at hold
    by_cases hd : c = d <;> simpa [Consumer.owes, List.count_cons, hd] using hold
  | resetSwap expected =>
    rw [hconsumer] at hpast
    have howes : ∀ d, s.consumer.owes d = 0 := by
      intro d
      rw [hconsumer]
      rfl
    simp only [hconsumer] at hstep
    split at hstep
    · next hword =>
      cases hstep
      have hexchanged : .exchanged ∉ s.log := by
        intro hexchanged
        rw [h.word.mpr hexchanged] at hword
        contradiction
      have hproducer := h.producer
      refine ⟨by simpa [Callback.kEmpty] using hexchanged, ?_, ?_, trivial, ?_, ?_, ?_⟩
      · intro p hp
        cases hp
        rfl
      · cases hphase : s.producer with
        | store | exchange =>
          rw [hphase] at hproducer
          simpa [Producer.Past, runs] using hproducer
        | run d | finished =>
          rw [hphase] at hproducer
          exact absurd hproducer.2.1 hexchanged
      · intro d b hmem
        have hold := h.refused d b (by simpa using hmem)
        exact absurd hold.1 hexchanged
      · intro d
        have hold := h.inlined d
        rw [howes d] at hold
        simpa [Consumer.owes] using hold
      · exact explained_cons h.explained hexchanged
    · next hword =>
      cases hstep
      refine h.resetRefused ?_ howes
      rcases hpast with hpast | hpast
      · exact absurd hpast hword
      · exact hpast

/-- The run lemma: the invariant holds in every reachable state. -/
theorem inv_of_reachable (hs : (system ν).Reachable s) : Inv s := by
  refine System.Inductive.reachable ⟨?_, ?_⟩ hs
  · rintro s rfl
    exact Inv.init
  · intro s e t h hstep _
    cases e with
    | producer => exact h.produce hstep
    | setCallback c inline =>
      simp only [system, step, Option.ite_none_right_eq_some, Option.some.injEq] at hstep
      exact hstep.2 ▸ h.setCallback hstep.1.1 hstep.1.2
    | reset =>
      simp only [system, step, Option.ite_none_right_eq_some, Option.some.injEq] at hstep
      exact hstep.2 ▸ h.reset hstep.1
    | empty =>
      simp only [system, step, Option.ite_none_right_eq_some, Option.some.injEq] at hstep
      exact hstep.2 ▸ h.empty hstep.1
    | advance => exact h.advance hstep

/-- For every interleaving: each entry of the history is explained by those before
it, a `SetInline` that finds the result runs its callback once, and when the
producer is through, it has run the last callback that was attached and not
reset, once, and no attempt to attach has found the result; or nothing is
attached, it has run nothing, and the word is the result for every attempt to come. -/
theorem delivery (hs : (system ν).Reachable s) :
    Explained s.log ∧
    (∀ c, s.log.count (.ranInline c) + s.consumer.owes c = s.log.count (.refused c true)) ∧
    (s.producer ≠ .finished → runs s.log = []) ∧
    (s.producer = .finished →
      s.callback = .kResult ∧
      ((∃ c, lastAttached s.log = some c ∧ runs s.log = [c] ∧
          ∀ d inline, .refused d inline ∉ s.log) ∨
        (lastAttached s.log = none ∧ runs s.log = []))) := by
  have h := inv_of_reachable hs
  have hpast := h.producer
  refine ⟨h.explained, h.inlined, ?_, ?_⟩
  · intro hrunning
    cases hproducer : s.producer with
    | store | exchange =>
      rw [hproducer] at hpast
      exact hpast.2.2
    | run c =>
      rw [hproducer] at hpast
      exact hpast.2.2.2
    | finished => exact absurd hproducer hrunning
  · intro hfinished
    rw [hfinished] at hpast
    obtain ⟨-, hexchanged, hruns⟩ := hpast
    refine ⟨h.word.mpr hexchanged, ?_⟩
    cases hlast : lastAttached s.log with
    | none =>
      right
      rw [hlast] at hruns
      exact ⟨rfl, hruns⟩
    | some c =>
      left
      rw [hlast] at hruns
      refine ⟨c, rfl, hruns, ?_⟩
      intro d inline hmem
      have hnone := (h.refused d inline hmem).2
      rw [hlast] at hnone
      contradiction

/-- A callback is attached, the producer takes it, and the `Reset` that comes too
late finds the result. -/
def lateReset : List (Event Unit) :=
  [.setCallback () false, .advance, .producer, .producer, .reset, .producer]

theorem delivery_lateReset :
    let s := ((system Unit).run {} lateReset).get (by decide)
    lastAttached s.log = some () ∧ .resetRefused ∈ s.log ∧
      (∃ c, lastAttached s.log = some c ∧ runs s.log = [c] ∧
        ∀ d inline, .refused d inline ∉ s.log) := by
  have hs : (system Unit).Reachable (((system Unit).run {} lateReset).get (by decide)) :=
    .run (fun _ _ _ _ => trivial) (.init rfl) (Option.some_get _).symm
  refine ⟨by decide, by decide, ?_⟩
  rcases ((delivery hs).2.2.2 (by decide)).2 with hran | ⟨hnone, -⟩
  · exact hran
  · exact absurd hnone (by decide)

/-- The outcomes do not exclude each other: the producer has run the callback, and
the consumer has been told that the result is there. -/
theorem not_exclusive :
    ¬ ∀ s : State Unit, (system Unit).Reachable s → Settled s →
      ¬ ((∃ c, lastAttached s.log = some c ∧ runs s.log = [c]) ∧ ∃ e ∈ s.log, e.Report) := by
  intro hclaim
  refine hclaim (((system Unit).run {} lateReset).get (by decide)) ?_ ⟨by decide, by decide⟩ ?_
  · exact .run (fun _ _ _ _ => trivial) (.init rfl) (Option.some_get _).symm
  · exact ⟨⟨(), by decide, by decide⟩, .resetRefused, by decide, trivial⟩

end Yaclib.UniqueCore
