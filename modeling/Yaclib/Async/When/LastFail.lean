import Yaclib.Async.When.Any

/-!
`WhenAny` with `FailPolicy::LastFail`: one word counts the failures down in steps of
two, and its lowest bit says that a value has won.
-/

namespace Yaclib.When.Any.LastFail

open Concurrency

variable {ι ε α : Type} (result : ι → Except ε α)

def Place.toSet : Place ε α → Option (Except ε α)
  | .set r => some r
  | _ => none

/-- The exchange or the subtraction is done, or the load found a value. -/
def after : Call (Place ε α) → Nat
  | .inside (.set _) | .returned | .released => 1
  | _ => 0

/-- The value of the first exchange, or the error of the last subtraction. -/
def winner (n : Nat) (f : Fields ι ε α) : Option (Except ε α) :=
  match f.exchanges with
  | i :: _ => some (result i)
  | [] => if f.subs.length = n then f.subs.getLast?.map result else none

/-- Only inputs with a value do the exchange, and only those with an error subtract. -/
def Turn (i : ι) : Call (Place ε α) → Prop
  | .inside .exchange => ok (result i) = true
  | .inside .fetchSub => ok (result i) = false
  | _ => True

/-- Until the first exchange `_state` counts down by 2, and from then on it is odd. -/
structure Inv [Fintype ι] (f : Fields ι ε α) (call : ι → Call (Place ε α)) : Prop where
  turn : ∀ i, Turn result i (call i)
  counts : f.exchanges = [] → f.state.toNat + 2 * f.subs.length = 2 * Fintype.card ι ∧
    f.subs.length = tally after call ∧ ∀ i, after (call i) = 1 → ok (result i) = false
  odd : f.exchanges ≠ [] → doneImpl f.state = true
  value : ∀ i ∈ f.exchanges.head?, ok (result i) = true
  once : SetOnce (Call.due Place.toSet) f.sets call (winner result (Fintype.card ι) f)

variable {result}

/-- The lowest bit says that a value has won. -/
theorem doneImpl_iff (value : BitVec 64) : doneImpl value = true ↔ value.toNat % 2 = 1 := by
  have htoNat : (value &&& 1).toNat = value.toNat % 2 := by
    rw [BitVec.toNat_and]
    exact Nat.and_one_is_mod _
  have hone : (value &&& 1 = 0) ↔ value.toNat % 2 = 0 := by
    rw [← htoNat, ← BitVec.toNat_inj]
    rfl
  simp only [doneImpl, bne_iff_ne, ne_eq, hone]
  omega

/-- The subtractions leave the lowest bit alone. -/
theorem doneImpl_sub (value : BitVec 64) : doneImpl (value - 2) = doneImpl value := by
  have hparity : (value - 2).toNat % 2 = value.toNat % 2 := by
    bv_omega
  rw [Bool.eq_iff_iff, doneImpl_iff, doneImpl_iff, hparity]

variable {f : Fields ι ε α} {call : ι → Call (Place ε α)} {i : ι}

theorem Inv.init [Fintype ι] (hn : 2 * Fintype.card ι < 2 ^ 64) (hpos : 0 < Fintype.card ι) :
    Inv result (init (Fintype.card ι)) fun _ => .pending := by
  refine ⟨fun _ => trivial, fun _ => ⟨?_, ?_, ?_⟩, ?_, ?_, ?_⟩
  · simp only [LastFail.init, BitVec.toNat_ofNat, List.length_nil, Nat.mod_eq_of_lt hn]
    omega
  · simp [LastFail.init, tally_const, after]
  · intro i hi
    contradiction
  · intro hne
    exact absurd rfl hne
  · simp [LastFail.init]
  · have hwinner : winner result (Fintype.card ι) (LastFail.init (Fintype.card ι)) = none := by
      simp [winner, LastFail.init, hpos.ne]
    rw [hwinner]
    exact SetOnce.init fun _ => rfl

theorem after_le (c : Call (Place ε α)) : after c ≤ 1 := by
  unfold after
  split <;> decide

/-- While the countdown goes on, `_state` is even. -/
theorem Inv.even [Fintype ι]
    (h : Inv result f call) (hnil : f.exchanges = []) : doneImpl f.state = false := by
  have hcounts := (h.counts hnil).1
  by_contra hdone
  have hodd := (doneImpl_iff f.state).mp (by simpa using hdone)
  omega

/-- The promise is set to the value of the first exchange if any input has a value, and else
to the error of the last subtraction. -/
def Outcome (result : ι → Except ε α) (f : Fields ι ε α) : Prop :=
  ((∃ i, ok (result i) = true) →
    ∃ i, f.exchanges.head? = some i ∧ ok (result i) = true ∧ f.sets = [result i]) ∧
  ((∀ i, ok (result i) = false) → ∃ i, f.subs.getLast? = some i ∧ f.sets = [result i])

theorem Inv.outcome [Fintype ι] [Nonempty ι] (h : Inv result f call) (hpast : ∀ i, (call i).Past) :
    Outcome result f := by
  have hafter : ∀ i, after (call i) = 1 := by
    intro i
    have hi := hpast i
    cases hcall : call i with
    | returned | released => rfl
    | pending | inside p =>
      rw [hcall] at hi
      exact hi.elim
  have hsets := h.once.sets_eq_of_past hpast
  have hnil : f.exchanges = [] → ∀ i, ok (result i) = false := fun hnil i =>
    (h.counts hnil).2.2 i (hafter i)
  constructor
  · rintro ⟨i, hi⟩
    cases hexchanges : f.exchanges with
    | nil =>
      rw [hnil hexchanges i] at hi
      contradiction
    | cons j rest =>
      refine ⟨j, rfl, h.value j (by simp [hexchanges]), ?_⟩
      rw [hsets]
      simp [winner, hexchanges]
  · intro herrors
    cases hexchanges : f.exchanges with
    | nil =>
      have hall : f.subs.length = Fintype.card ι := by
        rw [(h.counts hexchanges).2.1]
        simp [tally, hafter]
      have hne : f.subs ≠ [] := by
        intro hempty
        rw [hempty] at hall
        exact Fintype.card_pos.ne hall
      refine ⟨f.subs.getLast hne, List.getLast?_eq_some_getLast hne, ?_⟩
      rw [hsets]
      simp [winner, hexchanges, hall, List.getLast?_eq_some_getLast hne]
    | cons j rest =>
      have hvalue := h.value j (by simp [hexchanges])
      rw [herrors j] at hvalue
      contradiction

variable [DecidableEq ι] [Fintype ι]

/-- A callback moves without an access to the fields that counts. -/
theorem Inv.move (h : Inv result f call) {c : Call (Place ε α)} (hturn : Turn result i c)
    (hafter : f.exchanges = [] → after c = after (call i))
    (hset : (call i).due Place.toSet = none) (hc : c.due Place.toSet = none) :
    Inv result f (Function.update call i c) := by
  refine ⟨forall_update hturn h.turn, fun hnil => ?_, h.odd, h.value, h.once.stay hset hc⟩
  obtain ⟨hstate, hsubs, herror⟩ := h.counts hnil
  refine ⟨hstate, ?_, ?_⟩
  · rw [tally_stay (hafter hnil)]
    exact hsubs
  · apply forall_update (Q := fun j c => after c = 1 → ok (result j) = false)
    · rw [hafter hnil]
      exact herror i
    · exact herror

/-- A callback that is not through yet leaves a part of the countdown. -/
theorem Inv.subs_lt (h : Inv result f call) (hnil : f.exchanges = []) (hi : after (call i) = 0) :
    f.subs.length < Fintype.card ι := by
  rw [(h.counts hnil).2.1]
  exact tally_lt_card after_le hi (a := .returned) rfl

theorem Inv.load (h : Inv result f call) (hi : call i = .inside .load) :
    Inv result (consume result i f .load).1
      (Function.update call i (.next (consume result i f .load).2)) := by
  simp only [consume]
  cases hdone : doneImpl f.state with
  | true =>
    apply h.move
    · trivial
    · intro hnil
      rw [h.even hnil] at hdone
      contradiction
    · rw [hi]
      rfl
    · rfl
  | false =>
    cases hok : ok (result i) <;>
      exact h.move hok (fun _ => by rw [hi]; rfl) (by rw [hi]; rfl) rfl

/-- The first exchange leaves `1`, and its input sets the promise. -/
theorem Inv.exchange (h : Inv result f call) (hi : call i = .inside .exchange) :
    Inv result (consume result i f .exchange).1
      (Function.update call i (.next (consume result i f .exchange).2)) := by
  have hok : ok (result i) = true := by
    have hturn := h.turn i
    rwa [hi] at hturn
  have hone : doneImpl 1 = true := rfl
  simp only [consume]
  cases hexchanges : f.exchanges with
  | nil =>
    have hlt := h.subs_lt hexchanges (i := i) (by rw [hi]; rfl)
    have honce := h.once
    simp only [winner, hexchanges, if_neg hlt.ne] at honce
    rw [h.even hexchanges]
    refine ⟨forall_update trivial h.turn, ?_, fun _ => hone, ?_, ?_⟩
    · intro hnil
      simp at hnil
    · simpa using hok
    · exact honce.win rfl
  | cons j rest =>
    have hdone : doneImpl f.state = true := h.odd (by simp [hexchanges])
    have honce := h.once
    simp only [winner, hexchanges] at honce
    rw [hdone]
    refine ⟨forall_update trivial h.turn, ?_, fun _ => hone, ?_, ?_⟩
    · intro hnil
      simp at hnil
    · simpa [hexchanges] using h.value
    · exact honce.stay (by rw [hi]; rfl) rfl

/-- Only the subtraction of the last input finds `2`, and only if there was no exchange. -/
theorem Inv.fetchSub (h : Inv result f call) (hi : call i = .inside .fetchSub) :
    Inv result (consume result i f .fetchSub).1
      (Function.update call i (.next (consume result i f .fetchSub).2)) := by
  have herror : ok (result i) = false := by
    have hturn := h.turn i
    rwa [hi] at hturn
  obtain ⟨c, hc⟩ : ∃ c, c = Call.next (consume result i f .fetchSub).2 := ⟨_, rfl⟩
  have hturn : Turn result i c := by
    rw [hc]
    simp only [consume]
    split <;> trivial
  rw [← hc]
  simp only [consume] at hc ⊢
  cases hexchanges : f.exchanges with
  | nil =>
    obtain ⟨hstate, hsubs, herrors⟩ := h.counts hexchanges
    have hlt := h.subs_lt hexchanges (i := i) (by rw [hi]; rfl)
    have honce := h.once
    simp only [winner, hexchanges, if_neg hlt.ne] at honce
    have hafter : after c = 1 := by
      rw [hc]
      split <;> rfl
    have htally := tally_update after call i c
    rw [hi, hafter] at htally
    simp only [after] at htally
    have hlast : f.state = 2 ↔ f.subs.length + 1 = Fintype.card ι := by
      rw [← BitVec.toNat_inj]
      show f.state.toNat = 2 ↔ _
      omega
    refine ⟨forall_update hturn h.turn, ?_, ?_, ?_, ?_⟩
    · intro _
      refine ⟨?_, ?_, forall_update (Q := fun j c => after c = 1 → ok (result j) = false)
        (fun _ => herror) herrors⟩
      · simp only [List.length_append, List.length_singleton]
        bv_omega
      · simp only [List.length_append, List.length_singleton]
        omega
    · intro hne
      exact absurd rfl hne
    · simp
    · simp only [winner, List.length_append, List.length_singleton]
      by_cases heq : f.state = 2
      · rw [if_pos (hlast.mp heq)]
        rw [if_pos heq] at hc
        subst hc
        simpa using honce.win rfl
      · rw [if_neg (fun hall => heq (hlast.mpr hall))]
        rw [if_neg heq] at hc
        subst hc
        exact honce.stay (by rw [hi]; rfl) rfl
  | cons j rest =>
    have hdone : doneImpl f.state = true := h.odd (by simp [hexchanges])
    have honce := h.once
    simp only [winner, hexchanges] at honce
    have hne : f.state ≠ 2 := by
      intro heq
      rw [heq] at hdone
      contradiction
    rw [if_neg hne] at hc
    subst hc
    refine ⟨forall_update hturn h.turn, ?_, ?_, ?_, ?_⟩
    · intro hnil
      contradiction
    · intro _
      rw [doneImpl_sub]
      exact hdone
    · simpa [hexchanges] using h.value
    · simp only [winner]
      exact honce.stay (by rw [hi]; rfl) rfl

theorem Inv.set (h : Inv result f call) {r : Except ε α} (hi : call i = .inside (.set r)) :
    Inv result (consume result i f (.set r)).1
      (Function.update call i (.next (consume result i f (.set r)).2)) := by
  simp only [consume]
  refine ⟨forall_update trivial h.turn, fun hnil => ?_, h.odd, h.value, ?_⟩
  · obtain ⟨hstate, hsubs, herror⟩ := h.counts hnil
    refine ⟨hstate, ?_, ?_⟩
    · rw [hsubs]
      exact (tally_stay (by rw [hi]; rfl)).symm
    · apply forall_update (Q := fun j c => after c = 1 → ok (result j) = false)
      · intro _
        exact herror i (by rw [hi]; rfl)
      · exact herror
  · exact h.once.set (by rw [hi]; rfl) rfl

theorem inductive_strategy : Inductive (strategy result) (Inv result) := by
  refine ⟨?_, ?_, ?_⟩
  · intro f call i h hi
    apply h.move
    · trivial
    · intro _
      rw [hi]
      rfl
    · rw [hi]
      rfl
    · rfl
  · intro f call i p h hi
    cases p with
    | load => exact h.load hi
    | exchange => exact h.exchange hi
    | fetchSub => exact h.fetchSub hi
    | set r => exact h.set hi
  · intro f call i h hi
    apply h.move
    · trivial
    · intro _
      rw [hi]
      rfl
    · rw [hi]
      rfl
    · rfl

/-- For every interleaving: `_state` is odd once an exchange is done; the promise is
never set twice; and when all callbacks are through, it is set, to the value of
the first exchange if any input has a value, and else to the error of the last
subtraction. -/
theorem lastFail_set (hn : 2 * Fintype.card ι < 2 ^ 64) [Nonempty ι]
    {s : State (strategy result)}
    (hs : (system (strategy result) (LastFail.init (Fintype.card ι))).Reachable s) :
    (s.fields.exchanges ≠ [] → doneImpl s.fields.state = true) ∧
    s.fields.sets.length ≤ 1 ∧ s.destroyed ≤ 1 ∧
    ((∀ i, (s.call i).Past) →
      ((∃ i, ok (result i) = true) →
        ∃ i, s.fields.exchanges.head? = some i ∧ ok (result i) = true ∧
          s.fields.sets = [result i]) ∧
      ((∀ i, ok (result i) = false) →
        ∃ i, s.fields.subs.getLast? = some i ∧ s.fields.sets = [result i])) := by
  have h := inductive_strategy.holds (Inv.init hn Fintype.card_pos) hs
  have hinv : Inv result s.fields s.call ∧ s.destroyed ≤ 1 := by
    by_cases hdead : s.destroyed = 0
    · exact ⟨(h.alive hdead).2, by omega⟩
    · obtain ⟨hone, -, f, hf, hfields⟩ := h.dead hdead
      rw [show s.fields = f from hfields]
      exact ⟨hf, hone.le⟩
  obtain ⟨hinv, hdestroyed⟩ := hinv
  exact ⟨hinv.odd, hinv.once.length_le, hdestroyed, hinv.outcome⟩

/-- The value 7 wins between the check and the subtraction of the failure. -/
theorem lastFail_set_race :
    let result : Bool → Except String Nat := fun i => if i then .ok 7 else .error "no"
    let s := ((system (strategy result) (LastFail.init 2)).run
      { fields := LastFail.init 2, refs := 2 }
      [false, false, true, true, true, true, false, true, false]).get (by decide)
    s.fields.state = -1 ∧ ∃ i, s.fields.exchanges.head? = some i ∧
      ok (result i) = true ∧ s.fields.sets = [result i] := by
  intro result s
  have hs : (system (strategy result) (LastFail.init 2)).Reachable s :=
    .run (fun _ _ _ _ => trivial) (.init rfl) (Option.some_get _).symm
  refine ⟨by decide, ?_⟩
  exact ((lastFail_set (by decide) hs).2.2.2 (by decide)).1 ⟨true, rfl⟩

end Yaclib.When.Any.LastFail
