import Yaclib.Algo.SharedCore.Begin

/-!
The producer of a core: it stores the result, goes through the list of callbacks and gives
its references back.
-/

namespace Yaclib.SharedCore

open Concurrency

variable {κ φ ν ρ : Type} {cfg : Config κ ν} {s t : State κ φ ν ρ} {c d : κ} {f g : φ} {m j : ν}
  {caller : Caller φ} {script rest : List (Act κ)} {ref : Nat} {value : Option ρ} {r : ρ}

/-- A result that was set is there for everybody who may still read it. -/
theorem Inv.full (hi : Inv cfg s) (hgiven : s.promise c = .given) (hspent : ¬ Spent cfg s c) :
    ∃ r, s.slot c = .full r ∧ s.stored c = some r := by
  cases hslot : s.slot c with
  | empty => exact absurd hslot (hi.results.set c (.inr hgiven))
  | full r => exact ⟨r, rfl, hi.results.full c r hslot⟩
  | moved => exact absurd (hi.results.moved c hslot) hspent

variable [DecidableEq κ]

theorem read_ok (hcount : s.count c ≠ 0) (hslot : s.slot c = .full r) (moves : Bool) :
    read s c moves = .ok (r, if moves then
      { s with slot := Function.update s.slot c .moved } else s) := by
  simp [read, check, hcount, hslot, bind, Except.bind, pure, Except.pure]

theorem store_ok (hcount : s.count c ≠ 0) : store s c r = .ok { s with
    slot := Function.update s.slot c (.full r)
    stored := Function.update s.stored c (some r) } := by
  simp [store, check, hcount, bind, Except.bind, pure, Except.pure]

theorem Inv.look [DecidableEq ν] (hi : Inv cfg s) {byReady : Bool}
    {y : Except Fault (State κ φ ν ρ)}
    (hready : ∀ c, s.future f = some c → byReady = true → s.cores.callback c ≠ .kEmpty →
      s.cores.callback c = .kResult)
    (h : look s f byReady = some y) : ∃ t, y = .ok t ∧ Inv cfg t := by
  rw [SharedCore.look] at h
  split at h
  · cases h
  · rename_i c hf
    split at h
    · rename_i hmay
      cases h
      have hword : s.cores.callback c = .kResult := by
        cases byReady with
        | true =>
          apply hready c hf rfl
          simpa [mayRead, ready] using hmay
        | false => simpa [mayRead] using hmay
      obtain ⟨r, hslot, -⟩ := hi.full (hi.callback_iff.mp hword) fun hs => hs.futures f hf
      rw [read_ok (hi.count_ne_zero (x := .inl f) hf) hslot]
      exact ⟨s, rfl, hi⟩
    · cases h

/-- `Promise::Set` -/
theorem Inv.set (hi : Inv cfg s) {y : Except Fault (State κ φ ν ρ)} (h : set s c r = some y) :
    ∃ t, y = .ok t ∧ Inv cfg t := by
  rw [SharedCore.set] at h
  split at h
  · rename_i hheld
    cases h
    have hcount := hi.count_of_ungiven (c := c) (by simp [hheld]) (by simp [hheld])
    rw [store_ok hcount]
    refine ⟨_, rfl, ?_⟩
    obtain ⟨hslot, hstored⟩ := hi.results.unset c (.inr hheld)
    have hother : ∀ e, e ≠ c → Function.update s.promise c Promise.stored e = s.promise e :=
      fun e he => Function.update_of_ne he ..
    have hpromise : ∀ e (p : Promise), p ≠ .held → p ≠ .stored →
        (Function.update s.promise c Promise.stored e = p ↔ s.promise e = p) := by
      intro e p hne hne'
      exact promise_update_iff hheld hne hne' e
    have hne : ∀ e, s.stored e ≠ none → e ≠ c := by
      rintro e he rfl
      exact he hstored
    have hmono : ∀ e r', s.stored e = some r' →
        Function.update s.stored c (some r) e = some r' := by
      intro e r' he
      rw [Function.update_of_ne (hne e (by simp [he]))]
      exact he
    refine ⟨⟨hi.links.sound, hi.links.nodup, hi.links.mem, hi.links.hand, hi.links.attached, ?_⟩,
      ⟨hi.given.le, hi.given.unique, hi.given.early⟩, ⟨?_, ?_, ?_, ?_⟩,
      ⟨?_, ?_, ?_, hi.owners.futures, hi.owners.calls, hi.owners.apart⟩,
      ⟨?_, ?_, hi.calls.targets⟩, ?_, ?_, ⟨?_, hi.once.runs⟩⟩
    · intro e
      exact (hpromise e .given (by decide) (by decide)).trans (hi.links.walk e)
    · intro e he
      have hec : e ≠ c := by
        rintro rfl
        simp [setPromise] at he
      simp only [setPromise, hother e hec, Function.update_of_ne hec] at he ⊢
      exact hi.results.unset e he
    · intro e he
      by_cases hec : e = c
      · subst hec
        simp [setPromise]
      · simp only [setPromise, hother e hec, Function.update_of_ne hec] at he ⊢
        exact hi.results.set e he
    · intro e r' he
      by_cases hec : e = c
      · subst hec
        simpa [setPromise] using he
      · simp only [setPromise, Function.update_of_ne hec] at he ⊢
        exact hi.results.full e r' he
    · intro e he
      have hec : e ≠ c := by
        rintro rfl
        simp [setPromise] at he
      simp only [setPromise, Function.update_of_ne hec] at he
      have hs := hi.results.moved e he
      exact ⟨(hother e hec).trans hs.given, hs.futures, hs.calls⟩
    · intro e
      obtain ⟨n, hn, hcount⟩ := hi.owners.counted e
      refine ⟨n, hn, hcount.trans ?_⟩
      simp only [share, setPromise, ne_eq, hpromise e .none (by decide) (by decide)]
    · intro e he
      exact hi.owners.made e ((hpromise e .none (by decide) (by decide)).mp he)
    · intro e hunique hmade hgiven
      exact hi.owners.early e hunique
        (fun he => hmade ((hpromise e .none (by decide) (by decide)).mpr he))
        (fun he => hgiven ((hpromise e .given (by decide) (by decide)).mpr he))
    · intro j e caller script ref value hcall
      have hr := hi.calls.running j e caller script ref value hcall
      exact ⟨(hpromise e .given (by decide) (by decide)).mpr hr.given, hr.fits, hr.user,
        fun mode rest hscript hmoves => ⟨(hr.sole mode rest hscript hmoves).holds,
          (hr.sole mode rest hscript hmoves).held⟩, hr.one,
        fun r' hr' => hmono e r' (hr.value r' hr')⟩
    · intro j e b script hkind hpending
      have hec : e ≠ c := by
        rintro rfl
        have hidle := hi.idle_of_held hkind hheld
        change pending cfg j (s.call j) = _ at hpending
        rw [hidle] at hpending
        cases hpending
      have hc := hi.calls.connecting j e b script hkind hpending
      refine ⟨hc.source, ?_, ?_, ?_, ?_⟩
      · simp only [setPromise, hother e hec, Function.update_of_ne hec]
        exact hc.before
      · simp only [setPromise, hother e hec, Function.update_of_ne hec]
        exact hc.between
      · simp only [setPromise, hother e hec]
        exact hc.after
      · intro hstores
        obtain ⟨r', hb, he⟩ := hc.copied hstores
        exact ⟨r', hmono b r' hb, hmono e r' he⟩
    · intro e r' he
      by_cases hec : e = c
      · subst hec
        exact .set (hi.sources e (.inr hheld)) he
      · simp only [setPromise, Function.update_of_ne hec] at he
        exact Derived.mono (s := s) (fun _ _ _ => rfl) hmono (hi.derived e r' he)
    · intro e he
      have hec : e ≠ c := by
        rintro rfl
        simp [setPromise] at he
      simp only [setPromise, hother e hec] at he
      exact hi.sources e he
    · intro e
      simp only [setPromise, ne_eq, hpromise e .none (by decide) (by decide)]
      exact hi.once.deleted e
  · cases h

/-- The `exchange` hands the list over to the producer. -/
theorem Inv.exchange (hi : Inv cfg s) {y : Except Fault (State κ φ ν ρ)}
    (h : exchange cfg s c = some y) : ∃ t, y = .ok t ∧ Inv cfg t := by
  rw [SharedCore.exchange] at h
  split at h
  · rename_i hset
    cases h
    have hcount := hi.count_of_ungiven (c := c) (by simp [hset]) (by simp [hset])
    have hcheck : check s c = .ok () := by simp [check, hcount]
    rw [hcheck]
    refine ⟨_, rfl, ?_⟩
    have hbefore : s.cores.walk c = .before := by
      by_contra hwalk
      have hgiven := (hi.links.walk c).mpr hwalk
      rw [hset] at hgiven
      cases hgiven
    have hother : ∀ e, e ≠ c → Function.update s.promise c Promise.given e = s.promise e :=
      fun e he => Function.update_of_ne he ..
    have hwalk : ∀ e, e ≠ c → (s.cores.setResult cfg.shared c).walk e = s.cores.walk e :=
      fun e he => Function.update_of_ne he ..
    have hpromise : ∀ e (p : Promise), p ≠ .stored → p ≠ .given →
        (Function.update s.promise c Promise.given e = p ↔ s.promise e = p) := by
      intro e p hne hne'
      exact promise_update_iff hset hne hne' e
    have hgiven : ∀ e, s.promise e = .given →
        Function.update s.promise c Promise.given e = .given := by
      intro e he
      by_cases hec : e = c
      · subst hec
        exact Function.update_self ..
      · rw [hother e hec]
        exact he
    have hsound := (hi.links.sound c).setResult hbefore
    refine ⟨⟨?_, hi.links.nodup, hi.links.mem, ?_, hi.links.attached, ?_⟩,
      ⟨hi.given.le, hi.given.unique, ?_⟩, ⟨?_, ?_, hi.results.full, ?_⟩,
      ⟨?_, ?_, ?_, hi.owners.futures, hi.owners.calls, hi.owners.apart⟩,
      ⟨?_, ?_, hi.calls.targets⟩, ?_, ?_, ⟨?_, hi.once.runs⟩⟩
    · intro e
      by_cases he : e = c
      · subst he
        exact hsound
      · exact (hi.links.sound e).setResult_other he
    · intro e j script ref value hcall
      obtain ⟨next, hnext⟩ := hi.links.hand e j script ref value hcall
      have he : e ≠ c := by
        rintro rfl
        rw [hbefore] at hnext
        cases hnext
      exact ⟨next, (hwalk e he).trans hnext⟩
    · intro e
      by_cases he : e = c
      · subst he
        have hkResult : (s.cores.setResult cfg.shared e).callback e = .kResult :=
          Function.update_self ..
        simp only [setPromise, Function.update_self, true_iff]
        exact hsound.result.mp hkResult
      · simp only [setPromise, hother e he, hwalk e he]
        exact hi.links.walk e
    · intro e he
      have hec : e ≠ c := by
        rintro rfl
        rcases hi.given.early e he with hfinished | ⟨-, head, hcall⟩
        · rw [hbefore] at hfinished
          cases hfinished
        · rw [hbefore] at hcall
          cases hcall
      simp only [setPromise, hwalk e hec]
      exact hi.given.early e he
    · intro e he
      exact hi.results.unset e (he.imp (hpromise e .none (by decide) (by decide)).mp
        (hpromise e .held (by decide) (by decide)).mp)
    · intro e he
      by_cases hec : e = c
      · subst hec
        exact hi.results.set e (.inl hset)
      · simp only [setPromise, hother e hec] at he
        exact hi.results.set e he
    · intro e he
      have hs := hi.results.moved e he
      exact ⟨hgiven e hs.given, hs.futures, hs.calls⟩
    · intro e
      obtain ⟨n, hn, hcount⟩ := hi.owners.counted e
      refine ⟨n, hn, hcount.trans ?_⟩
      simp only [share, setPromise, ne_eq, hpromise e .none (by decide) (by decide)]
    · intro e he
      exact hi.owners.made e ((hpromise e .none (by decide) (by decide)).mp he)
    · intro e hunique hmade hne
      exact hi.owners.early e hunique
        (fun he => hmade ((hpromise e .none (by decide) (by decide)).mpr he))
        (fun he => hne (hgiven e he))
    · intro j e caller script ref value hcall
      have hr := hi.calls.running j e caller script ref value hcall
      exact ⟨hgiven e hr.given, hr.fits, hr.user,
        fun mode rest hscript hmoves => ⟨(hr.sole mode rest hscript hmoves).holds,
          (hr.sole mode rest hscript hmoves).held⟩, hr.one, hr.value⟩
    · intro j e b script hkind hpending
      have hc := hi.calls.connecting j e b script hkind hpending
      refine ⟨hc.source, ?_, ?_, ?_, hc.copied⟩
      · simp only [setPromise, hpromise e .connected (by decide) (by decide)]
        exact hc.before
      · simp only [setPromise, hpromise e .connected (by decide) (by decide)]
        exact hc.between
      · intro hsets
        by_cases hec : e = c
        · subst hec
          exact .inr (Function.update_self ..)
        · simp only [setPromise, hother e hec]
          exact hc.after hsets
    · intro e r he
      exact Derived.mono (s := s) (fun _ _ _ => rfl) (fun _ _ h => h) (hi.derived e r he)
    · intro e he
      exact hi.sources e (he.imp (hpromise e .none (by decide) (by decide)).mp
        (hpromise e .held (by decide) (by decide)).mp)
    · intro e
      simp only [setPromise, ne_eq, hpromise e .none (by decide) (by decide)]
      exact hi.once.deleted e
  · cases h

/-- The next callback is found. -/
theorem Inv.visit (hi : Inv cfg s) (h : visit s c = some t) : Inv cfg t := by
  rw [SharedCore.visit] at h
  split at h
  · rename_i head hvisit
    cases h
    have hwalk : ∀ e, e ≠ c → (s.cores.visit c head).walk e = s.cores.walk e :=
      fun e he => Function.update_of_ne he ..
    have hself : (s.cores.visit c head).walk c = .call head (s.cores.next head) :=
      Function.update_self ..
    refine ⟨⟨?_, hi.links.nodup, hi.links.mem, ?_, hi.links.attached, ?_⟩,
      ⟨hi.given.le, hi.given.unique, ?_⟩, ⟨hi.results.unset, hi.results.set, hi.results.full, ?_⟩,
      ⟨hi.owners.counted, hi.owners.made, hi.owners.early, hi.owners.futures, hi.owners.calls,
        hi.owners.apart⟩, ⟨?_, ?_, hi.calls.targets⟩, ?_, hi.sources,
      ⟨hi.once.deleted, hi.once.runs⟩⟩
    · intro e
      by_cases he : e = c
      · subst he
        exact (hi.links.sound e).visit hvisit
      · exact (hi.links.sound e).visit_other he
    · intro e j script ref value hcall
      obtain ⟨next, hnext⟩ := hi.links.hand e j script ref value hcall
      have he : e ≠ c := by
        rintro rfl
        rw [hvisit] at hnext
        cases hnext
      exact ⟨next, (hwalk e he).trans hnext⟩
    · intro e
      by_cases he : e = c
      · subst he
        rw [hself, hi.links.walk e, hvisit]
        simp
      · rw [hwalk e he]
        exact hi.links.walk e
    · intro e he
      have hec : e ≠ c := by
        rintro rfl
        rcases hi.given.early e he with hfinished | ⟨-, head', hcall⟩
        · rw [hvisit] at hfinished
          cases hfinished
        · rw [hvisit] at hcall
          cases hcall
      rw [hwalk e hec]
      exact hi.given.early e he
    · intro e he
      have hs := hi.results.moved e he
      exact ⟨hs.given, hs.futures, hs.calls⟩
    · intro j e caller script ref value hcall
      have hr := hi.calls.running j e caller script ref value hcall
      exact ⟨hr.given, hr.fits, hr.user,
        fun mode rest hscript hmoves => ⟨(hr.sole mode rest hscript hmoves).holds,
          (hr.sole mode rest hscript hmoves).held⟩, hr.one, hr.value⟩
    · intro j e b script hkind hpending
      have hc := hi.calls.connecting j e b script hkind hpending
      exact ⟨hc.source, hc.before, hc.between, hc.after, hc.copied⟩
    · intro e r he
      exact Derived.mono (s := s) (fun _ _ _ => rfl) (fun _ _ h => h) (hi.derived e r he)
  · cases h

/-- The producer gives a reference back. -/
theorem Inv.giveBack (hi : Inv cfg s) (hshared : cfg.shared c = true)
    (hwalk : s.cores.walk c = .finished ∧ s.given c < 3 ∨
      s.given c = 0 ∧ ∃ head, s.cores.walk c = .call head none) :
    ∃ t, (decRef s c).map (fun t : State κ φ ν ρ =>
      { t with given := Function.update t.given c (t.given c + 1) }) = .ok t ∧ Inv cfg t := by
  have hgiven : s.promise c = .given := by
    rw [hi.links.walk c]
    rcases hwalk with ⟨hfinished, -⟩ | ⟨-, head, hcall⟩
    · simp [hfinished]
    · simp [hcall]
  have hlt : s.given c < 3 := by
    rcases hwalk with ⟨-, hlt⟩ | ⟨hzero, -⟩
    · exact hlt
    · omega
  have hshare : share cfg s c = 3 - s.given c := by
    rw [share, if_pos ⟨hshared, by simp [hgiven]⟩]
  have hcount : s.count c ≠ 0 := by
    apply hi.count_of_share
    omega
  rw [decRef_ok hcount]
  refine ⟨_, rfl, ?_⟩
  refine ⟨⟨hi.links.sound, hi.links.nodup, hi.links.mem, hi.links.hand, hi.links.attached,
      hi.links.walk⟩, ⟨?_, ?_, ?_⟩, ⟨hi.results.unset, hi.results.set, hi.results.full, ?_⟩,
    ⟨?_, hi.owners.made, ?_, hi.owners.futures, hi.owners.calls, hi.owners.apart⟩,
    ⟨?_, ?_, hi.calls.targets⟩, ?_, hi.sources, ⟨?_, hi.once.runs⟩⟩
  · intro e
    by_cases he : e = c
    · subst he
      change Function.update s.given e (s.given e + 1) e ≤ 3
      rw [Function.update_self]
      omega
    · simpa [he] using hi.given.le e
  · intro e hunique
    have he : e ≠ c := by
      rintro rfl
      rw [hshared] at hunique
      cases hunique
    simpa [he] using hi.given.unique e hunique
  · intro e hne
    by_cases he : e = c
    · subst he
      rcases hwalk with ⟨hfinished, -⟩ | ⟨hzero, hcall⟩
      · exact .inl hfinished
      · exact .inr ⟨by simp [hzero], hcall⟩
    · simp only [Function.update_of_ne he] at hne ⊢
      exact hi.given.early e hne
  · intro e he
    have hs := hi.results.moved e he
    exact ⟨hs.given, hs.futures, hs.calls⟩
  · intro e
    obtain ⟨n, hn, hcounted⟩ := hi.owners.counted e
    refine ⟨n, hn, ?_⟩
    by_cases he : e = c
    · subst he
      simp only [share, Function.update_self]
      rw [if_pos ⟨hshared, by simp [hgiven]⟩]
      omega
    · simp only [share, Function.update_of_ne he]
      exact hcounted
  · intro e hunique hmade hne
    have he : e ≠ c := by
      rintro rfl
      exact hne hgiven
    simpa [he] using hi.owners.early e hunique hmade hne
  · intro j e caller script ref value hcall
    have hr := hi.calls.running j e caller script ref value hcall
    exact ⟨hr.given, hr.fits, hr.user,
      fun mode rest hscript hmoves => ⟨(hr.sole mode rest hscript hmoves).holds,
        (hr.sole mode rest hscript hmoves).held⟩, hr.one, hr.value⟩
  · intro j e b script hkind hpending
    have hc := hi.calls.connecting j e b script hkind hpending
    exact ⟨hc.source, hc.before, hc.between, hc.after, hc.copied⟩
  · intro e r he
    exact Derived.mono (s := s) (fun _ _ _ => rfl) (fun _ _ h => h) (hi.derived e r he)
  · intro e
    have hdeleted := hi.once.deleted e
    by_cases he : e = c
    · subst he
      rw [if_neg (by simp [hcount])] at hdeleted
      simp only [Function.update_self, hdeleted, hgiven]
      by_cases hone : s.count e = 1
      · simp [hone]
      · rw [if_neg hone, if_neg]
        omega
    · simpa [he] using hdeleted

theorem Inv.release [DecidableEq φ] [DecidableEq ν] (hi : Inv cfg s)
    {y : Except Fault (State κ φ ν ρ)} (h : release cfg s c = some y) :
    ∃ t, y = .ok t ∧ Inv cfg t := by
  simp only [SharedCore.release] at h
  split at h
  · rename_i head hwalk
    split at h
    · rename_i hc
      cases h
      exact hi.giveBack hc.1 (.inr ⟨hc.2.1, head, hwalk⟩)
    · cases h
  · rename_i hwalk
    split at h
    · rename_i hc
      cases h
      exact hi.giveBack hc.1 (.inl ⟨hwalk, hc.2⟩)
    · cases h
  · cases h

/-- The callback in the hand of the producer begins. -/
theorem Inv.callHere [DecidableEq φ] [DecidableEq ν] (hi : Inv cfg s)
    (h : callHere cfg s c = some t) : Inv cfg t := by
  rw [SharedCore.callHere] at h
  split at h
  · rename_i head next hwalk
    split at h
    · rename_i hc
      cases h
      have hlisted : s.call head = .listed c := by
        have hcond := hc.1
        rw [isListed] at hcond
        split at hcond
        · rename_i e he
          rw [he, of_decide_eq_true hcond]
        · cases hcond
      have hgiven : s.promise c = .given := (hi.links.walk c).mpr (by simp [hwalk])
      have hattachable := hi.links.attached c head hlisted
      have hpending : ∀ j, pending cfg j (Function.update s.call head
          (.running c .producer (here (cfg.shared c) (cfg.kind head)) 0 none) j) =
          pending cfg j (s.call j) := by
        intro j
        by_cases hj : j = head
        · subst hj
          rw [Function.update_self, hlisted]
          rfl
        · rw [Function.update_of_ne hj]
      have hholds : ∀ e x, Holds cfg (setCall { s with
          runs := Function.update s.runs head (s.runs head + 1) } head
          (.running c .producer (here (cfg.shared c) (cfg.kind head)) 0 none)) e x ↔
          Holds cfg s e x := by
        rintro e (f | j)
        · exact Iff.rfl
        · simp only [Holds, setCall, hpending]
      have huses : ∀ e j, Uses cfg (setCall { s with
          runs := Function.update s.runs head (s.runs head + 1) } head
          (.running c .producer (here (cfg.shared c) (cfg.kind head)) 0 none)) j e ↔
          Uses cfg s j e := by
        intro e j
        simp only [Uses, setCall, hpending]
      have hsole : ∀ e j, Sole cfg s e j → Sole cfg (setCall { s with
          runs := Function.update s.runs head (s.runs head + 1) } head
          (.running c .producer (here (cfg.shared c) (cfg.kind head)) 0 none)) e j :=
        fun e j hs => ⟨fun x hx => hs.holds x ((hholds e x).mp hx), hs.held⟩
      refine ⟨⟨hi.links.sound, hi.links.nodup, ?_, ?_, ?_, hi.links.walk⟩,
        ⟨hi.given.le, hi.given.unique, hi.given.early⟩,
        ⟨hi.results.unset, hi.results.set, hi.results.full, ?_⟩,
        ⟨?_, ?_, hi.owners.early, hi.owners.futures, ?_, ?_⟩,
        ⟨?_, ?_, ?_⟩, ?_, hi.sources, ⟨hi.once.deleted, ?_⟩⟩
      · intro e j
        by_cases hj : j = head
        · subst hj
          simp only [setCall, Function.update_self]
          rw [hi.links.mem e j, hlisted]
          simp
        · simp only [setCall, Function.update_of_ne hj]
          exact hi.links.mem e j
      · intro e j script ref value hcall
        by_cases hj : j = head
        · subst hj
          simp only [setCall, Function.update_self, Call.running.injEq] at hcall
          obtain ⟨rfl, -⟩ := hcall
          exact ⟨next, hwalk⟩
        · simp only [setCall, Function.update_of_ne hj] at hcall
          exact hi.links.hand e j script ref value hcall
      · intro e j hcall
        by_cases hj : j = head
        · subst hj
          simp [setCall] at hcall
        · simp only [setCall, Function.update_of_ne hj] at hcall
          exact hi.links.attached e j hcall
      · intro e he
        have hs := hi.results.moved e he
        refine ⟨hs.given, hs.futures, ?_⟩
        intro j script hj
        simp only [setCall, hpending] at hj
        exact hs.calls j script hj
      · intro e
        obtain ⟨n, hn, hcount⟩ := hi.owners.counted e
        exact ⟨n, hn.congr (hholds e), hcount⟩
      · intro e he
        obtain ⟨hfutures, hcalls⟩ := hi.owners.made e he
        exact ⟨hfutures, fun j hj => hcalls j ((huses e j).mp hj)⟩
      · intro e i j hunique hi' hj
        exact hi.owners.calls e i j hunique ((huses e i).mp hi') ((huses e j).mp hj)
      · intro e f j hunique hf hj
        exact hi.owners.apart e f j hunique hf ((huses e j).mp hj)
      · intro j e caller script ref value hcall
        by_cases hj : j = head
        · subst hj
          simp only [setCall, Function.update_self, Call.running.injEq] at hcall
          obtain ⟨rfl, rfl, rfl, rfl, rfl⟩ := hcall
          have hfits := fits_here (φ := φ) hattachable
          refine ⟨hgiven, hfits, ?_, ?_, ?_, ?_⟩
          · intro f hf
            cases hf
          · intro mode rest hscript hmoves
            rcases plain_here mode rest hscript with rfl | rfl
            · cases hmoves
            · rw [hscript] at hfits
              have hunique : cfg.shared c = false := hfits.2.1.1
              exact hsole c j (hi.owners.sole hi.links hunique ⟨_, by rw [hlisted]; rfl⟩)
          · intro hmem hno
            exact absurd (getRef_of_decRefIfOne hmem) hno
          · intro r hr
            cases hr
        · simp only [setCall, Function.update_of_ne hj] at hcall
          have hr := hi.calls.running j e caller script ref value hcall
          exact ⟨hr.given, hr.fits, hr.user,
            fun mode rest hscript hmoves => hsole e j (hr.sole mode rest hscript hmoves), hr.one,
            hr.value⟩
      · intro j e b script hkind hj
        simp only [setCall, hpending] at hj
        have hc := hi.calls.connecting j e b script hkind hj
        exact ⟨hc.source, hc.before, hc.between, hc.after, hc.copied⟩
      · have hidle : ∀ j, Function.update s.call head
            (.running c .producer (here (cfg.shared c) (cfg.kind head)) 0 none) j ≠ .idle →
            s.call j ≠ .idle := by
          intro j hne
          by_cases hj : j = head
          · subst hj
            simp [hlisted]
          · rwa [Function.update_of_ne hj] at hne
        intro i j d hi' hj hne hne'
        exact hi.calls.targets i j d hi' hj (hidle i hne) (hidle j hne')
      · intro e r he
        exact Derived.mono (s := s) (fun _ _ _ => rfl) (fun _ _ h => h) (hi.derived e r he)
      · intro j
        by_cases hj : j = head
        · subst hj
          have hzero := hi.once.runs j
          rw [hlisted] at hzero
          simp [setCall, hzero]
        · simp only [setCall, Function.update_of_ne hj]
          exact hi.once.runs j
    · cases h
  · cases h

end Yaclib.SharedCore
