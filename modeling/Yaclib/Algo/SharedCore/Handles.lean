import Yaclib.Algo.SharedCore.Invariant

/-!
The futures: a holder keeps its core, and what making, copying and dropping a handle does.
-/

namespace Yaclib.SharedCore

open Concurrency

variable {κ φ ν ρ : Type} {cfg : Config κ ν}
  {s t : State κ φ ν ρ} {c d : κ} {f g : φ} {m j : ν} {caller : Caller φ}
  {script rest : List (Act κ)} {ref : Nat} {value : Option ρ}

/-- Who holds a reference of a core uses it. -/
theorem uses_of_holds (h : Holds cfg s c (.inr m)) : Uses cfg s m c := by
  obtain ⟨script, hscript, -⟩ := h
  exact ⟨script, hscript⟩

theorem uses_running (h : s.call m = .running c caller script ref value) : Uses cfg s m c :=
  ⟨script, by rw [h]; rfl⟩

theorem holds_running (h : s.call m = .running c caller script ref value) {d : κ} :
    Holds cfg s d (.inr m) ↔ c = d ∧ owes (cfg.shared c) script = true := by
  rw [Holds, h]
  constructor
  · rintro ⟨more, hmore, howes⟩
    cases hmore
    exact ⟨rfl, howes⟩
  · rintro ⟨rfl, howes⟩
    exact ⟨script, rfl, howes⟩

theorem not_holds_idle (h : s.call m = .idle) : ¬ Holds cfg s c (.inr m) := by
  rintro ⟨script, hscript, -⟩
  rw [h] at hscript
  cases hscript

namespace Inv

variable (hi : Inv cfg s)

include hi

/-- A core that somebody holds a reference of is not deleted. -/
theorem count_ne_zero {x : φ ⊕ ν} (h : Holds cfg s c x) : s.count c ≠ 0 := by
  obtain ⟨n, hn, hcount⟩ := hi.owners.counted c
  have hpos := hn.pos h
  omega

/-- A core is not deleted before its producer is through. -/
theorem count_of_share (h : share cfg s c ≠ 0) : s.count c ≠ 0 := by
  obtain ⟨n, -, hcount⟩ := hi.owners.counted c
  omega

/-- The producer holds two references while a callback runs. -/
theorem share_of_hand (hshared : cfg.shared c = true) (hgiven : s.promise c = .given)
    {next : Option ν} (hwalk : s.cores.walk c = .call m next) : 2 ≤ share cfg s c := by
  rw [share, if_pos ⟨hshared, by simp [hgiven]⟩]
  by_cases hzero : s.given c = 0
  · omega
  · rcases hi.given.early c hzero with hfinished | ⟨hone, -⟩
    · rw [hwalk] at hfinished
      cases hfinished
    · omega

/-- Before `SetResult` the producer of a shared core has its three references. -/
theorem share_of_ungiven (hshared : cfg.shared c = true) (hmade : s.promise c ≠ .none)
    (h : s.promise c ≠ .given) : share cfg s c = 3 := by
  have hbefore : s.cores.walk c = .before := by
    by_contra hwalk
    exact h ((hi.links.walk c).mpr hwalk)
  rw [share, if_pos ⟨hshared, hmade⟩]
  by_cases hzero : s.given c = 0
  · omega
  · rcases hi.given.early c hzero with hfinished | ⟨-, head, hcall⟩
    · rw [hbefore] at hfinished
      cases hfinished
    · rw [hbefore] at hcall
      cases hcall

/-- A core whose promise is not used up is there. -/
theorem count_of_ungiven (hmade : s.promise c ≠ .none) (h : s.promise c ≠ .given) :
    s.count c ≠ 0 := by
  cases hshared : cfg.shared c with
  | true =>
    apply hi.count_of_share
    rw [hi.share_of_ungiven hshared hmade h]
    omega
  | false => exact hi.owners.early c hshared hmade h

/-- The core of a call that is guarded is there. -/
theorem count_of_guarded (hcall : s.call m = .running c caller script ref value)
    (h : Guarded (cfg.shared c) caller script) : s.count c ≠ 0 := by
  have hr := hi.calls.running m c caller script ref value hcall
  rcases h with howes | ⟨hshared, hcaller⟩
  · exact hi.count_ne_zero ((holds_running hcall).mpr ⟨rfl, howes⟩)
  · cases caller with
    | producer =>
      obtain ⟨next, hwalk⟩ := hi.links.hand c m script ref value hcall
      have hshare := hi.share_of_hand hshared hr.given hwalk
      apply hi.count_of_share
      omega
    | user f => exact hi.count_ne_zero (x := .inl f) (hr.user f rfl).2.1
    | self => exact absurd rfl hcaller

theorem made_of_future (h : s.future f = some c) : s.promise c ≠ .none :=
  fun hnone => (hi.owners.made c hnone).1 f h

/-- `kResult` is in the word exactly after the exchange. -/
theorem callback_iff : s.cores.callback c = .kResult ↔ s.promise c = .given := by
  rw [(hi.links.sound c).result, hi.links.walk c]

/-- A core that was not made yet is held by nobody. -/
theorem not_holds_of_none (h : s.promise c = .none) (x : φ ⊕ ν) : ¬ Holds cfg s c x := by
  cases x with
  | inl f => exact (hi.owners.made c h).1 f
  | inr m => exact fun hholds => (hi.owners.made c h).2 m (uses_of_holds hholds)

end Inv

/-! What making, copying and dropping a handle does. -/

/-- Only handles are made or dropped. -/
structure Handles (cfg : Config κ ν) (s t : State κ φ ν ρ) : Prop where
  cores : t.cores = s.cores
  slot : t.slot = s.slot
  given : t.given = s.given
  users : t.users = s.users
  call : t.call = s.call
  stored : t.stored = s.stored
  source : t.source = s.source
  runs : t.runs = s.runs
  promise : ∀ c, t.promise c = s.promise c ∨ s.promise c = .none ∧ t.promise c = .held
  fresh : ∀ c f, t.future f = some c →
    s.future f = some c ∨ s.promise c ≠ .given ∨ ∃ g, s.future g = some c
  used : ∀ c f m, m ∈ s.users f → s.future f = some c → t.future f = some c

namespace Handles

variable (h : Handles cfg s t)

include h

theorem promise_iff {p : Promise} (hnone : p ≠ .none) (hheld : p ≠ .held) (c : κ) :
    t.promise c = p ↔ s.promise c = p := by
  rcases h.promise c with heq | ⟨hs, ht⟩
  · rw [heq]
  · rw [hs, ht]
    exact iff_of_false (fun hp => hheld hp.symm) (fun hp => hnone hp.symm)

theorem holds_inr : Holds cfg t c (.inr m) ↔ Holds cfg s c (.inr m) := by
  rw [Holds, Holds, h.call]

/-- A future of a core whose result is taken by a call is not copied any more. -/
theorem sole (hgiven : s.promise c = .given) (hs : Sole cfg s c m) : Sole cfg t c m where
  holds := by
    rintro (f | j) hx
    · have hold : ∃ g, s.future g = some c := by
        rcases h.fresh c f hx with hf | hne | hg
        · exact ⟨f, hf⟩
        · exact absurd hgiven hne
        · exact hg
      obtain ⟨g, hg⟩ := hold
      have heq := hs.holds (.inl g) hg
      cases heq
    · exact hs.holds _ (h.holds_inr.mp hx)
  held := by
    rw [h.cores]
    exact hs.held

theorem spent (hs : Spent cfg s c) : Spent cfg t c where
  given := (h.promise_iff (by decide) (by decide) c).mpr hs.given
  futures := by
    intro f hf
    rcases h.fresh c f hf with hold | hne | ⟨g, hg⟩
    · exact hs.futures f hold
    · exact hne hs.given
    · exact hs.futures g hg
  calls := by
    rw [h.call]
    exact hs.calls

theorem running (hr : Running cfg s m c caller script ref value) :
    Running cfg t m c caller script ref value where
  given := (h.promise_iff (by decide) (by decide) c).mpr hr.given
  fits := hr.fits
  user := by
    intro f hf
    obtain ⟨hshared, hfuture, hmem⟩ := hr.user f hf
    rw [h.users]
    exact ⟨hshared, h.used c f m hmem hfuture, hmem⟩
  sole := fun mode rest hscript hmoves => h.sole hr.given (hr.sole mode rest hscript hmoves)
  one := hr.one
  value := by
    rw [h.stored]
    exact hr.value

theorem connecting (hc : Connecting cfg s m d c script) : Connecting cfg t m d c script where
  source := by
    rw [h.source]
    exact hc.source
  before := by
    rw [h.promise_iff (by decide) (by decide), h.slot, h.stored]
    exact hc.before
  between := by
    rw [h.promise_iff (by decide) (by decide), h.slot]
    exact hc.between
  after := by
    rw [h.promise_iff (by decide) (by decide), h.promise_iff (by decide) (by decide)]
    exact hc.after
  copied := by
    rw [h.stored]
    exact hc.copied

end Handles

/-- What a result came through does not change. -/
theorem Derived.mono {r : ρ} (hsource : ∀ c r, s.stored c = some r → t.source c = s.source c)
    (hstored : ∀ c r, s.stored c = some r → t.stored c = some r) (h : Derived s r c) :
    Derived t r c := by
  induction h with
  | set hs hr => exact .set ((hsource _ _ hr).trans hs) (hstored _ _ hr)
  | connect hs hr _ ih => exact .connect ((hsource _ _ hr).trans hs) (hstored _ _ hr) ih

/-- It is enough to look at the references. -/
theorem Inv.handles (hi : Inv cfg s) (h : Handles cfg s t) (howners : Owners cfg t)
    (hdeleted : ∀ c, t.deleted c = if t.promise c ≠ .none ∧ t.count c = 0 then 1 else 0) :
    Inv cfg t where
  links :=
    { sound := by
        rw [h.cores]
        exact hi.links.sound
      nodup := by
        rw [h.cores]
        exact hi.links.nodup
      mem := by
        rw [h.cores, h.call]
        exact hi.links.mem
      hand := by
        rw [h.cores, h.call]
        exact hi.links.hand
      attached := by
        rw [h.call]
        exact hi.links.attached
      walk := by
        intro c
        rw [h.promise_iff (by decide) (by decide), h.cores]
        exact hi.links.walk c }
  given :=
    { le := by
        rw [h.given]
        exact hi.given.le
      unique := by
        rw [h.given]
        exact hi.given.unique
      early := by
        rw [h.given, h.cores]
        exact hi.given.early }
  results :=
    { unset := by
        intro c hc
        rw [h.slot, h.stored]
        apply hi.results.unset c
        rcases h.promise c with heq | ⟨hs, -⟩
        · rwa [heq] at hc
        · exact .inl hs
      set := by
        intro c
        rw [h.promise_iff (by decide) (by decide), h.promise_iff (by decide) (by decide), h.slot]
        exact hi.results.set c
      full := by
        rw [h.slot, h.stored]
        exact hi.results.full
      moved := by
        intro c hmoved
        rw [h.slot] at hmoved
        exact h.spent (hi.results.moved c hmoved) }
  owners := howners
  calls :=
    { running := by
        intro m c caller script ref value hcall
        rw [h.call] at hcall
        exact h.running (hi.calls.running m c caller script ref value hcall)
      connecting := by
        intro m d c script hkind hpending
        rw [h.call] at hpending
        exact h.connecting (hi.calls.connecting m d c script hkind hpending)
      targets := by
        rw [h.call]
        exact hi.calls.targets }
  derived := by
    intro c r hr
    rw [h.stored] at hr
    refine (hi.derived c r hr).mono ?_ ?_
    · intro _ _ _
      rw [h.source]
    · intro _ _ hr'
      rwa [h.stored]
  sources := by
    intro c hc
    rw [h.source]
    apply hi.sources c
    rcases h.promise c with heq | ⟨hs, -⟩
    · rwa [heq] at hc
    · exact .inl hs
  once :=
    { deleted := hdeleted
      runs := by
        rw [h.runs, h.call]
        exact hi.once.runs }

/-! The steps. -/

theorem share_congr (hpromise : t.promise c = .none ↔ s.promise c = .none)
    (hgiven : t.given c = s.given c) : share cfg t c = share cfg s c := by
  simp only [share, ne_eq, hpromise, hgiven]

theorem Inv.given_of_none (hi : Inv cfg s) (h : s.promise c = .none) : s.given c = 0 := by
  by_contra hne
  have hbefore : s.cores.walk c = .before := by
    by_contra hwalk
    have hgiven := (hi.links.walk c).mpr hwalk
    rw [h] at hgiven
    cases hgiven
  rcases hi.given.early c hne with hfinished | ⟨-, head, hcall⟩
  · rw [hbefore] at hfinished
    cases hfinished
  · rw [hbefore] at hcall
    cases hcall

/-- Nobody holds a core that was not made. -/
theorem Inv.counts_zero (hi : Inv cfg s) (h : s.promise c = .none) {n : Nat}
    (hn : Counts (Holds cfg s c) n) : n = 0 := by
  by_contra hne
  have hzero := Counts.zero (hi.not_holds_of_none h)
  rw [Counts, hn] at hzero
  exact hne (by exact_mod_cast hzero)

theorem Inv.makePromise [DecidableEq κ]
    (hi : Inv cfg s) (h : makePromise cfg s c = some t) : Inv cfg t := by
  rw [SharedCore.makePromise] at h
  split at h
  · rename_i hc
    obtain ⟨hnone, hshared⟩ := hc
    cases h
    have hother : ∀ d, d ≠ c → Function.update s.promise c Promise.held d = s.promise d :=
      fun d hd => Function.update_of_ne hd ..
    have hself : Function.update s.promise c Promise.held c = .held := Function.update_self ..
    have hholds : ∀ d, d ≠ c → share cfg (setPromise { s with
        count := Function.update s.count c kSharedRefNoFuture } c .held) d = share cfg s d := by
      intro d hd
      exact share_congr (by simp [setPromise, hd]) rfl
    refine hi.handles ⟨rfl, rfl, rfl, rfl, rfl, rfl, rfl, rfl, ?_, fun _ _ hf => .inl hf,
      fun _ _ _ _ hf => hf⟩ ⟨?_, ?_, ?_, hi.owners.futures, hi.owners.calls, hi.owners.apart⟩ ?_
    · intro d
      by_cases hd : d = c
      · subst hd
        exact .inr ⟨hnone, hself⟩
      · exact .inl (hother d hd)
    · intro d
      obtain ⟨n, hn, hcount⟩ := hi.owners.counted d
      refine ⟨n, hn, ?_⟩
      by_cases hd : d = c
      · subst hd
        rw [hi.counts_zero hnone hn]
        simp [setPromise, share, kSharedRefNoFuture, hshared, hi.given_of_none hnone]
      · rw [hholds d hd]
        simpa [setPromise, hd] using hcount
    · intro d hd
      have hdc : d ≠ c := by
        rintro rfl
        simp [setPromise] at hd
      simp only [setPromise, Function.update_of_ne hdc] at hd
      exact hi.owners.made d hd
    · intro d hunique hmade hgiven
      have hdc : d ≠ c := by
        rintro rfl
        rw [hshared] at hunique
        cases hunique
      simp only [setPromise, Function.update_of_ne hdc] at hmade hgiven ⊢
      exact hi.owners.early d hunique hmade hgiven
    · intro d
      by_cases hd : d = c
      · subst hd
        have hdeleted := hi.once.deleted d
        rw [if_neg (by simp [hnone])] at hdeleted
        simp [setPromise, hdeleted, kSharedRefNoFuture]
      · simp only [setPromise, Function.update_of_ne hd]
        exact hi.once.deleted d
  · cases h

theorem incRef_ok [DecidableEq κ] (h : s.count c ≠ 0) : incRef s c =
    .ok { s with count := Function.update s.count c (s.count c + 1) } := by
  simp [incRef, check, h, bind, Except.bind, pure, Except.pure]

theorem decRef_ok [DecidableEq κ] (h : s.count c ≠ 0) : decRef s c = .ok { s with
    count := Function.update s.count c (s.count c - 1)
    deleted := Function.update s.deleted c (s.deleted c + if s.count c = 1 then 1 else 0) } := by
  simp [decRef, check, h, bind, Except.bind, pure, Except.pure]

variable [DecidableEq φ]

/-- A future of the core `c` is new. -/
structure NewFuture (cfg : Config κ ν) (s t : State κ φ ν ρ) (c : κ) (g : φ) : Prop where
  free : s.future g = none
  future : t.future = Function.update s.future g (some c)
  call : t.call = s.call
  given : t.given = s.given
  other : ∀ d, d ≠ c → t.promise d = s.promise d ∧ t.count d = s.count d
  promise : t.promise c ≠ .none
  unique : cfg.shared c = false → s.promise c = .none
  count : ∀ n, Counts (Holds cfg s c) n → s.count c = n + share cfg s c →
    t.count c = n + 1 + share cfg t c

/-- The references of a new future are counted. -/
theorem NewFuture.owners (h : NewFuture cfg s t c g) (hi : Inv cfg s) : Owners cfg t := by
  have hfuture : ∀ d f, t.future f = some d ↔ s.future f = some d ∨ d = c ∧ f = g := by
    intro d f
    rw [h.future]
    by_cases hf : f = g
    · subst hf
      rw [Function.update_self, h.free]
      simp [eq_comm]
    · rw [Function.update_of_ne hf]
      simp [hf]
  have huses : ∀ d m, Uses cfg t m d ↔ Uses cfg s m d := by
    intro d m
    rw [Uses, Uses, h.call]
  have hholds : ∀ d x, Holds cfg t d x ↔ Holds cfg s d x ∨ d = c ∧ x = .inl g := by
    rintro d (f | m)
    · simp only [Holds, hfuture, Sum.inl.injEq]
    · simp only [Holds, h.call, reduceCtorEq, and_false, or_false]
  constructor
  · intro d
    obtain ⟨n, hn, hcount⟩ := hi.owners.counted d
    by_cases hd : d = c
    · subst hd
      refine ⟨n + 1, hn.add (a := .inl g) ?_ ?_, h.count n hn hcount⟩
      · simp [Holds, h.free]
      · intro x
        simp [hholds]
    · refine ⟨n, hn.congr ?_, ?_⟩
      · intro x
        simp [hholds, hd]
      · obtain ⟨hpromise, hsame⟩ := h.other d hd
        rw [hsame, hcount, share_congr (by rw [hpromise]) (by rw [h.given])]
  · intro d hnone
    have hd : d ≠ c := by
      rintro rfl
      exact h.promise hnone
    rw [(h.other d hd).1] at hnone
    obtain ⟨hfutures, hcalls⟩ := hi.owners.made d hnone
    refine ⟨?_, ?_⟩
    · intro f hf
      rcases (hfuture d f).mp hf with hold | ⟨hdc, -⟩
      · exact hfutures f hold
      · exact hd hdc
    · intro m hm
      exact hcalls m ((huses d m).mp hm)
  · intro d hunique hmade hgiven
    by_cases hd : d = c
    · subst hd
      obtain ⟨n, hn, hcount⟩ := hi.owners.counted d
      rw [h.count n hn hcount]
      omega
    · obtain ⟨hpromise, hsame⟩ := h.other d hd
      rw [hpromise] at hmade hgiven
      rw [hsame]
      exact hi.owners.early d hunique hmade hgiven
  · intro d f f' hunique hf hf'
    rcases (hfuture d f).mp hf with hold | ⟨rfl, rfl⟩
    · rcases (hfuture d f').mp hf' with hold' | ⟨rfl, rfl⟩
      · exact hi.owners.futures d f f' hunique hold hold'
      · exact absurd hold ((hi.owners.made d (h.unique hunique)).1 f)
    · rcases (hfuture d f').mp hf' with hold' | ⟨-, rfl⟩
      · exact absurd hold' ((hi.owners.made d (h.unique hunique)).1 f')
      · rfl
  · intro d m j hunique hm hj
    exact hi.owners.calls d m j hunique ((huses d m).mp hm) ((huses d j).mp hj)
  · intro d f m hunique hf hm
    rcases (hfuture d f).mp hf with hold | ⟨rfl, -⟩
    · exact hi.owners.apart d f m hunique hold ((huses d m).mp hm)
    · exact (hi.owners.made d (h.unique hunique)).2 m ((huses d m).mp hm)

variable [DecidableEq κ]

theorem Inv.make (hi : Inv cfg s) (h : make cfg s c f = some t) : Inv cfg t := by
  rw [SharedCore.make] at h
  split at h
  · rename_i hc
    obtain ⟨hnone, hfree⟩ := hc
    cases h
    have hother : ∀ d, d ≠ c → Function.update s.promise c Promise.held d = s.promise d :=
      fun d hd => Function.update_of_ne hd ..
    have hself : Function.update s.promise c Promise.held c = .held := Function.update_self ..
    refine hi.handles ⟨rfl, rfl, rfl, rfl, rfl, rfl, rfl, rfl, ?_, ?_, ?_⟩
      (NewFuture.owners (c := c) (g := f) ⟨hfree, rfl, rfl, rfl, ?_, ?_, fun _ => hnone, ?_⟩ hi) ?_
    · intro d
      by_cases hd : d = c
      · subst hd
        exact .inr ⟨hnone, hself⟩
      · exact .inl (hother d hd)
    · intro d g hg
      by_cases hgf : g = f
      · subst hgf
        simp only [setFuture, Function.update_self, Option.some.injEq] at hg
        subst hg
        exact .inr (.inl (by simp [hnone]))
      · simp only [setFuture, setPromise, Function.update_of_ne hgf] at hg
        exact .inl hg
    · intro d g m _ hg
      have hgf : g ≠ f := by
        rintro rfl
        rw [hfree] at hg
        cases hg
      simp only [setFuture, setPromise, Function.update_of_ne hgf, hg]
    · intro d hd
      exact ⟨hother d hd, Function.update_of_ne hd ..⟩
    · simp [setFuture, setPromise]
    · intro n hn _
      have hgiven := hi.given_of_none hnone
      rw [hi.counts_zero hnone hn]
      cases hshared : cfg.shared c <;>
        simp [setFuture, setPromise, share, refWithFuture, hshared, hgiven]
    · intro d
      by_cases hd : d = c
      · subst hd
        have hdeleted := hi.once.deleted d
        rw [if_neg (by simp [hnone])] at hdeleted
        have hne : refWithFuture (cfg.shared d) ≠ 0 := by
          cases cfg.shared d <;> simp [refWithFuture]
        simp [setFuture, setPromise, hdeleted, hne]
      · simp only [setFuture, setPromise, Function.update_of_ne hd]
        exact hi.once.deleted d
  · cases h

/-- A `SharedFuture` gets another one. -/
theorem Inv.addFuture (hi : Inv cfg s) (hshared : cfg.shared c = true) (hfree : s.future g = none)
    (hmade : s.promise c ≠ .none) (hcount : s.count c ≠ 0)
    (hfresh : s.promise c ≠ .given ∨ ∃ f, s.future f = some c) :
    Inv cfg (setFuture { s with count := Function.update s.count c (s.count c + 1) } g (some c)) := by
  refine hi.handles ⟨rfl, rfl, rfl, rfl, rfl, rfl, rfl, rfl, fun _ => .inl rfl, ?_, ?_⟩
    (NewFuture.owners (c := c) (g := g) ⟨hfree, rfl, rfl, rfl, ?_, hmade, ?_, ?_⟩ hi) ?_
  · intro d f hf
    by_cases hfg : f = g
    · subst hfg
      simp only [setFuture, Function.update_self, Option.some.injEq] at hf
      subst hf
      exact .inr hfresh
    · simp only [setFuture, Function.update_of_ne hfg] at hf
      exact .inl hf
  · intro d f m _ hf
    have hfg : f ≠ g := by
      rintro rfl
      rw [hfree] at hf
      cases hf
    simp only [setFuture, Function.update_of_ne hfg, hf]
  · intro d hd
    exact ⟨rfl, Function.update_of_ne hd ..⟩
  · intro hunique
    rw [hshared] at hunique
    cases hunique
  · intro n _ hn
    have hsame : share cfg (setFuture { s with
        count := Function.update s.count c (s.count c + 1) } g (some c)) c = share cfg s c := rfl
    rw [hsame]
    simp only [setFuture, Function.update_self]
    omega
  · intro d
    by_cases hd : d = c
    · subst hd
      have hdeleted := hi.once.deleted d
      rw [if_neg (by simp [hcount])] at hdeleted
      simp [setFuture, hdeleted]
    · simp only [setFuture, Function.update_of_ne hd]
      exact hi.once.deleted d

/-- A future is copied while it holds a reference, so the core is there. -/
theorem Inv.copy (hi : Inv cfg s) {y : Except Fault (State κ φ ν ρ)}
    (h : copy cfg s f g = some y) : ∃ t, y = .ok t ∧ Inv cfg t := by
  rw [SharedCore.copy] at h
  split at h
  · cases h
  · rename_i c hf
    split at h
    · rename_i hc
      cases h
      have hcount := hi.count_ne_zero (x := .inl f) hf
      rw [incRef_ok hcount]
      exact ⟨_, rfl, hi.addFuture hc.1 hc.2 (hi.made_of_future hf) hcount (.inr ⟨f, hf⟩)⟩
    · cases h

theorem Inv.split (hi : Inv cfg s) {y : Except Fault (State κ φ ν ρ)}
    (h : split cfg s c g = some y) : ∃ t, y = .ok t ∧ Inv cfg t := by
  rw [SharedCore.split] at h
  split at h
  · rename_i hc
    obtain ⟨hshared, hheld, hfree⟩ := hc
    cases h
    have hmade : s.promise c ≠ .none := by simp [hheld]
    have hungiven : s.promise c ≠ .given := by simp [hheld]
    have hcount := hi.count_of_ungiven hmade hungiven
    rw [incRef_ok hcount]
    exact ⟨_, rfl, hi.addFuture hshared hfree hmade hcount (.inl hungiven)⟩
  · cases h

/-- The last reference deletes the core, when nobody can use it. -/
theorem Inv.drop (hi : Inv cfg s) {y : Except Fault (State κ φ ν ρ)}
    (h : drop cfg s f = some y) : ∃ t, y = .ok t ∧ Inv cfg t := by
  rw [SharedCore.drop] at h
  split at h
  · cases h
  · rename_i c hf
    split at h
    · rename_i hc
      obtain ⟨hshared, husers⟩ := hc
      cases h
      have hcount := hi.count_ne_zero (x := .inl f) hf
      rw [decRef_ok hcount]
      refine ⟨_, rfl, ?_⟩
      have hfuture : ∀ d g, Function.update s.future f none g = some d ↔
          s.future g = some d ∧ g ≠ f := by
        intro d g
        by_cases hg : g = f
        · subst hg
          simp
        · simp [hg]
      refine hi.handles ⟨rfl, rfl, rfl, rfl, rfl, rfl, rfl, rfl, fun _ => .inl rfl, ?_, ?_⟩
        ⟨?_, ?_, ?_, ?_, hi.owners.calls, ?_⟩ ?_
      · intro d g hg
        exact .inl ((hfuture d g).mp hg).1
      · intro d g m hm hg
        refine (hfuture d g).mpr ⟨hg, ?_⟩
        rintro rfl
        rw [husers] at hm
        cases hm
      · intro d
        obtain ⟨n, hn, hn'⟩ := hi.owners.counted d
        by_cases hd : d = c
        · subst hd
          have hholds : Holds cfg s d (.inl f) := hf
          have hpos := hn.pos hholds
          refine ⟨n - 1, hn.remove hholds ?_, ?_⟩
          · rintro (g | m)
            · exact (hfuture d g).trans (by simp [Holds])
            · exact ⟨fun hm => ⟨hm, by simp⟩, fun hm => hm.1⟩
          · have hsame : s.count d = n + share cfg s d := hn'
            change Function.update s.count d (s.count d - 1) d = n - 1 + share cfg s d
            rw [Function.update_self]
            omega
        · refine ⟨n, hn.congr ?_, ?_⟩
          · rintro (g | m)
            · refine (hfuture d g).trans ⟨fun hg => hg.1, fun hg => ⟨hg, ?_⟩⟩
              rintro rfl
              rw [Holds, hf] at hg
              exact hd (Option.some.inj hg).symm
            · exact Iff.rfl
          · exact (Function.update_of_ne hd ..).trans hn'
      · intro d hnone
        obtain ⟨hfutures, hcalls⟩ := hi.owners.made d hnone
        exact ⟨fun g hg => hfutures g ((hfuture d g).mp hg).1, hcalls⟩
      · intro d hunique hmade hgiven
        have hd : d ≠ c := by
          rintro rfl
          rw [hshared] at hunique
          cases hunique
        have hold := hi.owners.early d hunique hmade hgiven
        simpa [setFuture, hd] using hold
      · intro d g g' hunique hg hg'
        exact hi.owners.futures d g g' hunique ((hfuture d g).mp hg).1 ((hfuture d g').mp hg').1
      · intro d g m hunique hg
        exact hi.owners.apart d g m hunique ((hfuture d g).mp hg).1
      · intro d
        have hdeleted := hi.once.deleted d
        by_cases hd : d = c
        · subst hd
          rw [if_neg (by simp [hcount])] at hdeleted
          have hmade := hi.made_of_future hf
          simp only [setFuture, Function.update_self, hdeleted]
          by_cases hone : s.count d = 1
          · simp [hone, hmade]
          · rw [if_neg hone, if_neg]
            omega
        · simpa [setFuture, hd] using hdeleted
    · cases h

end Yaclib.SharedCore
