import Yaclib.Algo.SharedCore.Produce

/-!
The accesses of a call: what it reads, stores and gives back.
-/

namespace Yaclib.SharedCore

open Concurrency

variable {κ φ ν ρ : Type} {cfg : Config κ ν} {s t : State κ φ ν ρ} {c d e : κ} {f g : φ} {m j : ν}
  {caller caller' : Caller φ} {a : Act κ} {script rest : List (Act κ)} {ref ref' : Nat}
  {value value' : Option ρ} {r : ρ}

/-- A script that reads nothing needs no count. -/
theorem plain_of_quiet (h : rest.any Act.reads = false) : Plain rest := by
  rintro mode more rfl
  simp [Act.reads] at h

theorem quiet_of_cons (h : (a :: rest).any Act.reads = false) : rest.any Act.reads = false := by
  simp only [List.any_cons, Bool.or_eq_false_iff] at h
  exact h.2

/-- A core is connected by one call. -/
theorem Inv.connecting_unique (hi : Inv cfg s) {c' : κ} {script' : List (Act κ)}
    (hkind : cfg.kind m = .connect d) (hkind' : cfg.kind j = .connect d)
    (hm : pending cfg m (s.call m) = some (c, script))
    (hj : pending cfg j (s.call j) = some (c', script')) : j = m := by
  apply hi.calls.targets j m d hkind' hkind
  · intro hidle
    rw [hidle] at hj
    cases hj
  · intro hidle
    rw [hidle] at hm
    cases hm

theorem target_eq {k : Kind κ} (h : k.target = some d) : k = .connect d := by
  cases k with
  | connect e =>
    cases h
    rfl
  | _ => cases h

variable [DecidableEq ν]

/-- The call `m` has made the access `a`, and nothing else happened to the others. -/
structure Advance (cfg : Config κ ν) (s t : State κ φ ν ρ) (m : ν) (c : κ)
    (caller caller' : Caller φ) (a : Act κ) (rest : List (Act κ)) (ref ref' : Nat)
    (value value' : Option ρ) : Prop where
  call : s.call m = .running c caller (a :: rest) ref value
  next : t.call = Function.update s.call m (.running c caller' rest ref' value')
  future : t.future = s.future
  given : t.given = s.given
  source : t.source = s.source
  runs : t.runs = s.runs
  held : ∀ e j, j ∈ t.cores.held e → j ∈ s.cores.held e
  made : ∀ e, t.promise e = .none ↔ s.promise e = .none
  set : ∀ e, t.promise e = .given ↔ s.promise e = .given
  users : ∀ f j, j ≠ m → j ∈ s.users f → j ∈ t.users f

namespace Advance

/-- The words, the promises and the handles stay as they are. -/
theorem of_call (hcall : s.call m = .running c caller (a :: rest) ref value) (count : κ → Nat)
    (slot : κ → Slot ρ) (stored : κ → Option ρ) (deleted : κ → Nat) :
    Advance cfg s (setCall { s with
      count := count
      slot := slot
      stored := stored
      deleted := deleted } m (.running c caller rest ref' value')) m c caller caller a rest ref ref'
      value value' :=
  ⟨hcall, rfl, rfl, rfl, rfl, rfl, fun _ _ h => h, fun _ => Iff.rfl, fun _ => Iff.rfl,
    fun _ _ _ h => h⟩

variable (h : Advance cfg s t m c caller caller' a rest ref ref' value value')

include h

theorem call_self : t.call m = .running c caller' rest ref' value' := by
  rw [h.next, Function.update_self]

theorem call_other (hj : j ≠ m) : t.call j = s.call j := by
  rw [h.next, Function.update_of_ne hj]

theorem pending_self : pending cfg m (s.call m) = some (c, a :: rest) := by
  rw [h.call]
  rfl

theorem pending_next : pending cfg m (t.call m) = some (c, rest) := by
  rw [h.call_self]
  rfl

/-- An access changes nobody's use of a core, that of the call `m` included. -/
theorem uses_iff : Uses cfg t j e ↔ Uses cfg s j e := by
  by_cases hj : j = m
  · subst hj
    rw [Uses, Uses, h.pending_self, h.pending_next]
    constructor
    · rintro ⟨more, hmore⟩
      cases hmore
      exact ⟨_, rfl⟩
    · rintro ⟨more, hmore⟩
      cases hmore
      exact ⟨_, rfl⟩
  · rw [Uses, Uses, h.call_other hj]

/-- After the access the call holds what the rest of its script gives back. -/
theorem holds_self : Holds cfg t e (.inr m) ↔ c = e ∧ owes (cfg.shared c) rest = true :=
  holds_running h.call_self

theorem holds_other {x : φ ⊕ ν} (hx : x ≠ .inr m) : Holds cfg t e x ↔ Holds cfg s e x := by
  cases x with
  | inl f => rw [Holds, Holds, h.future]
  | inr j => rw [Holds, Holds, h.call_other fun hj => hx (congrArg Sum.inr hj)]

/-- A reference that the call does not give back or take is held as before. -/
theorem holds_iff (howes : owes (cfg.shared c) (a :: rest) = owes (cfg.shared c) rest)
    {x : φ ⊕ ν} : Holds cfg t e x ↔ Holds cfg s e x := by
  by_cases hx : x = .inr m
  · subst hx
    rw [h.holds_self, holds_running h.call, howes]
  · exact h.holds_other hx

theorem share_eq : share cfg t e = share cfg s e := share_congr (h.made e) (congrFun h.given e)

/-- An access that gives nothing back leaves the count alone. -/
theorem counted (hi : Inv cfg s)
    (howes : owes (cfg.shared c) (a :: rest) = owes (cfg.shared c) rest)
    (hcount : t.count = s.count) :
    ∀ e, ∃ n, Counts (Holds cfg t e) n ∧ t.count e = n + share cfg t e := by
  intro e
  obtain ⟨n, hn, heq⟩ := hi.owners.counted e
  refine ⟨n, hn.congr fun x => h.holds_iff howes, ?_⟩
  rw [hcount, h.share_eq]
  exact heq

/-- The references of another core are left alone. -/
theorem counted_other (hi : Inv cfg s) (he : e ≠ c) (hcount : t.count e = s.count e) :
    ∃ n, Counts (Holds cfg t e) n ∧ t.count e = n + share cfg t e := by
  obtain ⟨n, hn, heq⟩ := hi.owners.counted e
  refine ⟨n, hn.congr ?_, ?_⟩
  · intro x
    by_cases hx : x = .inr m
    · subst hx
      rw [h.holds_self, holds_running h.call]
      simp [Ne.symm he]
    · exact h.holds_other hx
  · rw [hcount, h.share_eq]
    exact heq

/-- Nobody else becomes a holder. -/
theorem sole (howes : owes (cfg.shared c) rest = true → owes (cfg.shared c) (a :: rest) = true)
    (hs : Sole cfg s e j) : Sole cfg t e j where
  holds := by
    intro x hx
    apply hs.holds
    by_cases hxm : x = .inr m
    · subst hxm
      obtain ⟨rfl, hrest⟩ := h.holds_self.mp hx
      exact (holds_running h.call).mpr ⟨rfl, howes hrest⟩
    · exact (h.holds_other hxm).mp hx
  held i hmem := hs.held i (h.held e i hmem)

theorem spent (hs : Spent cfg s e) : Spent cfg t e where
  given := (h.set e).mpr hs.given
  futures f := by
    rw [h.future]
    exact hs.futures f
  calls := by
    intro j script hj
    by_cases hjm : j = m
    · subst hjm
      rw [h.pending_next] at hj
      cases hj
      exact quiet_of_cons (hs.calls j _ h.pending_self)
    · rw [h.call_other hjm] at hj
      exact hs.calls j script hj

theorem links (hi : Inv cfg s) (hcores : t.cores = s.cores) (hcaller : caller' = caller) :
    Links cfg t where
  sound := by
    rw [hcores]
    exact hi.links.sound
  nodup := by
    rw [hcores]
    exact hi.links.nodup
  mem := by
    intro e j
    rw [hcores, hi.links.mem e j]
    by_cases hj : j = m
    · subst hj
      rw [h.call, h.call_self, hcaller]
      simp
    · rw [h.call_other hj]
  hand := by
    intro e j script ref₂ value₂ hj
    rw [hcores]
    by_cases hjm : j = m
    · subst hjm
      rw [h.call_self, hcaller] at hj
      cases hj
      exact hi.links.hand c j _ _ _ h.call
    · rw [h.call_other hjm] at hj
      exact hi.links.hand e j _ _ _ hj
  attached := by
    intro e j hj
    by_cases hjm : j = m
    · subst hjm
      rw [h.call_self] at hj
      cases hj
    · rw [h.call_other hjm] at hj
      exact hi.links.attached e j hj
  walk := by
    intro e
    rw [h.set, hcores]
    exact hi.links.walk e

theorem given_of_cores (hi : Inv cfg s) (hcores : t.cores = s.cores) : Given cfg t where
  le := by
    rw [h.given]
    exact hi.given.le
  unique := by
    rw [h.given]
    exact hi.given.unique
  early := by
    rw [h.given, hcores]
    exact hi.given.early

/-- The results stay as they are. -/
theorem results (hi : Inv cfg s) (hpromise : t.promise = s.promise) (hslot : t.slot = s.slot)
    (hstored : t.stored = s.stored) : Results cfg t where
  unset := by
    rw [hpromise, hslot, hstored]
    exact hi.results.unset
  set := by
    rw [hpromise, hslot]
    exact hi.results.set
  full := by
    rw [hslot, hstored]
    exact hi.results.full
  moved := by
    intro e he
    rw [hslot] at he
    exact h.spent (hi.results.moved e he)

/-- The cores that are connected stay as they are. -/
theorem connecting (hi : Inv cfg s) (hpromise : t.promise = s.promise)
    (hslot : ∀ e, s.promise e ≠ .given → t.slot e = s.slot e) (hstored : t.stored = s.stored)
    (hstores : a.stores = false) (hsets : a.sets = false) :
    ∀ j d e script, cfg.kind j = .connect d → pending cfg j (t.call j) = some (e, script) →
      Connecting cfg t j d e script := by
  intro j d e script hkind hj
  obtain ⟨script', hscript, hany, hany'⟩ : ∃ script', pending cfg j (s.call j) = some (e, script') ∧
      script'.any Act.stores = script.any Act.stores ∧
      script'.any Act.sets = script.any Act.sets := by
    by_cases hjm : j = m
    · subst hjm
      rw [h.pending_next] at hj
      cases hj
      exact ⟨_, h.pending_self, by simp [hstores], by simp [hsets]⟩
    · rw [h.call_other hjm] at hj
      exact ⟨script, hj, rfl, rfl⟩
  have hc := hi.calls.connecting j d e script' hkind hscript
  refine ⟨by rw [h.source]; exact hc.source, ?_, ?_, ?_, ?_⟩
  · intro hs
    obtain ⟨hp, hd⟩ := hc.before (hany.trans hs)
    rw [hpromise, hslot d (by simp [hp]), hstored]
    exact ⟨hp, hd⟩
  · intro hs hs'
    obtain ⟨hp, hd⟩ := hc.between (hany.trans hs) (hany'.trans hs')
    rw [hpromise, hslot d (by simp [hp])]
    exact ⟨hp, hd⟩
  · intro hs
    rw [hpromise]
    exact hc.after (hany'.trans hs)
  · intro hs
    rw [hstored]
    exact hc.copied (hany.trans hs)

theorem owners (hi : Inv cfg s)
    (hcounted : ∀ e, ∃ n, Counts (Holds cfg t e) n ∧ t.count e = n + share cfg t e)
    (hcount : ∀ e, s.promise e ≠ .given → t.count e = s.count e) : Owners cfg t where
  counted := hcounted
  made := by
    intro e he
    obtain ⟨hfutures, hcalls⟩ := hi.owners.made e ((h.made e).mp he)
    rw [h.future]
    exact ⟨hfutures, fun j hj => hcalls j (h.uses_iff.mp hj)⟩
  early := by
    intro e hunique hmade hgiven
    rw [ne_eq, h.made] at hmade
    rw [ne_eq, h.set] at hgiven
    rw [hcount e hgiven]
    exact hi.owners.early e hunique hmade hgiven
  futures := by
    rw [h.future]
    exact hi.owners.futures
  calls e i j hunique hi' hj := hi.owners.calls e i j hunique (h.uses_iff.mp hi') (h.uses_iff.mp hj)
  apart := by
    intro e f j hunique hf hj
    rw [h.future] at hf
    exact hi.owners.apart e f j hunique hf (h.uses_iff.mp hj)

/-- What the call does next. -/
theorem running (hi : Inv cfg s) (howners : Owners cfg t) (hlinks : Links cfg t)
    (hcaller : caller' = .self ∨ caller' = caller ∧ t.users = s.users) (href : ref' = ref)
    (ha : a ≠ .getRef) (hplain : Plain rest)
    (hfits : Fits (cfg.shared c) (cfg.kind m).target caller' value'.isSome rest)
    (hvalue : ∀ r, value' = some r → t.stored c = some r) :
    Running cfg t m c caller' rest ref' value' where
  given := (h.set c).mpr (hi.calls.running m c caller _ ref value h.call).given
  fits := hfits
  user := by
    rintro f rfl
    rcases hcaller with hself | ⟨rfl, husers⟩
    · cases hself
    · rw [h.future, husers]
      exact (hi.calls.running m c _ _ ref value h.call).user f rfl
  sole := by
    rintro mode more rfl hmoves
    rcases hplain mode more rfl with rfl | rfl
    · cases hmoves
    · have hunique : cfg.shared c = false := hfits.2.1.1
      exact howners.sole hlinks hunique (uses_running h.call_self)
  one := by
    intro hmem hno
    rw [href]
    apply (hi.calls.running m c caller _ ref value h.call).one (List.mem_cons_of_mem _ hmem)
    simp [hno, ha.symm]
  value := hvalue

/-- After the value was moved out nobody reads it. -/
theorem spent_of_move {mode : Mode} (hi : Inv cfg s) (ha : a = .read mode)
    (hmoves : mode.moves ref = true) : Spent cfg t c := by
  subst ha
  have hr := hi.calls.running m c caller _ ref value h.call
  have hs := hr.sole mode rest rfl hmoves
  have hquiet : rest.any Act.reads = false := by
    have hmoving := hr.fits.2.1
    cases mode with
    | copy => cases hmoves
    | move => exact hmoving.2
    | one => exact hmoving.2.2
    | last => exact hmoving.2
  refine ⟨(h.set c).mpr hr.given, ?_, ?_⟩
  · intro f hf
    rw [h.future] at hf
    cases hs.holds (.inl f) hf
  · intro j script hj
    by_cases hjm : j = m
    · subst hjm
      rw [h.pending_next] at hj
      cases hj
      exact hquiet
    · rw [h.call_other hjm] at hj
      cases hcallj : s.call j with
      | idle =>
        rw [hcallj] at hj
        cases hj
      | listed e =>
        rw [hcallj] at hj
        cases hj
        exact absurd (hs.held j ((hi.links.mem c j).mpr (.inl hcallj))) hjm
      | running e callerj scriptj refj valuej =>
        rw [hcallj] at hj
        cases hj
        have hrj := hi.calls.running j c callerj script refj valuej hcallj
        cases callerj with
        | producer =>
          have hmem := (hi.links.mem c j).mpr (.inr ⟨_, _, _, hcallj⟩)
          exact absurd (hs.held j hmem) hjm
        | user f => cases hs.holds (.inl f) (hrj.user f rfl).2.1
        | self =>
          by_contra hreads
          have howes := hrj.fits.owes_of_reads rfl (by simpa using hreads)
          have hj := hs.holds (.inr j) ((holds_running hcallj).mpr ⟨rfl, howes⟩)
          exact hjm (Sum.inr.inj hj)

end Advance

/-- An access keeps the invariant if what changes does. -/
theorem Inv.advance (hi : Inv cfg s)
    (h : Advance cfg s t m c caller caller' a rest ref ref' value value')
    (hlinks : Links cfg t) (hgiven : Given cfg t) (hresults : Results cfg t)
    (howners : Owners cfg t) (hsole : ∀ e j, j ≠ m → Sole cfg s e j → Sole cfg t e j)
    (hstored : ∀ e r, s.stored e = some r → t.stored e = some r)
    (hrunning : Running cfg t m c caller' rest ref' value')
    (hconnecting : ∀ j d e script, cfg.kind j = .connect d →
      pending cfg j (t.call j) = some (e, script) → Connecting cfg t j d e script)
    (hderived : ∀ e r, t.stored e = some r → Derived t r e)
    (hheld : ∀ e, t.promise e = .held → s.promise e = .held)
    (hdeleted : ∀ e, t.deleted e = if t.promise e ≠ .none ∧ t.count e = 0 then 1 else 0) :
    Inv cfg t := by
  have hidle : ∀ j, t.call j ≠ .idle → s.call j ≠ .idle := by
    intro j hne
    by_cases hj : j = m
    · subst hj
      simp [h.call]
    · rwa [h.call_other hj] at hne
  refine ⟨hlinks, hgiven, hresults, howners, ⟨?_, hconnecting, ?_⟩, hderived, ?_, ⟨hdeleted, ?_⟩⟩
  · intro j e caller₂ script₂ ref₂ value₂ hj
    by_cases hjm : j = m
    · subst hjm
      rw [h.call_self] at hj
      cases hj
      exact hrunning
    · rw [h.call_other hjm] at hj
      have hr := hi.calls.running j e caller₂ script₂ ref₂ value₂ hj
      refine ⟨(h.set e).mpr hr.given, hr.fits, ?_, ?_, hr.one, ?_⟩
      · intro f hf
        obtain ⟨hshared, hfuture, hmem⟩ := hr.user f hf
        rw [h.future]
        exact ⟨hshared, hfuture, h.users f j hjm hmem⟩
      · exact fun mode more hscript hmoves => hsole e j hjm (hr.sole mode more hscript hmoves)
      · exact fun r hvalue => hstored e r (hr.value r hvalue)
  · intro i j d hkind hkind' hne hne'
    exact hi.calls.targets i j d hkind hkind' (hidle i hne) (hidle j hne')
  · intro e he
    rw [h.source]
    exact hi.sources e (he.imp (h.made e).mp (hheld e))
  · intro j
    rw [h.runs, hi.once.runs j]
    by_cases hj : j = m
    · subst hj
      rw [h.call, h.call_self]
    · rw [h.call_other hj]

/-- An access that leaves the words, the promises and the stored results alone. -/
theorem Inv.advance_quiet (hi : Inv cfg s)
    (h : Advance cfg s t m c caller caller a rest ref ref' value value')
    (hcores : t.cores = s.cores) (hpromise : t.promise = s.promise) (hstored : t.stored = s.stored)
    (hslot : ∀ e, s.promise e ≠ .given → t.slot e = s.slot e)
    (hstores : a.stores = false) (hsets : a.sets = false) (hresults : Results cfg t)
    (howners : Owners cfg t) (hsole : ∀ e j, j ≠ m → Sole cfg s e j → Sole cfg t e j)
    (hrunning : Running cfg t m c caller rest ref' value')
    (hdeleted : ∀ e, t.deleted e = if s.promise e ≠ .none ∧ t.count e = 0 then 1 else 0) :
    Inv cfg t := by
  refine hi.advance h (h.links hi hcores rfl) (h.given_of_cores hi hcores) hresults howners hsole ?_
    hrunning (h.connecting hi hpromise hslot hstored hstores hsets) ?_ ?_ ?_
  · rw [hstored]
    exact fun _ _ he => he
  · rw [hstored]
    exact fun e r he => (hi.derived e r he).mono (fun _ _ _ => congrFun h.source _)
      fun _ _ hr => (congrFun hstored _).trans hr
  · rw [hpromise]
    exact fun _ he => he
  · rw [hpromise]
    exact hdeleted

/-- An access that does nothing to the cores. -/
theorem Inv.goOn (hi : Inv cfg s) (hcall : s.call m = .running c caller (a :: rest) ref value)
    (ha : a ≠ .getRef) (hstores : a.stores = false) (hsets : a.sets = false)
    (howes : owes (cfg.shared c) (a :: rest) = owes (cfg.shared c) rest) (hplain : Plain rest)
    (hfits : Fits (cfg.shared c) (cfg.kind m).target caller value.isSome rest) :
    Inv cfg (setCall s m (.running c caller rest ref value)) := by
  have h : Advance cfg s (setCall s m (.running c caller rest ref value)) m c caller caller a rest
      ref ref value value :=
    .of_call hcall _ _ _ _
  have howners := h.owners hi (h.counted hi howes rfl) fun _ _ => rfl
  have hr := hi.calls.running m c caller _ ref value hcall
  exact hi.advance_quiet h rfl rfl rfl (fun _ _ => rfl) hstores hsets (h.results hi rfl rfl rfl)
    howners (fun _ _ _ => h.sole fun htrue => howes.trans htrue) (h.running hi howners
      (h.links hi rfl rfl) (.inr ⟨rfl, rfl⟩) rfl ha hplain hfits hr.value) hi.once.deleted

/-- `GetRef` -/
theorem Inv.getRef (hi : Inv cfg s)
    (hcall : s.call m = .running c caller (.getRef :: rest) ref value) :
    s.count c ≠ 0 ∧ Inv cfg (setCall s m (.running c caller rest (s.count c) value)) := by
  have hr := hi.calls.running m c caller _ ref value hcall
  obtain ⟨hguarded, hproducer, hfits⟩ := hr.fits
  have hcount : s.count c ≠ 0 := hi.count_of_guarded hcall hguarded
  refine ⟨hcount, ?_⟩
  have h : Advance cfg s (setCall s m (.running c caller rest (s.count c) value)) m c caller caller
      .getRef rest ref (s.count c) value value :=
    .of_call hcall _ _ _ _
  have howners := h.owners hi (h.counted hi rfl rfl) fun _ _ => rfl
  have hlinks := h.links hi rfl rfl
  obtain ⟨n, hn, hcounted⟩ := hi.owners.counted c
  have hpositive : owes (cfg.shared c) rest = true → 0 < n := fun howes =>
    hn.pos ((holds_running hcall).mpr ⟨rfl, howes⟩)
  have hsole : Sole cfg s c m →
      Sole cfg (setCall s m (.running c caller rest (s.count c) value)) c m :=
    h.sole fun howes => howes
  have hmade : s.promise c ≠ .none := by simp [hr.given]
  refine hi.advance_quiet h rfl rfl rfl (fun _ _ => rfl) rfl rfl (h.results hi rfl rfl rfl) howners
    (fun _ _ _ => h.sole fun howes => howes) ⟨hr.given, hfits, hr.user, ?_, ?_, hr.value⟩
    hi.once.deleted
  · rintro mode more rfl hmoves
    cases hshared : cfg.shared c with
    | false => exact howners.sole hlinks hshared (uses_running h.call_self)
    | true =>
      have hshare : share cfg s c = 3 - s.given c := by
        rw [share, if_pos ⟨hshared, hmade⟩]
      have hmoving := hfits.2.1
      rw [hshared] at hmoving
      cases mode with
      | copy => cases hmoves
      | move => cases hmoving.1
      | one =>
        have hone : s.count c = 1 := by simpa [Mode.moves] using hmoves
        have hn' := hpositive (by rw [hshared]; exact hmoving.2.1)
        have hfinished : s.cores.walk c = .finished := by
          rcases hi.given.early c (by omega) with hfinished | ⟨hgiven, -⟩
          · exact hfinished
          · omega
        apply hsole
        constructor
        · intro x hx
          apply hn.eq_of_le_one (by omega) hx
          exact (holds_running hcall).mpr ⟨rfl, by rw [hshared]; exact hmoving.2.1⟩
        · intro j hj
          rw [(hi.links.sound c).held_finished hfinished] at hj
          cases hj
      | last =>
        obtain rfl : caller = .producer := hmoving.1 rfl
        obtain ⟨next, hnext⟩ := hi.links.hand c m _ _ _ hcall
        have htwo := hi.share_of_hand hshared hr.given hnext
        have hlt : s.count c < 3 := by simpa [Mode.moves] using hmoves
        apply hsole
        constructor
        · intro x hx
          have hn' := hn.pos hx
          omega
        · intro j hj
          obtain ⟨xs, hxs, hchain⟩ := (hi.links.sound c).held_call hnext
          have hnone : next = none := by
            rcases hi.given.early c (by omega) with hfinished | ⟨-, head, hhead⟩
            · rw [hnext] at hfinished
              cases hfinished
            · rw [hnext] at hhead
              cases hhead
              rfl
          rw [hnone] at hchain
          rw [hxs, hchain.of_none] at hj
          exact List.mem_singleton.mp hj
  · intro hmem hno
    cases hshared : cfg.shared c with
    | true =>
      obtain rfl := hproducer hmem hshared
      obtain ⟨next, hnext⟩ := hi.links.hand c m _ _ _ hcall
      have htwo := hi.share_of_hand hshared hr.given hnext
      simp only [Bool.true_eq_false, iff_false]
      omega
    | false =>
      have hone := hn.le_one fun x y hx hy => by
        have hs := hi.owners.sole hi.links hshared (uses_running hcall)
        rw [hs.holds x hx, hs.holds y hy]
      have hshare : share cfg s c = 0 := by
        rw [share, if_neg]
        simp [hshared]
      simp only [iff_true]
      omega

variable [DecidableEq κ]

/-- `IncRef` of a callback that goes on later -/
theorem Inv.incRef (hi : Inv cfg s)
    (hcall : s.call m = .running c caller (.incRef :: rest) ref value) :
    s.count c ≠ 0 ∧ Inv cfg (setCall { s with
      count := Function.update s.count c (s.count c + 1) } m
      (.running c caller rest ref value)) := by
  have hr := hi.calls.running m c caller _ ref value hcall
  obtain ⟨hshared, hcaller, howes, hplain, hfits⟩ := hr.fits
  have hidle : ¬ Holds cfg s c (.inr m) := by
    rw [holds_running hcall]
    rintro ⟨-, hfalse⟩
    cases hfalse
  have hcount : s.count c ≠ 0 := by
    cases caller with
    | producer =>
      obtain ⟨next, hnext⟩ := hi.links.hand c m _ _ _ hcall
      have htwo := hi.share_of_hand hshared hr.given hnext
      apply hi.count_of_share
      omega
    | user f => exact hi.count_ne_zero (x := .inl f) (hr.user f rfl).2.1
    | self => exact absurd rfl hcaller
  refine ⟨hcount, ?_⟩
  have h : Advance cfg s (setCall { s with
      count := Function.update s.count c (s.count c + 1) } m
      (.running c caller rest ref value)) m c caller caller .incRef rest ref ref value value :=
    .of_call hcall _ _ _ _
  have hother : ∀ e, e ≠ c → Function.update s.count c (s.count c + 1) e = s.count e :=
    fun e he => Function.update_of_ne he ..
  have howners : Owners cfg (setCall { s with
      count := Function.update s.count c (s.count c + 1) } m
      (.running c caller rest ref value)) := by
    refine h.owners hi ?_ ?_
    · intro e
      by_cases he : e = c
      · subst he
        obtain ⟨n, hn, hcounted⟩ := hi.owners.counted e
        refine ⟨n + 1, hn.add hidle ?_, ?_⟩
        · intro x
          by_cases hx : x = .inr m
          · subst hx
            rw [h.holds_self]
            simp [howes]
          · rw [h.holds_other hx]
            simp [hx]
        · change Function.update s.count e (s.count e + 1) e = _
          rw [Function.update_self, h.share_eq]
          omega
      · exact h.counted_other hi he (hother e he)
    · intro e he
      apply hother
      rintro rfl
      exact he hr.given
  refine hi.advance_quiet h rfl rfl rfl (fun _ _ => rfl) rfl rfl (h.results hi rfl rfl rfl) howners
    ?_ (h.running hi howners (h.links hi rfl rfl) (.inr ⟨rfl, rfl⟩) rfl (by simp) hplain hfits
      hr.value) ?_
  · intro e j hj hs
    by_cases he : e = c
    · subst he
      cases caller with
      | producer =>
        have hmem := (hi.links.mem e m).mpr (.inr ⟨_, _, _, hcall⟩)
        exact absurd (hs.held m hmem).symm hj
      | user f => cases hs.holds (.inl f) (hr.user f rfl).2.1
      | self => exact absurd rfl hcaller
    · refine ⟨?_, hs.held⟩
      intro x hx
      apply hs.holds
      by_cases hxm : x = .inr m
      · subst hxm
        exact absurd (h.holds_self.mp hx).1.symm he
      · exact (h.holds_other hxm).mp hx
  · intro e
    change s.deleted e = _
    rw [hi.once.deleted e]
    by_cases he : e = c
    · subst he
      simp [setCall, hcount]
    · simp [setCall, he]

/-- The reference of the call is given back. -/
theorem Inv.giveUp (hi : Inv cfg s) (hcall : s.call m = .running c caller (a :: rest) ref value)
    (ha : a ≠ .getRef) (hstores : a.stores = false) (hsets : a.sets = false)
    (howed : owes (cfg.shared c) (a :: rest) = true) (howes : owes (cfg.shared c) rest = false)
    (hquiet : rest.any Act.reads = false)
    (hfits : Fits (cfg.shared c) (cfg.kind m).target caller value.isSome rest) :
    s.count c ≠ 0 ∧ Inv cfg (setCall { s with
      count := Function.update s.count c (s.count c - 1)
      deleted := Function.update s.deleted c (s.deleted c + if s.count c = 1 then 1 else 0) } m
      (.running c caller rest ref value)) := by
  have hr := hi.calls.running m c caller _ ref value hcall
  have hholds : Holds cfg s c (.inr m) := (holds_running hcall).mpr ⟨rfl, howed⟩
  have hcount : s.count c ≠ 0 := hi.count_ne_zero hholds
  refine ⟨hcount, ?_⟩
  have h : Advance cfg s (setCall { s with
      count := Function.update s.count c (s.count c - 1)
      deleted := Function.update s.deleted c (s.deleted c + if s.count c = 1 then 1 else 0) } m
      (.running c caller rest ref value)) m c caller caller a rest ref ref value value :=
    .of_call hcall _ _ _ _
  have hother : ∀ e, e ≠ c → Function.update s.count c (s.count c - 1) e = s.count e :=
    fun e he => Function.update_of_ne he ..
  have howners : Owners cfg (setCall { s with
      count := Function.update s.count c (s.count c - 1)
      deleted := Function.update s.deleted c (s.deleted c + if s.count c = 1 then 1 else 0) } m
      (.running c caller rest ref value)) := by
    refine h.owners hi ?_ ?_
    · intro e
      by_cases he : e = c
      · subst he
        obtain ⟨n, hn, hcounted⟩ := hi.owners.counted e
        have hpos := hn.pos hholds
        refine ⟨n - 1, hn.remove hholds ?_, ?_⟩
        · intro x
          by_cases hx : x = .inr m
          · subst hx
            rw [h.holds_self]
            simp [howes]
          · rw [h.holds_other hx]
            simp [hx]
        · change Function.update s.count e (s.count e - 1) e = _
          rw [Function.update_self, h.share_eq]
          omega
      · exact h.counted_other hi he (hother e he)
    · intro e he
      apply hother
      rintro rfl
      exact he hr.given
  refine hi.advance_quiet h rfl rfl rfl (fun _ _ => rfl) hstores hsets (h.results hi rfl rfl rfl)
    howners (fun _ _ _ => h.sole fun htrue => ?_) (h.running hi howners (h.links hi rfl rfl)
      (.inr ⟨rfl, rfl⟩) rfl ha (plain_of_quiet hquiet) hfits hr.value) ?_
  · rw [howes] at htrue
    cases htrue
  · intro e
    have hdeleted := hi.once.deleted e
    by_cases he : e = c
    · subst he
      rw [if_neg (by simp [hcount])] at hdeleted
      simp only [setCall, Function.update_self, hdeleted, hr.given]
      by_cases hone : s.count e = 1
      · simp [hone]
      · rw [if_neg hone, if_neg]
        omega
    · simpa [setCall, he] using hdeleted

/-- A result is read, and moved out where nobody else can read it any more. -/
theorem Inv.read (hi : Inv cfg s) {mode : Mode}
    (hcall : s.call m = .running c caller (.read mode :: rest) ref value) :
    ∃ r, s.count c ≠ 0 ∧ s.slot c = .full r ∧ s.stored c = some r ∧
      Inv cfg (setCall (if mode.moves ref then
        { s with slot := Function.update s.slot c .moved } else s) m
        (.running c caller rest ref (some r))) := by
  have hr := hi.calls.running m c caller _ ref value hcall
  obtain ⟨hguarded, hmoving, -, hplain, hfits⟩ := hr.fits
  have hcount : s.count c ≠ 0 := hi.count_of_guarded hcall hguarded
  obtain ⟨r, hslot, hstored⟩ := hi.full hr.given fun hs => by
    have hquiet := hs.calls m (.read mode :: rest) (by rw [hcall]; rfl)
    simp [Act.reads] at hquiet
  refine ⟨r, hcount, hslot, hstored, ?_⟩
  have h : ∀ slot : κ → Slot ρ, Advance cfg s (setCall { s with slot := slot } m
      (.running c caller rest ref (some r))) m c caller caller (.read mode) rest ref ref value
      (some r) := fun slot =>
    .of_call hcall _ _ _ _
  have hkeeps : ∀ slot : κ → Slot ρ, (∀ e, s.promise e ≠ .given → slot e = s.slot e) →
      Results cfg (setCall { s with slot := slot } m (.running c caller rest ref (some r))) →
      Inv cfg (setCall { s with slot := slot } m (.running c caller rest ref (some r))) := by
    intro slot hsame hresults
    have howners := (h slot).owners hi ((h slot).counted hi rfl rfl) fun _ _ => rfl
    refine hi.advance_quiet (h slot) rfl rfl rfl hsame rfl rfl hresults howners
      (fun _ _ _ => (h slot).sole fun howes => howes) ((h slot).running hi howners
        ((h slot).links hi rfl rfl) (.inr ⟨rfl, rfl⟩) rfl (by simp) hplain hfits ?_)
      hi.once.deleted
    rintro r' ⟨⟩
    exact hstored
  split
  · rename_i hmoves
    have hother : ∀ e, e ≠ c → Function.update s.slot c Slot.moved e = s.slot e :=
      fun e he => Function.update_of_ne he ..
    have hne : ∀ e, s.promise e ≠ .given → e ≠ c := by
      rintro e he rfl
      exact he hr.given
    refine hkeeps _ (fun e he => hother e (hne e he)) ⟨?_, ?_, ?_, ?_⟩
    · intro e he
      change Function.update s.slot c Slot.moved e = _ ∧ _
      rw [hother e]
      · exact hi.results.unset e he
      · apply hne
        rcases he with he | he <;> simp [show s.promise e = _ from he]
    · intro e he
      change Function.update s.slot c Slot.moved e ≠ _
      by_cases hec : e = c
      · subst hec
        simp
      · rw [hother e hec]
        exact hi.results.set e he
    · intro e r' he
      change Function.update s.slot c Slot.moved e = _ at he
      by_cases hec : e = c
      · subst hec
        simp at he
      · rw [hother e hec] at he
        exact hi.results.full e r' he
    · intro e he
      change Function.update s.slot c Slot.moved e = _ at he
      by_cases hec : e = c
      · subst hec
        exact (h _).spent_of_move hi rfl hmoves
      · rw [hother e hec] at he
        exact (h _).spent (hi.results.moved e he)
  · exact hkeeps s.slot (fun _ _ => rfl) ((h s.slot).results hi rfl rfl rfl)

/-- The result that was read is stored in the core that is connected. -/
theorem Inv.store (hi : Inv cfg s)
    (hcall : s.call m = .running c caller (.store d :: rest) ref value) :
    ∃ r, value = some r ∧ s.count d ≠ 0 ∧ Inv cfg (setCall { s with
      slot := Function.update s.slot d (.full r)
      stored := Function.update s.stored d (some r) } m (.running c caller rest ref value)) := by
  have hr := hi.calls.running m c caller _ ref value hcall
  obtain ⟨htarget, hfed, hnostores, hsets, hplain, hfits⟩ := hr.fits
  have hkind := target_eq htarget
  obtain ⟨r, rfl⟩ := Option.isSome_iff_exists.mp hfed
  have hpending : pending cfg m (s.call m) = some (c, .store d :: rest) := by
    rw [hcall]
    rfl
  have hc := hi.calls.connecting m d c _ hkind hpending
  obtain ⟨hconnected, hslot, hstored⟩ := hc.before (by simp [Act.stores])
  have hcount := hi.count_of_ungiven (c := d) (by simp [hconnected]) (by simp [hconnected])
  refine ⟨r, rfl, hcount, ?_⟩
  have hvalue := hr.value r rfl
  have h : Advance cfg s (setCall { s with
      slot := Function.update s.slot d (.full r)
      stored := Function.update s.stored d (some r) } m (.running c caller rest ref (some r)))
      m c caller caller (.store d) rest ref ref (some r) (some r) :=
    .of_call hcall _ _ _ _
  have hmono : ∀ e r', s.stored e = some r' →
      Function.update s.stored d (some r) e = some r' := by
    intro e r' he
    have hed : e ≠ d := by
      rintro rfl
      rw [hstored] at he
      cases he
    rw [Function.update_of_ne hed]
    exact he
  have howners := h.owners hi (h.counted hi rfl rfl) fun _ _ => rfl
  refine hi.advance h (h.links hi rfl rfl) (h.given_of_cores hi rfl) ⟨?_, ?_, ?_, ?_⟩ howners
    (fun _ _ _ => h.sole fun howes => howes) hmono (h.running hi howners (h.links hi rfl rfl)
      (.inr ⟨rfl, rfl⟩) rfl (by simp) hplain hfits fun r' hr' => hmono c r' (hr.value r' hr'))
    ?_ ?_ (fun _ he => he) hi.once.deleted
  · intro e he
    have hed : e ≠ d := by
      rintro rfl
      simp [setCall, hconnected] at he
    simp only [setCall, Function.update_of_ne hed]
    exact hi.results.unset e he
  · intro e he
    by_cases hed : e = d
    · subst hed
      simp [setCall]
    · simp only [setCall, Function.update_of_ne hed]
      exact hi.results.set e he
  · intro e r' he
    by_cases hed : e = d
    · subst hed
      simpa [setCall] using he
    · simp only [setCall, Function.update_of_ne hed] at he ⊢
      exact hi.results.full e r' he
  · intro e he
    by_cases hed : e = d
    · subst hed
      simp [setCall] at he
    · simp only [setCall, Function.update_of_ne hed] at he
      exact h.spent (hi.results.moved e he)
  · intro j b e script hkindj hj
    by_cases hjm : j = m
    · subst hjm
      rw [h.pending_next] at hj
      cases hj
      rw [hkind] at hkindj
      cases hkindj
      refine ⟨hc.source, ?_, ?_, ?_, ?_⟩
      · intro htrue
        rw [hnostores] at htrue
        cases htrue
      · exact fun _ _ => ⟨hconnected, r, Function.update_self ..⟩
      · intro hfalse
        rw [hsets] at hfalse
        cases hfalse
      · exact fun _ => ⟨r, hmono _ r hvalue, Function.update_self ..⟩
    · rw [h.call_other hjm] at hj
      have hb : b ≠ d := by
        rintro rfl
        exact hjm (hi.connecting_unique hkind hkindj hpending hj)
      have hcj := hi.calls.connecting j b e script hkindj hj
      refine ⟨hcj.source, ?_, ?_, hcj.after, ?_⟩
      · simp only [setCall, Function.update_of_ne hb]
        exact hcj.before
      · simp only [setCall, Function.update_of_ne hb]
        exact hcj.between
      · intro hno
        obtain ⟨r', he, hb'⟩ := hcj.copied hno
        exact ⟨r', hmono e r' he, hmono b r' hb'⟩
  · have hderived : ∀ e r', s.stored e = some r' → Derived (setCall { s with
        slot := Function.update s.slot d (.full r)
        stored := Function.update s.stored d (some r) } m (.running c caller rest ref (some r)))
        r' e := fun e r' he => Derived.mono (s := s) (fun _ _ _ => rfl) hmono
          (hi.derived e r' he)
    intro e r' he
    by_cases hed : e = d
    · subst hed
      obtain rfl : r = r' := by simpa [setCall] using he
      exact .connect hc.source he (hderived c r hvalue)
    · simp only [setCall, Function.update_of_ne hed] at he
      exact hderived e r' he

/-- `SetResult` of the core that is connected begins. -/
theorem Inv.setResult (hi : Inv cfg s)
    (hcall : s.call m = .running c caller (.setResult d :: rest) ref value) :
    Inv cfg (setCall (setPromise s d .stored) m (.running c caller rest ref value)) := by
  have hr := hi.calls.running m c caller _ ref value hcall
  obtain ⟨htarget, hnostores, hnosets, hplain, hfits⟩ := hr.fits
  have hkind := target_eq htarget
  have hpending : pending cfg m (s.call m) = some (c, .setResult d :: rest) := by
    rw [hcall]
    rfl
  have hc := hi.calls.connecting m d c _ hkind hpending
  have hstores : (Act.setResult d :: rest).any Act.stores = false := by
    simpa [Act.stores] using hnostores
  obtain ⟨hconnected, r, hslot⟩ := hc.between hstores (by simp [Act.sets])
  have hother : ∀ e, e ≠ d → Function.update s.promise d Promise.stored e = s.promise e :=
    fun e he => Function.update_of_ne he ..
  have hpromise : ∀ e (p : Promise), p ≠ .connected → p ≠ .stored →
      (Function.update s.promise d Promise.stored e = p ↔ s.promise e = p) := by
    intro e p hne hne'
    exact promise_update_iff hconnected hne hne' e
  have h : Advance cfg s (setCall (setPromise s d .stored) m (.running c caller rest ref value))
      m c caller caller (.setResult d) rest ref ref value value :=
    ⟨hcall, rfl, rfl, rfl, rfl, rfl, fun _ _ h => h,
      fun e => hpromise e .none (by decide) (by decide),
      fun e => hpromise e .given (by decide) (by decide), fun _ _ _ h => h⟩
  have howners := h.owners hi (h.counted hi rfl rfl) fun _ _ => rfl
  refine hi.advance h (h.links hi rfl rfl) (h.given_of_cores hi rfl) ⟨?_, ?_, hi.results.full, ?_⟩
    howners (fun _ _ _ => h.sole fun howes => howes) (fun _ _ he => he)
    (h.running hi howners (h.links hi rfl rfl) (.inr ⟨rfl, rfl⟩) rfl (by simp) hplain hfits hr.value)
    ?_ (fun e r' he => Derived.mono (s := s) (fun _ _ _ => rfl) (fun _ _ h => h)
      (hi.derived e r' he)) ?_ ?_
  · intro e he
    exact hi.results.unset e (he.imp (hpromise e .none (by decide) (by decide)).mp
      (hpromise e .held (by decide) (by decide)).mp)
  · intro e he
    by_cases hed : e = d
    · subst hed
      simp [setCall, setPromise, hslot]
    · simp only [setCall, setPromise, hother e hed] at he
      exact hi.results.set e he
  · exact fun e he => h.spent (hi.results.moved e he)
  · intro j b e script hkindj hj
    by_cases hjm : j = m
    · subst hjm
      rw [h.pending_next] at hj
      cases hj
      rw [hkind] at hkindj
      cases hkindj
      refine ⟨hc.source, ?_, ?_, fun _ => .inl (Function.update_self ..), fun _ => hc.copied hstores⟩
      · intro htrue
        rw [hnostores] at htrue
        cases htrue
      · intro _ htrue
        rw [hnosets] at htrue
        cases htrue
    · rw [h.call_other hjm] at hj
      have hb : b ≠ d := by
        rintro rfl
        exact hjm (hi.connecting_unique hkind hkindj hpending hj)
      have hcj := hi.calls.connecting j b e script hkindj hj
      refine ⟨hcj.source, ?_, ?_, ?_, hcj.copied⟩
      · simp only [setCall, setPromise, hother b hb]
        exact hcj.before
      · simp only [setCall, setPromise, hother b hb]
        exact hcj.between
      · simp only [setCall, setPromise, hother b hb]
        exact hcj.after
  · exact fun e he => (hpromise e .held (by decide) (by decide)).mp he
  · intro e
    simp only [setCall, setPromise, ne_eq, hpromise e .none (by decide) (by decide)]
    exact hi.once.deleted e

/-- The call returns, to who called it. -/
theorem Inv.ret (hi : Inv cfg s) [DecidableEq φ]
    (hcall : s.call m = .running c caller (.ret :: rest) ref value) :
    ∃ t, leave s m c caller = some t ∧
      Inv cfg (setCall t m (.running c .self rest ref value)) := by
  have hr := hi.calls.running m c caller _ ref value hcall
  obtain ⟨hplain, hfits⟩ := hr.fits
  cases caller with
  | self => exact ⟨s, rfl, hi.goOn hcall (by simp) rfl rfl rfl hplain hfits⟩
  | user f =>
    refine ⟨_, rfl, ?_⟩
    have h : Advance cfg s (setCall { s with
        users := Function.update s.users f ((s.users f).erase m) } m
        (.running c .self rest ref value)) m c (.user f) .self .ret rest ref ref value value := by
      refine ⟨hcall, rfl, rfl, rfl, rfl, rfl, fun _ _ h => h, fun _ => Iff.rfl, fun _ => Iff.rfl, ?_⟩
      intro g j hj hmem
      by_cases hg : g = f
      · subst hg
        simpa [setCall, List.mem_erase_of_ne hj] using hmem
      · simpa [setCall, hg] using hmem
    have howners := h.owners hi (h.counted hi rfl rfl) fun _ _ => rfl
    have hlinks : Links cfg (setCall { s with
        users := Function.update s.users f ((s.users f).erase m) } m
        (.running c .self rest ref value)) := by
      refine ⟨hi.links.sound, hi.links.nodup, ?_, ?_, ?_, hi.links.walk⟩
      · intro e j
        by_cases hj : j = m
        · subst hj
          rw [h.call_self]
          exact (hi.links.mem e j).trans (by rw [hcall]; simp)
        · rw [h.call_other hj]
          exact hi.links.mem e j
      · intro e j script ref₂ value₂ hj
        by_cases hjm : j = m
        · subst hjm
          rw [h.call_self] at hj
          cases hj
        · rw [h.call_other hjm] at hj
          exact hi.links.hand e j _ _ _ hj
      · intro e j hj
        by_cases hjm : j = m
        · subst hjm
          rw [h.call_self] at hj
          cases hj
        · rw [h.call_other hjm] at hj
          exact hi.links.attached e j hj
    exact hi.advance h hlinks (h.given_of_cores hi rfl) (h.results hi rfl rfl rfl) howners
      (fun _ _ _ => h.sole fun howes => howes) (fun _ _ he => he)
      (h.running hi howners hlinks (.inl rfl) rfl (by simp) hplain hfits hr.value)
      (h.connecting hi rfl (fun _ _ => rfl) rfl rfl rfl)
      (fun e r he => Derived.mono (s := s) (fun _ _ _ => rfl) (fun _ _ h => h) (hi.derived e r he))
      (fun _ he => he) hi.once.deleted
  | producer =>
    obtain ⟨next, hnext⟩ := hi.links.hand c m _ _ _ hcall
    refine ⟨{ s with cores := s.cores.pop c next }, by rw [leave, hnext], ?_⟩
    obtain ⟨xs, hxs, -⟩ := (hi.links.sound c).held_call hnext
    have hself : (s.cores.pop c next).held c = xs := by
      have htail : (s.cores.pop c next).held c = (s.cores.held c).tail := Function.update_self ..
      rw [htail, hxs]
      rfl
    have hother : ∀ e, e ≠ c → (s.cores.pop c next).held e = s.cores.held e :=
      fun e he => Function.update_of_ne he ..
    have hwalk : ∀ e, e ≠ c → (s.cores.pop c next).walk e = s.cores.walk e :=
      fun e he => Function.update_of_ne he ..
    have hrest : (s.cores.pop c next).walk c = .rest next := Function.update_self ..
    have hnodup := hi.links.nodup c
    rw [hxs, List.nodup_cons] at hnodup
    have h : Advance cfg s (setCall { s with cores := s.cores.pop c next } m
        (.running c .self rest ref value)) m c .producer .self .ret rest ref ref value value := by
      refine ⟨hcall, rfl, rfl, rfl, rfl, rfl, ?_, fun _ => Iff.rfl, fun _ => Iff.rfl,
        fun _ _ _ h => h⟩
      intro e j hj
      change j ∈ (s.cores.pop c next).held e at hj
      by_cases he : e = c
      · subst he
        rw [hself] at hj
        rw [hxs]
        exact List.mem_cons_of_mem _ hj
      · rwa [hother e he] at hj
    have hnot : ∀ e j script ref₂ value₂, j ≠ m →
        s.call j = .running e .producer script ref₂ value₂ → e ≠ c := by
      rintro e j script ref₂ value₂ hj hcallj rfl
      obtain ⟨next', hnext'⟩ := hi.links.hand e j _ _ _ hcallj
      rw [hnext] at hnext'
      cases hnext'
      exact hj rfl
    have hlinks : Links cfg (setCall { s with cores := s.cores.pop c next } m
        (.running c .self rest ref value)) := by
      refine ⟨?_, ?_, ?_, ?_, ?_, ?_⟩
      · intro e
        by_cases he : e = c
        · subst he
          exact (hi.links.sound e).pop hnext
        · exact (hi.links.sound e).pop_other he
      · intro e
        change ((s.cores.pop c next).held e).Nodup
        by_cases he : e = c
        · subst he
          rw [hself]
          exact hnodup.2
        · rw [hother e he]
          exact hi.links.nodup e
      · intro e j
        change j ∈ (s.cores.pop c next).held e ↔ _
        by_cases hj : j = m
        · subst hj
          rw [h.call_self]
          by_cases he : e = c
          · subst he
            rw [hself]
            simp [hnodup.1]
          · rw [hother e he, hi.links.mem e j, hcall]
            simp [Ne.symm he]
        · rw [h.call_other hj, ← hi.links.mem e j]
          by_cases he : e = c
          · subst he
            rw [hself, hxs]
            simp [hj]
          · rw [hother e he]
      · intro e j script ref₂ value₂ hj
        by_cases hjm : j = m
        · subst hjm
          rw [h.call_self] at hj
          cases hj
        · rw [h.call_other hjm] at hj
          obtain ⟨next', hnext'⟩ := hi.links.hand e j _ _ _ hj
          exact ⟨next', (hwalk e (hnot e j _ _ _ hjm hj)).trans hnext'⟩
      · intro e j hj
        by_cases hjm : j = m
        · subst hjm
          rw [h.call_self] at hj
          cases hj
        · rw [h.call_other hjm] at hj
          exact hi.links.attached e j hj
      · intro e
        change s.promise e = .given ↔ (s.cores.pop c next).walk e ≠ .before
        by_cases he : e = c
        · subst he
          rw [hrest]
          simp [hr.given, Walk.rest_ne_before]
        · rw [hwalk e he]
          exact hi.links.walk e
    have hgiven : Given cfg (setCall { s with cores := s.cores.pop c next } m
        (.running c .self rest ref value)) := by
      refine ⟨hi.given.le, hi.given.unique, ?_⟩
      intro e he
      change (s.cores.pop c next).walk e = .finished ∨
        s.given e = 1 ∧ ∃ head, (s.cores.pop c next).walk e = .call head none
      by_cases hec : e = c
      · subst hec
        left
        rcases hi.given.early e he with hfinished | ⟨-, head, hhead⟩
        · rw [hnext] at hfinished
          cases hfinished
        · rw [hnext] at hhead
          cases hhead
          exact hrest
      · rw [hwalk e hec]
        exact hi.given.early e he
    have howners := h.owners hi (h.counted hi rfl rfl) fun _ _ => rfl
    exact hi.advance h hlinks hgiven (h.results hi rfl rfl rfl) howners
      (fun _ _ _ => h.sole fun howes => howes) (fun _ _ he => he)
      (h.running hi howners hlinks (.inl rfl) rfl (by simp) hplain hfits hr.value)
      (h.connecting hi rfl (fun _ _ => rfl) rfl rfl rfl)
      (fun e r he => Derived.mono (s := s) (fun _ _ _ => rfl) (fun _ _ h => h) (hi.derived e r he))
      (fun _ he => he) hi.once.deleted

/-- No access of a call is undefined behaviour. -/
theorem Inv.act (hi : Inv cfg s) [DecidableEq φ] {y : Except Fault (State κ φ ν ρ)}
    (h : act cfg s m = some y) : ∃ t, y = .ok t ∧ Inv cfg t := by
  rw [SharedCore.act] at h
  split at h
  · rename_i c caller a rest ref value hcall
    have hr := hi.calls.running m c caller _ ref value hcall
    cases a with
    | getRef =>
      cases h
      obtain ⟨hcount, ht⟩ := hi.getRef hcall
      refine ⟨_, ?_, ht⟩
      simp [check, hcount, bind, Except.bind, pure, Except.pure]
    | read mode =>
      cases h
      obtain ⟨r, hcount, hslot, -, ht⟩ := hi.read hcall
      rw [read_ok hcount hslot]
      exact ⟨_, rfl, ht⟩
    | incRef =>
      cases h
      obtain ⟨hcount, ht⟩ := hi.incRef hcall
      rw [incRef_ok hcount]
      exact ⟨_, rfl, ht⟩
    | decRef =>
      cases h
      obtain ⟨howes, hquiet, hfits⟩ := hr.fits
      obtain ⟨hcount, ht⟩ := hi.giveUp hcall (by simp) rfl rfl rfl howes hquiet hfits
      rw [decRef_ok hcount]
      exact ⟨_, rfl, ht⟩
    | decRefIfOne =>
      obtain ⟨howes, hquiet, hno, -, hfits⟩ := hr.fits
      have hone := hr.one (List.mem_cons_self ..) (by simp [hno])
      dsimp only at h
      split at h
      · rename_i href
        cases h
        have hunique := hone.mp href
        obtain ⟨hcount, ht⟩ := hi.giveUp hcall (by simp) rfl rfl (by simp [owes, hunique]) howes
          hquiet hfits
        rw [decRef_ok hcount]
        exact ⟨_, rfl, ht⟩
      · rename_i href
        cases h
        have hshared : cfg.shared c = true := by
          by_contra hfalse
          exact href (hone.mpr (by simpa using hfalse))
        exact ⟨_, rfl, hi.goOn hcall (by simp) rfl rfl (by simp [owes, hshared])
          (plain_of_quiet hquiet) hfits⟩
    | store d =>
      obtain ⟨r, rfl, hcount, ht⟩ := hi.store hcall
      cases h
      rw [store_ok hcount]
      exact ⟨_, rfl, ht⟩
    | setResult d =>
      cases h
      exact ⟨_, rfl, hi.setResult hcall⟩
    | finish d =>
      dsimp only at h
      split at h
      · cases h
        obtain ⟨hplain, hfits⟩ := hr.fits
        exact ⟨_, rfl, hi.goOn hcall (by simp) rfl rfl rfl hplain hfits⟩
      · cases h
    | ret =>
      obtain ⟨t, hleave, ht⟩ := hi.ret hcall
      rw [hleave] at h
      cases h
      exact ⟨_, rfl, ht⟩
  · cases h

end Yaclib.SharedCore
