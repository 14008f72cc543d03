import Yaclib.Algo.SharedCore.Handles

/-!
How a call begins: a callback is put in the list of its core, or its caller runs it, and the
reference of the future goes over to a call that needs one.
-/

namespace Yaclib.SharedCore

open Concurrency

variable {κ φ ν ρ : Type} {cfg : Config κ ν} {s t : State κ φ ν ρ} {c d : κ} {f g : φ} {m j : ν}
  {caller : Caller φ} {body : Call κ φ ρ} {script rest : List (Act κ)} {ref : Nat}
  {value : Option ρ} {shared : Bool} {k : Kind κ} {mode : Mode}

/-! The first scripts. -/

theorem plain_refused : Plain (refused shared k) := by
  intro mode rest h
  cases k <;> cases shared <;> simp [refused, here] at h <;> simp [← h.1]

/-- A callback that connects a core stores its result, and then sets it. -/
theorem here_stores (h : k = .connect d) :
    (here shared k).any Act.stores = true ∧ (here shared k).any Act.sets = true := by
  subst h
  simp [here, Act.stores, Act.sets]

theorem refused_stores (h : k = .connect d) :
    (refused shared k).any Act.stores = true ∧ (refused shared k).any Act.sets = true := by
  subst h
  cases shared <;> simp [refused, Act.stores, Act.sets]

theorem not_decRefIfOne_refused : .decRefIfOne ∉ refused shared k := by
  cases k <;> cases shared <;> simp [refused, here]

theorem not_decRefIfOne_take (hk : k = .get ∨ k = .await) : .decRefIfOne ∉ here shared k := by
  rcases hk with rfl | rfl <;> cases shared <;> simp [here]

theorem owes_take (hk : k = .get ∨ k = .await) :
    owes shared (here shared k) = consumes shared k := by
  rcases hk with rfl | rfl <;> cases shared <;> rfl

theorem plain_here : Plain (here shared k) := by
  intro mode rest h
  cases k <;> cases shared <;> simp [here] at h <;> simp [← h.1]

/-- `Retire` gives a reference back only after it has loaded the count. -/
theorem getRef_of_decRefIfOne (h : .decRefIfOne ∈ here shared k) : .getRef ∈ here shared k := by
  cases k <;> cases shared <;> simp [here] at h ⊢

/-- Of a unique core there is one user. -/
theorem Owners.sole (ho : Owners cfg s) (hl : Links cfg s) (hunique : cfg.shared c = false)
    (hm : Uses cfg s m c) : Sole cfg s c m where
  holds := by
    rintro (f | j) hx
    · exact absurd hm (ho.apart c f m hunique hx)
    · rw [ho.calls c j m hunique (uses_of_holds hx) hm]
  held := by
    intro j hj
    apply ho.calls c j m hunique _ hm
    rcases (hl.mem c j).mp hj with hlisted | ⟨script, ref, value, hrunning⟩
    · exact ⟨_, by rw [hlisted]; rfl⟩
    · exact uses_running hrunning

/-! The owners. -/

/-- What the beginning of a call that connects relies on. -/
def Targets (cfg : Config κ ν) (s : State κ φ ν ρ) (m : ν) (c : κ) : Prop :=
  ∀ d, cfg.kind m = .connect d → s.promise d = .connected ∧ s.slot d = .empty ∧
    s.stored d = none ∧ s.source d = some c ∧ ∀ j, cfg.kind j = .connect d → s.call j = .idle

/-- A promise that a call took is not held any more. -/
theorem Inv.idle_of_held (hi : Inv cfg s) (hkind : cfg.kind m = .connect d)
    (hheld : s.promise d = .held) : s.call m = .idle := by
  by_contra hidle
  have hpending : ∃ c script, pending cfg m (s.call m) = some (c, script) := by
    cases hcall : s.call m with
    | idle => exact absurd hcall hidle
    | listed c => exact ⟨c, _, rfl⟩
    | running c caller script ref value => exact ⟨c, script, rfl⟩
  obtain ⟨c, script, hpending⟩ := hpending
  have hc := hi.calls.connecting m d c script hkind hpending
  cases hstores : script.any Act.stores with
  | true =>
    have hconnected := (hc.before hstores).1
    rw [hheld] at hconnected
    cases hconnected
  | false =>
    cases hsets : script.any Act.sets with
    | true =>
      have hconnected := (hc.between hstores hsets).1
      rw [hheld] at hconnected
      cases hconnected
    | false =>
      have hafter := hc.after hsets
      rw [hheld] at hafter
      simp at hafter

/-- The promise of `d` goes from one state to another, and no other state changes. -/
theorem promise_update_iff [DecidableEq κ] {p before after : Promise} (h : s.promise d = before)
    (hbefore : p ≠ before) (hafter : p ≠ after) (e : κ) :
    Function.update s.promise d after e = p ↔ s.promise e = p := by
  by_cases he : e = d
  · subst he
    rw [h, Function.update_self]
    exact iff_of_false hafter.symm hbefore.symm
  · rw [Function.update_of_ne he]

/-- The promise of a core is given to the call that connects it, before anything is stored.
-/
theorem Inv.connect [DecidableEq κ] (hi : Inv cfg s) (hheld : s.promise d = .held) :
    Inv cfg (connect s c (some d)) := by
  have hpromise : ∀ e (p : Promise), p ≠ .held → p ≠ .connected →
      ((SharedCore.connect s c (some d)).promise e = p ↔ s.promise e = p) := by
    intro e p hne hne'
    exact promise_update_iff hheld hne hne' e
  have hother : ∀ e, e ≠ d → (SharedCore.connect s c (some d)).promise e = s.promise e ∧
      (SharedCore.connect s c (some d)).source e = s.source e := by
    intro e he
    simp [SharedCore.connect, setPromise, he]
  have hshare : ∀ e, share cfg (SharedCore.connect s c (some d)) e = share cfg s e :=
    fun e => share_congr (hpromise e .none (by decide) (by decide)) rfl
  have hunset := hi.results.unset d (.inr hheld)
  refine ⟨⟨hi.links.sound, hi.links.nodup, hi.links.mem, hi.links.hand, hi.links.attached, ?_⟩,
    ⟨hi.given.le, hi.given.unique, hi.given.early⟩, ⟨?_, ?_, hi.results.full, ?_⟩,
    ⟨?_, ?_, ?_, hi.owners.futures, hi.owners.calls, hi.owners.apart⟩, ⟨?_, ?_, hi.calls.targets⟩,
    ?_, ?_, ⟨?_, hi.once.runs⟩⟩
  · intro e
    rw [hpromise e .given (by decide) (by decide)]
    exact hi.links.walk e
  · intro e he
    apply hi.results.unset e
    by_cases hed : e = d
    · subst hed
      exact .inr hheld
    · rwa [(hother e hed).1] at he
  · intro e
    rw [hpromise e .given (by decide) (by decide), hpromise e .stored (by decide) (by decide)]
    exact hi.results.set e
  · intro e he
    have hs := hi.results.moved e he
    exact ⟨(hpromise e .given (by decide) (by decide)).mpr hs.given, hs.futures, hs.calls⟩
  · intro e
    rw [hshare]
    exact hi.owners.counted e
  · intro e
    rw [hpromise e .none (by decide) (by decide)]
    exact hi.owners.made e
  · intro e hunique
    rw [ne_eq, ne_eq, hpromise e .none (by decide) (by decide),
      hpromise e .given (by decide) (by decide)]
    exact hi.owners.early e hunique
  · intro j e caller script ref value hcall
    have hr := hi.calls.running j e caller script ref value hcall
    exact ⟨(hpromise e .given (by decide) (by decide)).mpr hr.given, hr.fits, hr.user,
      fun mode rest hscript hmoves => ⟨(hr.sole mode rest hscript hmoves).holds,
        (hr.sole mode rest hscript hmoves).held⟩, hr.one, hr.value⟩
  · intro j e b script hkind hpending
    have he : e ≠ d := by
      rintro rfl
      have hidle : s.call j = .idle := hi.idle_of_held hkind hheld
      have hpending' : pending cfg j (s.call j) = some (b, script) := hpending
      rw [hidle] at hpending'
      cases hpending'
    have hc := hi.calls.connecting j e b script hkind hpending
    obtain ⟨hsame, hsource⟩ := hother e he
    exact ⟨hsource.trans hc.source, by rw [hsame]; exact hc.before, by rw [hsame]; exact hc.between,
      by rw [hsame]; exact hc.after, hc.copied⟩
  · intro e r hr
    refine Derived.mono (s := s) ?_ (fun _ _ h => h) (hi.derived e r hr)
    intro b r' hr'
    have hb : b ≠ d := by
      rintro rfl
      rw [hunset.2] at hr'
      cases hr'
    exact (hother b hb).2
  · intro e he
    by_cases hed : e = d
    · subst hed
      simp [SharedCore.connect, setPromise] at he
    · obtain ⟨hsame, hsource⟩ := hother e hed
      rw [hsame] at he
      rw [hsource]
      exact hi.sources e he
  · intro e
    simp only [ne_eq, hpromise e .none (by decide) (by decide)]
    exact hi.once.deleted e

theorem Inv.targets_connect [DecidableEq κ] (hi : Inv cfg s)
    (hheld : ∀ d ∈ (cfg.kind m).target, s.promise d = .held) :
    Inv cfg (SharedCore.connect s c (cfg.kind m).target) ∧
      Targets cfg (SharedCore.connect s c (cfg.kind m).target) m c := by
  cases htarget : (cfg.kind m).target with
  | none =>
    refine ⟨hi, ?_⟩
    intro d hd
    rw [hd] at htarget
    cases htarget
  | some d =>
    have hd := hheld d htarget
    refine ⟨hi.connect hd, ?_⟩
    intro e he
    rw [he] at htarget
    obtain rfl : e = d := Option.some.inj htarget
    obtain ⟨hslot, hstored⟩ := hi.results.unset e (.inr hd)
    exact ⟨by simp [SharedCore.connect, setPromise], hslot, hstored,
      by simp [SharedCore.connect, setPromise], fun j hj => hi.idle_of_held hj hd⟩

@[simp] theorem connect_cores [DecidableEq κ]
    (o : Option κ) : (SharedCore.connect s c o).cores = s.cores := by
  cases o <;> rfl

@[simp] theorem connect_call [DecidableEq κ]
    (o : Option κ) : (SharedCore.connect s c o).call = s.call := by
  cases o <;> rfl

@[simp] theorem connect_future [DecidableEq κ]
    (o : Option κ) : (SharedCore.connect s c o).future = s.future := by
  cases o <;> rfl

@[simp] theorem connect_users [DecidableEq κ]
    (o : Option κ) : (SharedCore.connect s c o).users = s.users := by
  cases o <;> rfl

/-- As long as a future is there, `SetCallback` fails only if there is a result. -/
theorem Inv.given_of_refused (hi : Inv cfg s) (hf : s.future f = some c)
    (h : accepts (cfg.shared c) (s.cores.callback c) = false) : s.promise c = .given := by
  cases hcallback : s.cores.callback c with
  | kResult => exact hi.callback_iff.mp hcallback
  | ptr p =>
    rw [hcallback] at h
    cases hshared : cfg.shared c with
    | true => simp [accepts, hshared] at h
    | false =>
      cases p with
      | none => simp [accepts] at h
      | some j =>
        have hheld := (hi.links.sound c).held_unique hshared hcallback
        have hj : j ∈ s.cores.held c := by simp [hheld]
        have huses : Uses cfg s j c := by
          rcases (hi.links.mem c j).mp hj with hlisted | ⟨script, ref, value, hrunning⟩
          · exact ⟨_, by rw [hlisted]; rfl⟩
          · exact uses_running hrunning
        exact absurd huses (hi.owners.apart c f j hshared hf)

variable [DecidableEq φ]

/-! A call takes the promise of the core it connects to. -/

variable [DecidableEq ν]

/-- The call `m` begins with the core `c`, and takes over the reference of a future or needs
none. -/
structure Begin (cfg : Config κ ν) (s t : State κ φ ν ρ) (m : ν) (c : κ) (body : Call κ φ ρ)
    (script : List (Act κ)) : Prop where
  idle : s.call m = .idle
  call : t.call = Function.update s.call m body
  pending : SharedCore.pending cfg m body = some (c, script)
  made : s.promise c ≠ .none
  open_ : s.promise c ≠ .given ∨ ∃ f, s.future f = some c
  future : (∃ f, s.future f = some c ∧ s.users f = [] ∧ t.future = Function.update s.future f none ∧
      owes (cfg.shared c) script = true) ∨
    (t.future = s.future ∧ cfg.shared c = true ∧ owes (cfg.shared c) script = false)
  count : t.count = s.count
  promise : t.promise = s.promise
  given : t.given = s.given
  slot : t.slot = s.slot
  stored : t.stored = s.stored
  source : t.source = s.source
  deleted : t.deleted = s.deleted
  users : ∀ f i, i ∈ s.users f → i ∈ t.users f

namespace Begin

variable (h : Begin cfg s t m c body script)

include h

theorem call_self : t.call m = body := by
  rw [h.call, Function.update_self]

theorem call_other (hj : j ≠ m) : t.call j = s.call j := by
  rw [h.call, Function.update_of_ne hj]

/-- The call that begins is the only new user of its core. -/
theorem uses_iff : Uses cfg t j d ↔ Uses cfg s j d ∨ j = m ∧ d = c := by
  by_cases hj : j = m
  · subst hj
    rw [Uses, Uses, h.call_self, h.pending, h.idle]
    constructor
    · rintro ⟨more, hmore⟩
      cases hmore
      exact .inr ⟨rfl, rfl⟩
    · rintro (⟨more, hmore⟩ | ⟨-, rfl⟩)
      · cases hmore
      · exact ⟨script, rfl⟩
  · rw [Uses, Uses, h.call_other hj]
    simp [hj]

theorem future_iff : t.future g = some d →
    s.future g = some d := by
  intro hg
  rcases h.future with ⟨f, -, -, hfuture, -⟩ | ⟨hfuture, -⟩
  · rw [hfuture] at hg
    by_cases hgf : g = f
    · subst hgf
      rw [Function.update_self] at hg
      cases hg
    · rwa [Function.update_of_ne hgf] at hg
  · rwa [hfuture] at hg

theorem holds_inr : Holds cfg t d (.inr j) ↔
    Holds cfg s d (.inr j) ∨ (d = c ∧ owes (cfg.shared c) script = true) ∧ j = m := by
  by_cases hj : j = m
  · subst hj
    have hnot : ¬ Holds cfg s d (.inr j) := not_holds_idle h.idle
    rw [Holds, h.call_self, h.pending]
    constructor
    · rintro ⟨more, hmore, howes⟩
      cases hmore
      exact .inr ⟨⟨rfl, howes⟩, rfl⟩
    · rintro (hold | ⟨⟨rfl, howes⟩, -⟩)
      · exact absurd hold hnot
      · exact ⟨script, rfl, howes⟩
  · rw [Holds, Holds, h.call_other hj]
    simp [hj]

/-- Somebody else that holds a reference after held it before. -/
theorem holds_of {x : φ ⊕ ν} (hx : Holds cfg t d x) : Holds cfg s d x ∨ x = .inr m ∧ d = c := by
  cases x with
  | inl g => exact .inl (h.future_iff hx)
  | inr j =>
    rcases h.holds_inr.mp hx with hold | ⟨⟨hd, -⟩, rfl⟩
    · exact .inl hold
    · exact .inr ⟨rfl, hd⟩

/-- The reference of the future goes over to the call, or the call takes none. -/
theorem counted (hi : Inv cfg s) (d : κ) :
    ∃ n, Counts (Holds cfg t d) n ∧ t.count d = n + share cfg t d := by
  obtain ⟨n, hn, hcount⟩ := hi.owners.counted d
  have hshare : share cfg t d = share cfg s d := by simp only [share, h.promise, h.given]
  refine ⟨n, ?_, ?_⟩
  · rcases h.future with ⟨f, hf, -, hfuture, howes⟩ | ⟨hfuture, -, howes⟩
    · by_cases hd : d = c
      · subst hd
        have hholds : Holds cfg s d (.inl f) := hf
        refine hn.exchange (not_holds_idle h.idle) hholds ?_
        rintro (g | j)
        · simp only [Holds, hfuture, Sum.inl.injEq, ne_eq, reduceCtorEq, or_false]
          by_cases hg : g = f
          · simp [hg]
          · simp [hg]
        · rw [h.holds_inr]
          simp [howes]
      · refine hn.congr ?_
        rintro (g | j)
        · simp only [Holds, hfuture]
          by_cases hg : g = f
          · subst hg
            rw [Function.update_self, hf]
            simp [Ne.symm hd]
          · rw [Function.update_of_ne hg]
        · rw [h.holds_inr]
          simp [hd]
    · refine hn.congr ?_
      rintro (g | j)
      · simp only [Holds, hfuture]
      · rw [h.holds_inr]
        simp [howes]
  · rw [h.count, hshare]
    exact hcount

theorem owners (hi : Inv cfg s) : Owners cfg t where
  counted := h.counted hi
  made := by
    intro d hnone
    rw [h.promise] at hnone
    obtain ⟨hfutures, hcalls⟩ := hi.owners.made d hnone
    refine ⟨fun g hg => hfutures g (h.future_iff hg), ?_⟩
    intro j hj
    rcases h.uses_iff.mp hj with hold | ⟨-, rfl⟩
    · exact hcalls j hold
    · exact h.made hnone
  early := by
    intro d hunique hmade hgiven
    rw [h.promise] at hmade hgiven
    rw [h.count]
    exact hi.owners.early d hunique hmade hgiven
  futures := fun d g g' hunique hg hg' =>
    hi.owners.futures d g g' hunique (h.future_iff hg) (h.future_iff hg')
  calls := by
    intro d i j hunique hi' hj
    rcases h.future with ⟨f, hf, -⟩ | ⟨-, hshared, -⟩
    · rcases h.uses_iff.mp hi' with hold | ⟨rfl, rfl⟩
      · rcases h.uses_iff.mp hj with hold' | ⟨-, rfl⟩
        · exact hi.owners.calls d i j hunique hold hold'
        · exact absurd hold (hi.owners.apart d f i hunique hf)
      · rcases h.uses_iff.mp hj with hold' | ⟨rfl, -⟩
        · exact absurd hold' (hi.owners.apart d f j hunique hf)
        · rfl
    · have hd : d ≠ c := by
        rintro rfl
        rw [hshared] at hunique
        cases hunique
      have hold : ∀ i, Uses cfg t i d → Uses cfg s i d := by
        intro i hi'
        rcases h.uses_iff.mp hi' with hold | ⟨-, hdc⟩
        · exact hold
        · exact absurd hdc hd
      exact hi.owners.calls d i j hunique (hold i hi') (hold j hj)
  apart := by
    intro d g j hunique hg hj
    have hg' := h.future_iff hg
    rcases h.uses_iff.mp hj with hold | ⟨rfl, rfl⟩
    · exact hi.owners.apart d g j hunique hg' hold
    · rcases h.future with ⟨f, hf, -, hfuture, -⟩ | ⟨-, hshared, -⟩
      · have hgf := hi.owners.futures d g f hunique hg' hf
        subst hgf
        rw [hfuture, Function.update_self] at hg
        cases hg
      · rw [hshared] at hunique
        cases hunique

/-- The call that reads last is not joined by another one. -/
theorem sole_other (hs : Sole cfg s d j)
    (hheld : t.cores.held d = s.cores.held d) : Sole cfg t d j where
  holds := by
    intro x hx
    rcases h.holds_of hx with hold | ⟨rfl, rfl⟩
    · exact hs.holds x hold
    · rcases h.future with ⟨f, hf, -⟩ | ⟨-, -, howes⟩
      · have heq := hs.holds (.inl f) hf
        cases heq
      · rcases h.holds_inr.mp hx with hold | ⟨⟨-, hyes⟩, -⟩
        · exact hs.holds _ hold
        · rw [howes] at hyes
          cases hyes
  held := by
    rw [hheld]
    exact hs.held

theorem spent (hs : Spent cfg s d) : Spent cfg t d where
  given := by
    rw [h.promise]
    exact hs.given
  futures := fun g hg => hs.futures g (h.future_iff hg)
  calls := by
    intro j script' hpending
    by_cases hj : j = m
    · subst hj
      rw [h.call_self, h.pending] at hpending
      cases hpending
      rcases h.open_ with hne | ⟨f, hf⟩
      · exact absurd hs.given hne
      · exact absurd hf (hs.futures f)
    · rw [h.call_other hj] at hpending
      exact hs.calls j script' hpending

theorem running_other (hheld : ∀ d, s.promise d = .given → t.cores.held d = s.cores.held d)
    (hr : Running cfg s j d caller rest ref value) : Running cfg t j d caller rest ref value where
  given := by
    rw [h.promise]
    exact hr.given
  fits := hr.fits
  user := by
    intro g hg
    obtain ⟨hshared, hfuture, hmem⟩ := hr.user g hg
    refine ⟨hshared, ?_, h.users g j hmem⟩
    rcases h.future with ⟨f, -, husers, hupdate, -⟩ | ⟨hsame, -⟩
    · have hgf : g ≠ f := by
        rintro rfl
        rw [husers] at hmem
        cases hmem
      rw [hupdate, Function.update_of_ne hgf]
      exact hfuture
    · rwa [hsame]
  sole := fun mode more hscript hmoves =>
    h.sole_other (hr.sole mode more hscript hmoves) (hheld d hr.given)
  one := hr.one
  value := by
    rw [h.stored]
    exact hr.value

theorem connecting_iff : Connecting cfg t j d c rest ↔ Connecting cfg s j d c rest := by
  constructor
  · intro hc
    exact ⟨by rw [← h.source]; exact hc.source,
      by rw [← h.promise, ← h.slot, ← h.stored]; exact hc.before,
      by rw [← h.promise, ← h.slot]; exact hc.between,
      by rw [← h.promise]; exact hc.after, by rw [← h.stored]; exact hc.copied⟩
  · intro hc
    exact ⟨by rw [h.source]; exact hc.source,
      by rw [h.promise, h.slot, h.stored]; exact hc.before,
      by rw [h.promise, h.slot]; exact hc.between,
      by rw [h.promise]; exact hc.after, by rw [h.stored]; exact hc.copied⟩

end Begin

theorem Begin.connecting (h : Begin cfg s t m c body script) (hi : Inv cfg s)
    (htargets : Targets cfg s m c)
    (hstores : ∀ d, cfg.kind m = .connect d →
      script.any Act.stores = true ∧ script.any Act.sets = true) {b : κ}
    (hkind : cfg.kind j = .connect d)
    (hpending : SharedCore.pending cfg j (t.call j) = some (b, rest)) :
    Connecting cfg t j d b rest := by
  by_cases hj : j = m
  · subst hj
    rw [h.call_self, h.pending] at hpending
    cases hpending
    obtain ⟨hpromise, hslot, hstored, hsource, -⟩ := htargets d hkind
    obtain ⟨hyes, hsets⟩ := hstores d hkind
    refine h.connecting_iff.mpr ⟨hsource, fun _ => ⟨hpromise, hslot, hstored⟩, ?_, ?_, ?_⟩
    · intro hno
      rw [hyes] at hno
      cases hno
    · intro hno
      rw [hsets] at hno
      cases hno
    · intro hno
      rw [hyes] at hno
      cases hno
  · rw [h.call_other hj] at hpending
    have hc := hi.calls.connecting j d b rest hkind hpending
    exact ⟨by rw [h.source]; exact hc.source,
      by rw [h.promise, h.slot, h.stored]; exact hc.before,
      by rw [h.promise, h.slot]; exact hc.between,
      by rw [h.promise]; exact hc.after, by rw [h.stored]; exact hc.copied⟩

theorem Begin.targets (h : Begin cfg s t m c body script) (hi : Inv cfg s)
    (htargets : Targets cfg s m c) (i j : ν) (d : κ) (hi' : cfg.kind i = .connect d)
    (hj : cfg.kind j = .connect d) (hidle : t.call i ≠ .idle) (hidle' : t.call j ≠ .idle) :
    i = j := by
  by_cases him : i = m
  · subst him
    by_cases hji : j = i
    · exact hji.symm
    · rw [h.call_other hji] at hidle'
      exact absurd ((htargets d hi').2.2.2.2 j hj) hidle'
  · rw [h.call_other him] at hidle
    by_cases hjm : j = m
    · subst hjm
      exact absurd ((htargets d hj).2.2.2.2 i hi') hidle
    · rw [h.call_other hjm] at hidle'
      exact hi.calls.targets i j d hi' hj hidle hidle'

/-- The parts that do not depend on how the call begins. -/
theorem Begin.inv (h : Begin cfg s t m c body script) (hi : Inv cfg s)
    (htargets : Targets cfg s m c)
    (hstores : ∀ d, cfg.kind m = .connect d →
      script.any Act.stores = true ∧ script.any Act.sets = true)
    (hlinks : Links cfg t) (hwalk : t.cores.walk = s.cores.walk)
    (hheld : ∀ d, s.promise d = .given → t.cores.held d = s.cores.held d)
    (hrunning : ∀ b caller script ref value, body = .running b caller script ref value →
      Running cfg t m b caller script ref value)
    (hruns : t.runs = Function.update s.runs m (s.runs m + match body with
      | .running .. => 1
      | _ => 0)) : Inv cfg t where
  links := hlinks
  given :=
    { le := by
        rw [h.given]
        exact hi.given.le
      unique := by
        rw [h.given]
        exact hi.given.unique
      early := by
        rw [h.given, hwalk]
        exact hi.given.early }
  results :=
    { unset := by
        rw [h.promise, h.slot, h.stored]
        exact hi.results.unset
      set := by
        rw [h.promise, h.slot]
        exact hi.results.set
      full := by
        rw [h.slot, h.stored]
        exact hi.results.full
      moved := by
        rw [h.slot]
        exact fun d hd => h.spent (hi.results.moved d hd) }
  owners := h.owners hi
  calls :=
    { running := by
        intro j b caller script' ref value hcall
        by_cases hj : j = m
        · subst hj
          rw [h.call_self] at hcall
          exact hrunning b caller script' ref value hcall
        · rw [h.call_other hj] at hcall
          exact h.running_other hheld (hi.calls.running j b caller script' ref value hcall)
      connecting := fun j d b rest hkind hpending =>
        h.connecting hi htargets hstores hkind hpending
      targets := h.targets hi htargets }
  derived := by
    intro d r hr
    rw [h.stored] at hr
    refine Derived.mono (s := s) ?_ ?_ (hi.derived d r hr)
    · intro _ _ _
      rw [h.source]
    · intro _ _ hr'
      rwa [h.stored]
  sources := by
    rw [h.promise, h.source]
    exact hi.sources
  once :=
    { deleted := by
        rw [h.promise, h.count, h.deleted]
        exact hi.once.deleted
      runs := by
        intro j
        rw [hruns]
        by_cases hj : j = m
        · subst hj
          have hzero := hi.once.runs j
          rw [h.idle] at hzero
          rw [Function.update_self, h.call_self, hzero, Nat.zero_add]
          cases body <;> rfl
        · rw [Function.update_of_ne hj, h.call_other hj]
          exact hi.once.runs j }

/-- The call is run by the thread that made it. -/
theorem Inv.serve (hi : Inv cfg s) (hidle : s.call m = .idle) (htargets : Targets cfg s m c)
    (hstores : ∀ d, cfg.kind m = .connect d →
      script.any Act.stores = true ∧ script.any Act.sets = true)
    (hf : s.future f = some c)
    (husers : consumes (cfg.shared c) (cfg.kind m) = true → s.users f = [])
    (hshared : consumes (cfg.shared c) (cfg.kind m) = false → cfg.shared c = true)
    (hgiven : s.promise c = .given)
    (howes : owes (cfg.shared c) script = consumes (cfg.shared c) (cfg.kind m))
    (hfits : Fits (cfg.shared c) (cfg.kind m).target
      (if consumes (cfg.shared c) (cfg.kind m) then .self else .user f) false script)
    (hplain : Plain script) (hone : .decRefIfOne ∉ script) :
    Inv cfg (SharedCore.serve cfg s m f c script) := by
  obtain ⟨caller, hcaller, hbody, hcores, hruns⟩ : ∃ caller : Caller φ,
      caller = (if consumes (cfg.shared c) (cfg.kind m) then .self else .user f) ∧
      (SharedCore.serve cfg s m f c script).call =
        Function.update s.call m (.running c caller script 0 none) ∧
      (SharedCore.serve cfg s m f c script).cores = s.cores ∧
      (SharedCore.serve cfg s m f c script).runs = Function.update s.runs m (s.runs m + 1) := by
    refine ⟨_, rfl, ?_, ?_, ?_⟩ <;>
      cases hconsumes : consumes (cfg.shared c) (cfg.kind m) <;>
        simp [SharedCore.serve, hconsumes, setCall, setFuture]
  have hb : Begin cfg s (SharedCore.serve cfg s m f c script) m c (.running c caller script 0 none)
      script := by
    have hmade := hi.made_of_future hf
    cases hconsumes : consumes (cfg.shared c) (cfg.kind m) with
    | true =>
      refine ⟨hidle, hbody, rfl, hmade, .inr ⟨f, hf⟩,
        .inl ⟨f, hf, husers hconsumes, ?_, howes.trans hconsumes⟩, ?_, ?_, ?_, ?_, ?_, ?_, ?_, ?_⟩ <;>
        simp [SharedCore.serve, hconsumes, setCall, setFuture]
    | false =>
      refine ⟨hidle, hbody, rfl, hmade, .inr ⟨f, hf⟩,
        .inr ⟨?_, hshared hconsumes, howes.trans hconsumes⟩, ?_, ?_, ?_, ?_, ?_, ?_, ?_, ?_⟩ <;>
        simp [SharedCore.serve, hconsumes, setCall]
      intro g i hmem
      by_cases hg : g = f
      · subst hg
        simp [hmem]
      · simpa [hg] using hmem
  have hlinks : Links cfg (SharedCore.serve cfg s m f c script) := by
    have hne : ∀ d j, (SharedCore.serve cfg s m f c script).call j = .listed d →
        s.call j = .listed d := by
      intro d j hcall
      by_cases hj : j = m
      · subst hj
        rw [hb.call_self] at hcall
        cases hcall
      · rwa [hb.call_other hj] at hcall
    refine ⟨?_, ?_, ?_, ?_, ?_, ?_⟩
    · rw [hcores]
      exact hi.links.sound
    · rw [hcores]
      exact hi.links.nodup
    · intro d j
      rw [hcores]
      by_cases hj : j = m
      · subst hj
        rw [hb.call_self, hi.links.mem, hidle, hcaller]
        cases consumes (cfg.shared c) (cfg.kind j) <;> simp
      · rw [hb.call_other hj]
        exact hi.links.mem d j
    · intro d j script' ref value hcall
      rw [hcores]
      by_cases hj : j = m
      · subst hj
        rw [hb.call_self, hcaller] at hcall
        cases hconsumes : consumes (cfg.shared c) (cfg.kind j) <;>
          simp [hconsumes] at hcall
      · rw [hb.call_other hj] at hcall
        exact hi.links.hand d j script' ref value hcall
    · intro d j hcall
      exact hi.links.attached d j (hne d j hcall)
    · intro d
      rw [hb.promise, hcores]
      exact hi.links.walk d
  refine hb.inv hi htargets hstores hlinks (by rw [hcores]) (fun d _ => by rw [hcores]) ?_ ?_
  · intro b caller' script' ref value hrun
    cases hrun
    refine ⟨?_, ?_, ?_, ?_, fun hmem => absurd hmem hone, fun r hr => by cases hr⟩
    · rw [hb.promise]
      exact hgiven
    · rw [hcaller]
      exact hfits
    · intro g hg
      rw [hcaller] at hg
      cases hconsumes : consumes (cfg.shared c) (cfg.kind m) with
      | true =>
        rw [hconsumes] at hg
        cases hg
      | false =>
        rw [hconsumes] at hg
        cases hg
        refine ⟨hshared hconsumes, ?_, ?_⟩ <;>
          simp [SharedCore.serve, hconsumes, setCall, hf]
    · intro mode rest hscript hmoves
      rcases hplain mode rest hscript with rfl | rfl
      · cases hmoves
      · rw [hscript] at hfits
        have hunique : cfg.shared c = false := hfits.2.1.1
        exact (hb.owners hi).sole hlinks hunique (hb.uses_iff.mpr (.inr ⟨rfl, rfl⟩))
  · rw [hruns]

theorem shared_of_borrowed (h : attachable shared k = true)
    (hconsumes : consumes shared k = false) :
    shared = true := by
  cases k <;> cases shared <;> simp [attachable, consumes] at h hconsumes ⊢

variable [DecidableEq κ]

/-! The steps. -/

/-- The callback is put in front of the list. -/
theorem Inv.enlist (hi : Inv cfg s) (hidle : s.call m = .idle) (htargets : Targets cfg s m c)
    (hattachable : attachable (cfg.shared c) (cfg.kind m) = true)
    (hword : accepts (cfg.shared c) (s.cores.callback c) = true) {u : State κ φ ν ρ}
    (hb : Begin cfg s (SharedCore.enlist u m c) m c (.listed c)
      (here (cfg.shared c) (cfg.kind m)))
    (hcores : u.cores = s.cores) (hruns : u.runs = s.runs) :
    Inv cfg (SharedCore.enlist u m c) := by
  obtain ⟨p, hp, haccepts⟩ : ∃ p, s.cores.callback c = .ptr p ∧
      (cfg.shared c = true ∨ p = none) := by
    cases hcallback : s.cores.callback c with
    | kResult =>
      rw [hcallback] at hword
      cases hword
    | ptr p =>
      rw [hcallback] at hword
      refine ⟨p, rfl, ?_⟩
      simpa [accepts] using hword
  have hfresh : ∀ d, m ∉ s.cores.held d := by
    intro d hm
    rcases (hi.links.mem d m).mp hm with hlisted | ⟨script, ref, value, hrunning⟩
    · rw [hidle] at hlisted
      cases hlisted
    · rw [hidle] at hrunning
      cases hrunning
  have hcores' : (SharedCore.enlist u m c).cores = (s.cores.link m p).attach c m := by
    simp only [SharedCore.enlist, setCall, hcores, hp, Callback.toPtr_ptr]
  have hheld : ∀ d, (SharedCore.enlist u m c).cores.held d =
      if d = c then m :: s.cores.held c else s.cores.held d := by
    intro d
    rw [hcores']
    by_cases hd : d = c
    · subst hd
      simp [Callbacks.attach, Callbacks.link]
    · simp [Callbacks.attach, Callbacks.link, hd]
  have hungiven : s.promise c ≠ .given := by
    intro hgiven
    rw [hi.callback_iff.mpr hgiven] at hp
    cases hp
  refine hb.inv hi htargets (fun d hd => here_stores hd) ?_ ?_ ?_ ?_ ?_
  · refine ⟨?_, ?_, ?_, ?_, ?_, ?_⟩
    · intro d
      rw [hcores']
      have hlinked : ∀ e, Callbacks.Sound cfg.shared (s.cores.link m p) e :=
        fun e => (hi.links.sound e).link fun _ => hfresh e
      by_cases hd : d = c
      · subst hd
        refine (hlinked d).attach hp ?_
        cases hshared : cfg.shared d with
        | true => simp [Callbacks.links, Callbacks.link, hshared]
        | false =>
          rw [hshared] at haccepts
          simpa [Callbacks.links, hshared, eq_comm] using haccepts
      · exact (hlinked d).attach_other hd
    · intro d
      rw [hheld]
      by_cases hd : d = c
      · subst hd
        simp [hfresh, hi.links.nodup]
      · simpa [hd] using hi.links.nodup d
    · intro d j
      rw [hheld]
      by_cases hj : j = m
      · subst hj
        rw [hb.call_self]
        by_cases hd : d = c
        · simp [hd]
        · simp [hd, hfresh, Ne.symm hd]
      · rw [hb.call_other hj]
        by_cases hd : d = c
        · subst hd
          simpa [hj] using hi.links.mem d j
        · simpa [hd] using hi.links.mem d j
    · intro d j script ref value hcall
      have hj : j ≠ m := by
        rintro rfl
        rw [hb.call_self] at hcall
        cases hcall
      rw [hb.call_other hj] at hcall
      rw [hcores']
      exact hi.links.hand d j script ref value hcall
    · intro d j hcall
      by_cases hj : j = m
      · subst hj
        rw [hb.call_self] at hcall
        cases hcall
        exact hattachable
      · rw [hb.call_other hj] at hcall
        exact hi.links.attached d j hcall
    · intro d
      rw [hb.promise, hcores']
      exact hi.links.walk d
  · rw [hcores']
    rfl
  · intro d hd
    have hdc : d ≠ c := by
      rintro rfl
      exact hungiven hd
    rw [hheld, if_neg hdc]
  · intro b caller script ref value hbody
    cases hbody
  · change u.runs = _
    rw [hruns]
    simp

/-- Attaching meets no undefined behaviour, whether the result is there or not. -/
theorem Inv.attach (hi : Inv cfg s) {y : Except Fault (State κ φ ν ρ)}
    (h : attach cfg s m f = some y) : ∃ t, y = .ok t ∧ Inv cfg t := by
  rw [SharedCore.attach] at h
  split at h
  · rename_i c hidle hf
    dsimp only at h
    split at h
    · rename_i hc
      obtain ⟨hattachable, htarget, husers⟩ := hc
      cases h
      have hcount := hi.count_ne_zero (x := .inl f) hf
      obtain ⟨hi', htargets⟩ := hi.targets_connect (m := m) (c := c) fun d hd => (htarget d hd).1
      have hcheck : check s c = .ok () := by simp [check, hcount]
      rw [hcheck]
      change ∃ t, (if accepts _ _ = true then Except.ok _ else Except.ok _) = Except.ok t ∧ _
      have hf' : (SharedCore.connect s c (cfg.kind m).target).future f = some c := by
        rw [connect_future]
        exact hf
      cases haccepts : accepts (cfg.shared c) (s.cores.callback c) with
      | true =>
        rw [connect_cores, haccepts, if_pos rfl]
        refine ⟨_, rfl, hi'.enlist (by rw [connect_call]; exact hidle) htargets hattachable
          (by rw [connect_cores]; exact haccepts) ?_ ?_ ?_⟩
        · have hmade := hi'.made_of_future hf'
          cases hconsumes : consumes (cfg.shared c) (cfg.kind m) with
          | true =>
            rw [if_pos rfl]
            exact ⟨by rw [connect_call]; exact hidle, rfl, rfl, hmade, .inr ⟨f, hf'⟩,
              .inl ⟨f, hf', by rw [connect_users]; exact husers hconsumes, rfl,
                (owes_here hattachable).trans hconsumes⟩, rfl, rfl, rfl, rfl, rfl, rfl, rfl,
              fun _ _ hm => hm⟩
          | false =>
            rw [if_neg (by simp)]
            exact ⟨by rw [connect_call]; exact hidle, rfl, rfl, hmade, .inr ⟨f, hf'⟩,
              .inr ⟨rfl, shared_of_borrowed hattachable hconsumes,
                (owes_here hattachable).trans hconsumes⟩, rfl, rfl, rfl, rfl, rfl, rfl, rfl,
              fun _ _ hm => hm⟩
        · split <;> rfl
        · split <;> rfl
      | false =>
        rw [connect_cores, haccepts, if_neg (by simp)]
        refine ⟨_, rfl, hi'.serve (by rw [connect_call]; exact hidle) htargets
          (fun d hd => refused_stores hd) hf' (by rw [connect_users]; exact husers)
          (shared_of_borrowed hattachable)
          (hi'.given_of_refused hf' (by rw [connect_cores]; exact haccepts))
          (owes_refused hattachable) (fits_refused hattachable f) plain_refused
          not_decRefIfOne_refused⟩
    · cases h
  · cases h

/-- Connecting a promise that is not set meets no undefined behaviour. -/
theorem Inv.subsume (hi : Inv cfg s) {y : Except Fault (State κ φ ν ρ)}
    (h : subsume cfg s m c = some y) : ∃ t, y = .ok t ∧ Inv cfg t := by
  rw [SharedCore.subsume] at h
  split at h
  · rename_i d hidle hkind
    split at h
    · rename_i hc
      obtain ⟨hshared, hheld, htarget, hne⟩ := hc
      cases h
      have hungiven : s.promise c ≠ .given := by simp [hheld]
      have hcount := hi.count_of_ungiven (by simp [hheld]) hungiven
      have hcheck : check s c = .ok () := by simp [check, hcount]
      rw [hcheck]
      have hkind' : (cfg.kind m).target = some d := by rw [hkind, Kind.target]
      obtain ⟨hi', htargets⟩ := hi.targets_connect (m := m) (c := c) (by
        rw [hkind']
        rintro e ⟨⟩
        exact htarget)
      rw [hkind'] at hi' htargets
      have hpromise : (SharedCore.connect s c (some d)).promise c = .held := by
        simp [SharedCore.connect, setPromise, hne, hheld]
      have hattachable : attachable (cfg.shared c) (cfg.kind m) = true := by
        rw [hkind, attachable]
      have hword : accepts (cfg.shared c) (s.cores.callback c) = true := by
        cases hcallback : s.cores.callback c with
        | kResult => exact absurd (hi.callback_iff.mp hcallback) hungiven
        | ptr p => simp [accepts, hshared]
      refine ⟨_, rfl, hi'.enlist hidle htargets hattachable hword ?_ rfl rfl⟩
      refine ⟨hidle, rfl, rfl, by simp [hpromise], .inl (by simp [hpromise]), .inr ⟨rfl, hshared, ?_⟩,
        rfl, rfl, rfl, rfl, rfl, rfl, rfl, fun _ _ hm => hm⟩
      rw [owes_here hattachable, hkind, hshared]
      rfl
    · cases h
  · cases h

/-- A result that is read at once is there, unless `Ready` took a callback for it. -/
theorem Inv.take (hi : Inv cfg s) {byReady : Bool}
    (hready : ∀ c, s.future f = some c → byReady = true → s.cores.callback c ≠ .kEmpty →
      s.cores.callback c = .kResult)
    (h : take cfg s m f byReady = some t) : Inv cfg t := by
  rw [SharedCore.take] at h
  split at h
  · rename_i c hidle hf
    dsimp only at h
    split at h
    · rename_i hc
      obtain ⟨hk, husers, hmay⟩ := hc
      cases h
      have hkind : cfg.kind m = .get ∨ cfg.kind m = .await := hk.imp_right And.left
      have hword : s.cores.callback c = .kResult := by
        cases byReady with
        | true =>
          apply hready c hf rfl
          simpa [mayRead, ready] using hmay
        | false => simpa [mayRead] using hmay
      have hconsumes : consumes (cfg.shared c) (cfg.kind m) = true := by
        rcases hkind with hkind | hkind <;> rw [hkind] <;> rfl
      have hno : ∀ d, cfg.kind m ≠ .connect d := by
        rcases hkind with hkind | hkind <;> simp [hkind]
      refine hi.serve hidle (fun d hd => absurd hd (hno d)) (fun d hd => absurd hd (hno d)) hf
        (fun _ => husers) ?_ (hi.callback_iff.mp hword) (owes_take hkind) ?_ plain_here
        (not_decRefIfOne_take hkind)
      · intro hborrowed
        rw [hconsumes] at hborrowed
        cases hborrowed
      · rw [hconsumes, if_pos rfl]
        exact fits_take hkind
    · cases h
  · cases h

end Yaclib.SharedCore
