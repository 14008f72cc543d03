import Mathlib.Data.List.Nodup
import Mathlib.Logic.Equiv.Basic

/-!
Tokens that are created one after another, each of which is held by one holder until it is
retired, once. A holder holds at most one.

Nothing here depends on what the holders are.
-/

namespace Yaclib.Concurrency

variable {κ : Type*} {held : κ → Option Nat} {created : Nat} {retired : List Nat} {k l : κ} {v : Nat}

/-- The tokens below `created` are held by one holder each, or retired. -/
structure Ledger (held : κ → Option Nat) (created : Nat) (retired : List Nat) : Prop where
  bound : ∀ k v, held k = some v → v < created
  live : ∀ k v, held k = some v → v ∉ retired
  sole : ∀ k l v, held k = some v → held l = some v → k = l
  nodup : retired.Nodup
  past : ∀ v ∈ retired, v < created
  kept : ∀ v, v < created → v ∈ retired ∨ ∃ k, held k = some v

namespace Ledger

/-- Before the first token. -/
theorem start : Ledger (fun _ : κ => none) 0 [] := by
  constructor
  · intro k v hk
    cases hk
  · intro k v hk
    cases hk
  · intro k l v hk
    cases hk
  · exact List.nodup_nil
  · intro v hv
    cases hv
  · intro v hv
    exact absurd hv (Nat.not_lt_zero v)

/-- The holders exchange their tokens. -/
theorem permute (h : Ledger held created retired) (e : Equiv.Perm κ) :
    Ledger (fun k => held (e k)) created retired := by
  constructor
  · intro k v hk
    exact h.bound (e k) v hk
  · intro k v hk
    exact h.live (e k) v hk
  · intro k l v hk hl
    exact e.injective (h.sole (e k) (e l) v hk hl)
  · exact h.nodup
  · exact h.past
  · intro v hv
    rcases h.kept v hv with hmem | ⟨k, hk⟩
    · exact .inl hmem
    · refine .inr ⟨e.symm k, ?_⟩
      rw [e.apply_symm_apply]
      exact hk

theorem of_perm (h : Ledger held created retired) {other : List Nat} (hperm : other.Perm retired) :
    Ledger held created other := by
  constructor
  · exact h.bound
  · intro k v hk hmem
    exact h.live k v hk (hperm.mem_iff.mp hmem)
  · exact h.sole
  · exact hperm.nodup_iff.mpr h.nodup
  · intro v hv
    exact h.past v (hperm.mem_iff.mp hv)
  · intro v hv
    rcases h.kept v hv with hmem | hheld
    · exact .inl (hperm.mem_iff.mpr hmem)
    · exact .inr hheld

variable [DecidableEq κ]

/-- Two holders exchange what they hold. -/
theorem exchange (h : Ledger held created retired) (k l : κ) :
    Ledger (Function.update (Function.update held k (held l)) l (held k)) created retired := by
  have hswap : Function.update (Function.update held k (held l)) l (held k) =
      fun i => held (Equiv.swap k l i) := by
    funext i
    by_cases hil : i = l
    · subst hil
      rw [Function.update_self, Equiv.swap_apply_right]
    · rw [Function.update_of_ne hil]
      by_cases hik : i = k
      · subst hik
        rw [Function.update_self, Equiv.swap_apply_left]
      · rw [Function.update_of_ne hik, Equiv.swap_apply_of_ne_of_ne hik hil]
  rw [hswap]
  exact h.permute (Equiv.swap k l)

theorem create (h : Ledger held created retired) (hk : held k = none) :
    Ledger (Function.update held k (some created)) (created + 1) retired := by
  have hcases : ∀ l v, Function.update held k (some created) l = some v →
      l = k ∧ v = created ∨ held l = some v := by
    intro l v hl
    by_cases hlk : l = k
    · subst hlk
      rw [Function.update_self] at hl
      exact .inl ⟨rfl, (Option.some.inj hl).symm⟩
    · rw [Function.update_of_ne hlk] at hl
      exact .inr hl
  have hnew : ∀ l v, held l = some v → v ≠ created := fun l v hl => Nat.ne_of_lt (h.bound l v hl)
  constructor
  · intro l v hl
    rcases hcases l v hl with ⟨-, rfl⟩ | hold
    · exact Nat.lt_succ_self v
    · exact Nat.lt_succ_of_lt (h.bound l v hold)
  · intro l v hl hmem
    rcases hcases l v hl with ⟨-, rfl⟩ | hold
    · exact Nat.lt_irrefl v (h.past v hmem)
    · exact h.live l v hold hmem
  · intro l m v hl hm
    rcases hcases l v hl with ⟨hlk, hv⟩ | holdl
    · rcases hcases m v hm with ⟨hmk, -⟩ | holdm
      · rw [hlk, hmk]
      · exact absurd hv (hnew m v holdm)
    · rcases hcases m v hm with ⟨-, hv⟩ | holdm
      · exact absurd hv (hnew l v holdl)
      · exact h.sole l m v holdl holdm
  · exact h.nodup
  · intro v hv
    exact Nat.lt_succ_of_lt (h.past v hv)
  · intro v hv
    rcases Nat.lt_succ_iff_lt_or_eq.mp hv with hlt | rfl
    · rcases h.kept v hlt with hmem | ⟨l, hl⟩
      · exact .inl hmem
      · refine .inr ⟨l, ?_⟩
        rw [Function.update_of_ne, hl]
        rintro rfl
        cases hk.symm.trans hl
    · exact .inr ⟨k, Function.update_self k _ held⟩

theorem retire (h : Ledger held created retired) (hk : held k = some v) :
    Ledger (Function.update held k none) created (v :: retired) := by
  have hcases : ∀ l u, Function.update held k none l = some u → l ≠ k ∧ held l = some u := by
    intro l u hl
    by_cases hlk : l = k
    · subst hlk
      rw [Function.update_self] at hl
      cases hl
    · rw [Function.update_of_ne hlk] at hl
      exact ⟨hlk, hl⟩
  constructor
  · intro l u hl
    exact h.bound l u (hcases l u hl).2
  · intro l u hl hmem
    obtain ⟨hlk, hold⟩ := hcases l u hl
    rcases List.mem_cons.mp hmem with rfl | hmem
    · exact hlk (h.sole l k u hold hk)
    · exact h.live l u hold hmem
  · intro l m u hl hm
    exact h.sole l m u (hcases l u hl).2 (hcases m u hm).2
  · exact List.nodup_cons.mpr ⟨h.live k v hk, h.nodup⟩
  · intro u hu
    rcases List.mem_cons.mp hu with rfl | hu
    · exact h.bound k u hk
    · exact h.past u hu
  · intro u hu
    rcases h.kept u hu with hmem | ⟨l, hl⟩
    · exact .inl (List.mem_cons_of_mem v hmem)
    · by_cases hlk : l = k
      · subst hlk
        cases hk.symm.trans hl
        exact .inl List.mem_cons_self
      · exact .inr ⟨l, by rw [Function.update_of_ne hlk, hl]⟩

end Ledger

end Yaclib.Concurrency
