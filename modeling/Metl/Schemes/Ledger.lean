import Mathlib

/-! Objects built in places and destroyed there.

    Every object gets the next number when it is built. `holds p` is the number of the object now in
    place `p`, and `gone` lists the numbers of the destroyed ones in order. While the ledger balances,
    each object ever built is in one place or has been destroyed once: none was lost by building over
    it, none was destroyed twice.

        built = 5      gone = [0, 3]      holds: p ↦ 1, q ↦ 4, r ↦ 2 -/

namespace Metl.Schemes
open Function

structure Ledger {P : Type*} (holds : P → Option ℕ) (built : ℕ) (gone : List ℕ) : Prop where
  fresh : ∀ p k, holds p = some k → k < built ∧ k ∉ gone
  apart : ∀ p q k, holds p = some k → holds q = some k → p = q
  nodup : gone.Nodup
  known : ∀ k ∈ gone, k < built
  account : ∀ k < built, k ∈ gone ∨ ∃ p, holds p = some k

namespace Ledger

variable {P : Type*} {holds : P → Option ℕ} {built k : ℕ} {gone : List ℕ} {p : P}

theorem init : Ledger (fun _ : P => none) 0 [] where
  fresh := by simp
  apart := by simp
  nodup := List.nodup_nil
  known := by simp
  account := by simp

/-- Everything has been destroyed: once each. -/
theorem perm_range (h : Ledger holds built gone) (hnone : ∀ p, holds p = none) :
    gone.Perm (List.range built) := by
  refine (List.perm_ext_iff_of_nodup h.nodup List.nodup_range).mpr ?_
  intro k
  rw [List.mem_range]
  constructor
  · exact h.known k
  · intro hk
    rcases h.account k hk with hgone | ⟨p, hp⟩
    · exact hgone
    · rw [hnone p] at hp
      cases hp

variable [DecidableEq P]

/-- STEP: an object is built in an empty place. -/
theorem build (h : Ledger holds built gone) (hp : holds p = none) :
    Ledger (update holds p (some built)) (built + 1) gone where
  fresh := fun q k hq => by
    rcases eq_or_ne q p with rfl | hqp
    · rw [update_self, Option.some.injEq] at hq
      subst hq
      exact ⟨Nat.lt_succ_self built, fun hgone => Nat.lt_irrefl _ (h.known built hgone)⟩
    · rw [update_of_ne hqp] at hq
      obtain ⟨hlt, hgone⟩ := h.fresh q k hq
      exact ⟨Nat.lt_succ_of_lt hlt, hgone⟩
  apart := fun q r k hq hr => by
    rcases eq_or_ne q p with rfl | hqp
    · rw [update_self, Option.some.injEq] at hq
      by_contra hne
      rw [update_of_ne (Ne.symm hne)] at hr
      have hlt := (h.fresh r k hr).1
      omega
    · rw [update_of_ne hqp] at hq
      rcases eq_or_ne r p with rfl | hrp
      · rw [update_self, Option.some.injEq] at hr
        have hlt := (h.fresh q k hq).1
        omega
      · rw [update_of_ne hrp] at hr
        exact h.apart q r k hq hr
  nodup := h.nodup
  known := fun k hk => Nat.lt_succ_of_lt (h.known k hk)
  account := fun k hk => by
    by_cases hkb : k = built
    · exact Or.inr ⟨p, by rw [update_self, hkb]⟩
    · rcases h.account k (by omega) with hgone | ⟨q, hq⟩
      · exact Or.inl hgone
      · have hqp : q ≠ p := by
          rintro rfl
          rw [hp] at hq
          cases hq
        exact Or.inr ⟨q, by rw [update_of_ne hqp, hq]⟩

/-- STEP: the object in a place is destroyed. -/
theorem destroy (h : Ledger holds built gone) (hp : holds p = some k) :
    Ledger (update holds p none) built (gone ++ [k]) where
  fresh := fun q j hq => by
    have hqp : q ≠ p := by
      rintro rfl
      rw [update_self] at hq
      cases hq
    rw [update_of_ne hqp] at hq
    obtain ⟨hlt, hgone⟩ := h.fresh q j hq
    have hjk : j ≠ k := by
      rintro rfl
      exact hqp (h.apart q p j hq hp)
    exact ⟨hlt, by simp [hgone, hjk]⟩
  apart := fun q r j hq hr => by
    have hne : ∀ t, update holds p none t = some j → t ≠ p := by
      rintro t ht rfl
      rw [update_self] at ht
      cases ht
    rw [update_of_ne (hne q hq)] at hq
    rw [update_of_ne (hne r hr)] at hr
    exact h.apart q r j hq hr
  nodup := by
    rw [List.nodup_append]
    refine ⟨h.nodup, by simp, ?_⟩
    intro j hj j' hj'
    rw [List.mem_singleton] at hj'
    rintro rfl
    exact (h.fresh p k hp).2 (hj' ▸ hj)
  known := fun j hj => by
    rw [List.mem_append, List.mem_singleton] at hj
    rcases hj with hj | rfl
    · exact h.known j hj
    · exact (h.fresh p j hp).1
  account := fun j hj => by
    rcases h.account j hj with hgone | ⟨q, hq⟩
    · exact Or.inl (List.mem_append_left _ hgone)
    · rcases eq_or_ne q p with rfl | hqp
      · rw [hp, Option.some.injEq] at hq
        exact Or.inl (by simp [hq])
      · exact Or.inr ⟨q, by rw [update_of_ne hqp, hq]⟩

end Ledger

end Metl.Schemes
