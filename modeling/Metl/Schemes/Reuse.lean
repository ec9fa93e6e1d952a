import Mathlib

/-! Slots reused in turn.

    Slots are issued from the front of a queue of free slots and come back at its end. While the queue
    never has fewer than `d` slots when one comes back, two issues of one slot have at least `d` other
    issues between them: the ones that were ahead of it in the queue.

        issues:  … i  x x x x  i …        free:  y y y i …
                     └ ≥ d ┘ -/

namespace Metl.Schemes

/-- Issues of one slot lie `d` apart, and a free slot has waited or will wait for `d` others. -/
structure Spread (d : ℕ) (issues free : List ℕ) : Prop where
  apart : ∀ l a b i, issues = l ++ i :: (a ++ i :: b) → d ≤ a.length
  ready : ∀ l t u v i, issues = l ++ i :: t → free = u ++ i :: v → d ≤ t.length + u.length

namespace Spread
variable {d i : ℕ} {issues free : List ℕ}

theorem nil : Spread d [] free := by
  constructor <;> simp

/-- The front slot is issued. -/
theorem take (h : Spread d issues (i :: free)) (hnot : i ∉ free) : Spread d (issues ++ [i]) free := by
  constructor
  · intro l a b k heq
    rcases List.eq_nil_or_concat' b with rfl | ⟨b, x, rfl⟩
    · -- the second issue is the new one
      have heq' : issues ++ [i] = (l ++ k :: a) ++ [k] := by simpa using heq
      obtain ⟨hl, hk⟩ := List.append_inj' heq' rfl
      cases hk
      exact h.ready l a [] free i hl rfl
    · have heq' : issues ++ [i] = (l ++ k :: (a ++ k :: b)) ++ [x] := by simpa using heq
      exact h.apart l a b k (List.append_inj' heq' rfl).1
  · intro l t u v k heq hfree
    rcases List.eq_nil_or_concat' t with rfl | ⟨t, x, rfl⟩
    · obtain ⟨-, hk⟩ := List.append_inj' heq rfl
      cases hk
      exact absurd (hfree ▸ by simp) hnot
    · have heq' : issues ++ [i] = (l ++ k :: t) ++ [x] := by simpa using heq
      have hready := h.ready l t (i :: u) v k (List.append_inj' heq' rfl).1 (by simp [hfree])
      simp only [List.length_cons, List.length_append, List.length_nil] at hready ⊢
      omega

/-- A slot comes back behind at least `d` others. -/
theorem give (h : Spread d issues free) (hd : d ≤ free.length) : Spread d issues (free ++ [i]) := by
  refine ⟨h.apart, ?_⟩
  intro l t u v k heq hfree
  rcases List.eq_nil_or_concat' v with rfl | ⟨v, x, rfl⟩
  · rw [(List.append_inj' hfree rfl).1] at hd
    omega
  · have hfree' : free ++ [i] = (u ++ k :: v) ++ [x] := by simpa using hfree
    exact h.ready l t u v k heq (List.append_inj' hfree' rfl).1

/-- Each further issue of a slot costs `d + 1` issues. -/
theorem count (h : Spread d issues free) {l t : List ℕ} (heq : issues = l ++ i :: t) :
    t.count i * (d + 1) ≤ t.length := by
  induction hlen : t.length using Nat.strong_induction_on generalizing l t with
  | _ n ih =>
  subst hlen
  by_cases hmem : i ∈ t
  · -- go on behind the next issue of the slot
    obtain ⟨a, b, rfl, hnot⟩ := List.eq_append_cons_of_mem hmem
    have hapart := h.apart l a b i heq
    have hrest : b.count i * (d + 1) ≤ b.length :=
      ih _ (by simp; omega) (l := l ++ i :: a) (by simp [heq]) rfl
    have hcount : (a ++ i :: b).count i = b.count i + 1 := by
      rw [List.count_append, List.count_eq_zero_of_not_mem hnot, List.count_cons_self, Nat.zero_add]
    calc (a ++ i :: b).count i * (d + 1) = b.count i * (d + 1) + (d + 1) := by rw [hcount]; ring
      _ ≤ b.length + (a.length + 1) := by omega
      _ = (a ++ i :: b).length := by simp; omega
  · rw [List.count_eq_zero_of_not_mem hmem, Nat.zero_mul]
    exact Nat.zero_le _

end Spread

end Metl.Schemes
