import Mathlib.Data.List.Nodup
import Mathlib.Logic.Function.Basic

/-! Singly linked lists that end in a null link.

        h ──► a ──► b ──► ⊥              a thread: h a b

    Each node of a thread links to the node after it, the last one to none. Surgery behind a node
    leaves the threads that do not pass through it as they were. -/

namespace Metl.Schemes
open Function

variable {N : Type*} {next next' : N → Option N} {l u v : List N} {p x : N}

def Thread (next : N → Option N) : List N → Prop
  | [] => True
  | a :: l => next a = l.head? ∧ Thread next l

namespace Thread

/-- A thread reads the links of its own nodes only. -/
theorem congr (h : Thread next l) (heq : ∀ a ∈ l, next' a = next a) : Thread next' l := by
  induction l with
  | nil => trivial
  | cons a l ih =>
    refine ⟨?_, ih h.2 (fun b hb => heq b (List.mem_cons_of_mem a hb))⟩
    rw [heq a List.mem_cons_self, h.1]

theorem right (h : Thread next (u ++ v)) : Thread next v := by
  induction u with
  | nil => exact h
  | cons a u ih => exact ih h.2

/-- The link of a node inside a thread. -/
theorem next_eq (h : Thread next (u ++ p :: v)) : next p = v.head? := h.right.1

/-- The part of a thread before the surgery keeps its links, and its last one still finds `p`. -/
theorem front {v' : List N} (h : Thread next (u ++ p :: v)) (heq : ∀ a ∈ u, next' a = next a)
    (hback : Thread next' (p :: v')) : Thread next' (u ++ p :: v') := by
  induction u with
  | nil => exact hback
  | cons a u ih =>
    refine ⟨?_, ih h.2 (fun b hb => heq b (List.mem_cons_of_mem a hb))⟩
    rw [heq a List.mem_cons_self, h.1]
    cases u <;> rfl

section Surgery
variable [DecidableEq N]

/-- A node outside is linked in behind `p`. -/
theorem insert (h : Thread next (u ++ p :: v)) (hnodup : (u ++ p :: v).Nodup) (hx : x ∉ u ++ p :: v) :
    Thread (update (update next x (next p)) p (some x)) (u ++ p :: x :: v) := by
  rw [List.nodup_append, List.nodup_cons] at hnodup
  obtain ⟨-, ⟨hpv, -⟩, hdisjoint⟩ := hnodup
  simp only [List.mem_append, List.mem_cons, not_or] at hx
  obtain ⟨hxu, hxp, hxv⟩ := hx
  have hpx : p ≠ x := Ne.symm hxp
  refine h.front ?_ ⟨by simp, ?_, h.right.2.congr ?_⟩
  · intro a ha
    have hap : a ≠ p := hdisjoint a ha p List.mem_cons_self
    have hax : a ≠ x := fun heq => hxu (heq ▸ ha)
    simp [hap, hax]
  · rw [update_of_ne hxp, update_self, h.next_eq]
  · intro a ha
    have hap : a ≠ p := fun heq => hpv (heq ▸ ha)
    have hax : a ≠ x := fun heq => hxv (heq ▸ ha)
    simp [hap, hax]

/-- The node behind `p` is taken out. -/
theorem remove (h : Thread next (u ++ p :: x :: v)) (hnodup : (u ++ p :: x :: v).Nodup) :
    Thread (update (update next p (next x)) x none) (u ++ p :: v) := by
  rw [List.nodup_append, List.nodup_cons, List.nodup_cons] at hnodup
  obtain ⟨-, ⟨hpxv, hxv, -⟩, hdisjoint⟩ := hnodup
  simp only [List.mem_cons, not_or] at hpxv
  obtain ⟨hpx, hpv⟩ := hpxv
  refine h.front ?_ ⟨?_, h.right.2.2.congr ?_⟩
  · intro a ha
    have hap : a ≠ p := hdisjoint a ha p (by simp)
    have hax : a ≠ x := hdisjoint a ha x (by simp)
    simp [hap, hax]
  · rw [update_of_ne hpx, update_self, h.right.2.1]
  · intro a ha
    have hap : a ≠ p := fun heq => hpv (heq ▸ ha)
    have hax : a ≠ x := fun heq => hxv (heq ▸ ha)
    simp [hap, hax]

end Surgery

end Thread

/-- The nodes met by following the links from `cur` to the null one; `none` if that takes more than
    `fuel` steps. -/
def trail (next : N → Option N) : ℕ → Option N → Option (List N)
  | _, none => some []
  | 0, some _ => none
  | fuel + 1, some n => (trail next fuel (next n)).map (n :: ·)

theorem trail_thread (h : Thread next l) : trail next l.length l.head? = some l := by
  induction l with
  | nil => rfl
  | cons a l ih =>
    rw [List.length_cons, List.head?_cons, trail, h.1, ih h.2]
    rfl

end Metl.Schemes
