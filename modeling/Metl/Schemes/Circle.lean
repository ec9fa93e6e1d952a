import Mathlib.Data.List.Basic
import Mathlib.Logic.Function.Basic

/-! A sequence laid out around a circle of slots.

        slot       0   1   2   3   4           head 3, positions 0 1 2
        holds      c   ·   ·   a   b

    Position `i` of the sequence stands in slot `around cap head i`, one wrap at most. `circle` says what
    every slot holds; a position that is taken and not yet filled is `none` in the sequence. Growing
    the sequence by one at either end writes one slot and moves no other. -/

namespace Metl.Schemes
open Function

/-- The slot of position `i`. -/
def around (cap head i : ℕ) : ℕ := if head + i < cap then head + i else head + i - cap

/-- The position of slot `k`. -/
def position (cap head k : ℕ) : ℕ := if head ≤ k then k - head else k + cap - head

/-- The slot before `head`. -/
def before (cap head : ℕ) : ℕ := if head = 0 then cap - 1 else head - 1

variable {cap head i j k : ℕ} {A : Type*} {l : List (Option A)} {x : Option A}

section

variable (h : head < cap)
include h

theorem around_zero : around cap head 0 = head := if_pos h

theorem around_lt (hi : i ≤ cap) : around cap head i < cap := by
  unfold around
  split <;> omega

theorem position_lt (hk : k < cap) : position cap head k < cap := by
  unfold position
  split <;> omega

theorem around_eq_iff (hi : i < cap) (hk : k < cap) :
    around cap head i = k ↔ position cap head k = i := by
  unfold around position
  split <;> split <;> omega

theorem around_add {m n : ℕ} (hle : m + n ≤ cap) :
    around cap (around cap head m) n = around cap head (m + n) := by
  unfold around
  split <;> split <;> split <;> omega

end

theorem around_left_inj {a b n : ℕ} (ha : a < cap) (hb : b < cap)
    (heq : around cap a n = around cap b n) : a = b := by
  unfold around at heq
  split at heq <;> split at heq <;> omega

theorem before_lt (h : head < cap) : before cap head < cap := by
  unfold before
  split <;> omega

theorem around_before (h : head < cap) (hi : i < cap) :
    around cap (before cap head) (i + 1) = around cap head i := by
  unfold around before
  split <;> split <;> split <;> omega

theorem before_around (h : head < cap) : before cap (around cap head 1) = head := by
  unfold around before
  split <;> split <;> omega

/-- One step to the left is one position further. -/
theorem position_before (h : head < cap) (hk : k < cap) (hne : k ≠ before cap head) :
    position cap (before cap head) k = position cap head k + 1 := by
  unfold before at hne ⊢
  unfold position
  split_ifs at hne ⊢ <;> omega

/-- What slot `k` holds. -/
def circle (cap head : ℕ) (l : List (Option A)) (k : ℕ) : Option A :=
  if k < cap then (l[position cap head k]?).join else none

theorem circle_nil : circle cap head ([] : List (Option A)) k = none := by
  simp [circle]

section

variable (h : head < cap)
include h

theorem circle_around (hi : i < cap) : circle cap head l (around cap head i) = (l[i]?).join := by
  have hk := around_lt h (Nat.le_of_lt hi)
  rw [circle, if_pos hk, (around_eq_iff h hi hk).mp rfl]

/-- Only the positions of the sequence hold something. -/
theorem circle_eq_some {a : A} (hk : circle cap head l k = some a) :
    ∃ i, i < l.length ∧ i < cap ∧ l[i]? = some (some a) ∧ k = around cap head i := by
  unfold circle at hk
  split at hk
  · rename_i hlt
    have hget : l[position cap head k]? = some (some a) := Option.join_eq_some_iff.mp hk
    obtain ⟨hlen, -⟩ := List.getElem?_eq_some_iff.mp hget
    have hpos := position_lt h hlt
    exact ⟨_, hlen, hpos, hget, ((around_eq_iff h hpos hlt).mpr rfl).symm⟩
  · cases hk

/-- Rewriting one position writes its slot. -/
theorem circle_set (hi : i < l.length) (hlen : l.length ≤ cap) :
    circle cap head (l.set i x) = update (circle cap head l) (around cap head i) x := by
  have hicap : i < cap := by omega
  funext k
  by_cases hk : k = around cap head i
  · rw [hk, update_self, circle_around h hicap, List.getElem?_set_self hi]
    rfl
  · rw [update_of_ne hk]
    unfold circle
    split
    · rename_i hlt
      have hne : i ≠ position cap head k := fun heq =>
        hk ((around_eq_iff h hicap hlt).mpr heq.symm).symm
      rw [List.getElem?_set_ne hne]
    · rfl

theorem circle_concat (hlen : l.length < cap) :
    circle cap head (l ++ [x]) = update (circle cap head l) (around cap head l.length) x := by
  funext k
  by_cases hk : k = around cap head l.length
  · rw [hk, update_self, circle_around h hlen, List.getElem?_concat_length]
    rfl
  · rw [update_of_ne hk]
    unfold circle
    split
    · rename_i hlt
      have hne : position cap head k ≠ l.length := fun heq =>
        hk ((around_eq_iff h hlen hlt).mpr heq).symm
      rcases Nat.lt_or_gt_of_ne hne with hin | hout
      · rw [List.getElem?_append_left hin]
      · rw [List.getElem?_eq_none (by simp; omega), List.getElem?_eq_none (by omega)]
    · rfl

theorem circle_cons : circle cap (before cap head) (x :: l) =
      update (circle cap head l) (before cap head) x := by
  have hbefore := before_lt h
  funext k
  by_cases hk : k = before cap head
  · subst hk
    have hzero := circle_around (l := x :: l) hbefore (i := 0) (by omega)
    rw [around_zero hbefore] at hzero
    rw [update_self, hzero]
    rfl
  · rw [update_of_ne hk]
    unfold circle
    split
    · rename_i hlt
      rw [position_before h hlt hk, List.getElem?_cons_succ]
    · rfl

/-- A slot no position stands in. -/
theorem circle_free (hi : i < cap) (hfree : (l[i]?).join = none) :
    update (circle cap head l) (around cap head i) none = circle cap head l := by
  rw [update_eq_self_iff, circle_around h hi, hfree]

theorem circle_concat_none (hlen : l.length < cap) :
    circle cap head (l ++ [none]) = circle cap head l := by
  rw [circle_concat h hlen, circle_free h hlen (by simp)]

theorem around_last : around cap head (cap - 1) = before cap head := by
  unfold around before
  split <;> split <;> omega

theorem circle_cons_none (hlen : l.length < cap) :
    circle cap (before cap head) (none :: l) = circle cap head l := by
  rw [circle_cons h, ← around_last h,
    circle_free h (by omega) (by rw [List.getElem?_eq_none (by omega)]; rfl)]

/-- Giving up the last position clears its slot. -/
theorem circle_dropLast (hlen : l.length < cap) :
    update (circle cap head (l ++ [x])) (around cap head l.length) none = circle cap head l := by
  rw [circle_concat h hlen, update_idem, circle_free h hlen (by simp)]

/-- Giving up the first position clears its slot. -/
theorem circle_tail (hlen : l.length < cap) :
    update (circle cap head (x :: l)) head none = circle cap (around cap head 1) l := by
  have hnext : around cap head 1 < cap := around_lt h (by omega)
  have hcons := circle_cons_none hnext hlen
  have hgrow := circle_cons (x := x) (l := l) hnext
  rw [before_around h] at hcons hgrow
  have hnone := circle_cons (x := none) (l := l) hnext
  rw [before_around h] at hnone
  rw [hgrow, update_idem, ← hnone, hcons]

end

end Metl.Schemes
