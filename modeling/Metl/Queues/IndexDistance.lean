import Metl.Schemes.Wrap

/-! `metl::detail::clamped_index_distance` and `metl::detail::compare_tickets`.

    Both compare free-running `w`-bit counters by their modular distance and read the upper half of
    the range as "behind". Each is exact while the true counters are less than half the range apart. -/

namespace Metl.IndexDistance
open Metl.Schemes

/-- Elements between two indices the caller owns neither of, clamped to `[0, capacity]`. -/
def clampedIndexDistance {w : ℕ} (head tail : BitVec w) (capacity : ℕ) : ℕ :=
  let forward := (tail - head).toNat
  if (2 ^ w - 1) / 2 < forward then 0 else if forward < capacity then forward else capacity

/-- Where ticket `sequence` stands relative to `pos`: 0 equal, negative behind, positive ahead. -/
def compareTickets {w : ℕ} (sequence pos : BitVec w) : ℤ :=
  let distance := sequence - pos
  if distance = 0#w then 0 else if (2 ^ w - 1) / 2 < distance.toNat then -1 else 1

theorem half_word {w : ℕ} (hw : 0 < w) : 2 ^ w = 2 * 2 ^ (w - 1) := by
  rw [← pow_succ', Nat.sub_add_cancel hw]

/-- Tickets less than half the range apart compare as the counters do. -/
theorem compareTickets_word {w s p : ℕ} (hw : 0 < w) (hs : s < p + 2 ^ (w - 1))
    (hp : p ≤ s + 2 ^ (w - 1)) :
    compareTickets (word w s) (word w p) = if s = p then 0 else if s < p then -1 else 1 := by
  have hhalf := half_word hw
  have hpos : 0 < 2 ^ (w - 1) := Nat.two_pow_pos _
  rcases Nat.lt_trichotomy s p with hlt | rfl | hgt
  · have hd := word_sub_toNat_neg hlt (by omega : p - s ≤ 2 ^ w)
    have hne : word w s - word w p ≠ 0#w := by
      intro h0
      rw [h0, BitVec.toNat_zero] at hd
      omega
    simp only [compareTickets, if_neg hne, hd]
    rw [if_pos (by omega), if_neg (by omega), if_pos hlt]
  · simp [compareTickets]
  · have hd := word_sub_toNat hgt.le (by omega : s - p < 2 ^ w)
    have hne : word w s - word w p ≠ 0#w := by
      intro h0
      rw [h0, BitVec.toNat_zero] at hd
      omega
    simp only [compareTickets, if_neg hne, hd]
    rw [if_neg (by omega), if_neg (by omega), if_neg (by omega)]

/-- On a true snapshot the clamped distance is the distance. -/
theorem clampedIndexDistance_word {w h t capacity : ℕ} (hw : 0 < w) (hht : h ≤ t)
    (hle : t - h ≤ capacity) (hcap : capacity < 2 ^ (w - 1)) :
    clampedIndexDistance (word w h) (word w t) capacity = t - h := by
  have hhalf := half_word hw
  have hd := word_sub_toNat hht (by omega : t - h < 2 ^ w)
  simp only [clampedIndexDistance, hd]
  rw [if_neg (by omega)]
  split <;> omega

end Metl.IndexDistance
