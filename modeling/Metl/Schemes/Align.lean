import Metl.Schemes.Wrap

/-! Rounding a machine word up to a power of two.

    The rounded word may wrap past the end of the word range. The distance to it does not: it is the
    padding that exact arithmetic gives, because the alignment divides the range. -/

namespace Metl.Schemes

/-- `align_up()`: the next multiple of `alignment`, modulo `2 ^ w`. -/
def alignUp {w : ℕ} (value alignment : BitVec w) : BitVec w :=
  (value + (alignment - 1#w)) &&& ~~~(alignment - 1#w)

/-- The test for a power of two. -/
def isPow2 {w : ℕ} (a : BitVec w) : Bool := a != 0#w && (a &&& (a - 1#w)) == 0#w

variable {w : ℕ} {a v : BitVec w}

theorem sub_one_toNat (ha : a ≠ 0#w) : (a - 1#w).toNat = a.toNat - 1 := by
  have hlt := a.isLt
  have hpos : 0 < a.toNat := Nat.pos_of_ne_zero fun h => ha (BitVec.eq_of_toNat_eq (by simpa using h))
  have hone : (1#w).toNat = 1 := by
    refine BitVec.toNat_one (Nat.pos_of_ne_zero ?_)
    rintro rfl
    omega
  rw [BitVec.toNat_sub_of_le (by rw [BitVec.le_def, hone]; exact hpos), hone]

theorem isPow2_iff : isPow2 a = true ↔ ∃ k, a.toNat = 2 ^ k := by
  rw [isPow2, Bool.and_eq_true_iff, bne_iff_ne, beq_iff_eq]
  constructor
  · rintro ⟨hne, hand⟩
    have hnat : a.toNat &&& (a.toNat - 1) = 0 := by
      rw [← sub_one_toNat hne, ← BitVec.toNat_and, hand, BitVec.toNat_zero]
    have hne' : a.toNat ≠ 0 := fun h => hne (BitVec.eq_of_toNat_eq (by simpa using h))
    exact (Nat.and_sub_one_eq_zero_iff_isPowerOfTwo hne').mp hnat
  · rintro ⟨k, hk⟩
    have hne : a ≠ 0#w := by
      rintro rfl
      rw [BitVec.toNat_zero] at hk
      exact absurd hk (Nat.two_pow_pos k).ne
    refine ⟨hne, BitVec.eq_of_toNat_eq ?_⟩
    rw [BitVec.toNat_and, sub_one_toNat hne, BitVec.toNat_zero]
    exact (Nat.and_sub_one_eq_zero_iff_isPowerOfTwo (hk ▸ (Nat.two_pow_pos k).ne')).mpr ⟨k, hk⟩

/-- Masking with the complement takes off the low bits. -/
theorem and_not_eq_sub (x m : BitVec w) : x &&& ~~~m = x - (x &&& m) := by
  have hdisj : (x &&& ~~~m) &&& (x &&& m) = 0#w := by
    ext i
    simp
    tauto
  have hsum : (x &&& ~~~m) + (x &&& m) = x := by
    rw [BitVec.add_eq_or_of_and_eq_zero _ _ hdisj]
    ext i
    simp only [BitVec.getElem_or, BitVec.getElem_and, BitVec.getElem_not]
    cases x[i] <;> cases m[i] <;> rfl
  calc x &&& ~~~m = (x &&& ~~~m) + (x &&& m) - (x &&& m) := (BitVec.add_sub_cancel ..).symm
    _ = x - (x &&& m) := by rw [hsum]

/-- The padding up to an aligned word is the exact one: less than the alignment, and it reaches a
    multiple of it. -/
theorem alignUp_padding (ha : isPow2 a = true) (v : BitVec w) :
    (alignUp v a - v).toNat < a.toNat ∧ a.toNat ∣ v.toNat + (alignUp v a - v).toNat := by
  obtain ⟨k, hk⟩ := isPow2_iff.mp ha
  have hne : a ≠ 0#w := by
    rintro rfl
    simp [isPow2] at ha
  have hkw : k < w := by
    have hlt := a.isLt
    rw [hk] at hlt
    exact (Nat.pow_lt_pow_iff_right (by decide)).mp hlt
  have hmask : (a - 1#w).toNat = 2 ^ k - 1 := by rw [sub_one_toNat hne, hk]
  have hpos := Nat.two_pow_pos k
  -- the bits taken off are the remainder of the bumped word
  have hlow : ((v + (a - 1#w)) &&& (a - 1#w)).toNat = (v.toNat + (2 ^ k - 1)) % 2 ^ k := by
    rw [BitVec.toNat_and, hmask, Nat.and_two_pow_sub_one_eq_mod, BitVec.toNat_add, hmask,
      Nat.mod_mod_of_dvd _ (pow_dvd_pow 2 hkw.le)]
  have hdist : alignUp v a - v = (a - 1#w) - ((v + (a - 1#w)) &&& (a - 1#w)) := by
    rw [alignUp, and_not_eq_sub]
    generalize (v + (a - 1#w)) &&& (a - 1#w) = low
    rw [BitVec.sub_sub, BitVec.add_comm low v, ← BitVec.sub_sub, BitVec.add_comm v, BitVec.add_sub_cancel]
  have hle : ((v + (a - 1#w)) &&& (a - 1#w)).toNat ≤ (a - 1#w).toNat := by
    have hmod := Nat.mod_lt (v.toNat + (2 ^ k - 1)) hpos
    rw [hlow, hmask]
    omega
  have hpad : (alignUp v a - v).toNat = (2 ^ k - 1) - (v.toNat + (2 ^ k - 1)) % 2 ^ k := by
    rw [hdist, BitVec.toNat_sub_of_le (BitVec.le_def.mpr hle), hlow, hmask]
  rw [hpad, hk]
  refine ⟨by omega, ?_⟩
  have hdiv := Nat.div_add_mod (v.toNat + (2 ^ k - 1)) (2 ^ k)
  have hmod := Nat.mod_lt (v.toNat + (2 ^ k - 1)) hpos
  refine ⟨(v.toNat + (2 ^ k - 1)) / 2 ^ k, ?_⟩
  omega

/-- The bytes from `n` up to the next multiple of `a`. -/
def padTo (a n : ℕ) : ℕ := (a - n % a) % a

/-- Less than the alignment, reaching a multiple of it: there is one such padding. -/
theorem padTo_unique {a n p : ℕ} (hlt : p < a) (hdvd : a ∣ n + p) : p = padTo a n := by
  have hmod := Nat.mod_lt n (by omega : 0 < a)
  have hsum : (n % a + p) % a = 0 := by
    rw [Nat.mod_add_mod]
    exact Nat.mod_eq_zero_of_dvd hdvd
  unfold padTo
  rcases Nat.eq_zero_or_pos (n % a) with hzero | hpos
  · rw [hzero, Nat.zero_add, Nat.mod_eq_of_lt hlt] at hsum
    rw [hzero, Nat.sub_zero, Nat.mod_self, hsum]
  · obtain ⟨q, hq⟩ := Nat.dvd_of_mod_eq_zero hsum
    rw [Nat.mod_eq_of_lt (by omega)]
    rcases q with _ | _ | q
    · omega
    · omega
    · have htwo : a * 2 ≤ a * (q + 1 + 1) := Nat.mul_le_mul_left a (by omega)
      omega

/-- The address may itself wrap: the alignment divides the word range. -/
theorem alignUp_padTo (ha : isPow2 a = true) (n : ℕ) :
    (alignUp (BitVec.ofNat w n) a - BitVec.ofNat w n).toNat = padTo a.toNat n ∧
      padTo a.toNat n < a.toNat ∧ a.toNat ∣ n + padTo a.toNat n := by
  obtain ⟨k, hk⟩ := isPow2_iff.mp ha
  obtain ⟨hlt, hdvd⟩ := alignUp_padding ha (BitVec.ofNat w n)
  have hkw : k < w := by
    have hword := a.isLt
    rw [hk] at hword
    exact (Nat.pow_lt_pow_iff_right (by decide)).mp hword
  have hrange : a.toNat ∣ 2 ^ w := hk ▸ pow_dvd_pow 2 hkw.le
  have hexact : a.toNat ∣ n + (alignUp (BitVec.ofNat w n) a - BitVec.ofNat w n).toNat := by
    rw [Nat.dvd_iff_mod_eq_zero, Nat.add_mod]
    rw [BitVec.toNat_ofNat, Nat.dvd_iff_mod_eq_zero, Nat.add_mod, Nat.mod_mod_of_dvd _ hrange] at hdvd
    exact hdvd
  have hpad := padTo_unique hlt hexact
  exact ⟨hpad, hpad ▸ hlt, hpad ▸ hexact⟩

end Metl.Schemes
