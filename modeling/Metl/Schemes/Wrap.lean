import Mathlib

/-! Free-running counters held in a `w`-bit word.

    A ring index or a ticket only ever grows, and the program keeps its residue modulo `2 ^ w`. The
    lemmas here read a modular comparison of two words back as a statement about the counters, as
    long as the counters are close enough. `Ring` is a power-of-two buffer addressed by masking such
    a word, so a counter `n` lives in slot `n % capacity` whatever its wrapped value is. -/

namespace Metl.Schemes

/-- The word that holds the free-running counter `n`. -/
def word (w n : ℕ) : BitVec w := BitVec.ofNat w n

@[simp] theorem word_toNat (w n : ℕ) : (word w n).toNat = n % 2 ^ w := by
  rw [word, BitVec.toNat_ofNat]

theorem word_add (w a b : ℕ) : word w a + word w b = word w (a + b) := by
  rw [word, word, word, BitVec.ofNat_add]

/-- Reading forward: `b - a` survives the wrap while it is below `2 ^ w`. -/
theorem word_sub_toNat {w a b : ℕ} (hab : a ≤ b) (hlt : b - a < 2 ^ w) :
    (word w b - word w a).toNat = b - a := by
  obtain ⟨d, rfl⟩ := Nat.exists_eq_add_of_le hab
  have hd : d < 2 ^ w := by omega
  have hsub : word w (a + d) - word w a = word w d := by
    rw [← word_add, BitVec.add_comm, BitVec.add_sub_cancel]
  rw [hsub, word_toNat, Nat.mod_eq_of_lt hd]
  omega

/-- Reading backward: the distance lands at the top of the range. -/
theorem word_sub_toNat_neg {w a b : ℕ} (hba : b < a) (hlt : a - b ≤ 2 ^ w) :
    (word w b - word w a).toNat = 2 ^ w - (a - b) := by
  have hwrap : word w b = word w (b + 2 ^ w) := by
    apply BitVec.eq_of_toNat_eq
    rw [word_toNat, word_toNat, Nat.add_mod_right]
  rw [hwrap, word_sub_toNat (by omega) (by omega)]
  omega

/-- Two close counters share a word only when they are equal. -/
theorem word_inj {w a b : ℕ} (hab : a ≤ b) (hlt : b - a < 2 ^ w) (h : word w a = word w b) : a = b := by
  have hsub := word_sub_toNat hab hlt
  rw [h, BitVec.sub_self, BitVec.toNat_zero] at hsub
  omega

/-- Two counters in one residue class and less than one lap ahead of each other. -/
theorem lap_cases {N k p : ℕ} (hmod : k % N = p % N) (hle : p ≤ k + N) (hlt : k < p + N) :
    k = p ∨ k + N = p := by
  rcases Nat.lt_or_ge k p with hkp | hpk
  · obtain ⟨q, hq⟩ := Nat.dvd_of_mod_eq_zero (Nat.sub_mod_eq_zero_of_mod_eq hmod.symm)
    right
    rcases q with _ | _ | q
    · omega
    · omega
    · have : N * 2 ≤ N * (q + 1 + 1) := Nat.mul_le_mul_left N (by omega)
      omega
  · have hd := Nat.sub_mod_eq_zero_of_mod_eq hmod
    rw [Nat.mod_eq_of_lt (by omega)] at hd
    left; omega

/-- A power-of-two ring of `capacity` slots whose indices are masked `w`-bit words. -/
structure Ring where
  w : ℕ
  capacity : ℕ
  two_le : 2 ≤ capacity
  pow_two : capacity &&& (capacity - 1) = 0
  lt_word : capacity < 2 ^ w

namespace Ring
variable (r : Ring)

/-- The slot a word index selects: `index & (capacity - 1)`. -/
def slot (i : BitVec r.w) : ℕ := (i &&& BitVec.ofNat r.w (r.capacity - 1)).toNat

theorem capacity_pos : 0 < r.capacity := lt_of_lt_of_le (by decide) r.two_le

theorem exists_pow : ∃ k, r.capacity = 2 ^ k :=
  (Nat.and_sub_one_eq_zero_iff_isPowerOfTwo r.capacity_pos.ne').mp r.pow_two

/-- The capacity divides the word range, so the next power of two still fits. -/
theorem capacity_dvd : r.capacity ∣ 2 ^ r.w := by
  obtain ⟨k, hk⟩ := r.exists_pow
  have hkw : k < r.w := (Nat.pow_lt_pow_iff_right (by decide)).mp (hk ▸ r.lt_word)
  rw [hk]
  exact pow_dvd_pow 2 hkw.le

theorem two_mul_le : 2 * r.capacity ≤ 2 ^ r.w := by
  obtain ⟨c, hc⟩ := r.capacity_dvd
  have hlt := r.lt_word
  have hc2 : 2 ≤ c := by
    rcases c with _ | _ | c
    · omega
    · omega
    · omega
  rw [hc, Nat.mul_comm]
  exact Nat.mul_le_mul_left _ hc2

/-- Masking the word of a counter is reducing the counter modulo the capacity. -/
theorem slot_word (n : ℕ) : r.slot (word r.w n) = n % r.capacity := by
  obtain ⟨k, hk⟩ := r.exists_pow
  have hlt := r.lt_word
  have hmask : (r.capacity - 1) % 2 ^ r.w = r.capacity - 1 := Nat.mod_eq_of_lt (by omega)
  rw [slot, BitVec.toNat_and, word_toNat, BitVec.toNat_ofNat, hmask, hk,
    Nat.and_two_pow_sub_one_eq_mod, ← hk, Nat.mod_mod_of_dvd _ r.capacity_dvd]

/-- Two counters in one window of `capacity` share a slot only when they are equal. -/
theorem slot_inj {a b : ℕ} (hab : a ≤ b) (hlt : b < a + r.capacity)
    (h : a % r.capacity = b % r.capacity) : a = b := by
  rcases lap_cases h (by omega) (by omega) with heq | heq <;> omega

/-- Offsets below the capacity name different slots. -/
theorem offset_inj {n i j : ℕ} (hi : i < r.capacity) (hj : j < r.capacity)
    (h : (n + i) % r.capacity = (n + j) % r.capacity) : i = j := by
  rcases Nat.le_total i j with hij | hij
  · have := r.slot_inj (Nat.add_le_add_left hij n) (by omega) h
    omega
  · have := r.slot_inj (Nat.add_le_add_left hij n) (by omega) h.symm
    omega

end Ring

end Metl.Schemes
