import Mathlib

/-! Bit vectors as polynomials over the field of two elements.

        1011  ↦  X³ + X + 1

    Exclusive or is addition and a shift is multiplication by `X`, as long as no bit falls out. A shift
    register with feedback multiplies by `X` modulo its generator. -/

namespace Metl.Schemes

open Polynomial

variable {v w : ℕ}

/-- The polynomial whose coefficients are the bits, the least significant one first. -/
noncomputable def bitPoly (x : BitVec w) : (ZMod 2)[X] :=
  ∑ i ∈ Finset.range w, if x.getLsbD i then X ^ i else 0

theorem coeff_bitPoly (x : BitVec w) (n : ℕ) : (bitPoly x).coeff n = if x.getLsbD n then 1 else 0 := by
  have hterm : ∀ i, (if x.getLsbD i then (X : (ZMod 2)[X]) ^ i else 0).coeff n =
      if n = i then (if x.getLsbD i then 1 else 0) else 0 := by
    intro i
    cases x.getLsbD i <;> simp [coeff_X_pow]
  rw [bitPoly, finsetSum_coeff, Finset.sum_congr rfl fun i _ => hterm i, Finset.sum_ite_eq]
  by_cases hn : n < w
  · rw [if_pos (Finset.mem_range.mpr hn)]
  · rw [if_neg (by simpa using hn), BitVec.getLsbD_of_ge x n (by omega)]
    rfl

theorem degree_bitPoly_lt (x : BitVec w) : (bitPoly x).degree < w := by
  rw [degree_lt_iff_coeff_zero]
  intro n hn
  rw [coeff_bitPoly, BitVec.getLsbD_of_ge x n hn]
  rfl

theorem bitPoly_xor (x y : BitVec w) : bitPoly (x ^^^ y) = bitPoly x + bitPoly y := by
  ext n
  rw [coeff_add, coeff_bitPoly, coeff_bitPoly, coeff_bitPoly, BitVec.getLsbD_xor]
  cases x.getLsbD n <;> cases y.getLsbD n <;> decide

/-- No bit falls out of a shift of the low bits. -/
theorem bitPoly_shiftLeft {k : ℕ} (x : BitVec w) (hx : ∀ i, w ≤ i + k → x.getLsbD i = false) :
    bitPoly (x <<< k) = bitPoly x * X ^ k := by
  ext n
  rw [coeff_mul_X_pow', coeff_bitPoly, coeff_bitPoly, BitVec.getLsbD_shiftLeft]
  by_cases hk : k ≤ n
  · rw [if_pos hk]
    by_cases hn : n < w
    · simp [hn, hk]
    · rw [hx (n - k) (by omega)]
      simp
  · rw [if_neg hk]
    have hlt : n < k := by omega
    simp [hlt]

theorem bitPoly_setWidth (x : BitVec v) (h : v ≤ w) : bitPoly (x.setWidth w) = bitPoly x := by
  ext n
  rw [coeff_bitPoly, coeff_bitPoly, BitVec.getLsbD_setWidth]
  by_cases hn : n < w
  · simp [hn]
  · rw [BitVec.getLsbD_of_ge x n (by omega)]
    simp

/-- A shift by one, with the bit that falls out. -/
theorem bitPoly_shiftLeft_one (x : BitVec w) (hw : 0 < w) :
    bitPoly x * X = bitPoly (x <<< 1) + if x.msb then X ^ w else 0 := by
  ext n
  rw [← pow_one X, coeff_mul_X_pow', coeff_add, coeff_bitPoly, coeff_bitPoly,
    BitVec.getLsbD_shiftLeft, BitVec.msb_eq_getLsbD_last, pow_one]
  rcases Nat.lt_trichotomy n w with hlt | rfl | hgt
  · have htop : (if x.getLsbD (w - 1) then (X : (ZMod 2)[X]) ^ w else 0).coeff n = 0 := by
      cases x.getLsbD (w - 1) <;> simp [coeff_X_pow]
      omega
    rw [htop]
    by_cases hn : 1 ≤ n
    · simp [hlt, hn, show n ≠ 0 by omega]
    · simp [Nat.lt_one_iff.mp (Nat.not_le.mp hn)]
  · have hone : 1 ≤ n := hw
    cases x.getLsbD (n - 1) <;> simp [hone]
  · have htop : (if x.getLsbD (w - 1) then (X : (ZMod 2)[X]) ^ w else 0).coeff n = 0 := by
      cases x.getLsbD (w - 1) <;> simp [coeff_X_pow]
      omega
    rw [htop, BitVec.getLsbD_of_ge x (n - 1) (by omega)]
    simp

/-! ### Remainders -/

/-- The generator of degree `w` whose lower coefficients are the bits of `p`. -/
noncomputable def generator (p : BitVec w) : (ZMod 2)[X] := X ^ w + bitPoly p

theorem generator_monic (p : BitVec w) : (generator p).Monic := monic_X_pow_add (degree_bitPoly_lt p)

theorem degree_generator (p : BitVec w) : (generator p).degree = w := by
  rw [generator, degree_add_eq_left_of_degree_lt]
  · exact degree_X_pow w
  · rw [degree_X_pow]
    exact degree_bitPoly_lt p

/-- Residues modulo the generator. -/
noncomputable abbrev residue (p : BitVec w) : (ZMod 2)[X] →+* AdjoinRoot (generator p) :=
  AdjoinRoot.mk (generator p)

/-- A register congruent to a polynomial is its remainder. -/
theorem bitPoly_eq_modByMonic {p x : BitVec w} {f : (ZMod 2)[X]}
    (h : residue p (bitPoly x) = residue p f) : bitPoly x = f %ₘ generator p := by
  have hmod := modByMonic_eq_of_dvd_sub (generator_monic p) (AdjoinRoot.mk_eq_mk.mp h)
  rw [← hmod]
  refine ((modByMonic_eq_self_iff (generator_monic p)).mpr ?_).symm
  rw [degree_generator]
  exact degree_bitPoly_lt x

/-- STEP: a shift with feedback multiplies by `X`. -/
theorem residue_feedback (p x : BitVec w) (hw : 0 < w) :
    residue p (bitPoly (if x.msb then (x <<< 1) ^^^ p else x <<< 1)) = residue p (bitPoly x * X) := by
  rw [bitPoly_shiftLeft_one x hw]
  cases x.msb with
  | false => simp
  | true =>
    simp only [if_true]
    rw [AdjoinRoot.mk_eq_mk, bitPoly_xor, add_sub_add_left_eq_sub, CharTwo.sub_eq_add, add_comm]
    exact dvd_refl _

theorem isCoprime_X_generator {p : BitVec w} (hw : 0 < w) (hp : p.getLsbD 0 = true) :
    IsCoprime X (generator p) := by
  rw [irreducible_X.coprime_iff_not_dvd, X_dvd_iff, generator, coeff_add, coeff_X_pow, coeff_bitPoly, hp]
  simp [hw.ne]

/-- A generator with a constant term divides no window of coefficients as wide as it is, wherever the
    window lies. -/
theorem eq_zero_of_generator_dvd {p : BitVec w} (hw : 0 < w) (hp : p.getLsbD 0 = true)
    {f : (ZMod 2)[X]} {k j : ℕ} (hdvd : generator p ∣ f * X ^ k)
    (hwindow : ∀ e, f.coeff e ≠ 0 → j ≤ e ∧ e < j + w) : f = 0 := by
  have hcoprime : ∀ m, IsCoprime (generator p) (X ^ m) := fun m => (isCoprime_X_generator hw hp).pow_left.symm
  have hf : generator p ∣ f := (hcoprime k).dvd_of_dvd_mul_right hdvd
  -- what is left of the window at the bottom has a lower degree than the generator
  obtain ⟨b, rfl⟩ : X ^ j ∣ f := by
    rw [X_pow_dvd_iff]
    intro d hd
    by_contra hne
    exact absurd (hwindow d hne).1 (by omega)
  have hdegree : b.degree < (generator p).degree := by
    rw [degree_generator, degree_lt_iff_coeff_zero]
    intro e he
    by_contra hne
    rw [← coeff_X_pow_mul b j e] at hne
    exact absurd (hwindow _ hne).2 (by omega)
  rw [eq_zero_of_dvd_of_degree_lt ((hcoprime j).dvd_of_dvd_mul_left hf) hdegree, mul_zero]

end Metl.Schemes
