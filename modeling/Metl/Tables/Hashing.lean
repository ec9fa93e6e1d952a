import Mathlib

/-! What the unordered tables take from `bit.hpp`, `detail/transparent.hpp` and `hash.hpp`: the number
    of buckets for a capacity, and the hash of a key before it is masked to a bucket.

    `std::size_t` is a `w`-bit word. -/

namespace Metl.Tables

variable {w : ℕ}

/-! ### `compute_bucket_count` -/

/-- `metl::bit_width`. -/
def bitWidth (value : BitVec w) : ℕ := if value.toNat = 0 then 0 else value.toNat.log2 + 1

/-- `metl::bit_ceil`: the least power of two not below `value`, 0 where that does not fit. -/
def bitCeil (value : BitVec w) : BitVec w :=
  if value.toNat ≤ 1 then BitVec.ofNat w 1
  else
    let width := bitWidth (value - BitVec.ofNat w 1)
    if w ≤ width then BitVec.ofNat w 0 else BitVec.ofNat w 1 <<< width

/-- `detail::compute_bucket_count`; `capacity * 2` is a product of words. -/
def computeBucketCount (capacity : BitVec w) : BitVec w :=
  if capacity.toNat = 0 then BitVec.ofNat w 1 else bitCeil (capacity * BitVec.ofNat w 2)

theorem lt_two_pow_bitWidth (value : BitVec w) : value.toNat < 2 ^ bitWidth value := by
  unfold bitWidth
  split
  · rename_i h
    simp [h]
  · exact Nat.lt_log2_self

/-- A `bit_ceil` that fits is a power of two, and not below the value. -/
theorem bitCeil_spec (value : BitVec w) (hfit : 0 < (bitCeil value).toNat) :
    ∃ p, (bitCeil value).toNat = 2 ^ p ∧ value.toNat ≤ 2 ^ p := by
  unfold bitCeil at hfit ⊢
  split at hfit <;> rename_i hle
  · rw [if_pos hle]
    have hone : (BitVec.ofNat w 1).toNat = 1 := by
      rw [BitVec.toNat_ofNat] at hfit ⊢
      have := Nat.mod_le 1 (2 ^ w)
      omega
    exact ⟨0, hone, by omega⟩
  · rw [if_neg hle]
    dsimp only at hfit ⊢
    split at hfit <;> rename_i hwidth
    · simp at hfit
    · rw [if_neg hwidth]
      have hlt := lt_two_pow_bitWidth (value - BitVec.ofNat w 1)
      have hw : 1 < 2 ^ w := by
        have := value.isLt
        omega
      have hone : (BitVec.ofNat w 1).toNat = 1 := by
        rw [BitVec.toNat_ofNat, Nat.mod_eq_of_lt hw]
      have hsub : (value - BitVec.ofNat w 1).toNat = value.toNat - 1 := by
        rw [BitVec.toNat_sub_of_le (by rw [BitVec.le_def, hone]; omega), hone]
      refine ⟨bitWidth (value - BitVec.ofNat w 1), ?_, by omega⟩
      rw [BitVec.toNat_shiftLeft, hone, Nat.one_shiftLeft, Nat.mod_eq_of_lt]
      exact Nat.pow_lt_pow_right (by omega) (by omega)

/-- The table has a power of two of buckets; where doubling the capacity does not wrap, twice the
    capacity at least. -/
theorem computeBucketCount_spec {capacity : BitVec w} (hfit : 0 < (computeBucketCount capacity).toNat) :
    ∃ p, (computeBucketCount capacity).toNat = 2 ^ p ∧
      (capacity.toNat * 2 < 2 ^ w → capacity.toNat * 2 ≤ 2 ^ p) := by
  unfold computeBucketCount at hfit ⊢
  split at hfit <;> rename_i hzero
  · rw [if_pos hzero]
    have hone : (BitVec.ofNat w 1).toNat = 1 := by
      rw [BitVec.toNat_ofNat] at hfit ⊢
      have := Nat.mod_le 1 (2 ^ w)
      omega
    exact ⟨0, hone, by omega⟩
  · rw [if_neg hzero]
    obtain ⟨p, hp, hle⟩ := bitCeil_spec _ hfit
    refine ⟨p, hp, ?_⟩
    intro hwrap
    have htwo : (BitVec.ofNat w 2).toNat = 2 := by
      rw [BitVec.toNat_ofNat, Nat.mod_eq_of_lt (by omega)]
    rwa [BitVec.toNat_mul, htwo, Nat.mod_eq_of_lt hwrap] at hle

/-! ### `hash_mix` and `hash_key` -/

/-- `detail::hash_mix_constants`. -/
structure HashMixConstants (w : ℕ) where
  m1 : BitVec w
  m2 : BitVec w
  s1 : ℕ
  s2 : ℕ
  s3 : ℕ

/-- The splitmix64 finalizer, for an 8-byte `std::size_t`. -/
def splitmix64 : HashMixConstants 64 := ⟨0xbf58476d1ce4e5b9#64, 0x94d049bb133111eb#64, 30, 27, 31⟩

/-- The murmur3 fmix32 finalizer, for a 4-byte `std::size_t`. -/
def fmix32 : HashMixConstants 32 := ⟨0x85ebca6b#32, 0xc2b2ae35#32, 16, 13, 16⟩

/-- `hash_mix`. -/
def hashMix (k : HashMixConstants w) (x : BitVec w) : BitVec w :=
  let x := x ^^^ (x >>> k.s1)
  let x := x * k.m1
  let x := x ^^^ (x >>> k.s2)
  let x := x * k.m2
  x ^^^ (x >>> k.s3)

/-- An integral key wider than `std::size_t`: its unsigned value, and `sizeof(K) / sizeof(size_t)`. -/
structure WideKey (K : Type) where
  value : K → ℕ
  words : ℕ

/-- The loop of `hash_key` over the words of a wide key, lowest first. -/
def foldWords (k : HashMixConstants w) : ℕ → BitVec w → ℕ → BitVec w
  | 0, folded, _ => folded
  | words + 1, folded, value =>
    foldWords k words (hashMix k (folded ^^^ BitVec.ofNat w value)) (value >>> w)

/-- `detail::hash_key`. `wide` is set exactly when `Hash` is `std::hash<K>` and `K` is an integral type
    wider than `std::size_t`; the hasher is not called then. -/
def hashKey {K : Type} (k : HashMixConstants w) (wide : Option (WideKey K)) (hasher : K → BitVec w)
    (key : K) : BitVec w :=
  match wide with
  | some wk => foldWords k wk.words (BitVec.ofNat w 0) (wk.value key)
  | none => hasher key

end Metl.Tables
