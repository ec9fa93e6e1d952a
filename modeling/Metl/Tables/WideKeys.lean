import Metl.Tables.Hashing

/-! `hash_mix` permutes the words, and the hash of a wide key keeps each of its words.

        0 ──⊕ w₀── mix ──⊕ w₁── mix ── … ──⊕ wₖ₋₁── mix ──▶ hash

    An exclusive or with a shifted copy and a product with an odd number can both be undone. So can a
    step of the fold, from either of its two inputs. -/

namespace Metl.Tables
open Function

variable {w : ℕ}

/-! ### `hash_mix` -/

variable {s : ℕ} {k : HashMixConstants w} {t : IntegerType} {xs : List (BitVec w)}

/-- A word that equals its own shifted copy is zero. -/
theorem eq_zero_of_shift_eq {z : BitVec w} (hs : 0 < s) (h : z = z >>> s) : z = 0#w := by
  have hnat : z.toNat = z.toNat / 2 ^ s := by
    conv_lhs => rw [h]
    rw [BitVec.toNat_ushiftRight, Nat.shiftRight_eq_div_pow]
  refine BitVec.eq_of_toNat_eq ?_
  rw [BitVec.toNat_zero]
  by_contra hne
  have hlt := Nat.div_lt_self (Nat.pos_of_ne_zero hne) (Nat.one_lt_two_pow hs.ne')
  omega

theorem xorShift_injective (hs : 0 < s) : Injective fun x : BitVec w => x ^^^ (x >>> s) := by
  intro x y hxy
  have hdiff : x ^^^ y = (x ^^^ y) >>> s := by
    have hzero : (x ^^^ (x >>> s)) ^^^ (y ^^^ (y >>> s)) = 0#w := by
      rw [show x ^^^ (x >>> s) = y ^^^ (y >>> s) from hxy, BitVec.xor_self]
    rw [BitVec.ushiftRight_xor_distrib, ← BitVec.xor_eq_zero_iff, ← hzero]
    ac_rfl
  exact BitVec.xor_eq_zero_iff.mp (eq_zero_of_shift_eq hs hdiff)

theorem mul_odd_injective {m : BitVec w} (hm : m.toNat % 2 = 1) : Injective fun x => x * m := by
  intro x y hxy
  have hmod : m.toNat * x.toNat ≡ m.toNat * y.toNat [MOD 2 ^ w] := by
    have hnat := congrArg BitVec.toNat hxy
    simp only [BitVec.toNat_mul] at hnat
    rwa [Nat.ModEq, Nat.mul_comm, Nat.mul_comm m.toNat]
  have hcoprime : Nat.gcd (2 ^ w) m.toNat = 1 :=
    Nat.Coprime.pow_left w (Nat.coprime_two_left.mpr (Nat.odd_iff.mpr hm))
  exact BitVec.eq_of_toNat_eq ((Nat.ModEq.cancel_left_of_coprime hcoprime hmod).eq_of_lt_of_lt
    x.isLt y.isLt)

/-- What the constants have in common. -/
structure HashMixConstants.Mixes (k : HashMixConstants w) : Prop where
  m1_odd : k.m1.toNat % 2 = 1
  m2_odd : k.m2.toNat % 2 = 1
  s1_pos : 0 < k.s1
  s2_pos : 0 < k.s2
  s3_pos : 0 < k.s3

theorem mixes_splitmix64 : splitmix64.Mixes := ⟨rfl, rfl, by decide, by decide, by decide⟩

theorem mixes_fmix32 : fmix32.Mixes := ⟨rfl, rfl, by decide, by decide, by decide⟩

theorem hashMix_bijective (hk : k.Mixes) : Bijective (hashMix k) := by
  refine Finite.injective_iff_bijective.mp ?_
  exact (xorShift_injective hk.s3_pos).comp ((mul_odd_injective hk.m2_odd).comp
    ((xorShift_injective hk.s2_pos).comp ((mul_odd_injective hk.m1_odd).comp
      (xorShift_injective hk.s1_pos))))

/-! ### `hash_key` -/

/-- An integral type, so many machine words wide. -/
structure IntegerType where
  signed : Bool
  words : ℕ

variable (w) in
def IntegerType.Holds (t : IntegerType) (key : ℤ) : Prop :=
  if t.signed then -2 ^ (w * t.words - 1) ≤ key ∧ key < 2 ^ (w * t.words - 1)
  else 0 ≤ key ∧ key < 2 ^ (w * t.words)

variable (w) in
/-- `static_cast<wide>(key)`, and the trips of the loop over its words. -/
def IntegerType.wide (t : IntegerType) : WideKey ℤ :=
  ⟨fun key => (BitVec.ofInt (w * t.words) key).toNat, t.words⟩

/-- The number with the given words, lowest first. -/
def ofWords : List (BitVec w) → ℕ
  | [] => 0
  | x :: xs => x.toNat + 2 ^ w * ofWords xs

/-- The key of the type with the given words. -/
def IntegerType.key (t : IntegerType) (xs : List (BitVec w)) : ℤ :=
  let bits := BitVec.ofNat (w * t.words) (ofWords xs)
  if t.signed then bits.toInt else bits.toNat

theorem ofWords_lt (xs : List (BitVec w)) : ofWords xs < 2 ^ (w * xs.length) := by
  induction xs with
  | nil => simp [ofWords]
  | cons x xs ih =>
    have hx := x.isLt
    calc ofWords (x :: xs) < 2 ^ w + 2 ^ w * ofWords xs := by
          rw [ofWords]
          omega
      _ = 2 ^ w * (ofWords xs + 1) := by rw [Nat.mul_succ, Nat.add_comm]
      _ ≤ 2 ^ w * 2 ^ (w * xs.length) := Nat.mul_le_mul_left _ ih
      _ = 2 ^ (w * (x :: xs).length) := by rw [List.length_cons, Nat.mul_succ, pow_add, mul_comm]

theorem exists_words (n value : ℕ) (hvalue : value < 2 ^ (w * n)) :
    ∃ xs : List (BitVec w), xs.length = n ∧ ofWords xs = value := by
  induction n generalizing value with
  | zero =>
    rw [Nat.mul_zero, pow_zero, Nat.lt_one_iff] at hvalue
    exact ⟨[], rfl, hvalue.symm⟩
  | succ n ih =>
    have hrest : value / 2 ^ w < 2 ^ (w * n) := by
      rw [Nat.div_lt_iff_lt_mul (Nat.two_pow_pos w), ← pow_add, ← Nat.mul_succ]
      exact hvalue
    obtain ⟨xs, hlength, hxs⟩ := ih _ hrest
    refine ⟨BitVec.ofNat w value :: xs, by rw [List.length_cons, hlength], ?_⟩
    rw [ofWords, hxs, BitVec.toNat_ofNat, Nat.mod_add_div]

/-- The values of a type are its keys. -/
theorem holds_iff (hpos : 0 < w * t.words) (key : ℤ) :
    t.Holds w key ↔ ∃ xs : List (BitVec w), xs.length = t.words ∧ t.key xs = key := by
  -- a value in range is that of its bits, which are those of some words
  have hwords : ∀ bits : BitVec (w * t.words), ∃ xs : List (BitVec w),
      xs.length = t.words ∧ BitVec.ofNat (w * t.words) (ofWords xs) = bits := by
    intro bits
    obtain ⟨xs, hlength, hxs⟩ := exists_words t.words bits.toNat bits.isLt
    exact ⟨xs, hlength, by rw [hxs, BitVec.ofNat_toNat, BitVec.setWidth_eq]⟩
  cases hs : t.signed with
  | true =>
    simp only [IntegerType.Holds, IntegerType.key, hs, if_true]
    constructor
    · rintro ⟨hlow, hhigh⟩
      obtain ⟨xs, hlength, hxs⟩ := hwords (BitVec.ofInt (w * t.words) key)
      exact ⟨xs, hlength, by rw [hxs, BitVec.toInt_ofInt_eq_self hpos hlow hhigh]⟩
    · rintro ⟨xs, -, rfl⟩
      exact ⟨BitVec.le_toInt _, BitVec.toInt_lt⟩
  | false =>
    simp only [IntegerType.Holds, IntegerType.key, hs, Bool.false_eq_true, if_false]
    constructor
    · rintro ⟨hlow, hhigh⟩
      obtain ⟨n, rfl⟩ := Int.eq_ofNat_of_zero_le hlow
      obtain ⟨xs, hlength, hxs⟩ := hwords (BitVec.ofNat (w * t.words) n)
      refine ⟨xs, hlength, ?_⟩
      rw [hxs, BitVec.toNat_ofNat, Nat.mod_eq_of_lt (by exact_mod_cast hhigh)]
    · rintro ⟨xs, -, rfl⟩
      exact ⟨Int.natCast_nonneg _, by exact_mod_cast (BitVec.isLt _)⟩

/-- The conversion to the unsigned type gives the words back, whether the key is signed or not. -/
theorem wide_value_key (hlength : xs.length = t.words) : (t.wide w).value (t.key xs) = ofWords xs := by
  have hlt := ofWords_lt xs
  rw [hlength] at hlt
  have hbits : BitVec.ofInt (w * t.words) (t.key xs) = BitVec.ofNat (w * t.words) (ofWords xs) := by
    unfold IntegerType.key
    cases t.signed with
    | true => exact BitVec.ofInt_toInt
    | false =>
      simp only [Bool.false_eq_true, if_false]
      rw [BitVec.ofInt_natCast, BitVec.ofNat_toNat, BitVec.setWidth_eq]
  change (BitVec.ofInt (w * t.words) (t.key xs)).toNat = _
  rw [hbits, BitVec.toNat_ofNat, Nat.mod_eq_of_lt hlt]

/-- One trip of the loop in `hash_key`. -/
def mixWord (k : HashMixConstants w) (folded x : BitVec w) : BitVec w := hashMix k (folded ^^^ x)

/-- RUN: the loop folds the words of the value. -/
theorem foldWords_ofWords (k : HashMixConstants w) (xs : List (BitVec w)) (folded : BitVec w) :
    foldWords k xs.length folded (ofWords xs) = xs.foldl (mixWord k) folded := by
  induction xs generalizing folded with
  | nil => rfl
  | cons x xs ih =>
    have hword : BitVec.ofNat w (x.toNat + 2 ^ w * ofWords xs) = x := by
      refine BitVec.eq_of_toNat_eq ?_
      rw [BitVec.toNat_ofNat, Nat.add_mul_mod_self_left, Nat.mod_eq_of_lt x.isLt]
    have hrest : (x.toNat + 2 ^ w * ofWords xs) >>> w = ofWords xs := by
      rw [Nat.shiftRight_eq_div_pow, Nat.add_mul_div_left _ _ (Nat.two_pow_pos w),
        Nat.div_eq_of_lt x.isLt, Nat.zero_add]
    rw [List.length_cons, foldWords, ofWords, hword, hrest, ih, List.foldl_cons, mixWord]

theorem hashKey_key (k : HashMixConstants w) (hasher : ℤ → BitVec w) (hlength : xs.length = t.words) :
    hashKey k (some (t.wide w)) hasher (t.key xs) = xs.foldl (mixWord k) 0#w := by
  change foldWords k t.words 0#w ((t.wide w).value (t.key xs)) = _
  rw [wide_value_key hlength, ← hlength, foldWords_ofWords]

theorem xor_bijective (x : BitVec w) : Bijective fun y => x ^^^ y := by
  have hinvolutive : Involutive fun y => x ^^^ y := by
    intro y
    change x ^^^ (x ^^^ y) = y
    rw [← BitVec.xor_assoc, BitVec.xor_self, BitVec.zero_xor]
  exact hinvolutive.bijective

/-- STEP: a trip can be undone, from the word as from the value so far. -/
theorem mixWord_bijective (hk : k.Mixes) (x : BitVec w) :
    Bijective (mixWord k x) ∧ Bijective fun folded => mixWord k folded x := by
  refine ⟨(hashMix_bijective hk).comp (xor_bijective x), ?_⟩
  have hcomm : (fun folded => mixWord k folded x) = mixWord k x := by
    funext folded
    rw [mixWord, mixWord, BitVec.xor_comm]
  rw [hcomm]
  exact (hashMix_bijective hk).comp (xor_bijective x)

theorem foldl_mixWord_bijective (hk : k.Mixes) (xs : List (BitVec w)) :
    Bijective fun folded => xs.foldl (mixWord k) folded := by
  induction xs with
  | nil => exact bijective_id
  | cons x xs ih => exact ih.comp (mixWord_bijective hk x).2

/-- Every word of a key can be recovered from the hash and the other words. -/
structure KeepsWords (k : HashMixConstants w) : Prop where
  keys : ∀ (t : IntegerType) (key : ℤ), 2 ≤ t.words →
    (t.Holds w key ↔ ∃ xs : List (BitVec w), xs.length = t.words ∧ t.key xs = key)
  apart : ∀ (t : IntegerType) (hasher : ℤ → BitVec w) (before after : List (BitVec w)) (x y : BitVec w),
    2 ≤ t.words → before.length + 1 + after.length = t.words → x ≠ y →
      hashKey k (some (t.wide w)) hasher (t.key (before ++ x :: after)) ≠
        hashKey k (some (t.wide w)) hasher (t.key (before ++ y :: after))
  bijective : ∀ (t : IntegerType) (hasher : ℤ → BitVec w) (before after : List (BitVec w)),
    2 ≤ t.words → before.length + 1 + after.length = t.words →
      Bijective fun x => hashKey k (some (t.wide w)) hasher (t.key (before ++ x :: after))

/-- RUN: the trips before the word are fixed, those after it can be undone. -/
theorem hashKey_bijective (hk : k.Mixes) (hasher : ℤ → BitVec w) (before after : List (BitVec w))
    (hlength : before.length + 1 + after.length = t.words) :
    Bijective fun x => hashKey k (some (t.wide w)) hasher (t.key (before ++ x :: after)) := by
  have hfold : (fun x => hashKey k (some (t.wide w)) hasher (t.key (before ++ x :: after))) =
      (fun folded => after.foldl (mixWord k) folded) ∘ mixWord k (before.foldl (mixWord k) 0#w) := by
    funext x
    have hall : (before ++ x :: after).length = t.words := by
      rw [List.length_append, List.length_cons]
      omega
    rw [hashKey_key k hasher hall, List.foldl_append, List.foldl_cons, comp_apply]
  rw [hfold]
  exact (foldl_mixWord_bijective hk after).comp (mixWord_bijective hk _).1

theorem keepsWords (hw : 0 < w) (hk : k.Mixes) : KeepsWords k where
  keys := fun t key hwords => holds_iff (Nat.mul_pos hw (by omega)) key
  apart := fun t hasher before after x y _ hlength hne heq =>
    hne ((hashKey_bijective hk hasher before after hlength).injective heq)
  bijective := fun t hasher before after _ hlength => hashKey_bijective hk hasher before after hlength

/-- CORRECT: at both widths `hash_mix` is a bijection and the hash of a wide key keeps every word. -/
theorem hash_mix_loses_nothing : Bijective (hashMix splitmix64) ∧ Bijective (hashMix fmix32) ∧
    KeepsWords splitmix64 ∧ KeepsWords fmix32 :=
  ⟨hashMix_bijective mixes_splitmix64, hashMix_bijective mixes_fmix32,
    keepsWords (by decide) mixes_splitmix64, keepsWords (by decide) mixes_fmix32⟩

end Metl.Tables
