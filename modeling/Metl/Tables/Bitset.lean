import Metl.Schemes.Run

/-! `metl::detail::bitset`: a set of positions below `N`, packed into 32-bit words.

        word        2            1            0
              │ 0 … 0 ■ ■ │ ■ … ■ ■ ■ │ ■ … ■   ■ │
                tail    N-1                     0

    The tail is always zero. A shift makes each word of two neighbours, in place: `<<=` goes down and
    `>>=` goes up, so that neither reads a word it has already written. -/

namespace Metl.Bitset
open Metl.Schemes Function

abbrev Word := BitVec 32

/-- `words_`, and whatever the memory holds behind it. -/
abbrev Words := ℕ → Word

def wordCount (n : ℕ) : ℕ := (n + 32 - 1) / 32

def bit (index : ℕ) : Word := 1#32 <<< (index % 32)

/-- `none` where the guard on the index fails. -/
def test (n : ℕ) (words : Words) (index : ℕ) : Option Bool :=
  if index < n then some (((words (index / 32) >>> (index % 32)) &&& 1#32) != 0#32) else none

def set (n : ℕ) (words : Words) (index : ℕ) : Option Words :=
  if index < n then some (update words (index / 32) (words (index / 32) ||| bit index)) else none

def reset (n : ℕ) (words : Words) (index : ℕ) : Option Words :=
  if index < n then some (update words (index / 32) (words (index / 32) &&& ~~~bit index)) else none

section Passes
variable {α : Type} (value : (ℕ → α) → ℕ → α)

/-- `for (k = 0; k < count; ++k) words[k] = value(k)`, in place. -/
def ascending : ℕ → ℕ → (ℕ → α) → ℕ → α
  | 0, _, words => words
  | m + 1, k, words => ascending m (k + 1) (update words k (value words k))

/-- `for (k = count; k-- > 0;) words[k] = value(k)`, in place. -/
def descending : ℕ → (ℕ → α) → ℕ → α
  | 0, words => words
  | k + 1, words => descending k (update words k (value words k))

end Passes

def resetAll (n : ℕ) (words : Words) : Words := ascending (fun _ _ => 0#32) (wordCount n) 0 words

def lastWordMask (n : ℕ) : Word :=
  let tail := n % 32
  if tail = 0 then ~~~0#32 else (1#32 <<< tail) - 1#32

def shiftLeftWord (words bits : ℕ) (w : Words) (k : ℕ) : Word :=
  if k ≥ words then
    let value := w (k - words) <<< bits
    if bits ≠ 0 ∧ k > words then value ||| w (k - words - 1) >>> (32 - bits) else value
  else 0#32

/-- `operator<<=` -/
def shiftLeft (n : ℕ) (w : Words) (count : ℕ) : Words :=
  if count ≥ n then resetAll n w
  else
    let w := descending (shiftLeftWord (count / 32) (count % 32)) (wordCount n) w
    update w (wordCount n - 1) (w (wordCount n - 1) &&& lastWordMask n)

def shiftRightWord (n words bits : ℕ) (w : Words) (k : ℕ) : Word :=
  if k + words < wordCount n then
    let value := w (k + words) >>> bits
    if bits ≠ 0 ∧ k + words + 1 < wordCount n then value ||| w (k + words + 1) <<< (32 - bits) else value
  else 0#32

/-- `operator>>=` -/
def shiftRight (n : ℕ) (w : Words) (count : ℕ) : Words :=
  if count ≥ n then resetAll n w
  else ascending (shiftRightWord n (count / 32) (count % 32)) (wordCount n) 0 w

/-- `popcount_impl()`; a word is zero after 32 shifts. -/
def popcountLoop : ℕ → Word → ℕ → ℕ
  | 0, _, total => total
  | fuel + 1, value, total =>
    if value ≠ 0#32 then popcountLoop fuel (value >>> 1) (total + (value &&& 1#32).toNat) else total

def popcount (value : Word) : ℕ := popcountLoop 32 value 0

/-- `countr_zero_impl()` -/
def countrZeroLoop : ℕ → Word → ℕ → ℕ
  | 0, _, zeros => zeros
  | fuel + 1, value, zeros =>
    if value &&& 1#32 = 0#32 then countrZeroLoop fuel (value >>> 1) (zeros + 1) else zeros

def countrZero (value : Word) : ℕ := if value = 0#32 then 32 else countrZeroLoop 32 value 0

def count (n : ℕ) (words : Words) : ℕ :=
  (List.range (wordCount n)).foldl (fun total k => total + popcount (words k)) 0

def all (n : ℕ) (words : Words) : Bool := count n words == n

/-- The first non-zero word from `k` on, and its lowest bit. -/
def findLoop (n : ℕ) (words : Words) : ℕ → ℕ → ℕ
  | 0, _ => n
  | m + 1, k => if words k ≠ 0#32 then k * 32 + countrZero (words k) else findLoop n words m (k + 1)

def findFirstSet (n : ℕ) (words : Words) : ℕ := findLoop n words (wordCount n) 0

def findFirstClear (n : ℕ) (words : Words) : ℕ := findLoop n (fun k => ~~~words k) (wordCount n) 0

/-- The loop of `find_next_set()` with the word in hand. -/
def findNextLoop (n : ℕ) (words : Words) : ℕ → ℕ → Word → ℕ
  | 0, _, _ => n
  | m + 1, k, word =>
    if word ≠ 0#32 then k * 32 + countrZero word
    else if k + 1 = wordCount n then n
    else findNextLoop n words m (k + 1) (words (k + 1))

def findNextSet (n : ℕ) (words : Words) (first : ℕ) : ℕ :=
  if first ≥ n then n
  else
    let k := first / 32
    findNextLoop n words (wordCount n) k (words k &&& (~~~0#32 <<< (first % 32)))

/-- `operator==` -/
def equal (n : ℕ) (lhs rhs : Words) : Bool := (List.range (wordCount n)).all fun k => lhs k == rhs k

/-! ### The bits -/

def bitAt (words : Words) (i : ℕ) : Bool := (words (i / 32)).getLsbD (i % 32)

variable {b bits index : ℕ}

theorem bitAt_add (words : Words) (k : ℕ) (hb : b < 32) :
    bitAt words (32 * k + b) = (words k).getLsbD b := by
  rw [bitAt, show (32 * k + b) / 32 = k by omega, show (32 * k + b) % 32 = b by omega]

theorem bitAt_update (words : Words) (k : ℕ) (v : Word) (i : ℕ) :
    bitAt (update words k v) i = if i / 32 = k then v.getLsbD (i % 32) else bitAt words i := by
  unfold bitAt
  rw [update_apply]
  split <;> rfl

theorem getLsbD_bit (index : ℕ) (hb : b < 32) : (bit index).getLsbD b = decide (b = index % 32) := by
  rw [bit, BitVec.getLsbD_shiftLeft, BitVec.getLsbD_one]
  simp only [hb, decide_true, Bool.true_and, Nat.zero_lt_succ]
  rw [Bool.eq_iff_iff]
  simp
  omega

theorem getLsbD_lastWordMask (n : ℕ) (hb : b < 32) :
    (lastWordMask n).getLsbD b = decide (n % 32 = 0 ∨ b < n % 32) := by
  unfold lastWordMask
  dsimp only
  split
  · rename_i htail
    rw [BitVec.getLsbD_not, BitVec.getLsbD_zero]
    simp [htail, hb]
  · rename_i htail
    have hlt : 2 ^ (n % 32) < 2 ^ 32 := Nat.pow_lt_pow_right (by decide) (Nat.mod_lt _ (by decide))
    have hone : (1#32 <<< (n % 32)).toNat = 2 ^ (n % 32) := by
      rw [BitVec.toNat_shiftLeft, BitVec.toNat_one (by decide), Nat.one_shiftLeft, Nat.mod_eq_of_lt hlt]
    have hpos := Nat.two_pow_pos (n % 32)
    rw [BitVec.getLsbD, BitVec.toNat_sub_of_le (by
      rw [BitVec.le_def, hone, BitVec.toNat_one (by decide)]; omega), hone, BitVec.toNat_one (by decide),
      Nat.testBit_two_pow_sub_one]
    simp [htail]

/-- Bit `i` comes from bit `i - count`. -/
theorem getLsbD_shiftLeftWord (words : ℕ) (hbits : bits < 32) (w : Words) (k : ℕ) (hb : b < 32) :
    (shiftLeftWord words bits w k).getLsbD b = true ↔
      32 * words + bits ≤ 32 * k + b ∧ bitAt w (32 * k + b - (32 * words + bits)) = true := by
  unfold shiftLeftWord
  rcases Nat.lt_or_ge k words with hlt | hge
  · rw [if_neg (by omega), BitVec.getLsbD_zero]
    exact iff_of_false Bool.false_ne_true (by omega)
  · rw [if_pos hge]
    dsimp only
    rcases Nat.lt_or_ge b bits with hlow | hhigh
    · rcases Nat.lt_or_ge words k with hlt | hle
      · have hplace : 32 * k + b - (32 * words + bits) = 32 * (k - words - 1) + (32 - bits + b) := by omega
        rw [if_pos ⟨by omega, hlt⟩, hplace, bitAt_add w _ (by omega), BitVec.getLsbD_or,
          BitVec.getLsbD_shiftLeft, BitVec.getLsbD_ushiftRight]
        simp [hlow]
        omega
      · rw [if_neg (by omega), BitVec.getLsbD_shiftLeft]
        simp [hlow]
        omega
    · have hplace : 32 * k + b - (32 * words + bits) = 32 * (k - words) + (b - bits) := by omega
      have hhighpart : (w (k - words - 1) >>> (32 - bits)).getLsbD b = false := by
        rw [BitVec.getLsbD_ushiftRight, BitVec.getLsbD_of_ge _ _ (by omega)]
      rw [hplace, bitAt_add w _ (by omega)]
      split
      · rw [BitVec.getLsbD_or, hhighpart, BitVec.getLsbD_shiftLeft]
        simp [hb, hhigh]
        omega
      · rw [BitVec.getLsbD_shiftLeft]
        simp [hb, hhigh]
        omega

/-- Bit `i` comes from bit `i + count`. -/
theorem getLsbD_shiftRightWord (n words : ℕ) (hbits : bits < 32) (w : Words) (k : ℕ) (hb : b < 32) :
    (shiftRightWord n words bits w k).getLsbD b = true ↔
      32 * k + b + (32 * words + bits) < 32 * wordCount n ∧
        bitAt w (32 * k + b + (32 * words + bits)) = true := by
  unfold shiftRightWord
  rcases Nat.lt_or_ge (k + words) (wordCount n) with hlt | hge
  · rw [if_pos hlt]
    dsimp only
    rcases Nat.lt_or_ge (b + bits) 32 with hlow | hhigh
    · have hplace : 32 * k + b + (32 * words + bits) = 32 * (k + words) + (bits + b) := by omega
      rw [hplace, bitAt_add w _ (by omega)]
      split
      · rw [BitVec.getLsbD_or, BitVec.getLsbD_ushiftRight, BitVec.getLsbD_shiftLeft]
        simp [show b < 32 - bits by omega]
        omega
      · rw [BitVec.getLsbD_ushiftRight]
        exact ⟨fun h => ⟨by omega, h⟩, fun h => h.2⟩
    · have hplace : 32 * k + b + (32 * words + bits) = 32 * (k + words + 1) + (b - (32 - bits)) := by omega
      have hlowpart : (w (k + words) >>> bits).getLsbD b = false := by
        rw [BitVec.getLsbD_ushiftRight, BitVec.getLsbD_of_ge _ _ (by omega)]
      rw [hplace, bitAt_add w _ (by omega)]
      split
      · rw [BitVec.getLsbD_or, hlowpart, BitVec.getLsbD_shiftLeft]
        simp [hb, show ¬ b < 32 - bits by omega]
        omega
      · rw [hlowpart]
        exact iff_of_false Bool.false_ne_true (by omega)
  · rw [if_neg (by omega), BitVec.getLsbD_zero]
    exact iff_of_false Bool.false_ne_true (by omega)

/-! ### Passes in place -/

section Passes
variable {α : Type} {value : (ℕ → α) → ℕ → α}

/-- A pass upwards that reads no word below the one it writes. -/
theorem ascending_apply (hvalue : ∀ u v k, (∀ j, k ≤ j → u j = v j) → value u k = value v k) (m k : ℕ)
    (words : ℕ → α) (j : ℕ) : ascending value m k words j =
      if k ≤ j ∧ j < k + m then value words j else words j := by
  induction m generalizing k words with
  | zero => rw [ascending, if_neg (by omega)]
  | succ m ih =>
    rw [ascending, ih]
    rcases Nat.lt_trichotomy j k with hlt | rfl | hgt
    · rw [if_neg (by omega), if_neg (by omega), update_of_ne (by omega)]
    · rw [if_neg (by omega), if_pos (by omega), update_self]
    · have hsame : value (update words k (value words k)) j = value words j :=
        hvalue _ _ _ fun i hi => update_of_ne (by omega) _ _
      rw [hsame, update_of_ne (by omega)]
      simp only [show k + 1 ≤ j ↔ k ≤ j by omega, show k + 1 + m = k + (m + 1) by omega]

/-- A pass downwards that reads no word above the one it writes. -/
theorem descending_apply (hvalue : ∀ u v k, (∀ j, j ≤ k → u j = v j) → value u k = value v k) (m : ℕ)
    (words : ℕ → α) (j : ℕ) : descending value m words j = if j < m then value words j else words j := by
  induction m generalizing words with
  | zero => rw [descending, if_neg (by omega)]
  | succ m ih =>
    rw [descending, ih]
    rcases Nat.lt_trichotomy j m with hlt | rfl | hgt
    · have hsame : value (update words m (value words m)) j = value words j :=
        hvalue _ _ _ fun i hi => update_of_ne (by omega) _ _
      rw [if_pos hlt, if_pos (by omega), hsame]
    · rw [if_neg (by omega), if_pos (by omega), update_self]
    · rw [if_neg (by omega), if_neg (by omega), update_of_ne (by omega)]

end Passes

theorem resetAll_apply (n : ℕ) (words : Words) (k : ℕ) :
    resetAll n words k = if k < wordCount n then 0#32 else words k := by
  rw [resetAll, ascending_apply (fun _ _ _ _ => rfl)]
  simp

theorem shiftLeft_pass (n words bits : ℕ) (w : Words) (k : ℕ) :
    descending (shiftLeftWord words bits) (wordCount n) w k =
      if k < wordCount n then shiftLeftWord words bits w k else w k := by
  refine descending_apply (fun u v k huv => ?_) _ _ _
  unfold shiftLeftWord
  rw [huv (k - words) (by omega), huv (k - words - 1) (by omega)]

theorem shiftRight_pass (n words bits : ℕ) (w : Words) (k : ℕ) :
    ascending (shiftRightWord n words bits) (wordCount n) 0 w k =
      if k < wordCount n then shiftRightWord n words bits w k else w k := by
  rw [ascending_apply]
  · simp
  · intro u v k huv
    unfold shiftRightWord
    rw [huv (k + words) (by omega), huv (k + words + 1) (by omega)]

/-! ### The set -/

structure Represents (n : ℕ) (words : Words) (S : Finset ℕ) : Prop where
  bits : ∀ i, i < 32 * wordCount n → (bitAt words i = true ↔ i ∈ S)
  below : ∀ i ∈ S, i < n

theorem lt_wordCount {n i : ℕ} (h : i < n) : i < 32 * wordCount n := by
  unfold wordCount
  omega

variable {n : ℕ} {words : Words} {S : Finset ℕ}

theorem represents_set (h : Represents n words S) (hindex : index < n) :
    ∃ words', set n words index = some words' ∧ Represents n words' (insert index S) := by
  refine ⟨_, if_pos hindex, fun i hi => ?_, ?_⟩
  · rw [bitAt_update, Finset.mem_insert, ← h.bits i hi]
    split
    · rename_i hword
      rw [BitVec.getLsbD_or, getLsbD_bit _ (Nat.mod_lt _ (by decide)), ← hword, Bool.or_eq_true,
        decide_eq_true_iff, or_comm, bitAt]
      exact or_congr_left (by omega)
    · rename_i hword
      exact ⟨.inr, fun hor => hor.resolve_left (by rintro rfl; exact hword rfl)⟩
  · intro i hi
    rcases Finset.mem_insert.mp hi with rfl | hi
    · exact hindex
    · exact h.below i hi

theorem represents_reset (h : Represents n words S) (hindex : index < n) :
    ∃ words', reset n words index = some words' ∧ Represents n words' (S.erase index) := by
  refine ⟨_, if_pos hindex, fun i hi => ?_, fun i hi => h.below i (Finset.mem_of_mem_erase hi)⟩
  rw [bitAt_update, Finset.mem_erase, ← h.bits i hi]
  have hmod : i % 32 < 32 := Nat.mod_lt _ (by decide)
  split
  · rename_i hword
    rw [BitVec.getLsbD_and, BitVec.getLsbD_not, getLsbD_bit _ hmod, ← hword, bitAt]
    simp only [hmod, decide_true, Bool.true_and, Bool.and_eq_true, Bool.not_eq_true', decide_eq_false_iff_not]
    exact and_comm.trans (and_congr_left fun _ => not_congr (by omega))
  · rename_i hword
    exact ⟨fun hbit => ⟨by rintro rfl; exact hword rfl, hbit⟩, And.right⟩

theorem represents_resetAll : Represents n (resetAll n words) ∅ := by
  refine ⟨fun i hi => ?_, by simp⟩
  rw [bitAt, resetAll_apply, if_pos (by omega), BitVec.getLsbD_zero]
  simp

theorem represents_shiftLeft (hn : 0 < n) (h : Represents n words S) (c : ℕ) :
    Represents n (shiftLeft n words c) ((S.image (· + c)).filter (· < n)) := by
  unfold shiftLeft
  split
  · have hnone : (S.image (· + c)).filter (· < n) = ∅ := by
      rw [Finset.filter_eq_empty_iff]
      intro i hi
      obtain ⟨j, -, rfl⟩ := Finset.mem_image.mp hi
      omega
    rw [hnone]
    exact represents_resetAll
  · refine ⟨fun i hi => ?_, fun i hi => (Finset.mem_filter.mp hi).2⟩
    have hbit : bitAt (descending (shiftLeftWord (c / 32) (c % 32)) (wordCount n) words) i = true ↔
        c ≤ i ∧ bitAt words (i - c) = true := by
      rw [bitAt, shiftLeft_pass, if_pos (by omega), getLsbD_shiftLeftWord _ (Nat.mod_lt _ (by decide)) _ _
        (Nat.mod_lt _ (by decide)), Nat.div_add_mod, Nat.div_add_mod]
    have hmem : i ∈ (S.image (· + c)).filter (· < n) ↔ (c ≤ i ∧ bitAt words (i - c) = true) ∧ i < n := by
      rw [Finset.mem_filter, Finset.mem_image, h.bits (i - c) (by omega)]
      refine and_congr_left fun _ => ⟨?_, fun hi => ⟨i - c, hi.2, by omega⟩⟩
      rintro ⟨j, hj, rfl⟩
      exact ⟨Nat.le_add_left _ _, by rwa [Nat.add_sub_cancel]⟩
    dsimp only
    rw [hmem, ← hbit, bitAt_update]
    -- the mask cuts the last word at `N`; the words before it lie below
    split
    · rename_i hlast
      rw [BitVec.getLsbD_and, getLsbD_lastWordMask n (Nat.mod_lt _ (by decide)), ← hlast, Bool.and_eq_true,
        decide_eq_true_iff, bitAt]
      unfold wordCount at hlast
      exact and_congr_right fun _ => by omega
    · rename_i hlast
      unfold wordCount at hlast hi
      exact ⟨fun hset => ⟨hset, by omega⟩, And.left⟩

theorem represents_shiftRight (h : Represents n words S) (c : ℕ) :
    Represents n (shiftRight n words c) ((S.filter (c ≤ ·)).image (· - c)) := by
  have hmem : ∀ i, i ∈ (S.filter (c ≤ ·)).image (· - c) ↔ i + c ∈ S := by
    intro i
    rw [Finset.mem_image]
    refine ⟨?_, fun hi => ⟨i + c, Finset.mem_filter.mpr ⟨hi, Nat.le_add_left _ _⟩, Nat.add_sub_cancel _ _⟩⟩
    rintro ⟨j, hj, rfl⟩
    obtain ⟨hj, hle⟩ := Finset.mem_filter.mp hj
    rwa [Nat.sub_add_cancel hle]
  have hbelow : ∀ i ∈ (S.filter (c ≤ ·)).image (· - c), i + c < n := fun i hi => h.below _ ((hmem i).mp hi)
  unfold shiftRight
  split
  · have hnone : (S.filter (c ≤ ·)).image (· - c) = ∅ :=
      Finset.eq_empty_of_forall_notMem fun i hi => absurd (hbelow i hi) (by omega)
    rw [hnone]
    exact represents_resetAll
  · refine ⟨fun i hi => ?_, fun i hi => by have := hbelow i hi; omega⟩
    rw [bitAt, shiftRight_pass, if_pos (by omega), getLsbD_shiftRightWord _ _ (Nat.mod_lt _ (by decide)) _ _
      (Nat.mod_lt _ (by decide)), Nat.div_add_mod, Nat.div_add_mod, hmem]
    refine ⟨fun hset => (h.bits _ hset.1).mp hset.2, fun hi => ?_⟩
    have hlt := lt_wordCount (h.below _ hi)
    exact ⟨hlt, (h.bits _ hlt).mpr hi⟩

/-! ### Questions -/

theorem test_eq (h : Represents n words S) (hindex : index < n) :
    test n words index = some (decide (index ∈ S)) := by
  have hbit : ((words (index / 32) >>> (index % 32)) &&& 1#32) != 0#32 ↔ index ∈ S := by
    rw [← h.bits index (lt_wordCount hindex), bitAt, bne_iff_ne, BitVec.and_one_eq_setWidth_ofBool_getLsbD,
      BitVec.getLsbD_ushiftRight, Nat.add_zero]
    cases (words (index / 32)).getLsbD (index % 32) <;> decide
  rw [test, if_pos hindex, Bool.eq_iff_iff.mpr (hbit.trans decide_eq_true_iff.symm)]

/-- RUN: the loop counts the bits of a word that the fuel reaches. -/
theorem popcountLoop_eq (fuel : ℕ) (value : Word) (total : ℕ) (hfuel : value.toNat < 2 ^ fuel) :
    popcountLoop fuel value total = total + Nat.count (fun i => value.getLsbD i = true) fuel := by
  induction fuel generalizing value total with
  | zero => simp [popcountLoop]
  | succ fuel ih =>
    rw [popcountLoop, Nat.count_succ']
    split
    · have hhalf : (value >>> 1).toNat < 2 ^ fuel := by
        rw [BitVec.toNat_ushiftRight, Nat.shiftRight_eq_div_pow]
        omega
      have hlow : (value &&& 1#32).toNat = if value.getLsbD 0 = true then 1 else 0 := by
        rw [BitVec.and_one_eq_setWidth_ofBool_getLsbD]
        cases value.getLsbD 0 <;> rfl
      rw [ih _ _ hhalf, hlow]
      simp only [BitVec.getLsbD_ushiftRight, Nat.add_comm 1]
      omega
    · rename_i hzero
      rw [not_not.mp hzero]
      simp

theorem count_eq (h : Represents n words S) : count n words = S.card := by
  have hfold : ∀ m, (List.range m).foldl (fun total k => total + popcount (words k)) 0 =
      Nat.count (fun i => bitAt words i = true) (32 * m) := by
    intro m
    induction m with
    | zero => rfl
    | succ m ih =>
      have hword : Nat.count (fun i => (words m).getLsbD i = true) 32 =
          Nat.count (fun i => bitAt words (32 * m + i) = true) 32 := by
        rw [Nat.count_eq_card_filter_range, Nat.count_eq_card_filter_range]
        refine congrArg Finset.card (Finset.filter_congr fun i hi => ?_)
        rw [bitAt_add words m (Finset.mem_range.mp hi)]
      rw [List.range_succ, List.foldl_append, ih, Nat.mul_succ, Nat.count_add, List.foldl_cons, List.foldl_nil,
        popcount, popcountLoop_eq 32 _ _ (words m).isLt, Nat.zero_add, hword]
  rw [count, hfold, Nat.count_eq_card_filter_range]
  congr 1
  ext i
  rw [Finset.mem_filter, Finset.mem_range]
  exact ⟨fun hi => (h.bits i hi.1).mp hi.2,
    fun hi => ⟨lt_wordCount (h.below i hi), (h.bits i (lt_wordCount (h.below i hi))).mpr hi⟩⟩

/-- The lowest member at or above `first`, or `n`. -/
def Least (S : Finset ℕ) (first n r : ℕ) : Prop :=
  (r ∈ S ∧ first ≤ r ∧ ∀ i ∈ S, first ≤ i → r ≤ i) ∨ (r = n ∧ ∀ i ∈ S, i < first)

/-- RUN: the loop stops at the lowest set bit. -/
theorem countrZeroLoop_spec (fuel : ℕ) (value : Word) (zeros : ℕ)
    (hset : ∃ b < fuel, value.getLsbD b = true) :
    ∃ b < fuel, countrZeroLoop fuel value zeros = zeros + b ∧ value.getLsbD b = true ∧
      ∀ j < b, value.getLsbD j = false := by
  induction fuel generalizing value zeros with
  | zero =>
    obtain ⟨b, hb, -⟩ := hset
    omega
  | succ fuel ih =>
    have hlow : value &&& 1#32 = 0#32 ↔ value.getLsbD 0 = false := by
      rw [BitVec.and_one_eq_setWidth_ofBool_getLsbD]
      cases value.getLsbD 0 <;> decide
    rw [countrZeroLoop]
    split
    · rename_i hzero
      rw [hlow] at hzero
      have hrest : ∃ b < fuel, (value >>> 1).getLsbD b = true := by
        obtain ⟨b, hb, hset⟩ := hset
        rcases b with _ | b
        · rw [hzero] at hset
          cases hset
        · exact ⟨b, by omega, by rwa [BitVec.getLsbD_ushiftRight, Nat.add_comm]⟩
      obtain ⟨b, hb, heq, hbit, hbelow⟩ := ih _ (zeros + 1) hrest
      rw [BitVec.getLsbD_ushiftRight, Nat.add_comm] at hbit
      refine ⟨b + 1, by omega, by rw [heq]; omega, hbit, fun j hj => ?_⟩
      rcases j with _ | j
      · exact hzero
      · have := hbelow j (by omega)
        rwa [BitVec.getLsbD_ushiftRight, Nat.add_comm] at this
    · rename_i hone
      rw [hlow, Bool.not_eq_false] at hone
      exact ⟨0, by omega, rfl, hone, by omega⟩

theorem countrZero_spec {value : Word} (hne : value ≠ 0#32) :
    countrZero value < 32 ∧ value.getLsbD (countrZero value) = true ∧
      ∀ j < countrZero value, value.getLsbD j = false := by
  have hset : ∃ b < 32, value.getLsbD b = true := by
    by_contra hnone
    refine hne (BitVec.eq_of_getLsbD_eq fun i hi => ?_)
    rw [BitVec.getLsbD_zero]
    exact Bool.eq_false_iff.mpr fun hi' => hnone ⟨i, hi, hi'⟩
  obtain ⟨b, hb, heq, hbit, hbelow⟩ := countrZeroLoop_spec 32 value 0 hset
  rw [countrZero, if_neg hne, heq, Nat.zero_add]
  exact ⟨hb, hbit, hbelow⟩

/-- The first set bit of the words from `k` up to `k + m`, or `n`. -/
theorem findLoop_spec (n : ℕ) (words : Words) (m k : ℕ) :
    (bitAt words (findLoop n words m k) = true ∧ 32 * k ≤ findLoop n words m k ∧
      findLoop n words m k < 32 * (k + m) ∧ ∀ i, 32 * k ≤ i → i < findLoop n words m k → bitAt words i = false) ∨
    (findLoop n words m k = n ∧ ∀ i, 32 * k ≤ i → i < 32 * (k + m) → bitAt words i = false) := by
  induction m generalizing k with
  | zero => exact .inr ⟨rfl, fun i hlow hhigh => by omega⟩
  | succ m ih =>
    rw [findLoop]
    split
    · rename_i hne
      obtain ⟨hlt, hbit, hbelow⟩ := countrZero_spec hne
      rw [Nat.mul_comm k 32]
      refine .inl ⟨by rwa [bitAt_add words k hlt], by omega, by omega, fun i hlow hhigh => ?_⟩
      obtain ⟨b, rfl⟩ := Nat.exists_eq_add_of_le hlow
      rw [bitAt_add words k (by omega)]
      exact hbelow b (by omega)
    · rename_i hzero
      have hword : ∀ i, 32 * k ≤ i → i < 32 * (k + 1) → bitAt words i = false := by
        intro i hlow hhigh
        obtain ⟨b, rfl⟩ := Nat.exists_eq_add_of_le hlow
        rw [bitAt_add words k (by omega), not_not.mp hzero, BitVec.getLsbD_zero]
      rcases ih (k + 1) with ⟨hbit, hlow, hhigh, hbelow⟩ | ⟨heq, hnone⟩
      · refine .inl ⟨hbit, by omega, by omega, fun i hlow' hhigh' => ?_⟩
        rcases Nat.lt_or_ge i (32 * (k + 1)) with hlt | hge
        · exact hword i hlow' hlt
        · exact hbelow i hge hhigh'
      · refine .inr ⟨heq, fun i hlow' hhigh' => ?_⟩
        rcases Nat.lt_or_ge i (32 * (k + 1)) with hlt | hge
        · exact hword i hlow' hlt
        · exact hnone i hge (by omega)

/-- A search that sees the members from `first` on, and nothing else. -/
theorem findLoop_least (h : Represents n words S) {seen : Words} {first m k : ℕ} (hend : k + m = wordCount n)
    (hlow : 32 * k ≤ first) (hseen : ∀ i, 32 * k ≤ i → i < 32 * wordCount n →
      (bitAt seen i = true ↔ i ∈ S ∧ first ≤ i)) : Least S first n (findLoop n seen m k) := by
  have hmember : ∀ i ∈ S, first ≤ i → bitAt seen i = true := fun i hi hge =>
    (hseen i (by omega) (lt_wordCount (h.below i hi))).mpr ⟨hi, hge⟩
  rcases findLoop_spec n seen m k with ⟨hbit, hge, hlt, hbelow⟩ | ⟨heq, hnone⟩
  · obtain ⟨hmem, hfirst⟩ := (hseen _ hge (by rwa [hend] at hlt)).mp hbit
    refine .inl ⟨hmem, hfirst, fun i hi hi' => ?_⟩
    by_contra hgt
    have hclear := hbelow i (by omega) (Nat.lt_of_not_le hgt)
    rw [hmember i hi hi'] at hclear
    cases hclear
  · refine .inr ⟨heq, fun i hi => ?_⟩
    by_contra hge
    have hclear := hnone i (by omega) (by rw [hend]; exact lt_wordCount (h.below i hi))
    rw [hmember i hi (Nat.le_of_not_lt hge)] at hclear
    cases hclear

theorem findFirstSet_least (h : Represents n words S) : Least S 0 n (findFirstSet n words) := by
  refine findLoop_least h (Nat.zero_add _) (Nat.zero_le _) fun i _ hi => ?_
  rw [h.bits i hi]
  exact (and_iff_left (Nat.zero_le i)).symm

/-- The tail is clear, so a full bitset gives bit `N` itself. -/
theorem findFirstClear_least (h : Represents n words S) :
    Least (Finset.range n \ S) 0 n (findFirstClear n words) := by
  have hflip : ∀ i, i < 32 * wordCount n → (bitAt (fun k => ~~~words k) i = false ↔ i ∈ S) := by
    intro i hi
    rw [← h.bits i hi, bitAt, BitVec.getLsbD_not, bitAt]
    simp [Nat.mod_lt i (show 0 < 32 by decide)]
  rcases findLoop_spec n (fun k => ~~~words k) (wordCount n) 0 with ⟨hbit, -, hlt, hbelow⟩ | ⟨heq, hnone⟩
  · change Least _ 0 n (findLoop n _ _ 0)
    rw [Nat.zero_add] at hlt
    generalize findLoop n (fun k => ~~~words k) (wordCount n) 0 = r at hbit hlt hbelow ⊢
    have hclear : r ∉ S := by
      intro hr
      rw [(hflip r hlt).mpr hr] at hbit
      cases hbit
    have hset : ∀ i < r, i ∈ S := fun i hi => (hflip i (by omega)).mp (hbelow i (Nat.zero_le _) hi)
    rcases Nat.lt_trichotomy r n with hr | rfl | hr
    · refine .inl ⟨Finset.mem_sdiff.mpr ⟨Finset.mem_range.mpr hr, hclear⟩, Nat.zero_le _, fun i hi _ => ?_⟩
      by_contra hgt
      exact (Finset.mem_sdiff.mp hi).2 (hset i (by omega))
    · refine .inr ⟨rfl, fun i hi => ?_⟩
      obtain ⟨hrange, hnot⟩ := Finset.mem_sdiff.mp hi
      exact absurd (hset i (Finset.mem_range.mp hrange)) hnot
    · exact absurd (h.below n (hset n hr)) (Nat.lt_irrefl n)
  · refine .inr ⟨heq, fun i hi => ?_⟩
    obtain ⟨hrange, hnot⟩ := Finset.mem_sdiff.mp hi
    have hlt := lt_wordCount (Finset.mem_range.mp hrange)
    exact absurd ((hflip i hlt).mp (hnone i (Nat.zero_le _) (by rwa [Nat.zero_add]))) hnot

theorem findLoop_congr (n m k : ℕ) {u v : Words} (h : ∀ j, k ≤ j → u j = v j) :
    findLoop n u m k = findLoop n v m k := by
  induction m generalizing k with
  | zero => rfl
  | succ m ih => rw [findLoop, findLoop, h k (Nat.le_refl k), ih (k + 1) fun j hj => h j (by omega)]

/-- The loop with the word in hand is the other one with that word in its place. -/
theorem findNextLoop_eq (n : ℕ) (words : Words) (m k : ℕ) (word : Word) (hk : k < wordCount n)
    (hm : wordCount n ≤ k + m) :
    findNextLoop n words m k word = findLoop n (update words k word) (wordCount n - k) k := by
  induction m generalizing k word with
  | zero => omega
  | succ m ih =>
    obtain ⟨d, hd⟩ : ∃ d, wordCount n - k = d + 1 := ⟨wordCount n - k - 1, by omega⟩
    rw [findNextLoop, hd, findLoop, update_self]
    split
    · rfl
    · split
      · rw [show d = 0 by omega, findLoop]
      · rw [ih (k + 1) _ (by omega) (by omega), update_eq_self, show wordCount n - (k + 1) = d by omega]
        exact findLoop_congr n d (k + 1) fun j hj => (update_of_ne (by omega) _ _).symm

theorem findNextSet_least (h : Represents n words S) (first : ℕ) :
    Least S first n (findNextSet n words first) := by
  unfold findNextSet
  split
  · rename_i hge
    exact .inr ⟨rfl, fun i hi => Nat.lt_of_lt_of_le (h.below i hi) hge⟩
  · rename_i hlt
    dsimp only
    have hk := lt_wordCount (Nat.lt_of_not_le hlt)
    rw [findNextLoop_eq _ _ _ _ _ (by omega) (by omega)]
    refine findLoop_least h (by omega) (by omega) fun i hlow hi => ?_
    -- with the low bits of its word masked away, only bits from `first` on are seen
    have hmod : i % 32 < 32 := Nat.mod_lt _ (by decide)
    rw [bitAt_update, ← h.bits i hi]
    split
    · rename_i hword
      rw [BitVec.getLsbD_and, BitVec.getLsbD_shiftLeft, BitVec.getLsbD_not, BitVec.getLsbD_zero, ← hword, bitAt]
      simp [hmod, show i % 32 - first % 32 < 32 by omega]
      exact fun _ => by omega
    · exact ⟨fun hbit => ⟨hbit, by omega⟩, And.left⟩

theorem equal_iff (h : Represents n words S) {words' : Words} {S' : Finset ℕ} (h' : Represents n words' S') :
    equal n words words' = true ↔ S = S' := by
  rw [equal, List.all_eq_true]
  constructor
  · intro hwords
    have hbits : ∀ i, i < 32 * wordCount n → (i ∈ S ↔ i ∈ S') := by
      intro i hi
      have hword := hwords (i / 32) (List.mem_range.mpr (by omega))
      rw [← h.bits i hi, ← h'.bits i hi, bitAt, bitAt, eq_of_beq hword]
    ext i
    exact ⟨fun hi => (hbits i (lt_wordCount (h.below i hi))).mp hi,
      fun hi => (hbits i (lt_wordCount (h'.below i hi))).mpr hi⟩
  · rintro rfl k hk
    have hk := List.mem_range.mp hk
    refine beq_iff_eq.mpr (BitVec.eq_of_getLsbD_eq fun b hb => ?_)
    rw [← bitAt_add words k hb, ← bitAt_add words' k hb, Bool.eq_iff_iff, h.bits _ (by omega), h'.bits _ (by omega)]

/-! ### Every run -/

inductive Act where
  | set (index : ℕ)
  | reset (index : ℕ)
  | resetAll
  | shiftLeft (count : ℕ)
  | shiftRight (count : ℕ)

/-- The guards on the indices hold. -/
def Act.Valid (n : ℕ) : Act → Prop
  | .set index => index < n
  | .reset index => index < n
  | _ => True

def step (n : ℕ) (words : Words) : Act → Option Words
  | .set index => set n words index
  | .reset index => reset n words index
  | .resetAll => some (resetAll n words)
  | .shiftLeft count => some (shiftLeft n words count)
  | .shiftRight count => some (shiftRight n words count)

/-- What the operations do to the set. -/
def next (n : ℕ) (S : Finset ℕ) : Act → Finset ℕ
  | .set index => insert index S
  | .reset index => S.erase index
  | .resetAll => ∅
  | .shiftLeft count => (S.image (· + count)).filter (· < n)
  | .shiftRight count => (S.filter (count ≤ ·)).image (· - count)

/-- The empty bitset in a memory with any contents. -/
def empty (n : ℕ) (memory : Words) : Words := fun k => if k < wordCount n then 0#32 else memory k

theorem represents_empty (memory : Words) : Represents n (empty n memory) ∅ := by
  refine ⟨fun i hi => ?_, by simp⟩
  rw [bitAt, empty, if_pos (by omega), BitVec.getLsbD_zero]
  simp

/-- STEP: a valid operation goes through and does to the set what it says. -/
theorem step_represents (hn : 0 < n) (h : Represents n words S) {a : Act} (ha : a.Valid n) :
    ∃ words', step n words a = some words' ∧ Represents n words' (next n S a) := by
  cases a with
  | set index => exact represents_set h ha
  | reset index => exact represents_reset h ha
  | resetAll => exact ⟨_, rfl, represents_resetAll⟩
  | shiftLeft count => exact ⟨_, rfl, represents_shiftLeft hn h count⟩
  | shiftRight count => exact ⟨_, rfl, represents_shiftRight h count⟩

/-- RUN: so does a sequence of them. -/
theorem run_represents (hn : 0 < n) (acts : List Act) (h : Represents n words S)
    (hacts : ∀ a ∈ acts, a.Valid n) :
    ∃ words', run (step n) words acts = some words' ∧ Represents n words' (acts.foldl (next n) S) :=
  run_total (next n) (Represents n) (Act.Valid n) (fun _ _ _ h ha => step_represents hn h ha) h hacts

/-- The answers of a bitset that holds `S`. -/
structure Answers (n : ℕ) (words : Words) (S : Finset ℕ) : Prop where
  represents : Represents n words S
  test_eq : ∀ i < n, test n words i = some (decide (i ∈ S))
  count_eq : count n words = S.card
  all_iff : all n words = true ↔ S.card = n
  first_set : Least S 0 n (findFirstSet n words)
  next_set : ∀ first, Least S first n (findNextSet n words first)
  first_clear : Least (Finset.range n \ S) 0 n (findFirstClear n words)
  equal_iff : ∀ words' S', Represents n words' S' → (equal n words words' = true ↔ S = S')

theorem Represents.answers (h : Represents n words S) : Answers n words S where
  represents := h
  test_eq := fun _ hi => Bitset.test_eq h hi
  count_eq := Bitset.count_eq h
  all_iff := by rw [all, beq_iff_eq, Bitset.count_eq h]
  first_set := findFirstSet_least h
  next_set := findNextSet_least h
  first_clear := findFirstClear_least h
  equal_iff := fun _ _ h' => Bitset.equal_iff h h'

/-- CORRECT: after any sequence of operations the words hold the set of the sequence, the tail is zero,
    and every question is answered from the set. -/
theorem represents_positions (n : ℕ) (hn : 1 ≤ n) (memory : Words) (acts : List Act)
    (hacts : ∀ a ∈ acts, a.Valid n) :
    ∃ words, run (step n) (empty n memory) acts = some words ∧
      Answers n words (acts.foldl (next n) ∅) := by
  obtain ⟨words, hrun, h⟩ := run_represents hn acts (represents_empty memory) hacts
  exact ⟨words, hrun, h.answers⟩

/-- A shift across the word boundary and off the end of forty bits. -/
theorem represents_positions_sample :
    ∃ words, run (step 40) (empty 40 fun _ => 0#32) [.set 3, .set 30, .shiftLeft 7] = some words ∧
      Answers 40 words ([.set 3, .set 30, .shiftLeft 7].foldl (next 40) ∅) := by
  refine represents_positions 40 (by decide) _ _ fun a ha => ?_
  simp only [List.mem_cons, List.not_mem_nil, or_false] at ha
  rcases ha with rfl | rfl | rfl
  · exact (by decide : 3 < 40)
  · exact (by decide : 30 < 40)
  · exact trivial

/-! ### Shifts in a row -/

theorem next_shiftLeft (n : ℕ) (S : Finset ℕ) (a b : ℕ) :
    next n (next n S (.shiftLeft a)) (.shiftLeft b) = next n S (.shiftLeft (a + b)) := by
  ext i
  simp only [next, Finset.mem_filter, Finset.mem_image]
  grind

theorem next_shiftRight (n : ℕ) (S : Finset ℕ) (a b : ℕ) :
    next n (next n S (.shiftRight a)) (.shiftRight b) = next n S (.shiftRight (a + b)) := by
  ext i
  simp only [next, Finset.mem_filter, Finset.mem_image]
  grind

/-- CORRECT: after any operations, two shifts in a row are one by the sum of their counts. -/
theorem shifts_add_up (n : ℕ) (hn : 1 ≤ n) (memory : Words) (acts : List Act)
    (hacts : ∀ a ∈ acts, a.Valid n) (a b : ℕ) :
    ∃ words, run (step n) (empty n memory) acts = some words ∧
      equal n (shiftLeft n (shiftLeft n words a) b) (shiftLeft n words (a + b)) = true ∧
      equal n (shiftRight n (shiftRight n words a) b) (shiftRight n words (a + b)) = true := by
  obtain ⟨words, hrun, h⟩ := run_represents hn acts (represents_empty memory) hacts
  have hleft := represents_shiftLeft hn (represents_shiftLeft hn h a) b
  have hright := represents_shiftRight (represents_shiftRight h a) b
  exact ⟨words, hrun, (equal_iff hleft (represents_shiftLeft hn h _)).mpr (next_shiftLeft n _ a b),
    (equal_iff hright (represents_shiftRight h _)).mpr (next_shiftRight n _ a b)⟩

theorem shifts_add_up_sample : ∃ words, run (step 40) (empty 40 fun _ => 0#32) [.set 3] = some words ∧
    equal 40 (shiftLeft 40 (shiftLeft 40 words 30) 5) (shiftLeft 40 words 35) = true :=
  (shifts_add_up 40 (by decide) _ _ (by simp [Act.Valid]) 30 5).imp fun _ h => ⟨h.1, h.2.1⟩

end Metl.Bitset
