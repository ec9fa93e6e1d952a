import Mathlib.Data.BitVec

/-! The cyclic redundancy checks `crc8`, `crc16` and `crc32`.

        forward     crc ◀─ 0        the register leaves by its most significant bit
        reflected   0 ─▶ crc        or by its least significant one

    One byte is eight shift-and-conditional-xor steps, or two look-ups in a table of sixteen entries,
    according to `METL_CRC_TABLE`. A shift is linear, so four steps are those of the nibble that leaves
    the register and a plain shift of the rest. -/

namespace Metl.Crc

abbrev Byte := BitVec 8

variable {w : ℕ}

/-! ### One byte -/

/-- One step of a reflected register. -/
def shiftReflected (polynomial value : BitVec w) : BitVec w :=
  if value &&& 1#w ≠ 0#w then (value >>> 1) ^^^ polynomial else value >>> 1

def topBit (w : ℕ) : BitVec w := 1#w <<< (w - 1)

/-- One step of a forward register. -/
def shiftForward (polynomial value : BitVec w) : BitVec w :=
  if value &&& topBit w ≠ 0#w then (value <<< 1) ^^^ polynomial else value <<< 1

/-- `for (int step = 0; step < n; ++step) value = shift(value)` -/
def steps (shift : BitVec w → BitVec w) : ℕ → BitVec w → BitVec w
  | 0, value => value
  | n + 1, value => steps shift n (shift value)

/-- `crc_nibble_table_reflected_v` -/
def nibbleTableReflected (polynomial : BitVec w) (index : ℕ) : BitVec w :=
  steps (shiftReflected polynomial) 4 (BitVec.ofNat w index)

/-- `crc_nibble_table_forward_v` -/
def nibbleTableForward (polynomial : BitVec w) (index : ℕ) : BitVec w :=
  steps (shiftForward polynomial) 4 (BitVec.ofNat w index <<< (w - 4))

def nibbleReflected (polynomial crc : BitVec w) : BitVec w :=
  (crc >>> 4) ^^^ nibbleTableReflected polynomial (crc &&& 0x0F#w).toNat

def nibbleForward (polynomial crc : BitVec w) : BitVec w :=
  (crc <<< 4) ^^^ nibbleTableForward polynomial ((crc >>> (w - 4)) &&& 0x0F#w).toNat

/-- `crc_update_byte_reflected` -/
def updateByteReflected (polynomial crc : BitVec w) (byte : Byte) : BitVec w :=
  nibbleReflected polynomial (nibbleReflected polynomial (crc ^^^ byte.setWidth w))

/-- `crc_update_byte_forward` -/
def updateByteForward (polynomial crc : BitVec w) (byte : Byte) : BitVec w :=
  nibbleForward polynomial (nibbleForward polynomial (crc ^^^ (byte.setWidth w <<< (w - 8))))

def crc8Polynomial : BitVec 8 := 0x07#8

def crc16Polynomial : BitVec 16 := 0x1021#16

def crc32Polynomial : BitVec 32 := 0xEDB88320#32

/-- `table` is `METL_CRC_TABLE`. -/
def crc8UpdateByte (table : Bool) (crc : BitVec 8) (byte : Byte) : BitVec 8 :=
  if table then updateByteForward crc8Polynomial crc byte
  else steps (shiftForward crc8Polynomial) 8 (crc ^^^ byte)

def crc16UpdateByte (table : Bool) (crc : BitVec 16) (byte : Byte) : BitVec 16 :=
  if table then updateByteForward crc16Polynomial crc byte
  else steps (shiftForward crc16Polynomial) 8 (crc ^^^ (byte.setWidth 16 <<< 8))

def crc32UpdateByte (table : Bool) (crc : BitVec 32) (byte : Byte) : BitVec 32 :=
  if table then updateByteReflected crc32Polynomial crc byte
  else steps (shiftReflected crc32Polynomial) 8 (crc ^^^ byte.setWidth 32)

/-! ### A message -/

structure Params (w : ℕ) where
  initial : BitVec w
  finalXor : BitVec w
  deriving DecidableEq, Repr

/-- `crc_fold` -/
def crcFold (update : BitVec w → Byte → BitVec w) (bytes : List Byte) (params : Params w) : BitVec w :=
  bytes.foldl update params.initial ^^^ params.finalXor

def crc8Params : Params 8 := ⟨0x00#8, 0x00#8⟩

def crc16Params : Params 16 := ⟨0xFFFF#16, 0x0000#16⟩

def crc32Params : Params 32 := ⟨0xFFFFFFFF#32, 0xFFFFFFFF#32⟩

def crc8 (table : Bool) (bytes : List Byte) (params : Params 8) : BitVec 8 :=
  crcFold (crc8UpdateByte table) bytes params

def crc16 (table : Bool) (bytes : List Byte) (params : Params 16) : BitVec 16 :=
  crcFold (crc16UpdateByte table) bytes params

def crc32 (table : Bool) (bytes : List Byte) (params : Params 32) : BitVec 32 :=
  crcFold (crc32UpdateByte table) bytes params

/-- A message in parts: each later one is seeded with the result so far. -/
def chained (crc : List Byte → Params w → BitVec w) (params : Params w) : List (List Byte) → BitVec w
  | [] => crc [] params
  | part :: parts =>
    parts.foldl (fun result part => crc part ⟨result ^^^ params.finalXor, params.finalXor⟩)
      (crc part params)

/-! ### Four steps at once -/

theorem ne_zero_iff {x : BitVec w} {i : ℕ}
    (h : ∀ j, j < w → x.getLsbD j = true → j = i) : x ≠ 0#w ↔ x.getLsbD i = true := by
  constructor
  · intro hne
    by_contra hfalse
    refine hne (BitVec.eq_of_getLsbD_eq fun j hj => ?_)
    rw [BitVec.getLsbD_zero]
    by_contra hset
    rw [Bool.not_eq_false] at hset
    exact hfalse (h j hj hset ▸ hset)
  · rintro hset rfl
    rw [BitVec.getLsbD_zero] at hset
    cases hset

theorem and_topBit (x : BitVec w) (hw : 0 < w) : x &&& topBit w ≠ 0#w ↔ x.msb = true := by
  rw [ne_zero_iff (i := w - 1)]
  · simp [topBit, BitVec.msb_eq_getLsbD_last, show w - 1 < w by omega]
  · intro j hj
    simp only [topBit, BitVec.getLsbD_and, BitVec.getLsbD_shiftLeft, BitVec.getLsbD_one]
    simp
    omega

theorem and_one (x : BitVec w) (hw : 0 < w) : x &&& 1#w ≠ 0#w ↔ x.getLsbD 0 = true := by
  rw [ne_zero_iff (i := 0)]
  · simp [hw]
  · intro j hj
    simp

/-- The step in the form of a register with feedback. -/
theorem shiftForward_eq (polynomial value : BitVec w) (hw : 0 < w) : shiftForward polynomial value =
      if value.msb then (value <<< 1) ^^^ polynomial else value <<< 1 := by
  unfold shiftForward
  simp only [and_topBit value hw]

theorem shiftReflected_eq (polynomial value : BitVec w) (hw : 0 < w) : shiftReflected polynomial value =
      if value.getLsbD 0 then (value >>> 1) ^^^ polynomial else value >>> 1 := by
  unfold shiftReflected
  simp only [and_one value hw]

/-- What makes `n` steps those of the parts of a value. -/
def Linear (shift : BitVec w → BitVec w) : Prop := ∀ x y, shift (x ^^^ y) = shift x ^^^ shift y

theorem xor_cancel (a b p : BitVec w) : (a ^^^ p) ^^^ (b ^^^ p) = a ^^^ b := by
  rw [BitVec.xor_assoc, BitVec.xor_comm b p, ← BitVec.xor_assoc p p b, BitVec.xor_self, BitVec.zero_xor]

theorem linear_shiftForward (polynomial : BitVec w) (hw : 0 < w) : Linear (shiftForward polynomial) := by
  intro x y
  simp only [shiftForward_eq _ _ hw, BitVec.msb_xor, BitVec.shiftLeft_xor_distrib]
  cases x.msb <;> cases y.msb <;> simp [xor_cancel] <;> ac_rfl

theorem linear_shiftReflected (polynomial : BitVec w) (hw : 0 < w) :
    Linear (shiftReflected polynomial) := by
  intro x y
  simp only [shiftReflected_eq _ _ hw, BitVec.getLsbD_xor, BitVec.ushiftRight_xor_distrib]
  cases x.getLsbD 0 <;> cases y.getLsbD 0 <;> simp [xor_cancel] <;> ac_rfl

theorem Linear.steps {shift : BitVec w → BitVec w} (h : Linear shift) (n : ℕ) :
    Linear (steps shift n) := by
  intro x y
  induction n generalizing x y with
  | zero => rfl
  | succ n ih => rw [Crc.steps, Crc.steps, Crc.steps, h, ih]

theorem steps_add (shift : BitVec w → BitVec w) (m n : ℕ) (x : BitVec w) :
    steps shift (m + n) x = steps shift n (steps shift m x) := by
  induction m generalizing x with
  | zero => rw [Nat.zero_add, steps]
  | succ m ih => rw [Nat.succ_add, steps, ih, steps]

/-- A value whose top `n` bits are clear is only shifted. -/
theorem steps_forward_low (polynomial : BitVec w) {n : ℕ} {x : BitVec w} (hn : n ≤ w)
    (hx : ∀ i, w ≤ i + n → x.getLsbD i = false) : steps (shiftForward polynomial) n x = x <<< n := by
  induction n generalizing x with
  | zero => rw [steps, BitVec.shiftLeft_zero]
  | succ n ih =>
    have hmsb : x.msb = false := by
      rw [BitVec.msb_eq_getLsbD_last]
      exact hx _ (by omega)
    rw [steps, shiftForward_eq _ _ (by omega), hmsb, if_neg (by simp), Nat.add_comm, BitVec.shiftLeft_add]
    refine ih (by omega) fun i hi => ?_
    rw [BitVec.getLsbD_shiftLeft]
    by_cases hlt : i < 1
    · simp [hlt]
    · rw [hx (i - 1) (by omega)]
      simp

/-- A value whose low `n` bits are clear is only shifted. -/
theorem steps_reflected_high (polynomial : BitVec w) {n : ℕ} {x : BitVec w} (hn : n ≤ w)
    (hx : ∀ i, i < n → x.getLsbD i = false) : steps (shiftReflected polynomial) n x = x >>> n := by
  induction n generalizing x with
  | zero => rw [steps, BitVec.ushiftRight_zero]
  | succ n ih =>
    rw [steps, shiftReflected_eq _ _ (by omega), hx 0 (by omega), if_neg (by simp), Nat.add_comm,
      BitVec.shiftRight_add]
    refine ih (by omega) fun i hi => ?_
    rw [BitVec.getLsbD_ushiftRight]
    exact hx _ (by omega)

theorem getLsbD_mask (hw : 4 ≤ w) (i : ℕ) : (0x0F#w).getLsbD i = decide (i < 4) := by
  rw [BitVec.getLsbD_ofNat]
  have hmask : (0x0F : ℕ) = 2 ^ 4 - 1 := rfl
  rw [hmask, Nat.testBit_two_pow_sub_one]
  by_cases hi : i < 4
  · simp [hi, show i < w by omega]
  · simp [hi]

/-- STEP: a look-up in the forward table is four steps. -/
theorem nibbleForward_eq (polynomial crc : BitVec w) (hw : 4 ≤ w) :
    nibbleForward polynomial crc = steps (shiftForward polynomial) 4 crc := by
  -- the nibble that leaves the register, and the rest
  have hsplit : crc = ((crc >>> (w - 4)) &&& 0x0F#w) <<< (w - 4) ^^^
      (crc &&& ((BitVec.allOnes w) >>> 4)) := by
    refine BitVec.eq_of_getLsbD_eq fun i hi => ?_
    simp only [BitVec.getLsbD_xor, BitVec.getLsbD_shiftLeft, BitVec.getLsbD_and,
      BitVec.getLsbD_ushiftRight, getLsbD_mask hw, BitVec.getLsbD_allOnes]
    by_cases hlow : i < w - 4
    · simp [hi, hlow, show 4 + i < w by omega]
    · have hidx : w - 4 + (i - (w - 4)) = i := by omega
      simp [hi, hlow, hidx, show ¬ 4 + i < w by omega, show i - (w - 4) < 4 by omega]
  have hlow : steps (shiftForward polynomial) 4 (crc &&& ((BitVec.allOnes w) >>> 4)) = crc <<< 4 := by
    rw [steps_forward_low polynomial hw]
    · refine BitVec.eq_of_getLsbD_eq fun i hi => ?_
      simp only [BitVec.getLsbD_shiftLeft, BitVec.getLsbD_and, BitVec.getLsbD_ushiftRight,
        BitVec.getLsbD_allOnes]
      by_cases hlt : i < 4
      · simp [hlt]
      · simp [hi, hlt, show 4 + (i - 4) < w by omega]
    · intro i hi
      simp only [BitVec.getLsbD_and, BitVec.getLsbD_ushiftRight, BitVec.getLsbD_allOnes]
      simp
      omega
  have hlinear := (linear_shiftForward polynomial (by omega : 0 < w)).steps 4
  conv_rhs => rw [hsplit, hlinear, hlow, BitVec.xor_comm]
  rw [nibbleForward, nibbleTableForward, BitVec.ofNat_toNat, BitVec.setWidth_eq]

/-- STEP: a look-up in the reflected table is four steps. -/
theorem nibbleReflected_eq (polynomial crc : BitVec w) (hw : 4 ≤ w) :
    nibbleReflected polynomial crc = steps (shiftReflected polynomial) 4 crc := by
  have hsplit : crc = (crc &&& 0x0F#w) ^^^ ((crc >>> 4) <<< 4) := by
    refine BitVec.eq_of_getLsbD_eq fun i hi => ?_
    simp only [BitVec.getLsbD_xor, BitVec.getLsbD_shiftLeft, BitVec.getLsbD_and,
      BitVec.getLsbD_ushiftRight, getLsbD_mask hw]
    by_cases hlow : i < 4
    · simp [hlow]
    · simp [hi, hlow, show 4 + (i - 4) = i by omega]
  have hhigh : steps (shiftReflected polynomial) 4 ((crc >>> 4) <<< 4) = crc >>> 4 := by
    rw [steps_reflected_high polynomial hw]
    · refine BitVec.eq_of_getLsbD_eq fun i hi => ?_
      simp only [BitVec.getLsbD_ushiftRight, BitVec.getLsbD_shiftLeft]
      by_cases hlt : 4 + i < w
      · simp [hlt]
      · rw [BitVec.getLsbD_of_ge crc (4 + i) (by omega)]
        simp [hlt]
    · intro i hi
      rw [BitVec.getLsbD_shiftLeft]
      simp [hi]
  have hlinear := (linear_shiftReflected polynomial (by omega : 0 < w)).steps 4
  conv_rhs => rw [hsplit, hlinear, hhigh, BitVec.xor_comm]
  rw [nibbleReflected, nibbleTableReflected, BitVec.ofNat_toNat, BitVec.setWidth_eq]

theorem updateByteForward_eq (polynomial crc : BitVec w) (byte : Byte) (hw : 4 ≤ w) :
    updateByteForward polynomial crc byte =
      steps (shiftForward polynomial) 8 (crc ^^^ (byte.setWidth w <<< (w - 8))) := by
  rw [updateByteForward, nibbleForward_eq _ _ hw, nibbleForward_eq _ _ hw, ← steps_add]

theorem updateByteReflected_eq (polynomial crc : BitVec w) (byte : Byte) (hw : 4 ≤ w) :
    updateByteReflected polynomial crc byte =
      steps (shiftReflected polynomial) 8 (crc ^^^ byte.setWidth w) := by
  rw [updateByteReflected, nibbleReflected_eq _ _ hw, nibbleReflected_eq _ _ hw, ← steps_add]

/-! ### Parts -/

/-- RUN: a message in parts gives the value of the whole. -/
theorem chained_crcFold (update : BitVec w → Byte → BitVec w) (params : Params w)
    (parts : List (List Byte)) :
    chained (crcFold update) params parts = crcFold update parts.flatten params := by
  -- the seed of a part is the register the parts before it have left
  have hseed : ∀ (parts : List (List Byte)) (crc : BitVec w),
      parts.foldl (fun result part => crcFold update part ⟨result ^^^ params.finalXor, params.finalXor⟩)
        (crc ^^^ params.finalXor) = parts.flatten.foldl update crc ^^^ params.finalXor := by
    intro parts
    induction parts with
    | nil => exact fun crc => rfl
    | cons part parts ih =>
      intro crc
      rw [List.foldl_cons, List.flatten_cons, List.foldl_append, crcFold, BitVec.xor_assoc,
        BitVec.xor_self, BitVec.xor_zero]
      exact ih _
  cases parts with
  | nil => rfl
  | cons part parts =>
    rw [chained, List.flatten_cons, crcFold, hseed, crcFold, List.foldl_append]

end Metl.Crc
