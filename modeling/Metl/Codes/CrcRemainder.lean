import Metl.Codes.Crc
import Metl.Schemes.Gf2

/-! The checks compute remainders of polynomials over the field of two elements.

        register after n bytes  =  (initial · X⁸ⁿ + message · Xʷ)  mod  generator

    A reflected register holds its polynomial backwards; so do its bytes and its generator. Reversed, it
    is a forward register. -/

namespace Metl.Crc

open Metl.Schemes Polynomial

variable {w : ℕ}

/-- The polynomial of a message, its first byte having the highest powers. -/
noncomputable def messagePoly (bytes : List Byte) : (ZMod 2)[X] :=
  bytes.foldl (fun f byte => f * X ^ 8 + bitPoly byte) 0

/-- A value as a polynomial register holds it. -/
def inOrder {v : ℕ} (reflected : Bool) (x : BitVec v) : BitVec v := if reflected then x.reverse else x

/-! ### Forward registers -/

theorem residue_shiftForward (polynomial crc : BitVec w) (hw : 0 < w) :
    residue polynomial (bitPoly (shiftForward polynomial crc)) =
      residue polynomial (bitPoly crc * X) := by
  rw [shiftForward_eq _ _ hw]
  exact residue_feedback polynomial crc hw

theorem residue_steps (polynomial crc : BitVec w) (hw : 0 < w) (n : ℕ) :
    residue polynomial (bitPoly (steps (shiftForward polynomial) n crc)) =
      residue polynomial (bitPoly crc * X ^ n) := by
  induction n generalizing crc with
  | zero => rw [steps, pow_zero, mul_one]
  | succ n ih =>
    rw [steps, ih, map_mul, residue_shiftForward _ _ hw, ← map_mul, mul_assoc, ← pow_succ']

/-- One byte, bit by bit. -/
def forwardByte (polynomial crc : BitVec w) (byte : Byte) : BitVec w :=
  steps (shiftForward polynomial) 8 (crc ^^^ (byte.setWidth w <<< (w - 8)))

theorem residue_forwardByte (polynomial crc : BitVec w) (byte : Byte) (hw : 8 ≤ w) :
    residue polynomial (bitPoly (forwardByte polynomial crc byte)) =
      residue polynomial (bitPoly crc * X ^ 8 + bitPoly byte * X ^ w) := by
  have hshift : bitPoly (byte.setWidth w <<< (w - 8)) = bitPoly byte * X ^ (w - 8) := by
    rw [bitPoly_shiftLeft, bitPoly_setWidth _ hw]
    intro i hi
    rw [BitVec.getLsbD_setWidth, BitVec.getLsbD_of_ge byte i (by omega), Bool.and_false]
  rw [forwardByte, residue_steps _ _ (by omega), bitPoly_xor, hshift, add_mul, mul_assoc, ← pow_add,
    Nat.sub_add_cancel hw]

/-- RUN: the register after a message. -/
theorem residue_forward (polynomial crc : BitVec w) (bytes : List Byte) (hw : 8 ≤ w) :
    residue polynomial (bitPoly (bytes.foldl (forwardByte polynomial) crc)) =
      residue polynomial (bitPoly crc * X ^ (8 * bytes.length) + messagePoly bytes * X ^ w) := by
  -- byte by byte from the end, as the message's polynomial is built
  induction bytes using List.reverseRecOn with
  | nil => simp [messagePoly]
  | append_singleton bytes byte ih =>
    have hmessage : messagePoly (bytes ++ [byte]) = messagePoly bytes * X ^ 8 + bitPoly byte := by
      rw [messagePoly, List.foldl_append]
      rfl
    have hpoly : bitPoly crc * X ^ (8 * (bytes.length + 1)) +
        (messagePoly bytes * X ^ 8 + bitPoly byte) * X ^ w =
        (bitPoly crc * X ^ (8 * bytes.length) + messagePoly bytes * X ^ w) * X ^ 8 +
          bitPoly byte * X ^ w := by
      ring
    rw [hmessage, List.length_append, List.length_singleton, hpoly, map_add, map_mul, ← ih, ← map_mul,
      ← map_add, List.foldl_append]
    exact residue_forwardByte polynomial _ byte hw

/-! ### Reflected registers -/

theorem reverse_xor (x y : BitVec w) : (x ^^^ y).reverse = x.reverse ^^^ y.reverse := by
  refine BitVec.eq_of_getLsbD_eq fun i hi => ?_
  rw [BitVec.getLsbD_xor, BitVec.getLsbD_reverse, BitVec.getLsbD_reverse, BitVec.getLsbD_reverse,
    BitVec.getMsbD_xor]

theorem reverse_ushiftRight (x : BitVec w) : (x >>> 1).reverse = x.reverse <<< 1 := by
  refine BitVec.eq_of_getLsbD_eq fun i hi => ?_
  rw [BitVec.getLsbD_reverse, BitVec.getLsbD_shiftLeft, BitVec.getLsbD_reverse,
    BitVec.getMsbD_eq_getLsbD, BitVec.getMsbD_eq_getLsbD, BitVec.getLsbD_ushiftRight]
  rcases eq_or_ne i 0 with rfl | hzero
  · simp only [Nat.zero_lt_one, decide_true, Bool.not_true, Bool.and_false, Bool.false_and]
    rw [BitVec.getLsbD_of_ge x _ (by omega), Bool.and_false]
  · have hidx : 1 + (w - 1 - i) = w - 1 - (i - 1) := by omega
    simp [hidx, hi, show ¬ i < 1 by omega, show i - 1 < w by omega]

/-- STEP: reversed, a reflected step is a forward one. -/
theorem reverse_shiftReflected (polynomial crc : BitVec w) (hw : 0 < w) :
    (shiftReflected polynomial crc).reverse = shiftForward polynomial.reverse crc.reverse := by
  have hmsb : crc.reverse.msb = crc.getLsbD 0 := by
    rw [BitVec.msb, BitVec.getMsbD_reverse]
  rw [shiftReflected_eq _ _ hw, shiftForward_eq _ _ hw, hmsb]
  cases crc.getLsbD 0 with
  | true => simp only [if_true, reverse_xor, reverse_ushiftRight]
  | false => simp only [Bool.false_eq_true, if_false, reverse_ushiftRight]

theorem reverse_steps (polynomial crc : BitVec w) (hw : 0 < w) (n : ℕ) :
    (steps (shiftReflected polynomial) n crc).reverse =
      steps (shiftForward polynomial.reverse) n crc.reverse := by
  induction n generalizing crc with
  | zero => rfl
  | succ n ih => rw [steps, steps, ih, reverse_shiftReflected _ _ hw]

theorem reverse_setWidth (byte : Byte) (hw : 8 ≤ w) :
    (byte.setWidth w).reverse = byte.reverse.setWidth w <<< (w - 8) := by
  refine BitVec.eq_of_getLsbD_eq fun i hi => ?_
  rw [BitVec.getLsbD_reverse, BitVec.getMsbD_eq_getLsbD, BitVec.getLsbD_setWidth,
    BitVec.getLsbD_shiftLeft, BitVec.getLsbD_setWidth, BitVec.getLsbD_reverse, BitVec.getMsbD_eq_getLsbD]
  by_cases hlow : i < w - 8
  · rw [BitVec.getLsbD_of_ge byte _ (by omega)]
    simp [hlow]
  · have hidx : w - 1 - i = 8 - 1 - (i - (w - 8)) := by omega
    simp [hi, hlow, hidx, show i - (w - 8) < 8 by omega, show i - (w - 8) < w by omega,
      show 8 - 1 - (i - (w - 8)) < w by omega]

/-- One byte, bit by bit. -/
def reflectedByte (polynomial crc : BitVec w) (byte : Byte) : BitVec w :=
  steps (shiftReflected polynomial) 8 (crc ^^^ byte.setWidth w)

/-- RUN: reversed, a reflected register is the forward one over the reversed bytes. -/
theorem reverse_reflected (polynomial crc : BitVec w) (bytes : List Byte) (hw : 8 ≤ w) :
    (bytes.foldl (reflectedByte polynomial) crc).reverse =
      (bytes.map BitVec.reverse).foldl (forwardByte polynomial.reverse) crc.reverse := by
  induction bytes generalizing crc with
  | nil => rfl
  | cons byte bytes ih =>
    have hbyte : (reflectedByte polynomial crc byte).reverse =
        forwardByte polynomial.reverse crc.reverse byte.reverse := by
      rw [reflectedByte, forwardByte, reverse_steps _ _ (by omega), reverse_xor, reverse_setWidth _ hw]
    rw [List.foldl_cons, ih, List.map_cons, List.foldl_cons, hbyte]

/-! ### The checks -/

/-- What is asked of a check: parts chain, the table changes nothing, and the register is a remainder. -/
structure Correct (reflected : Bool) (polynomial : BitVec w)
    (crc : Bool → List Byte → Params w → BitVec w) : Prop where
  chains : ∀ table params parts, chained (crc table) params parts = crc table parts.flatten params
  table_eq : ∀ bytes params, crc true bytes params = crc false bytes params
  remainder : ∀ bytes params,
    bitPoly (inOrder reflected (crc false bytes params ^^^ params.finalXor)) =
      (bitPoly (inOrder reflected params.initial) * X ^ (8 * bytes.length) +
        messagePoly (bytes.map (inOrder reflected)) * X ^ w) %ₘ
          generator (inOrder reflected polynomial)

theorem register_eq (update : BitVec w → Byte → BitVec w) (bytes : List Byte) (params : Params w) :
    crcFold update bytes params ^^^ params.finalXor = bytes.foldl update params.initial := by
  rw [crcFold, BitVec.xor_assoc, BitVec.xor_self, BitVec.xor_zero]

theorem correct_forward {update : Bool → BitVec w → Byte → BitVec w} (polynomial : BitVec w)
    (hw : 8 ≤ w) (htable : update true = updateByteForward polynomial)
    (hbits : update false = forwardByte polynomial) :
    Correct false polynomial fun table => crcFold (update table) where
  chains := fun table params parts => chained_crcFold (update table) params parts
  table_eq := fun bytes params => by
    have hsame : updateByteForward polynomial = forwardByte polynomial := by
      funext crc byte
      exact updateByteForward_eq polynomial crc byte (by omega)
    rw [htable, hbits, hsame]
  remainder := fun bytes params => by
    have hid : bytes.map (inOrder false) = bytes := List.map_id bytes
    rw [register_eq, hbits, hid]
    exact bitPoly_eq_modByMonic (residue_forward polynomial params.initial bytes hw)

theorem correct_reflected {update : Bool → BitVec w → Byte → BitVec w} (polynomial : BitVec w)
    (hw : 8 ≤ w) (htable : update true = updateByteReflected polynomial)
    (hbits : update false = reflectedByte polynomial) :
    Correct true polynomial fun table => crcFold (update table) where
  chains := fun table params parts => chained_crcFold (update table) params parts
  table_eq := fun bytes params => by
    have hsame : updateByteReflected polynomial = reflectedByte polynomial := by
      funext crc byte
      exact updateByteReflected_eq polynomial crc byte (by omega)
    rw [htable, hbits, hsame]
  remainder := fun bytes params => by
    have hrev : bytes.map (inOrder true) = bytes.map BitVec.reverse := rfl
    rw [register_eq, hbits, hrev]
    have hregister : inOrder true (bytes.foldl (reflectedByte polynomial) params.initial) =
        (bytes.map BitVec.reverse).foldl (forwardByte polynomial.reverse) params.initial.reverse :=
      reverse_reflected polynomial params.initial bytes hw
    have hresidue := residue_forward polynomial.reverse params.initial.reverse
      (bytes.map BitVec.reverse) hw
    rw [List.length_map] at hresidue
    rw [hregister]
    exact bitPoly_eq_modByMonic hresidue

theorem correct_crc8 : Correct false crc8Polynomial crc8 := by
  refine correct_forward crc8Polynomial (by decide) rfl ?_
  funext crc byte
  simp [crc8UpdateByte, forwardByte]

theorem correct_crc16 : Correct false crc16Polynomial crc16 :=
  correct_forward crc16Polynomial (by decide) rfl rfl

theorem correct_crc32 : Correct true crc32Polynomial crc32 :=
  correct_reflected crc32Polynomial (by decide) rfl rfl

/-- CORRECT: the three checks chain, their tables change nothing, and their registers are remainders. -/
theorem crc_correct : Correct false crc8Polynomial crc8 ∧ Correct false crc16Polynomial crc16 ∧
    Correct true crc32Polynomial crc32 :=
  ⟨correct_crc8, correct_crc16, correct_crc32⟩

-- the check values of "123456789"
example : crc8 true [0x31, 0x32, 0x33, 0x34, 0x35, 0x36, 0x37, 0x38, 0x39] crc8Params = 0xF4 ∧
    crc16 true [0x31, 0x32, 0x33, 0x34, 0x35, 0x36, 0x37, 0x38, 0x39] crc16Params = 0x29B1 ∧
    crc32 true [0x31, 0x32, 0x33, 0x34, 0x35, 0x36, 0x37, 0x38, 0x39] crc32Params = 0xCBF43926 := by
  decide +kernel

end Metl.Crc
