import Mathlib.Data.BitVec
import Metl.Schemes.Numerals

/-! The bounded integer formatters of `format.hpp`.

A buffer is the list of its characters. A formatter returns the buffer it leaves and the length of
the span it returns, which always starts at the front of the buffer; it fails as a whole (`none`)
only if a character is written outside the span.

```
    out   | 4 | 0 | 7 | x | x |      tryFormatUint out 407  =  ⟨out, 3⟩
            <-- text -->
```

First one loop counts the digits, then another writes them from the last to the first. Here both
are related to the `numeral` of the number. -/

namespace Metl.Text
open Schemes.Numerals

/-- An integer type of at least a `char` and at most a `long long`. -/
structure IntType where
  bits : ℕ
  signed : Bool
  char_le : 8 ≤ bits
  le_long : bits ≤ 64

/-- `enum class hex_case`. -/
inductive HexCase
  | lower
  | upper
deriving DecidableEq, Repr

/-- What a formatter leaves: the buffer, and how many of its characters the returned span has. -/
structure Written where
  buffer : List UInt8
  count : ℕ
deriving DecidableEq, Repr

/-- The characters of the returned span. -/
def Written.text (w : Written) : List UInt8 := w.buffer.take w.count

/-- `out[index] = c`. -/
def put (out : List UInt8) (index : ℕ) (c : UInt8) : Option (List UInt8) :=
  if index < out.length then some (out.set index c) else none

/-- The loop of `decimal_digits`. -/
def decimalDigitsLoop (magnitude digits : ℕ) : ℕ :=
  if 10 ≤ magnitude then decimalDigitsLoop (magnitude / 10) (digits + 1) else digits
termination_by magnitude

def decimalDigits (magnitude : ℕ) : ℕ := decimalDigitsLoop magnitude 1

/-- The loop of `hex_digits`. -/
def hexDigitsLoop (value digits : ℕ) : ℕ :=
  if 16 ≤ value then hexDigitsLoop (value >>> 4) (digits + 1) else digits
termination_by value
decreasing_by
  rw [Nat.shiftRight_eq_div_pow]
  omega

def hexDigits (value : ℕ) : ℕ := hexDigitsLoop value 1

/-- `static_cast<char>('0' + digit)`. -/
def decimalGlyph (digit : ℕ) : UInt8 := UInt8.ofNat (48 + digit)

/-- The character of a nibble: `'0' + nibble`, or `alphabet_offset + (nibble - 10)`. -/
def hexGlyph (letters : HexCase) (nibble : ℕ) : UInt8 :=
  let alphabetOffset := match letters with
    | .upper => 65
    | .lower => 97
  if nibble < 10 then UInt8.ofNat (48 + nibble) else UInt8.ofNat (alphabetOffset + (nibble - 10))

/-- The loop of `write_decimal` and `write_hex`: `index` counts down, `split` gives the last digit
    and what is left of the number. -/
def writeDigits (split : ℕ → ℕ × ℕ) (glyph : ℕ → UInt8) (out : List UInt8) :
    (index : ℕ) → (value : ℕ) → Option (List UInt8)
  | 0, _ => some out
  | index + 1, value => do
    let out ← put out index (glyph (split value).1)
    writeDigits split glyph out index (split value).2

def writeDecimal (out : List UInt8) (count magnitude : ℕ) : Option (List UInt8) :=
  writeDigits (fun m => (m % 10, m / 10)) decimalGlyph out count magnitude

def writeHex (out : List UInt8) (count value : ℕ) (letters : HexCase) : Option (List UInt8) :=
  writeDigits (fun v => (v &&& 0xF, v >>> 4)) (hexGlyph letters) out count value

/-- `magnitude_of`, in the unsigned domain: the most negative value has no negative. -/
def magnitudeOf (value : BitVec 64) : ℕ :=
  if value.toInt < 0 then (0 - value).toNat else value.toNat

def tryFormatUint {w : ℕ} (out : List UInt8) (value : BitVec w) : Option Written :=
  let magnitude := (value.setWidth 64).toNat
  let count := decimalDigits magnitude
  if count > out.length then some ⟨out, 0⟩
  else do
    let out ← writeDecimal out count magnitude
    some ⟨out, count⟩

def tryFormatInt (T : IntType) (out : List UInt8) (value : BitVec T.bits) : Option Written :=
  if T.signed = false then tryFormatUint out value
  else
    let widened := value.signExtend 64
    let magnitude := magnitudeOf widened
    let digits := decimalDigits magnitude
    let count := digits + (if widened.toInt < 0 then 1 else 0)
    if count > out.length then some ⟨out, 0⟩
    else if widened.toInt < 0 then do
      let out ← put out 0 45
      -- `out.subspan(1)` is the buffer without its first character
      let rest ← writeDecimal (out.drop 1) digits magnitude
      some ⟨out.take 1 ++ rest, count⟩
    else do
      let out ← writeDecimal out digits magnitude
      some ⟨out, count⟩

def tryFormatHex {w : ℕ} (out : List UInt8) (value : BitVec w) (digits : ℕ) (letters : HexCase) :
    Option Written :=
  let widened := (value.setWidth 64).toNat
  let needed := hexDigits widened
  let count := if digits = 0 then needed else digits
  if count > out.length ∨ needed > count then some ⟨out, 0⟩
  else do
    let out ← writeHex out count widened letters
    some ⟨out, count⟩

/-! ## The two loops -/

theorem decimalDigitsLoop_eq (magnitude digits : ℕ) :
    decimalDigitsLoop magnitude digits + 1 = (numeral 10 magnitude).length + digits := by
  induction magnitude using Nat.strongRecOn generalizing digits with
  | ind magnitude ih =>
    rw [decimalDigitsLoop]
    split
    · next h =>
      rw [ih _ (by omega), numeral_of_le (by decide) h, List.length_append, List.length_singleton]
      omega
    · next h =>
      rw [numeral_of_lt (by omega), List.length_singleton, Nat.add_comm]

theorem decimalDigits_eq (magnitude : ℕ) : decimalDigits magnitude = (numeral 10 magnitude).length := by
  have h := decimalDigitsLoop_eq magnitude 1
  unfold decimalDigits
  omega

theorem hexDigitsLoop_eq (value digits : ℕ) :
    hexDigitsLoop value digits + 1 = (numeral 16 value).length + digits := by
  induction value using Nat.strongRecOn generalizing digits with
  | ind value ih =>
    rw [hexDigitsLoop]
    split
    · next h =>
      have hshift : value >>> 4 = value / 16 := Nat.shiftRight_eq_div_pow value 4
      rw [ih _ (by omega), numeral_of_le (by decide) h, List.length_append, List.length_singleton, hshift]
      omega
    · next h =>
      rw [numeral_of_lt (by omega), List.length_singleton, Nat.add_comm]

theorem hexDigits_eq (value : ℕ) : hexDigits value = (numeral 16 value).length := by
  have h := hexDigitsLoop_eq value 1
  unfold hexDigits
  omega

/-- RUN: the digits stand in front, what was behind them stays. -/
theorem writeDigits_eq {base : ℕ} {split : ℕ → ℕ × ℕ} (hsplit : ∀ v, split v = (v % base, v / base))
    (glyph : ℕ → UInt8) (count : ℕ) (out : List UInt8) (hfit : count ≤ out.length) (v : ℕ) :
    writeDigits split glyph out count v = some ((padded base count v).map glyph ++ out.drop count) := by
  induction count generalizing out v with
  | zero => simp [writeDigits, padded]
  | succ count ih =>
    have hlen : count ≤ (out.set count (glyph (v % base))).length := by
      rw [List.length_set]
      omega
    have hdrop : (out.set count (glyph (v % base))).drop count =
        glyph (v % base) :: out.drop (count + 1) := by
      rw [List.drop_eq_getElem_cons (by rw [List.length_set]; omega), List.getElem_set_self,
        List.drop_set_of_lt (by omega)]
    simp only [writeDigits, put, hsplit]
    rw [if_pos (by omega), Option.bind_eq_bind, Option.bind_some, ih _ hlen, hdrop]
    simp [padded]

theorem writeDecimal_eq (out : List UInt8) (count v : ℕ) (hfit : count ≤ out.length) :
    writeDecimal out count v = some ((padded 10 count v).map decimalGlyph ++ out.drop count) :=
  writeDigits_eq (fun _ => rfl) decimalGlyph count out hfit v

theorem writeHex_eq (out : List UInt8) (count v : ℕ) (letters : HexCase) (hfit : count ≤ out.length) :
    writeHex out count v letters = some ((padded 16 count v).map (hexGlyph letters) ++ out.drop count) := by
  refine writeDigits_eq (fun v => ?_) (hexGlyph letters) count out hfit v
  rw [Nat.shiftRight_eq_div_pow, show (0xF : ℕ) = 2 ^ 4 - 1 from rfl, Nat.and_two_pow_sub_one_eq_mod]

/-! ## What is written -/

/-- `text` written at the front of the buffer, or nothing at all where it does not fit. -/
def place (out text : List UInt8) : Written :=
  if text.length ≤ out.length then ⟨text ++ out.drop text.length, text.length⟩ else ⟨out, 0⟩

theorem text_place {out text : List UInt8} (h : text.length ≤ out.length) :
    (place out text).text = text := by
  simp [place, h, Written.text]

/-- The decimal text of a number. -/
def decimalText (v : ℕ) : List UInt8 := (numeral 10 v).map decimalGlyph

@[simp] theorem length_decimalText (v : ℕ) : (decimalText v).length = (numeral 10 v).length :=
  List.length_map _

/-- The decimal text of an integer: a `-` in front of a negative one. -/
def signedText (v : ℤ) : List UInt8 :=
  if v < 0 then 45 :: decimalText v.natAbs else decimalText v.natAbs

/-- The digits written for a hexadecimal field; `digits = 0` asks for as many as needed. -/
def hexText (letters : HexCase) (digits v : ℕ) : List UInt8 :=
  if digits = 0 then (numeral 16 v).map (hexGlyph letters)
  else (padded 16 digits v).map (hexGlyph letters)

theorem toNat_setWidth_long {w : ℕ} (hw : w ≤ 64) (value : BitVec w) :
    (value.setWidth 64).toNat = value.toNat := by
  rw [BitVec.toNat_setWidth]
  exact Nat.mod_eq_of_lt (lt_of_lt_of_le value.isLt (Nat.pow_le_pow_right (by decide) hw))

theorem tryFormatUint_eq {w : ℕ} (hw : w ≤ 64) (out : List UInt8) (value : BitVec w) :
    tryFormatUint out value = some (place out (decimalText value.toNat)) := by
  simp only [tryFormatUint, toNat_setWidth_long hw, decimalDigits_eq, place, length_decimalText]
  by_cases h : (numeral 10 value.toNat).length ≤ out.length
  · rw [if_neg (by omega), if_pos h, writeDecimal_eq _ _ _ h, padded_length_numeral (by decide)]
    rfl
  · rw [if_pos (by omega), if_neg h]

/-- The magnitude is the absolute value, also for the most negative value. -/
theorem magnitudeOf_eq (value : BitVec 64) : magnitudeOf value = value.toInt.natAbs := by
  have hlt := value.isLt
  have hint := BitVec.toInt_eq_toNat_cond value
  unfold magnitudeOf
  split
  · next hneg =>
    rw [show (0 - value) = -value by simp, BitVec.toNat_neg]
    split at hint
    · omega
    · rw [Nat.mod_eq_of_lt (by omega)]
      omega
  · next hpos =>
    split at hint <;> omega

theorem tryFormatInt_eq (T : IntType) (hT : T.signed = true) (out : List UInt8) (value : BitVec T.bits) :
    tryFormatInt T out value = some (place out (signedText value.toInt)) := by
  have hwide : (value.signExtend 64).toInt = value.toInt := by
    rw [BitVec.toInt_signExtend_of_le T.le_long]
  simp only [tryFormatInt, hT, Bool.true_eq_false, if_false, magnitudeOf_eq, hwide, decimalDigits_eq,
    signedText, place]
  by_cases hneg : value.toInt < 0
  · simp only [hneg, if_true, List.length_cons, length_decimalText]
    by_cases h : (numeral 10 value.toInt.natAbs).length + 1 ≤ out.length
    · cases out with
      | nil => simp at h
      | cons c rest =>
        rw [List.length_cons] at h
        rw [if_neg (by rw [List.length_cons]; omega), if_pos (by rw [List.length_cons]; omega)]
        simp only [put, List.length_cons, Nat.zero_lt_succ, if_true, List.set_cons_zero,
          Option.bind_eq_bind, Option.bind_some, List.drop_succ_cons, List.drop_zero]
        rw [writeDecimal_eq _ _ _ (by omega), padded_length_numeral (by decide)]
        rfl
    · rw [if_pos (by omega), if_neg h]
  · simp only [hneg, if_false, length_decimalText, Nat.add_zero]
    by_cases h : (numeral 10 value.toInt.natAbs).length ≤ out.length
    · rw [if_neg (by omega), if_pos h, writeDecimal_eq _ _ _ h, padded_length_numeral (by decide)]
      rfl
    · rw [if_pos (by omega), if_neg h]

theorem tryFormatHex_eq {w : ℕ} (hw : w ≤ 64) (out : List UInt8) (value : BitVec w) (digits : ℕ)
    (letters : HexCase) : tryFormatHex out value digits letters =
      if digits ≠ 0 ∧ digits < (numeral 16 value.toNat).length then some ⟨out, 0⟩
      else some (place out (hexText letters digits value.toNat)) := by
  simp only [tryFormatHex, toNat_setWidth_long hw, hexDigits_eq, hexText, place]
  rcases Nat.eq_zero_or_pos digits with rfl | hdigits
  · simp only [if_true, lt_self_iff_false, or_false, ne_eq, not_true, false_and, if_false,
      List.length_map]
    by_cases h : (numeral 16 value.toNat).length ≤ out.length
    · rw [if_neg (by omega), if_pos h, writeHex_eq _ _ _ _ h, padded_length_numeral (by decide)]
      rfl
    · rw [if_pos (by omega), if_neg h]
  · have hne : digits ≠ 0 := by omega
    simp only [hne, if_false, ne_eq, not_false_eq_true, true_and, List.length_map, length_padded]
    by_cases hneeded : digits < (numeral 16 value.toNat).length
    · rw [if_pos (.inr hneeded), if_pos hneeded]
    · rw [if_neg hneeded]
      by_cases h : digits ≤ out.length
      · rw [if_neg (by omega), if_pos h, writeHex_eq _ _ _ _ h]
        rfl
      · rw [if_pos (by omega), if_neg h]

end Metl.Text
