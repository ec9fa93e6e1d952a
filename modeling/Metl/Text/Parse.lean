import Metl.Text.Format

/-! The integer parsers of `parse.hpp`.

A parser folds the digits at the front of the text in an accumulator of at least the type's own
width. The limit comes divided by the base, so that the test before each digit never needs a number
above it.

```
    "  2 5 6 x"       value   0 -> 2 -> 25 -> 25 (overflowed)       limit_head = 25, limit_tail = 5
       ^ ^ ^          consumed                 3
```
-/

namespace Metl.Text
open Schemes.Numerals

/-- `enum class parse_error`. -/
inductive ParseError
  | empty
  | notANumber
  | outOfRange
deriving DecidableEq, Repr

/-- `parsed<T>`: the number and the characters after it. -/
structure Parsed (w : ℕ) where
  value : BitVec w
  tail : List UInt8
deriving DecidableEq

def isDecimalDigit (character : UInt8) : Bool := 48 ≤ character.toNat && character.toNat ≤ 57

/-- The value of a hex digit, 16 for any other character. -/
def hexDigitValue (character : UInt8) : ℕ :=
  if 48 ≤ character.toNat ∧ character.toNat ≤ 57 then character.toNat - 48
  else if 97 ≤ character.toNat ∧ character.toNat ≤ 102 then character.toNat - 97 + 10
  else if 65 ≤ character.toNat ∧ character.toNat ≤ 70 then character.toNat - 65 + 10
  else 16

/-- `parse_accumulator_t`: the width of the accumulator, where `unsigned` has `word` bits. -/
def accumulatorBits (word w : ℕ) : ℕ := if w > word then w else word

/-- `digit_run`. -/
structure DigitRun where
  value : ℕ
  consumed : ℕ
  overflowed : Bool
deriving DecidableEq, Repr

/-- What `fold_decimal` and `fold_hex` differ in, and the width of the accumulator. -/
structure Fold where
  accepts : UInt8 → Bool
  digitOf : UInt8 → ℕ
  base : ℕ
  beyond : ℕ → ℕ → Bool
  bits : ℕ

/-- One digit taken into the run. -/
def Fold.take (f : Fold) (run : DigitRun) (character : UInt8) : DigitRun :=
  let digit := f.digitOf character
  if f.beyond run.value digit then { run with consumed := run.consumed + 1, overflowed := true }
  else { run with value := (run.value * f.base + digit) % 2 ^ f.bits, consumed := run.consumed + 1 }

/-- The loop: it goes on after an overflow, so that `consumed` describes the whole number. -/
def Fold.loop (f : Fold) : List UInt8 → DigitRun → DigitRun
  | [], run => run
  | character :: text, run => if f.accepts character then f.loop text (f.take run character) else run

def decimalFold (bits limitHead limitTail : ℕ) : Fold where
  accepts := isDecimalDigit
  digitOf character := character.toNat - 48
  base := 10
  beyond value digit := value > limitHead || (value == limitHead && digit > limitTail)
  bits := bits

def hexFold (bits limitHead : ℕ) : Fold where
  accepts character := hexDigitValue character < 16
  digitOf := hexDigitValue
  base := 16
  beyond value _ := value > limitHead
  bits := bits

def foldDecimal (bits : ℕ) (text : List UInt8) (limitHead limitTail : ℕ) : DigitRun :=
  (decimalFold bits limitHead limitTail).loop text ⟨0, 0, false⟩

def foldHex (bits : ℕ) (text : List UInt8) (limitHead : ℕ) : DigitRun :=
  (hexFold bits limitHead).loop text ⟨0, 0, false⟩

/-- `numeric_limits<T>::max()` of an unsigned type. -/
def unsignedMax (w : ℕ) : ℕ := 2 ^ w - 1

/-- `numeric_limits<T>::max()` of a signed type. -/
def signedMax (w : ℕ) : ℕ := 2 ^ (w - 1) - 1

/-- `negative_limit_of`: `max() + 1` in the accumulator. -/
def negativeLimitOf (word w : ℕ) : ℕ := (signedMax w + 1) % 2 ^ accumulatorBits word w

def tryParseUint (word w : ℕ) (text : List UInt8) : Except ParseError (Parsed w) :=
  if text = [] then .error .empty
  else
    let limit := unsignedMax w
    let run := foldDecimal (accumulatorBits word w) text (limit / 10) (limit % 10)
    if run.consumed = 0 then .error .notANumber
    else if run.overflowed then .error .outOfRange
    else .ok ⟨BitVec.ofNat w run.value, text.drop run.consumed⟩

def tryParseInt (word w : ℕ) (text : List UInt8) : Except ParseError (Parsed w) :=
  if text = [] then .error .empty
  else
    let negative : Bool := text.head? = some 45
    let digits := if negative then text.drop 1 else text
    let positiveLimit := signedMax w
    let negativeLimit := negativeLimitOf word w
    let limitHead := if negative then negativeLimit / 10 else positiveLimit / 10
    let limitTail := if negative then negativeLimit % 10 else positiveLimit % 10
    let run := foldDecimal (accumulatorBits word w) digits limitHead limitTail
    if run.consumed = 0 then .error .notANumber
    else if run.overflowed then .error .outOfRange
    else
      let tail := digits.drop run.consumed
      if !negative then .ok ⟨BitVec.ofNat w run.value, tail⟩
      else if run.value = negativeLimit then .ok ⟨BitVec.intMin w, tail⟩
      else .ok ⟨-BitVec.ofNat w run.value, tail⟩

def tryParseHex (word w : ℕ) (text : List UInt8) : Except ParseError (Parsed w) :=
  if text = [] then .error .empty
  else
    let limit := unsignedMax w
    let run := foldHex (accumulatorBits word w) text (limit / 16)
    if run.consumed = 0 then .error .notANumber
    else if run.overflowed then .error .outOfRange
    else .ok ⟨BitVec.ofNat w run.value, text.drop run.consumed⟩

theorem le_accumulatorBits (word w : ℕ) : w ≤ accumulatorBits word w := by
  unfold accumulatorBits
  split <;> omega

/-! ## The fold against the number it reads -/

namespace Fold

/-- The digits at the front of a text. -/
def digits (f : Fold) (text : List UInt8) : List ℕ := (text.takeWhile f.accepts).map f.digitOf

/-- The fold tests exactly whether the next number is above `limit`, which its accumulator holds. -/
structure Guards (f : Fold) (limit : ℕ) : Prop where
  base_pos : 0 < f.base
  holds : limit < 2 ^ f.bits
  digit_lt : ∀ c, f.accepts c = true → f.digitOf c < f.base
  beyond_iff : ∀ v d, v ≤ limit → d < f.base → (f.beyond v d = true ↔ limit < v * f.base + d)

/-- What the run says about the digits read so far: their number, and the value unless some
    beginning of them was above the limit. -/
structure Reads (f : Fold) (limit : ℕ) (ds : List ℕ) (run : DigitRun) : Prop where
  consumed : run.consumed = ds.length
  value_le : run.value ≤ limit
  exact_iff : run.overflowed = false ↔ value f.base ds ≤ limit
  value_eq : run.overflowed = false → run.value = value f.base ds

variable {f : Fold} {limit : ℕ}

variable {ds : List ℕ} {run : DigitRun}

/-- STEP: one more digit. -/
theorem Reads.take (hg : f.Guards limit) (h : f.Reads limit ds run) {c : UInt8}
    (hc : f.accepts c = true) : f.Reads limit (ds ++ [f.digitOf c]) (f.take run c) := by
  have hd := hg.digit_lt c hc
  have hiff := hg.beyond_iff run.value (f.digitOf c) h.value_le hd
  have hmono : value f.base ds ≤ value f.base ds * f.base + f.digitOf c :=
    le_add_right (Nat.le_mul_of_pos_right _ hg.base_pos)
  simp only [Fold.take]
  split
  · next hb =>
    -- the digit does not fit: neither does the whole number, whether or not it did before
    refine ⟨by simp [h.consumed], h.value_le, ?_, by simp⟩
    have hlimit := hiff.mp hb
    rw [value_concat]
    constructor
    · simp
    · intro hle
      rw [h.value_eq (h.exact_iff.mpr (by omega))] at hlimit
      omega
  · next hb =>
    have hfits : run.value * f.base + f.digitOf c ≤ limit := not_lt.mp (fun hlt => hb (hiff.mpr hlt))
    have hmod := Nat.mod_eq_of_lt (lt_of_le_of_lt hfits hg.holds)
    refine ⟨by simp [h.consumed], by simpa only [hmod] using hfits, ?_, ?_⟩
    · rw [value_concat]
      constructor
      · intro hno
        rw [← h.value_eq hno]
        exact hfits
      · intro hle
        exact h.exact_iff.mpr (le_trans hmono hle)
    · intro hno
      simp only [hmod, value_concat, ← h.value_eq hno]

/-- RUN: the loop reads the digits at the front. -/
theorem Reads.loop (hg : f.Guards limit) (text : List UInt8) (h : f.Reads limit ds run) :
    f.Reads limit (ds ++ f.digits text) (f.loop text run) := by
  induction text generalizing ds run with
  | nil => simpa [digits, Fold.loop] using h
  | cons c text ih =>
    by_cases hc : f.accepts c = true
    · have hstep := ih (h.take hg hc)
      simpa [digits, Fold.loop, hc, List.takeWhile_cons] using hstep
    · simpa [digits, Fold.loop, hc, List.takeWhile_cons] using h

theorem reads_loop (hg : f.Guards limit) (text : List UInt8) :
    f.Reads limit (f.digits text) (f.loop text ⟨0, 0, false⟩) := by
  have hstart : f.Reads limit [] ⟨0, 0, false⟩ := ⟨rfl, Nat.zero_le _, by simp, fun _ => rfl⟩
  simpa using hstart.loop hg text

end Fold

variable {bits limit w : ℕ} {ds : List ℕ}

theorem decimalFold_guards (h : limit < 2 ^ bits) :
    (decimalFold bits (limit / 10) (limit % 10)).Guards limit where
  base_pos := Nat.zero_lt_succ _
  holds := h
  digit_lt c hc := by
    simp only [decimalFold, isDecimalDigit, Bool.and_eq_true, decide_eq_true_eq] at hc ⊢
    omega
  beyond_iff v d _ hd := by
    simp only [decimalFold, Bool.or_eq_true, Bool.and_eq_true, decide_eq_true_eq, beq_iff_eq] at hd ⊢
    omega

/-- No tail is needed: the limit ends in the digit F. -/
theorem hexFold_guards (h : limit < 2 ^ bits) (hF : limit % 16 = 15) :
    (hexFold bits (limit / 16)).Guards limit where
  base_pos := Nat.zero_lt_succ _
  holds := h
  digit_lt c hc := by simpa [hexFold] using hc
  beyond_iff v d _ hd := by
    simp only [hexFold, decide_eq_true_eq] at hd ⊢
    omega

theorem unsignedMax_lt (word w : ℕ) : unsignedMax w < 2 ^ accumulatorBits word w := by
  have hpow := Nat.pow_le_pow_right (show 0 < 2 by decide) (le_accumulatorBits word w)
  have hpos := Nat.two_pow_pos w
  unfold unsignedMax
  omega

theorem unsignedMax_mod (hw : 8 ≤ w) : unsignedMax w % 16 = 15 := by
  obtain ⟨k, rfl⟩ := Nat.exists_eq_add_of_le hw
  have hpos := Nat.two_pow_pos k
  unfold unsignedMax
  rw [pow_add]
  omega

/-- Twice the negative limit is the number of values of the type. -/
theorem two_mul_half (hw : 8 ≤ w) : 2 * 2 ^ (w - 1) = 2 ^ w := by
  rw [← pow_succ', Nat.sub_add_cancel (by omega)]

theorem negativeLimitOf_eq (word : ℕ) (hw : 8 ≤ w) : negativeLimitOf word w = 2 ^ (w - 1) := by
  have hpow := Nat.pow_le_pow_right (show 0 < 2 by decide) (le_accumulatorBits word w)
  have hpos := Nat.two_pow_pos (w - 1)
  have hhalf := two_mul_half hw
  unfold negativeLimitOf signedMax
  rw [Nat.sub_add_cancel hpos]
  exact Nat.mod_eq_of_lt (by omega)

/-! ## What each parser reads -/

/-- The decimal digits at the front of a text. -/
def decimalDigitsOf (text : List UInt8) : List ℕ :=
  (text.takeWhile isDecimalDigit).map (fun c => c.toNat - 48)

/-- The hex digits at the front of a text. -/
def hexDigitsOf (text : List UInt8) : List ℕ :=
  (text.takeWhile (fun c => decide (hexDigitValue c < 16))).map hexDigitValue

theorem foldDecimal_reads (h : limit < 2 ^ bits) (text : List UInt8) :
    (decimalFold bits (limit / 10) (limit % 10)).Reads limit (decimalDigitsOf text)
      (foldDecimal bits text (limit / 10) (limit % 10)) :=
  Fold.reads_loop (decimalFold_guards h) text

theorem foldHex_reads (h : limit < 2 ^ bits) (hF : limit % 16 = 15) (text : List UInt8) :
    (hexFold bits (limit / 16)).Reads limit (hexDigitsOf text) (foldHex bits text (limit / 16)) :=
  Fold.reads_loop (hexFold_guards h hF) text

/-- What every parser does with the run of digits it has read: `above` is the test for the range,
    `found` the value. -/
def outcome {w : ℕ} (text : List UInt8) (ds : List ℕ) (above : Prop) [Decidable above]
    (found : Parsed w) : Except ParseError (Parsed w) :=
  if text = [] then .error .empty
  else if ds = [] then .error .notANumber
  else if above then .error .outOfRange
  else .ok found

theorem outcome_eq_ok {text : List UInt8} {above : Prop} [Decidable above] {found r : Parsed w} :
    outcome text ds above found = .ok r ↔ text ≠ [] ∧ ds ≠ [] ∧ ¬above ∧ found = r := by
  unfold outcome
  split
  · simp_all
  · split
    · simp_all
    · split <;> simp_all

theorem outcome_of_reads {f : Fold} {run : DigitRun} (hrun : f.Reads limit ds run) (text : List UInt8)
    (found : ℕ → ℕ → Parsed w) : (if text = [] then Except.error .empty
      else if run.consumed = 0 then .error .notANumber
      else if run.overflowed = true then .error .outOfRange
      else .ok (found run.value run.consumed)) =
      outcome text ds (limit < value f.base ds) (found (value f.base ds) ds.length) := by
  have hnil : run.consumed = 0 ↔ ds = [] := by rw [hrun.consumed, List.length_eq_zero_iff]
  have habove : run.overflowed = true ↔ limit < value f.base ds := by
    rw [← not_le, ← hrun.exact_iff, Bool.not_eq_false]
  simp only [outcome, hnil, habove]
  split
  · rfl
  · split
    · rfl
    · split
      · rfl
      · next h =>
        have hexact := Bool.eq_false_iff.mpr (fun hover => h (habove.mp hover))
        rw [hrun.value_eq hexact, hrun.consumed]

theorem tryParseUint_eq (word w : ℕ) (text : List UInt8) : tryParseUint word w text =
      outcome text (decimalDigitsOf text) (unsignedMax w < value 10 (decimalDigitsOf text))
        ⟨BitVec.ofNat w (value 10 (decimalDigitsOf text)), text.drop (decimalDigitsOf text).length⟩ :=
  outcome_of_reads (foldDecimal_reads (unsignedMax_lt word w) text) text
    (fun v consumed => ⟨BitVec.ofNat w v, text.drop consumed⟩)

theorem tryParseHex_eq (word : ℕ) (hw : 8 ≤ w) (text : List UInt8) : tryParseHex word w text =
      outcome text (hexDigitsOf text) (unsignedMax w < value 16 (hexDigitsOf text))
        ⟨BitVec.ofNat w (value 16 (hexDigitsOf text)), text.drop (hexDigitsOf text).length⟩ :=
  outcome_of_reads (foldHex_reads (unsignedMax_lt word w) (unsignedMax_mod hw) text) text
    (fun v consumed => ⟨BitVec.ofNat w v, text.drop consumed⟩)

/-- The text after the optional sign. -/
def unsignedPart (text : List UInt8) : List UInt8 := if text.head? = some 45 then text.drop 1 else text

/-- The largest magnitude with the sign the text has. -/
def signedLimit (w : ℕ) (text : List UInt8) : ℕ :=
  if text.head? = some 45 then 2 ^ (w - 1) else signedMax w

/-- The value of a magnitude with the sign the text has. -/
def withSign (w : ℕ) (text : List UInt8) (v : ℕ) : BitVec w :=
  if text.head? = some 45 then -BitVec.ofNat w v else BitVec.ofNat w v

/-- The minimum needs no branch of its own in two's complement. -/
theorem neg_ofNat_half (hw : 8 ≤ w) : -BitVec.ofNat w (2 ^ (w - 1)) = BitVec.intMin w := by
  have hhalf := two_mul_half hw
  have hpos := Nat.two_pow_pos (w - 1)
  have hmod : 2 ^ (w - 1) % 2 ^ w = 2 ^ (w - 1) := Nat.mod_eq_of_lt (by omega)
  apply BitVec.eq_of_toNat_eq
  rw [BitVec.toNat_neg, BitVec.toNat_ofNat, hmod, BitVec.toNat_intMin, hmod, Nat.mod_eq_of_lt (by omega)]
  omega

theorem signedLimit_lt (word : ℕ) (hw : 8 ≤ w) (text : List UInt8) :
    signedLimit w text < 2 ^ accumulatorBits word w := by
  have hpow := Nat.pow_le_pow_right (show 0 < 2 by decide) (le_accumulatorBits word w)
  have hpos := Nat.two_pow_pos (w - 1)
  have hhalf := two_mul_half hw
  unfold signedLimit signedMax
  split <;> omega

theorem tryParseInt_eq (word : ℕ) (hw : 8 ≤ w) (text : List UInt8) : tryParseInt word w text =
      outcome text (decimalDigitsOf (unsignedPart text))
        (signedLimit w text < value 10 (decimalDigitsOf (unsignedPart text)))
        ⟨withSign w text (value 10 (decimalDigitsOf (unsignedPart text))),
          (unsignedPart text).drop (decimalDigitsOf (unsignedPart text)).length⟩ := by
  have hreads := foldDecimal_reads (signedLimit_lt word hw text) (unsignedPart text)
  refine Eq.trans ?_ (outcome_of_reads hreads text
    (fun v consumed => ⟨withSign w text v, (unsignedPart text).drop consumed⟩))
  by_cases hneg : text.head? = some 45
  · simp only [tryParseInt, unsignedPart, signedLimit, withSign, hneg, negativeLimitOf_eq word hw,
      decide_true, if_true, Bool.not_true, Bool.false_eq_true, if_false]
    split
    · rfl
    · split
      · rfl
      · split
        · rfl
        · split
          · next hmin => rw [hmin, neg_ofNat_half hw]
          · rfl
  · simp only [tryParseInt, unsignedPart, signedLimit, withSign, hneg, decide_false, if_false,
      Bool.false_eq_true, Bool.not_false, if_true]

end Metl.Text
