import Metl.Text.RoundTrip

/-! Which texts the parsers read and which texts the formatters write, in terms that do not mention
the loops.

```
    text      - 0 4 2 x y             number  -42        tail  x y
                ~~~~~ run                     in the range of the type, or outOfRange
```

A parser gives the number of the longest run of digits at the front. A formatter writes the one
canonical text of its value, or nothing. -/

namespace Metl.Text
open Schemes.Numerals

/-! ## The accumulator -/

/-- Every number the loop computes for its accumulator, before it is narrowed to the width. -/
def Fold.computed (f : Fold) : List UInt8 → DigitRun → List ℕ
  | [], _ => []
  | character :: text, run =>
    if f.accepts character then
      let digit := f.digitOf character
      let rest := f.computed text (f.take run character)
      if f.beyond run.value digit then rest else (run.value * f.base + digit) :: rest
    else []

variable {f : Fold} {limit w base v digits : ℕ} {ds : List ℕ} {text out : List UInt8}
  {canonical : List UInt8 → Prop}

/-- RUN: the accumulator stays within the limit, at the numbers in between too. -/
theorem Fold.Reads.computed_le (hg : f.Guards limit) (text : List UInt8) {run : DigitRun}
    (h : f.Reads limit ds run) : ∀ v ∈ f.computed text run, v ≤ limit := by
  induction text generalizing ds run with
  | nil => simp [Fold.computed]
  | cons c text ih =>
    intro v hv
    simp only [Fold.computed] at hv
    split at hv
    · next hc =>
      have hrest := ih (h.take hg hc)
      have hiff := hg.beyond_iff run.value (f.digitOf c) h.value_le (hg.digit_lt c hc)
      split at hv
      · exact hrest v hv
      · next hb =>
        rcases List.mem_cons.mp hv with rfl | hv
        · exact not_lt.mp (fun hlt => hb (hiff.mpr hlt))
        · exact hrest v hv
    · simp at hv

theorem Fold.computed_le (hg : f.Guards limit) (text : List UInt8) :
    ∀ v ∈ f.computed text ⟨0, 0, false⟩, v ≤ limit :=
  Fold.Reads.computed_le hg text (Fold.reads_loop hg [])

/-- The fold of `try_parse_uint`. -/
def uintFold (word w : ℕ) : Fold :=
  decimalFold (accumulatorBits word w) (unsignedMax w / 10) (unsignedMax w % 10)

/-- The fold of `try_parse_hex`. -/
def hexFieldFold (word w : ℕ) : Fold := hexFold (accumulatorBits word w) (unsignedMax w / 16)

/-- The fold of `try_parse_int`: the limit is that of the sign. -/
def intFold (word w : ℕ) (text : List UInt8) : Fold :=
  let limit := if text.head? = some 45 then negativeLimitOf word w else signedMax w
  decimalFold (accumulatorBits word w) (limit / 10) (limit % 10)

theorem intFold_guards (word : ℕ) (hw : 8 ≤ w) (text : List UInt8) :
    (intFold word w text).Guards (signedLimit w text) := by
  have hguards := decimalFold_guards (signedLimit_lt word hw text)
  unfold intFold
  rw [negativeLimitOf_eq word hw]
  exact hguards

/-! ## The parsers -/

/-- What a parser reports for a text whose longest run of digits is `run`, with the number `number`
    and `tail` behind it, for a type with the values from `lo` to `hi`. -/
structure ReadsExactly {w : ℕ} (result : Except ParseError (Parsed w)) (text run tail : List UInt8)
    (number lo hi : ℤ) (valueOf : BitVec w → ℤ) : Prop where
  empty : result = .error .empty ↔ text = []
  notANumber : result = .error .notANumber ↔ text ≠ [] ∧ run = []
  outOfRange : result = .error .outOfRange ↔ run ≠ [] ∧ (number < lo ∨ hi < number)
  ok : ∀ r, result = .ok r ↔
    run ≠ [] ∧ lo ≤ number ∧ number ≤ hi ∧ valueOf r.value = number ∧ r.tail = tail

/-- The number of a run of digits. -/
def decimalNumber (run : List UInt8) : ℕ := value 10 (run.map fun c => c.toNat - 48)

def hexNumber (run : List UInt8) : ℕ := value 16 (run.map hexDigitValue)

/-- The number with the sign the text has. -/
def signedNumber (text run : List UInt8) : ℤ :=
  if text.head? = some 45 then -(decimalNumber run : ℤ) else decimalNumber run

section

variable {w : ℕ} {text run tail : List UInt8} {number lo hi : ℤ} {valueOf : BitVec w → ℤ}

/-- A parser that follows `outcome` reads exactly, if the value found is the number whenever that is
    in the range. -/
theorem readsExactly_of_outcome {ds : List ℕ} {above : Prop} [Decidable above] {found : Parsed w}
    (hrun : ds = [] ↔ run = []) (htext : run ≠ [] → text ≠ [])
    (habove : above ↔ number < lo ∨ hi < number) (hinj : Function.Injective valueOf)
    (hvalue : ¬above → valueOf found.value = number) (htail : found.tail = tail) :
    ReadsExactly (outcome text ds above found) text run tail number lo hi valueOf := by
  have hin : ¬above ↔ lo ≤ number ∧ number ≤ hi := by rw [habove]; omega
  refine ⟨?_, ?_, ?_, fun r => ?_⟩
  · unfold outcome
    split_ifs <;> simp_all
  · rw [← hrun]
    unfold outcome
    split_ifs <;> simp_all
  · rw [← habove]
    rw [ne_eq, ← hrun] at htext ⊢
    unfold outcome
    split_ifs <;> simp_all
  · rw [outcome_eq_ok, ne_eq ds, hrun]
    constructor
    · rintro ⟨-, hne, habove, rfl⟩
      exact ⟨hne, (hin.mp habove).1, (hin.mp habove).2, hvalue habove, htail⟩
    · rintro ⟨hne, hlo, hhi, hv, ht⟩
      have hnot := hin.mpr ⟨hlo, hhi⟩
      refine ⟨htext hne, hne, hnot, ?_⟩
      obtain ⟨v, rest⟩ := r
      obtain ⟨v', rest'⟩ := found
      have hv' : v' = v := hinj ((hvalue hnot).trans hv.symm)
      have ht' : rest' = rest := htail.trans ht.symm
      rw [hv', ht']

end

theorem toNat_cast_injective (w : ℕ) : Function.Injective (fun v : BitVec w => (v.toNat : ℤ)) := by
  intro a b h
  exact BitVec.eq_of_toNat_eq (by simpa using h)

theorem toInt_injective (w : ℕ) : Function.Injective (BitVec.toInt : BitVec w → ℤ) :=
  fun _ _ h => BitVec.eq_of_toInt_eq h

theorem ne_nil_of_takeWhile {accepts : UInt8 → Bool} (h : text.takeWhile accepts ≠ []) : text ≠ [] := by
  rintro rfl
  exact h rfl

theorem ne_nil_of_unsignedPart (h : unsignedPart text ≠ []) : text ≠ [] := by
  rintro rfl
  exact h rfl

/-- What the three parsers report, for a text of any length. -/
structure ParsersExact (word w : ℕ) (text : List UInt8) : Prop where
  uint :
    let run := text.takeWhile isDecimalDigit
    ReadsExactly (tryParseUint word w text) text run (text.drop run.length) (decimalNumber run)
      0 (2 ^ w - 1) (fun v => (v.toNat : ℤ))
  int :
    let digits := if text.head? = some 45 then text.drop 1 else text
    let run := digits.takeWhile isDecimalDigit
    ReadsExactly (tryParseInt word w text) text run (digits.drop run.length) (signedNumber text run)
      (-2 ^ (w - 1)) (2 ^ (w - 1) - 1) BitVec.toInt
  hex :
    let run := text.takeWhile fun c => decide (hexDigitValue c < 16)
    ReadsExactly (tryParseHex word w text) text run (text.drop run.length) (hexNumber run)
      0 (2 ^ w - 1) (fun v => (v.toNat : ℤ))
  /-- no accumulator goes above the largest magnitude of the sign -/
  uint_bounded : ∀ v ∈ (uintFold word w).computed text ⟨0, 0, false⟩, v ≤ 2 ^ w - 1
  int_bounded : ∀ v ∈ (intFold word w text).computed (unsignedPart text) ⟨0, 0, false⟩,
    v ≤ if text.head? = some 45 then 2 ^ (w - 1) else 2 ^ (w - 1) - 1
  hex_bounded : ∀ v ∈ (hexFieldFold word w).computed text ⟨0, 0, false⟩, v ≤ 2 ^ w - 1

theorem cast_unsignedMax (w : ℕ) : ((unsignedMax w : ℕ) : ℤ) = 2 ^ w - 1 := by
  have hpos := Nat.two_pow_pos w
  unfold unsignedMax
  rw [Nat.cast_sub hpos]
  norm_num

theorem cast_signedMax (w : ℕ) : ((signedMax w : ℕ) : ℤ) = 2 ^ (w - 1) - 1 :=
  cast_unsignedMax (w - 1)

/-- An unsigned number is outside the range only above it. -/
theorem above_unsignedMax {n : ℕ} : unsignedMax w < n ↔ (n : ℤ) < 0 ∨ (2 : ℤ) ^ w - 1 < n := by
  rw [← cast_unsignedMax]
  omega

theorem above_signedLimit {run : List UInt8} : signedLimit w text < decimalNumber run ↔
      signedNumber text run < -2 ^ (w - 1) ∨ (2 : ℤ) ^ (w - 1) - 1 < signedNumber text run := by
  have hmax := cast_signedMax w
  have hcast : ((2 ^ (w - 1) : ℕ) : ℤ) = 2 ^ (w - 1) := by norm_num
  have hpos := Nat.two_pow_pos (w - 1)
  rw [← hmax, ← hcast]
  unfold signedLimit signedNumber
  split <;> omega

/-- CORRECT: the parsers read exactly the numbers of their grammar, whatever the width of `unsigned`, and no
    accumulator ever goes above the type's largest magnitude. -/
theorem parsers_exact (word : ℕ) (T : IntType) (text : List UInt8) :
    ParsersExact word T.bits text where
  uint := by
    intro run
    rw [tryParseUint_eq]
    refine readsExactly_of_outcome (by simp [decimalDigitsOf, run]) ne_nil_of_takeWhile
      above_unsignedMax (toNat_cast_injective _) (fun h => ?_) (by simp [decimalDigitsOf, run])
    exact congrArg Nat.cast (toNat_ofNat_of_le (not_lt.mp h))
  int := by
    intro digits run
    rw [tryParseInt_eq word T.char_le]
    refine readsExactly_of_outcome (by simp [decimalDigitsOf, run, digits, unsignedPart])
      (fun h => ne_nil_of_unsignedPart (ne_nil_of_takeWhile h)) above_signedLimit (toInt_injective _)
      (fun h => ?_) (by simp [decimalDigitsOf, run, digits, unsignedPart])
    exact toInt_withSign T.char_le (not_lt.mp h)
  hex := by
    intro run
    rw [tryParseHex_eq word T.char_le]
    refine readsExactly_of_outcome (by simp [hexDigitsOf, run]) ne_nil_of_takeWhile
      above_unsignedMax (toNat_cast_injective _) (fun h => ?_) (by simp [hexDigitsOf, run])
    exact congrArg Nat.cast (toNat_ofNat_of_le (not_lt.mp h))
  uint_bounded := Fold.computed_le (decimalFold_guards (unsignedMax_lt word T.bits)) text
  int_bounded := Fold.computed_le (intFold_guards word T.char_le text) (unsignedPart text)
  hex_bounded :=
    Fold.computed_le (hexFold_guards (unsignedMax_lt word T.bits) (unsignedMax_mod T.char_le)) text

/-! ## The formatters -/

/-- `ds` spells `v`: without leading zeros for `digits = 0`, else with exactly `digits` digits. -/
structure Spells (base digits : ℕ) (ds : List ℕ) (v : ℕ) : Prop where
  nonempty : ds ≠ []
  digit_lt : ∀ d ∈ ds, d < base
  value_eq : value base ds = v
  form : if digits = 0 then ds.head? = some 0 → ds = [0] else ds.length = digits

def IsDecimal (v : ℕ) (text : List UInt8) : Prop := ∃ ds, Spells 10 0 ds v ∧ text = ds.map decimalGlyph

/-- A `-` stands only in front of a negative value. -/
def IsSigned (v : ℤ) (text : List UInt8) : Prop :=
  if v < 0 then ∃ rest, text = 45 :: rest ∧ IsDecimal v.natAbs rest else IsDecimal v.natAbs text

def IsHex (letters : HexCase) (digits v : ℕ) (text : List UInt8) : Prop :=
  ∃ ds, Spells 16 digits ds v ∧ text = ds.map (hexGlyph letters)

theorem stripZeros_of_head (h : ds.head? = some 0 → ds = [0]) : stripZeros 0 ds = ds := by
  rcases ds with _ | ⟨c, _ | ⟨d, rest⟩⟩
  · rfl
  · rfl
  · have hc : c ≠ 0 := by
      rintro rfl
      simpa using h rfl
    rw [stripZeros, if_neg hc]

theorem head_numeral (hbase : 1 < base) (h : (numeral base v).head? = some 0) : numeral base v = [0] := by
  induction v using Nat.strongRecOn with
  | ind v ih =>
    rcases lt_or_ge v base with hlt | hle
    · rw [numeral_of_lt hlt] at h ⊢
      simpa using h
    · -- the first digit is that of the quotient, which is not zero
      have hq := Nat.div_pos hle (by omega)
      rw [numeral_of_le hbase hle, List.head?_append_of_ne_nil _ (numeral_ne_nil hbase _)] at h
      have hzero := congrArg (value base) (ih _ (Nat.div_lt_self (by omega) hbase) h)
      rw [value_numeral hbase] at hzero
      simp [value] at hzero
      omega

theorem spells_shortest (hbase : 1 < base) : Spells base 0 ds v ↔ ds = numeral base v := by
  constructor
  · rintro ⟨hne, hlt, rfl, hform⟩
    rw [if_pos rfl] at hform
    rw [← stripZeros_eq_numeral hbase hne hlt, stripZeros_of_head hform]
  · rintro rfl
    refine ⟨numeral_ne_nil hbase v, numeral_lt hbase v, value_numeral hbase v, ?_⟩
    rw [if_pos rfl]
    exact head_numeral hbase

theorem spells_padded (hbase : 1 < base) (hdigits : digits ≠ 0) :
    Spells base digits ds v ↔ (numeral base v).length ≤ digits ∧ ds = padded base digits v := by
  rw [length_numeral_le hbase]
  constructor
  · rintro ⟨hne, hlt, rfl, hform⟩
    rw [if_neg hdigits] at hform
    subst hform
    have hfit := value_lt hbase hlt
    refine ⟨⟨Nat.pos_of_ne_zero hdigits, hfit⟩, ?_⟩
    have hpad : ∀ d ∈ padded base ds.length (value base ds), d < base :=
      padded_lt (by omega) ds.length (value base ds)
    -- two numerals of one length and one value are the same
    refine List.reverse_injective (Nat.ofDigits_inj_of_len_eq hbase (by simp) ?_ ?_ ?_)
    · simpa using hlt
    · simpa using hpad
    · exact (value_padded _ _ hfit).symm
  · rintro ⟨⟨hpos, hfit⟩, rfl⟩
    refine ⟨?_, padded_lt (by omega) digits v, value_padded digits v hfit, ?_⟩
    · exact List.length_pos_iff.mp (by simpa using hpos)
    · rw [if_neg hdigits, length_padded]

theorem isDecimal_iff : IsDecimal v text ↔ text = decimalText v := by
  unfold IsDecimal
  simp only [spells_shortest (show 1 < 10 by decide), exists_eq_left]
  rfl

theorem isSigned_iff {v : ℤ} : IsSigned v text ↔ text = signedText v := by
  unfold IsSigned signedText
  split
  · simp only [isDecimal_iff, exists_eq_right]
  · exact isDecimal_iff

theorem isHex_iff {letters : HexCase} : IsHex letters digits v text ↔
      ¬(digits ≠ 0 ∧ digits < (numeral 16 v).length) ∧ text = hexText letters digits v := by
  unfold IsHex hexText
  rcases Nat.eq_zero_or_pos digits with rfl | hpos
  · simp only [spells_shortest (show 1 < 16 by decide), exists_eq_left, if_true]
    simp
  · have hne : digits ≠ 0 := by omega
    simp only [spells_padded (show 1 < 16 by decide) hne, hne, if_false]
    simp only [and_assoc, exists_and_left, exists_eq_left]
    refine and_congr_left (fun _ => ?_)
    omega

/-- The call returns, having written inside the span only. It succeeds exactly if a canonical text
    fits, and then that text stands in front of what was behind it; else nothing has changed. -/
structure WritesExactly (canonical : List UInt8 → Prop) (out : List UInt8) (result : Option Written) :
    Prop where
  returns : ∃ r, result = some r
  success_iff : ∀ r, result = some r →
    (r.count ≠ 0 ↔ ∃ text, canonical text ∧ text.length ≤ out.length)
  success : ∀ r, result = some r → r.count ≠ 0 →
    canonical r.text ∧ r.count ≤ out.length ∧ r.buffer = r.text ++ out.drop r.count
  failure : ∀ r, result = some r → r.count = 0 → r.text = [] ∧ r.buffer = out

/-- Writing the one canonical text. -/
theorem writesExactly_place (hne : text ≠ []) (hcanonical : ∀ t, canonical t ↔ t = text) :
    WritesExactly canonical out (some (place out text)) := by
  have hpos := List.length_pos_iff.mpr hne
  have hfits : (∃ t, canonical t ∧ t.length ≤ out.length) ↔ text.length ≤ out.length := by
    simp only [hcanonical, exists_eq_left]
  refine ⟨⟨_, rfl⟩, ?_, ?_, ?_⟩
  · rintro _ ⟨⟩
    rw [hfits]
    unfold place
    split <;> simp_all
  · rintro _ ⟨⟩ hcount
    rcases le_or_gt text.length out.length with hle | hgt
    · rw [text_place hle, hcanonical]
      simp [place, hle]
    · simp [place, not_le.mpr hgt] at hcount
  · rintro _ ⟨⟩ hcount
    rcases le_or_gt text.length out.length with hle | hgt
    · simp only [place, hle, if_true] at hcount
      omega
    · simp [place, not_le.mpr hgt, Written.text]

/-- Nothing is written where there is no canonical text. -/
theorem writesExactly_none (hcanonical : ∀ t, ¬canonical t) :
    WritesExactly canonical out (some ⟨out, 0⟩) where
  returns := ⟨_, rfl⟩
  success_iff := by
    rintro _ ⟨⟩
    simp [hcanonical]
  success := by
    rintro _ ⟨⟩ h
    exact absurd rfl h
  failure := by
    rintro _ ⟨⟩ -
    exact ⟨rfl, rfl⟩

theorem signedText_ne_nil (v : ℤ) : signedText v ≠ [] := by
  unfold signedText
  split
  · exact List.cons_ne_nil _ _
  · exact decimalText_ne_nil _

theorem hexText_ne_nil (letters : HexCase) (digits v : ℕ) : hexText letters digits v ≠ [] := by
  unfold hexText
  split
  · simpa using numeral_ne_nil (by decide) v
  · next hne =>
    refine List.length_pos_iff.mp ?_
    rw [List.length_map, length_padded]
    omega

/-- The number a value of the type stands for. -/
def IntType.valueOf (T : IntType) (v : BitVec T.bits) : ℤ := if T.signed then v.toInt else v.toNat

theorem signedText_natCast (n : ℕ) : signedText n = decimalText n := by
  rw [signedText, if_neg (by omega), Int.natAbs_natCast]

theorem tryFormatInt_place (T : IntType) (out : List UInt8) (v : BitVec T.bits) :
    tryFormatInt T out v = some (place out (signedText (T.valueOf v))) := by
  rcases hT : T.signed with _ | _
  · have hvalue : T.valueOf v = v.toNat := by simp [IntType.valueOf, hT]
    rw [tryFormatInt, if_pos hT, tryFormatUint_eq T.le_long, hvalue, signedText_natCast]
  · have hvalue : T.valueOf v = v.toInt := by simp [IntType.valueOf, hT]
    rw [tryFormatInt_eq T hT, hvalue]

structure FormattersExact (T : IntType) (out : List UInt8) (v : BitVec T.bits) : Prop where
  uint : WritesExactly (IsDecimal v.toNat) out (tryFormatUint out v)
  int : WritesExactly (IsSigned (T.valueOf v)) out (tryFormatInt T out v)
  hex : ∀ digits letters,
    WritesExactly (IsHex letters digits v.toNat) out (tryFormatHex out v digits letters)

/-- CORRECT: the formatters write the canonical text, or nothing at all. -/
theorem formatters_exact (T : IntType) (out : List UInt8) (v : BitVec T.bits) :
    FormattersExact T out v where
  uint := by
    rw [tryFormatUint_eq T.le_long]
    exact writesExactly_place (decimalText_ne_nil _) (fun _ => isDecimal_iff)
  int := by
    rw [tryFormatInt_place]
    exact writesExactly_place (signedText_ne_nil _) (fun _ => isSigned_iff)
  hex digits letters := by
    rw [tryFormatHex_eq T.le_long]
    split
    · next hfew =>
      exact writesExactly_none (fun t ht => (isHex_iff.mp ht).1 hfew)
    · next hmany =>
      refine writesExactly_place (hexText_ne_nil _ _ _) (fun t => ?_)
      rw [isHex_iff]
      exact and_iff_right hmany

end Metl.Text
