import Mathlib.Data.List.TakeWhile
import Metl.Text.Parse

/-! Formatting and parsing undo each other.

```
       v  --- format --->  text            t = consumed ++ tail  --- parse --->  v
       ^                    |                      |                             |
       +----- parse --------+                  normal text  <----- format -------+
```

Both sides are compared through the `numeral` of the number: the characters a formatter writes for
it are read back as its digits (`Spelling`), and a run of digits without its leading zeros is the
numeral of its value. -/

namespace Metl.Text
open Schemes.Numerals

/-- `glyph` writes the digits of a base as characters the parser accepts and reads back. -/
structure Spelling (base : ℕ) (glyph : ℕ → UInt8) (accepts : UInt8 → Bool) (digitOf : UInt8 → ℕ) :
    Prop where
  accepted : ∀ d < base, accepts (glyph d) = true
  read : ∀ d < base, digitOf (glyph d) = d

theorem decimal_spelling : Spelling 10 decimalGlyph isDecimalDigit (fun c => c.toNat - 48) where
  accepted := by decide
  read := by decide

theorem hex_spelling (letters : HexCase) :
    Spelling 16 (hexGlyph letters) (fun c => decide (hexDigitValue c < 16)) hexDigitValue where
  accepted := by cases letters <;> decide
  read := by cases letters <;> decide

section Spelling

variable {base : ℕ} {glyph : ℕ → UInt8} {accepts : UInt8 → Bool} {digitOf : UInt8 → ℕ}

variable {ds : List ℕ}

/-- The written digits are the longest run of accepted characters if the text goes on with another
    character. -/
theorem Spelling.takeWhile_eq (h : Spelling base glyph accepts digitOf) (hds : ∀ d ∈ ds, d < base)
    {s : List UInt8} (hs : ∀ c ∈ s.head?, accepts c = false) :
    (ds.map glyph ++ s).takeWhile accepts = ds.map glyph := by
  have hall : ∀ c ∈ ds.map glyph, accepts c = true := by
    intro c hc
    obtain ⟨d, hd, rfl⟩ := List.mem_map.mp hc
    exact h.accepted d (hds d hd)
  have hnone : s.takeWhile accepts = [] := by
    cases s with
    | nil => rfl
    | cons c s => simp [hs c rfl]
  rw [List.takeWhile_append_of_pos hall, hnone, List.append_nil]

theorem Spelling.map_read (h : Spelling base glyph accepts digitOf) (hds : ∀ d ∈ ds, d < base) :
    (ds.map glyph).map digitOf = ds := by
  have hread : ∀ d ∈ ds, (digitOf ∘ glyph) d = id d := fun d hd => h.read d (hds d hd)
  rw [List.map_map, List.map_congr_left hread, List.map_id]

end Spelling

variable {s t out : List UInt8} {ds : List ℕ} {w n m digits : ℕ} {v : BitVec w}

theorem decimalDigitsOf_append (v : ℕ) (hs : ∀ c ∈ s.head?, isDecimalDigit c = false) :
    decimalDigitsOf (decimalText v ++ s) = numeral 10 v := by
  have hlt : ∀ d ∈ numeral 10 v, d < 10 := numeral_lt (by decide) v
  unfold decimalDigitsOf decimalText
  rw [decimal_spelling.takeWhile_eq hlt hs, decimal_spelling.map_read hlt]

theorem hexDigitsOf_append (letters : HexCase) (hds : ∀ d ∈ ds, d < 16)
    (hs : ∀ c ∈ s.head?, ¬hexDigitValue c < 16) : hexDigitsOf (ds.map (hexGlyph letters) ++ s) = ds := by
  have hstop : ∀ c ∈ s.head?, decide (hexDigitValue c < 16) = false :=
    fun c hc => decide_eq_false (hs c hc)
  unfold hexDigitsOf
  rw [(hex_spelling letters).takeWhile_eq hds hstop, (hex_spelling letters).map_read hds]

/-! ## From the number to the text and back -/

theorem decimalText_ne_nil (v : ℕ) : decimalText v ≠ [] := by
  simpa [decimalText] using numeral_ne_nil (show 1 < 10 by decide) v

theorem toNat_le_unsignedMax (v : BitVec w) : v.toNat ≤ unsignedMax w := by
  have := v.isLt
  unfold unsignedMax
  omega

theorem toNat_ofNat_of_le (h : n ≤ unsignedMax w) : (BitVec.ofNat w n).toNat = n := by
  have hpos := Nat.two_pow_pos w
  unfold unsignedMax at h
  rw [BitVec.toNat_ofNat, Nat.mod_eq_of_lt (by omega)]

theorem ofNat_toNat_self (v : BitVec w) : BitVec.ofNat w v.toNat = v := by
  rw [BitVec.ofNat_toNat, BitVec.setWidth_eq]

theorem parse_decimalText (word : ℕ) (v : BitVec w) (hs : ∀ c ∈ s.head?, isDecimalDigit c = false) :
    tryParseUint word w (decimalText v.toNat ++ s) = .ok ⟨v, s⟩ := by
  rw [tryParseUint_eq, decimalDigitsOf_append _ hs, value_numeral (by decide), outcome_eq_ok]
  refine ⟨by simp [decimalText_ne_nil], numeral_ne_nil (by decide) _,
    not_lt.mpr (toNat_le_unsignedMax v), ?_⟩
  rw [ofNat_toNat_self, ← length_decimalText, List.drop_left]

theorem parse_hexDigits (word : ℕ) (hw : 8 ≤ w) (v : BitVec w) (letters : HexCase) (hne : ds ≠ [])
    (hds : ∀ d ∈ ds, d < 16) (hvalue : value 16 ds = v.toNat)
    (hs : ∀ c ∈ s.head?, ¬hexDigitValue c < 16) :
    tryParseHex word w (ds.map (hexGlyph letters) ++ s) = .ok ⟨v, s⟩ := by
  rw [tryParseHex_eq word hw, hexDigitsOf_append letters hds hs, hvalue, outcome_eq_ok]
  refine ⟨by simp [hne], hne, not_lt.mpr (toNat_le_unsignedMax v), ?_⟩
  rw [ofNat_toNat_self, List.drop_left' (List.length_map _)]

/-- No decimal text starts with a sign. -/
theorem head_decimalText_append (v : ℕ) (s : List UInt8) : (decimalText v ++ s).head? ≠ some 45 := by
  intro h
  cases hn : numeral 10 v with
  | nil => exact numeral_ne_nil (by decide) v hn
  | cons d ds =>
    have hd : d < 10 := numeral_lt (by decide) v d (by simp [hn])
    have haccepted := decimal_spelling.accepted d hd
    simp only [decimalText, hn, List.map_cons, List.cons_append, List.head?_cons, Option.some.injEq] at h
    rw [h] at haccepted
    exact absurd haccepted (by decide)

theorem toInt_bounds (hw : 8 ≤ w) (v : BitVec w) :
    -(2 ^ (w - 1) : ℕ) ≤ v.toInt ∧ v.toInt < (2 ^ (w - 1) : ℕ) := by
  have hhalf := two_mul_half hw
  have hlt := v.isLt
  rw [BitVec.toInt_eq_toNat_cond]
  split <;> omega

theorem neg_ofNat_natAbs (h : v.toInt < 0) : -BitVec.ofNat w v.toInt.natAbs = v := by
  apply BitVec.eq_of_toInt_eq
  have habs : (v.toInt.natAbs : ℤ) = -v.toInt := by omega
  rw [← BitVec.ofInt_natCast, habs, ← BitVec.ofInt_neg, neg_neg, BitVec.ofInt_toInt]

theorem ofNat_natAbs (h : ¬v.toInt < 0) : BitVec.ofNat w v.toInt.natAbs = v := by
  apply BitVec.eq_of_toInt_eq
  have habs : (v.toInt.natAbs : ℤ) = v.toInt := by omega
  rw [← BitVec.ofInt_natCast, habs, BitVec.ofInt_toInt]

theorem withSign_minus (text : List UInt8) (m : ℕ) : withSign w (45 :: text) m = -BitVec.ofNat w m := rfl

theorem parse_signedText (word : ℕ) (hw : 8 ≤ w) (v : BitVec w)
    (hs : ∀ c ∈ s.head?, isDecimalDigit c = false) :
    tryParseInt word w (signedText v.toInt ++ s) = .ok ⟨v, s⟩ := by
  have hbounds := toInt_bounds hw v
  have hdigits := decimalDigitsOf_append v.toInt.natAbs hs
  have hne := numeral_ne_nil (show 1 < 10 by decide) v.toInt.natAbs
  have htext := decimalText_ne_nil v.toInt.natAbs
  rw [tryParseInt_eq word hw, outcome_eq_ok]
  by_cases hneg : v.toInt < 0
  · have hpart : unsignedPart (45 :: decimalText v.toInt.natAbs ++ s) = decimalText v.toInt.natAbs ++ s := rfl
    have hlimit : signedLimit w (45 :: decimalText v.toInt.natAbs ++ s) = 2 ^ (w - 1) := rfl
    rw [signedText, if_pos hneg, hpart, hdigits, value_numeral (by decide), hlimit]
    refine ⟨by simp, hne, by omega, ?_⟩
    rw [List.cons_append, withSign_minus, neg_ofNat_natAbs hneg, ← length_decimalText, List.drop_left]
  · have hhead := head_decimalText_append v.toInt.natAbs s
    have hpart : unsignedPart (decimalText v.toInt.natAbs ++ s) = decimalText v.toInt.natAbs ++ s := if_neg hhead
    have hlimit : signedLimit w (decimalText v.toInt.natAbs ++ s) = 2 ^ (w - 1) - 1 := if_neg hhead
    have hsign : withSign w (decimalText v.toInt.natAbs ++ s) v.toInt.natAbs = v :=
      (if_neg hhead).trans (ofNat_natAbs hneg)
    rw [signedText, if_neg hneg, hpart, hdigits, value_numeral (by decide), hlimit, hsign]
    refine ⟨by simp [htext], hne, by omega, ?_⟩
    rw [← length_decimalText, List.drop_left]

/-! ## From the text to the number and back -/

/-- Leading zeros removed after the sign, and the sign of a zero dropped. -/
def normalText : List UInt8 → List UInt8
  | [] => []
  | c :: rest =>
    if c = 45 then (if stripZeros 48 rest = [48] then [48] else 45 :: stripZeros 48 rest)
    else stripZeros 48 (c :: rest)

/-- A hex digit in lower case. -/
def lowerCase (c : UInt8) : UInt8 := if 65 ≤ c.toNat ∧ c.toNat ≤ 70 then c + 32 else c

/-- The characters a parser takes and what is left make up the text. -/
theorem takeWhile_append_drop_length (accepts : UInt8 → Bool) (digitOf : UInt8 → ℕ) (t : List UInt8) :
    t.takeWhile accepts ++ t.drop ((t.takeWhile accepts).map digitOf).length = t := by
  rw [List.length_map]
  induction t with
  | nil => rfl
  | cons c t ih =>
    by_cases hc : accepts c = true
    · simp [hc, ih]
    · simp [hc]

/-- The accepted characters, without their leading zeros, as the digits of the number they stand for. -/
theorem map_stripZeros {base : ℕ} (hbase : 1 < base) {digitOf : UInt8 → ℕ} {cs : List UInt8}
    (hne : cs ≠ []) (hlt : ∀ c ∈ cs, digitOf c < base) (hzero : digitOf 48 = 0)
    (honly : ∀ c ∈ cs, digitOf c = 0 → c = 48) :
    (stripZeros 48 cs).map digitOf = numeral base (value base (cs.map digitOf)) := by
  have hmap : stripZeros (digitOf 48) (cs.map digitOf) = (stripZeros 48 cs).map digitOf :=
    stripZeros_map (fun c hc h => honly c hc (h.trans hzero))
  rw [← hmap, hzero, stripZeros_eq_numeral hbase (by simpa using hne)]
  intro d hd
  obtain ⟨c, hc, rfl⟩ := List.mem_map.mp hd
  exact hlt c hc

theorem forall_char {p : UInt8 → Prop} (h : ∀ n < 256, p (UInt8.ofNat n)) (c : UInt8) : p c := by
  have hc := h c.toNat c.toNat_lt
  rwa [UInt8.ofNat_toNat] at hc

/-- The decimal text of a number is the text it was read from without the leading zeros. -/
theorem decimalText_value (hne : decimalDigitsOf t ≠ []) :
    decimalText (value 10 (decimalDigitsOf t)) = stripZeros 48 (t.takeWhile isDecimalDigit) := by
  have hread : ∀ c, isDecimalDigit c = true →
      c.toNat - 48 < 10 ∧ (c.toNat - 48 = 0 → c = 48) ∧ decimalGlyph (c.toNat - 48) = c :=
    forall_char (by decide +kernel)
  have hcs : t.takeWhile isDecimalDigit ≠ [] := by simpa [decimalDigitsOf] using hne
  have hmap := map_stripZeros (show 1 < 10 by decide) hcs
    (fun c hc => (hread c (List.mem_takeWhile_imp hc)).1) (by decide)
    (fun c hc => (hread c (List.mem_takeWhile_imp hc)).2.1)
  rw [decimalText, decimalDigitsOf, ← hmap, List.map_map]
  have hback : ∀ c ∈ stripZeros 48 (t.takeWhile isDecimalDigit),
      (decimalGlyph ∘ fun c => c.toNat - 48) c = id c :=
    fun c hc => (hread c (List.mem_takeWhile_imp (mem_of_mem_stripZeros hc))).2.2
  rw [List.map_congr_left hback, List.map_id]

/-- The same for hex, up to the case of the letters. -/
theorem hexText_value (letters : HexCase) (hne : hexDigitsOf t ≠ []) :
    (hexText letters 0 (value 16 (hexDigitsOf t))).map lowerCase =
      (stripZeros 48 (t.takeWhile (fun c => decide (hexDigitValue c < 16)))).map lowerCase := by
  have hread : ∀ c, hexDigitValue c < 16 → (hexDigitValue c = 0 → c = 48) ∧
      lowerCase (hexGlyph letters (hexDigitValue c)) = lowerCase c :=
    forall_char (by cases letters <;> decide +kernel)
  have hcs : t.takeWhile (fun c => decide (hexDigitValue c < 16)) ≠ [] := by
    simpa [hexDigitsOf] using hne
  have hmem : ∀ c ∈ t.takeWhile (fun c => decide (hexDigitValue c < 16)), hexDigitValue c < 16 :=
    fun c hc => by simpa using List.mem_takeWhile_imp hc
  have hmap := map_stripZeros (show 1 < 16 by decide) hcs hmem (by decide)
    (fun c hc => (hread c (hmem c hc)).1)
  rw [hexText, if_pos rfl, hexDigitsOf, ← hmap, List.map_map, List.map_map]
  refine List.map_congr_left (fun c hc => ?_)
  exact (hread c (hmem c (mem_of_mem_stripZeros hc))).2

theorem decimalText_eq_zero : decimalText m = [48] ↔ m = 0 := by
  constructor
  · intro h
    have hdigits := decimalDigitsOf_append m (s := []) (by simp)
    rw [h] at hdigits
    have hvalue := value_numeral (show 1 < 10 by decide) m
    rw [← hdigits] at hvalue
    exact hvalue.symm
  · rintro rfl
    decide

/-- The value has the magnitude and the sign of the text. -/
theorem toInt_withSign (hw : 8 ≤ w) (h : m ≤ signedLimit w t) :
    (withSign w t m).toInt = if t.head? = some 45 then -(m : ℤ) else m := by
  have hhalf := two_mul_half hw
  have hpos := Nat.two_pow_pos (w - 1)
  unfold signedLimit signedMax at h
  unfold withSign
  split
  · next hneg =>
    rw [if_pos hneg] at h
    rw [← BitVec.ofInt_natCast, ← BitVec.ofInt_neg, BitVec.toInt_ofInt, Int.bmod_eq_of_le (by omega) (by omega)]
  · next hneg =>
    rw [if_neg hneg] at h
    rw [BitVec.toInt_ofNat', Int.bmod_eq_of_le (by omega) (by omega)]

/-- The normal form of a text with a sign is the text of its value. -/
theorem signedText_value (hw : 8 ≤ w) (hne : decimalDigitsOf (unsignedPart t) ≠ [])
    (hlimit : value 10 (decimalDigitsOf (unsignedPart t)) ≤ signedLimit w t) :
    ∃ consumed, t = consumed ++ (unsignedPart t).drop (decimalDigitsOf (unsignedPart t)).length ∧
      signedText (withSign w t (value 10 (decimalDigitsOf (unsignedPart t)))).toInt =
        normalText consumed := by
  have hstrip := decimalText_value hne
  have hsplit := takeWhile_append_drop_length isDecimalDigit (fun c => c.toNat - 48) (unsignedPart t)
  have hint := toInt_withSign hw hlimit
  by_cases hneg : t.head? = some 45
  · obtain ⟨rest, rfl⟩ : ∃ rest, t = 45 :: rest := by
      cases t with
      | nil => simp at hneg
      | cons c rest => exact ⟨rest, by rw [List.head?_cons, Option.some.injEq] at hneg; rw [hneg]⟩
    refine ⟨45 :: rest.takeWhile isDecimalDigit, ?_, ?_⟩
    · exact congrArg (45 :: ·) hsplit.symm
    · rw [hint, if_pos hneg, normalText, if_pos rfl]
      change decimalText (value 10 (decimalDigitsOf rest)) = _ at hstrip
      change signedText (-(value 10 (decimalDigitsOf rest) : ℕ)) = _
      change _ = stripZeros 48 (rest.takeWhile isDecimalDigit) at hstrip
      rw [← hstrip, signedText, Int.natAbs_neg, Int.natAbs_natCast]
      rcases Nat.eq_zero_or_pos (value 10 (decimalDigitsOf rest)) with hzero | hpos
      · rw [hzero, if_neg (by simp), if_pos (decimalText_eq_zero.mpr rfl), decimalText_eq_zero.mpr rfl]
      · have hnonzero : decimalText (value 10 (decimalDigitsOf rest)) ≠ [48] := by
          rw [ne_eq, decimalText_eq_zero]
          omega
        rw [if_pos (by omega), if_neg hnonzero]
  · have hpart : unsignedPart t = t := if_neg hneg
    rw [hpart] at hne hstrip hsplit hint ⊢
    refine ⟨t.takeWhile isDecimalDigit, hsplit.symm, ?_⟩
    rw [hint, if_neg hneg, signedText, if_neg (by omega), Int.natAbs_natCast, hstrip]
    cases hcs : t.takeWhile isDecimalDigit with
    | nil => simp [decimalDigitsOf, hcs] at hne
    | cons c rest =>
      have hc : isDecimalDigit c = true := List.mem_takeWhile_imp (l := t) (by simp [hcs])
      have hminus : c ≠ 45 := by
        rintro rfl
        exact absurd hc (by decide)
      rw [normalText, if_neg hminus]

/-! ## Round trips -/

section RoundTrips

variable {w : ℕ} (format : List UInt8 → BitVec w → Option Written)
  (parse : List UInt8 → Except ParseError (Parsed w)) (room : BitVec w → ℕ → Prop)

/-- The text written into a buffer with room for it, followed by no further digit, is read as the
    number and what follows. -/
def ReadsBack (digit : UInt8 → Prop) : Prop :=
  ∀ (v : BitVec w) (out s : List UInt8), room v out.length → (∀ c ∈ s.head?, ¬digit c) →
    ∃ r, format out v = some r ∧ parse (r.text ++ s) = .ok ⟨v, s⟩

/-- The number read from a text is written as the normal form of the characters consumed. -/
def WritesBack (normal : List UInt8 → List UInt8 → Prop) : Prop :=
  ∀ (t : List UInt8) (v : BitVec w) (tail : List UInt8), parse t = .ok ⟨v, tail⟩ →
    ∃ consumed, t = consumed ++ tail ∧
      ∀ out : List UInt8, room v out.length → ∃ r, format out v = some r ∧ normal consumed r.text

end RoundTrips

/-- `v` can be written with `count` digits. -/
def Fits (base count v : ℕ) : Prop := 0 < count ∧ v < base ^ count

/-- `v` can be written with `count` characters, one of them the sign if it is negative. -/
def SignedFits (count : ℕ) (v : ℤ) : Prop :=
  if v < 0 then Fits 10 (count - 1) v.natAbs else Fits 10 count v.natAbs

/-- `v` can be written with the digits asked for, or with as many as it needs. -/
def HexFits (digits count v : ℕ) : Prop :=
  if digits = 0 then Fits 16 count v else digits ≤ count ∧ v < 16 ^ digits

/-- Every pair of formatter and parser of an integer type. -/
structure RoundTrips (word : ℕ) (T : IntType) : Prop where
  uint : T.signed = false →
    ReadsBack tryFormatUint (tryParseUint word T.bits) (fun v n => Fits 10 n v.toNat)
      (fun c => isDecimalDigit c = true)
  uint_back : T.signed = false →
    WritesBack tryFormatUint (tryParseUint word T.bits) (fun v n => Fits 10 n v.toNat)
      (fun consumed text => text = stripZeros 48 consumed)
  int : T.signed = true →
    ReadsBack (tryFormatInt T) (tryParseInt word T.bits) (fun v n => SignedFits n v.toInt)
      (fun c => isDecimalDigit c = true)
  int_back : T.signed = true →
    WritesBack (tryFormatInt T) (tryParseInt word T.bits) (fun v n => SignedFits n v.toInt)
      (fun consumed text => text = normalText consumed)
  hex : T.signed = false → ∀ digits letters,
    ReadsBack (fun out v => tryFormatHex out v digits letters) (tryParseHex word T.bits)
      (fun v n => HexFits digits n v.toNat) (fun c => hexDigitValue c < 16)
  hex_back : T.signed = false → ∀ letters,
    WritesBack (fun out v => tryFormatHex out v 0 letters) (tryParseHex word T.bits)
      (fun v n => Fits 16 n v.toNat)
      (fun consumed text => text.map lowerCase = (stripZeros 48 consumed).map lowerCase)

theorem uint_written (hw : w ≤ 64) (h : Fits 10 out.length v.toNat) :
    ∃ r, tryFormatUint out v = some r ∧ r.text = decimalText v.toNat := by
  refine ⟨_, tryFormatUint_eq hw out v, text_place ?_⟩
  rw [length_decimalText]
  exact (length_numeral_le (by decide) _ _).mpr h

theorem int_written {T : IntType} (hT : T.signed = true) {v : BitVec T.bits}
    (h : SignedFits out.length v.toInt) :
    ∃ r, tryFormatInt T out v = some r ∧ r.text = signedText v.toInt := by
  refine ⟨_, tryFormatInt_eq T hT out v, text_place ?_⟩
  unfold SignedFits at h
  unfold signedText
  split
  · next hneg =>
    rw [if_pos hneg] at h
    have hlen := (length_numeral_le (by decide) _ _).mpr h
    have hroom : 0 < out.length - 1 := h.1
    rw [List.length_cons, length_decimalText]
    omega
  · next hneg =>
    rw [if_neg hneg] at h
    rw [length_decimalText]
    exact (length_numeral_le (by decide) _ _).mpr h

theorem hex_written (hw : w ≤ 64) (letters : HexCase) (h : HexFits digits out.length v.toNat) :
    ∃ r, tryFormatHex out v digits letters = some r ∧ r.text = hexText letters digits v.toNat := by
  unfold HexFits at h
  rw [tryFormatHex_eq hw]
  rcases Nat.eq_zero_or_pos digits with rfl | hdigits
  · rw [if_pos rfl] at h
    refine ⟨_, if_neg (by simp), text_place ?_⟩
    rw [hexText, if_pos rfl, List.length_map]
    exact (length_numeral_le (by decide) _ _).mpr h
  · have hne : digits ≠ 0 := by omega
    rw [if_neg hne] at h
    have hneeded : (numeral 16 v.toNat).length ≤ digits :=
      (length_numeral_le (by decide) _ _).mpr ⟨hdigits, h.2⟩
    refine ⟨_, if_neg (by omega), text_place ?_⟩
    rw [hexText, if_neg hne, List.length_map, length_padded]
    exact h.1

/-- The digits written for a hex field stand for its value. -/
theorem hexText_spells {v : ℕ} (h : HexFits digits n v) (letters : HexCase) :
    ∃ ds, hexText letters digits v = ds.map (hexGlyph letters) ∧ ds ≠ [] ∧ (∀ d ∈ ds, d < 16) ∧
      value 16 ds = v := by
  unfold HexFits at h
  unfold hexText
  split
  · exact ⟨_, rfl, numeral_ne_nil (by decide) v, numeral_lt (by decide) v, value_numeral (by decide) v⟩
  · next hne =>
    rw [if_neg hne] at h
    refine ⟨_, rfl, ?_, padded_lt (by decide) digits v, value_padded digits v h.2⟩
    intro hnil
    have hlen := congrArg List.length hnil
    rw [length_padded] at hlen
    exact hne hlen

/-- CORRECT: for every integer type of at most 64 bits the formatters and the parsers undo each
    other, whatever the width of `unsigned`. -/
theorem text_round_trips (word : ℕ) (T : IntType) : RoundTrips word T where
  uint _ v out s hroom hs := by
    obtain ⟨r, hr, htext⟩ := uint_written T.le_long hroom
    refine ⟨r, hr, ?_⟩
    rw [htext]
    exact parse_decimalText word v (fun c hc => Bool.eq_false_iff.mpr (hs c hc))
  uint_back _ t v tail h := by
    rw [tryParseUint_eq, outcome_eq_ok] at h
    obtain ⟨-, hne, habove, hfound⟩ := h
    injection hfound with hv htail
    refine ⟨t.takeWhile isDecimalDigit, ?_, fun out hroom => ?_⟩
    · rw [← htail]
      exact (takeWhile_append_drop_length isDecimalDigit (fun c => c.toNat - 48) t).symm
    · obtain ⟨r, hr, htext⟩ := uint_written T.le_long hroom
      refine ⟨r, hr, ?_⟩
      change r.text = _
      rw [htext, ← decimalText_value hne, ← hv, toNat_ofNat_of_le (not_lt.mp habove)]
  int hT v out s hroom hs := by
    obtain ⟨r, hr, htext⟩ := int_written hT hroom
    refine ⟨r, hr, ?_⟩
    rw [htext]
    exact parse_signedText word T.char_le v (fun c hc => Bool.eq_false_iff.mpr (hs c hc))
  int_back hT t v tail h := by
    rw [tryParseInt_eq word T.char_le, outcome_eq_ok] at h
    obtain ⟨-, hne, habove, hfound⟩ := h
    injection hfound with hv htail
    obtain ⟨consumed, hsplit, hnormal⟩ := signedText_value T.char_le hne (not_lt.mp habove)
    refine ⟨consumed, by rw [← htail]; exact hsplit, fun out hroom => ?_⟩
    obtain ⟨r, hr, htext⟩ := int_written hT hroom
    refine ⟨r, hr, ?_⟩
    rw [htext, ← hv, hnormal]
  hex _ digits letters v out s hroom hs := by
    obtain ⟨r, hr, htext⟩ := hex_written T.le_long letters hroom
    obtain ⟨ds, hds, hne, hlt, hvalue⟩ := hexText_spells hroom letters
    refine ⟨r, hr, ?_⟩
    rw [htext, hds]
    exact parse_hexDigits word T.char_le v letters hne hlt hvalue hs
  hex_back _ letters t v tail h := by
    rw [tryParseHex_eq word T.char_le, outcome_eq_ok] at h
    obtain ⟨-, hne, habove, hfound⟩ := h
    injection hfound with hv htail
    refine ⟨t.takeWhile (fun c => decide (hexDigitValue c < 16)), ?_, fun out hroom => ?_⟩
    · rw [← htail]
      exact (takeWhile_append_drop_length _ hexDigitValue t).symm
    · obtain ⟨r, hr, htext⟩ := hex_written T.le_long letters (show HexFits 0 out.length v.toNat from hroom)
      refine ⟨r, hr, ?_⟩
      change r.text.map lowerCase = _
      rw [htext, ← hexText_value letters hne, ← hv, toNat_ofNat_of_le (not_lt.mp habove)]

example : tryParseInt 32 8 [45, 48, 49, 50, 56, 46] = .ok ⟨-128, [46]⟩ := by decide

example : tryParseUint 32 8 [50, 53, 54] = .error .outOfRange := by decide

end Metl.Text
