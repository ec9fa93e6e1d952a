import Metl.Codes.CrcRemainder

/-! The checks see every burst that is no longer than their register.

        x  ── ─ ─  same  ─ ─ ──│ differs │── ─ ─  same  ─ ─ ──
        y  ── ─ ─  same  ─ ─ ──│   ≤ w   │── ─ ─  same  ─ ─ ──

    The difference of the two messages is a polynomial of degree less than `w`, shifted. Equal checks
    make it a multiple of the generator, which is coprime to `X` and of degree `w`. -/

namespace Metl.Crc

open Metl.Schemes Polynomial

variable {w : ℕ}

/-- The bits of a message in the order in which the register takes them. -/
def consumed (reflected : Bool) (bytes : List Byte) (p : ℕ) : Bool :=
  let byte := bytes.getD (p / 8) 0
  if reflected then byte.getLsbD (p % 8) else byte.getLsbD (7 - p % 8)

/-- Where the messages differ, they do so within `w` consecutive bits. -/
def Burst (reflected : Bool) (w : ℕ) (xs ys : List Byte) : Prop :=
  ∃ first, ∀ p, consumed reflected xs p ≠ consumed reflected ys p → first ≤ p ∧ p < first + w

def DetectsBursts (reflected : Bool) (crc : Bool → List Byte → Params w → BitVec w) : Prop :=
  ∀ (table : Bool) (params : Params w) (xs ys : List Byte), xs.length = ys.length → xs ≠ ys →
    Burst reflected w xs ys → crc table xs params ≠ crc table ys params

/-! ### The polynomial of a message -/

/-- The coefficients are the bits, from the last one. -/
theorem coeff_messagePoly (bytes : List Byte) (e : ℕ) :
    (messagePoly bytes).coeff e = if (bytes.reverse.getD (e / 8) 0).getLsbD (e % 8) then 1 else 0 := by
  induction bytes using List.reverseRecOn generalizing e with
  | nil => simp [messagePoly]
  | append_singleton bytes byte ih =>
    have hmessage : messagePoly (bytes ++ [byte]) = messagePoly bytes * X ^ 8 + bitPoly byte := by
      rw [messagePoly, List.foldl_append]
      rfl
    rw [hmessage, coeff_add, coeff_mul_X_pow', coeff_bitPoly, List.reverse_append]
    rcases Nat.lt_or_ge e 8 with hlt | hge
    · rw [if_neg (by omega), Nat.div_eq_of_lt hlt, Nat.mod_eq_of_lt hlt, zero_add]
      rfl
    · have hdiv : e / 8 = (e - 8) / 8 + 1 := by omega
      have hmod : e % 8 = (e - 8) % 8 := by omega
      rw [if_pos hge, ih, BitVec.getLsbD_of_ge byte e hge, hdiv, hmod]
      simp

theorem messagePoly_injective {xs ys : List Byte} (hlength : xs.length = ys.length)
    (h : messagePoly xs = messagePoly ys) : xs = ys := by
  rw [← List.reverse_inj]
  refine List.ext_getElem? fun k => ?_
  rcases Nat.lt_or_ge k xs.length with hlt | hge
  · have hbyte : xs.reverse.getD k 0 = ys.reverse.getD k 0 := by
      refine BitVec.eq_of_getLsbD_eq fun i hi => ?_
      have hcoeff := congrArg (fun f => f.coeff (8 * k + i)) h
      simp only [coeff_messagePoly] at hcoeff
      rw [show (8 * k + i) / 8 = k by omega, show (8 * k + i) % 8 = i by omega] at hcoeff
      cases hx : (xs.reverse.getD k 0).getLsbD i <;> cases hy : (ys.reverse.getD k 0).getLsbD i <;>
        simp_all
    rw [List.getD_eq_getElem?_getD, List.getD_eq_getElem?_getD,
      List.getElem?_eq_getElem (by simpa using hlt),
      List.getElem?_eq_getElem (by rw [List.length_reverse]; omega)] at hbyte
    rw [List.getElem?_eq_getElem (by simpa using hlt),
      List.getElem?_eq_getElem (by rw [List.length_reverse]; omega)]
    exact congrArg some hbyte
  · rw [List.getElem?_eq_none (by simpa using hge),
      List.getElem?_eq_none (by rw [List.length_reverse]; omega)]

theorem inOrder_injective {v : ℕ} (reflected : Bool) :
    Function.Injective (inOrder (v := v) reflected) := by
  cases reflected with
  | false => exact fun x y h => h
  | true =>
    intro x y h
    refine BitVec.eq_of_getLsbD_eq fun i hi => ?_
    rw [← BitVec.getMsbD_reverse, ← BitVec.getMsbD_reverse]
    exact congrArg (fun z => z.getMsbD i) h

/-- The bit at `p` is the coefficient so far from the top. -/
theorem coeff_consumed (reflected : Bool) (bytes : List Byte) {p : ℕ} (hp : p < 8 * bytes.length) :
    (messagePoly (bytes.map (inOrder reflected))).coeff (8 * bytes.length - 1 - p) =
      if consumed reflected bytes p then 1 else 0 := by
  have hbyte : p / 8 < bytes.length := by omega
  have hplace : (bytes.map (inOrder reflected)).reverse.getD ((8 * bytes.length - 1 - p) / 8) 0 =
      inOrder reflected (bytes.getD (p / 8) 0) := by
    rw [List.getD_reverse _ (by rw [List.length_map]; omega), List.length_map,
      show bytes.length - 1 - (8 * bytes.length - 1 - p) / 8 = p / 8 by omega,
      List.getD_eq_getElem _ _ (by simpa using hbyte), List.getD_eq_getElem _ _ hbyte, List.getElem_map]
  have hbit : (inOrder reflected (bytes.getD (p / 8) 0)).getLsbD (7 - p % 8) =
      consumed reflected bytes p := by
    cases reflected with
    | false => rfl
    | true =>
      change (bytes.getD (p / 8) 0).reverse.getLsbD (7 - p % 8) = (bytes.getD (p / 8) 0).getLsbD (p % 8)
      rw [BitVec.getLsbD_reverse, BitVec.getMsbD_eq_getLsbD, show 8 - 1 - (7 - p % 8) = p % 8 by omega]
      simp [show 7 - p % 8 < 8 by omega]
  rw [coeff_messagePoly, hplace, show (8 * bytes.length - 1 - p) % 8 = 7 - p % 8 by omega, hbit]

theorem coeff_messagePoly_ge (bytes : List Byte) {e : ℕ} (he : 8 * bytes.length ≤ e) :
    (messagePoly bytes).coeff e = 0 := by
  rw [coeff_messagePoly, List.getD_eq_default _ _ (by rw [List.length_reverse]; omega)]
  simp

/-- The difference of the messages lies in a window of `w` coefficients. -/
theorem Burst.window {reflected : Bool} {xs ys : List Byte} (h : Burst reflected w xs ys)
    (hlength : xs.length = ys.length) :
    ∃ j, ∀ e, (messagePoly (xs.map (inOrder reflected)) - messagePoly (ys.map (inOrder reflected))).coeff e ≠ 0 →
      j ≤ e ∧ e < j + w := by
  obtain ⟨first, hfirst⟩ := h
  refine ⟨8 * xs.length - (first + w), fun e he => ?_⟩
  rw [coeff_sub] at he
  rcases Nat.lt_or_ge e (8 * xs.length) with hlt | hge
  · obtain ⟨p, hp, rfl⟩ : ∃ p, p < 8 * xs.length ∧ 8 * xs.length - 1 - p = e :=
      ⟨8 * xs.length - 1 - e, by omega, by omega⟩
    have hdiffer : consumed reflected xs p ≠ consumed reflected ys p := by
      intro hsame
      refine he ?_
      rw [coeff_consumed reflected xs hp, hlength, coeff_consumed reflected ys (hlength ▸ hp), hsame, sub_self]
    obtain ⟨hlow, hhigh⟩ := hfirst p hdiffer
    omega
  · refine absurd ?_ he
    rw [coeff_messagePoly_ge _ (by rw [List.length_map]; exact hge),
      coeff_messagePoly_ge _ (by rw [List.length_map, ← hlength]; exact hge), sub_zero]

/-! ### The checks -/

/-- A check that is a remainder by a generator with a constant term. -/
theorem Correct.detectsBursts {reflected : Bool} {polynomial : BitVec w}
    {crc : Bool → List Byte → Params w → BitVec w} (hcrc : Correct reflected polynomial crc) (hw : 0 < w)
    (hodd : (inOrder reflected polynomial).getLsbD 0 = true) : DetectsBursts reflected crc := by
  intro table params xs ys hlength hne hburst heq
  have hbits : crc false xs params = crc false ys params := by
    cases table with
    | false => exact heq
    | true => rwa [hcrc.table_eq, hcrc.table_eq] at heq
  have hx := hcrc.remainder xs params
  have hy := hcrc.remainder ys params
  rw [hbits] at hx
  -- what the two registers have in common is cancelled
  have hzero : (messagePoly (xs.map (inOrder reflected)) * X ^ w -
      messagePoly (ys.map (inOrder reflected)) * X ^ w) %ₘ generator (inOrder reflected polynomial) = 0 := by
    rw [← add_sub_add_left_eq_sub _ _ (bitPoly (inOrder reflected params.initial) * X ^ (8 * xs.length)),
      sub_modByMonic, ← hx, hlength, ← hy, sub_self]
  rw [modByMonic_eq_zero_iff_dvd (generator_monic _), ← sub_mul] at hzero
  obtain ⟨j, hwindow⟩ := hburst.window hlength
  have hsame := sub_eq_zero.mp (eq_zero_of_generator_dvd hw hodd hzero hwindow)
  have hmap := messagePoly_injective (by rw [List.length_map, List.length_map, hlength]) hsame
  exact hne ((inOrder_injective reflected).list_map hmap)

/-- CORRECT: no burst as short as the register goes unseen, whatever the initial and the final value. -/
theorem crc_detects_bursts : DetectsBursts false crc8 ∧ DetectsBursts false crc16 ∧
    DetectsBursts true crc32 := by
  refine ⟨correct_crc8.detectsBursts (by decide) rfl, correct_crc16.detectsBursts (by decide) rfl,
    correct_crc32.detectsBursts (by decide) ?_⟩
  change crc32Polynomial.reverse.getLsbD 0 = true
  rw [BitVec.getLsbD_reverse]
  rfl

end Metl.Crc
