import Metl.Schemes.Run
import Metl.Schemes.Wrap

/-! `metl::tick_extender`: a wrapping hardware counter widened to a 64-bit tick.

        true count   14  15  16  17      Bits = 4
        counter      14  15   0   1
        total_       14  15  16  17

    The low bits of the total are the last reading, so the distance the counter has moved is the
    difference of the two modulo `2 ^ Bits`. The read and the update are one step under the lock. -/

namespace Metl.TickExtender
open Metl.Schemes

/-- Largest raw value the counter produces. -/
def mask (bits : ℕ) : BitVec 64 := (1#64 <<< bits) - 1#64

/-- `now()`, from the total and the reading to the new total; `none` when its assertion fails. -/
def now (bits : ℕ) (total raw : BitVec 64) : Option (BitVec 64) :=
  if raw ≤ mask bits then some (total + ((raw - total) &&& mask bits)) else none

/-- A call of `now()`: who makes it, and the true count when the counter is read. -/
structure Call where
  context : ℕ
  count : ℕ

/-- What the counter shows. -/
def Call.raw (bits : ℕ) (call : Call) : BitVec 64 := word 64 (call.count % 2 ^ bits)

/-- What a call has returned, and the reading it took. -/
structure Returned where
  context : ℕ
  raw : BitVec 64
  tick : BitVec 64

/-- The extender, and the calls that have returned in the order of the lock. -/
structure State where
  total : BitVec 64
  returned : List Returned

def State.init : State := ⟨0#64, []⟩

def step (bits : ℕ) (s : State) (call : Call) : Option State :=
  (now bits s.total (call.raw bits)).map fun tick =>
    ⟨tick, s.returned ++ [⟨call.context, call.raw bits, tick⟩]⟩

/-- Reads less than one period apart, the first one in the first period, before the tick wraps. -/
structure Timely (bits : ℕ) (calls : List Call) : Prop where
  first : ∀ call ∈ calls.head?, call.count < 2 ^ bits
  apart : calls.IsChain fun a b => a.count ≤ b.count ∧ b.count < a.count + 2 ^ bits
  fits : ∀ call ∈ calls, call.count < 2 ^ 64

variable {bits : ℕ}

section

variable (hbits : bits ≤ 63)
include hbits

theorem mask_toNat : (mask bits).toNat = 2 ^ bits - 1 := by
  have hlt : 2 ^ bits < 2 ^ 64 := Nat.pow_lt_pow_right (by decide) (by omega)
  have hone : (1#64 <<< bits).toNat = 2 ^ bits := by
    rw [BitVec.toNat_shiftLeft, BitVec.toNat_one (by decide), Nat.one_shiftLeft, Nat.mod_eq_of_lt hlt]
  have hpos := Nat.two_pow_pos bits
  rw [mask, BitVec.toNat_sub_of_le (by rw [BitVec.le_def, hone, BitVec.toNat_one (by decide)]; omega),
    hone, BitVec.toNat_one (by decide)]

theorem and_mask_toNat (x : BitVec 64) : (x &&& mask bits).toNat = x.toNat % 2 ^ bits := by
  rw [BitVec.toNat_and, mask_toNat hbits, Nat.and_two_pow_sub_one_eq_mod]

theorem mod_lt_two_pow (count : ℕ) : count % 2 ^ bits < 2 ^ 64 :=
  (Nat.mod_lt _ (Nat.two_pow_pos bits)).trans (Nat.pow_lt_pow_right (by decide) (by omega))

theorem raw_toNat (call : Call) : (call.raw bits).toNat = call.count % 2 ^ bits := by
  rw [Call.raw, word_toNat, Nat.mod_eq_of_lt (mod_lt_two_pow hbits _)]

/-- A reading differs from its count by whole periods, which the mask does not see. -/
theorem raw_sub_and_mask {last : ℕ} {call : Call} (hle : last ≤ call.count)
    (hlt : call.count < last + 2 ^ bits) (hfits : call.count < 2 ^ 64) :
    (call.raw bits - word 64 last) &&& mask bits = word 64 (call.count - last) := by
  have hdvd : 2 ^ bits ∣ 2 ^ 64 := pow_dvd_pow 2 (by omega)
  have hmod := Nat.mod_add_div call.count (2 ^ bits)
  obtain ⟨q, hq⟩ := hdvd
  refine BitVec.eq_of_toNat_eq ?_
  rw [and_mask_toNat hbits, BitVec.toNat_sub, raw_toNat hbits, word_toNat, word_toNat,
    Nat.mod_eq_of_lt (show last < 2 ^ 64 by omega), Nat.mod_mod_of_dvd _ (pow_dvd_pow 2 (by omega)),
    Nat.mod_eq_of_lt (show call.count - last < 2 ^ 64 by omega)]
  -- both sides are congruent to the distance, which is below one period
  have hcongr : 2 ^ 64 - last + call.count % 2 ^ bits + 2 ^ bits * (call.count / 2 ^ bits) =
      call.count - last + 2 ^ bits * q := by
    omega
  rw [← Nat.add_mul_mod_self_left _ _ (call.count / 2 ^ bits), hcongr, Nat.add_mul_mod_self_left,
    Nat.mod_eq_of_lt (by omega)]

/-- STEP: from the last count, a timely call moves the total to its own. -/
theorem now_eq {last : ℕ} {call : Call} (hle : last ≤ call.count) (hlt : call.count < last + 2 ^ bits)
    (hfits : call.count < 2 ^ 64) :
    now bits (word 64 last) (call.raw bits) = some (word 64 call.count) := by
  have hraw : call.raw bits ≤ mask bits := by
    have hmod := Nat.mod_lt call.count (Nat.two_pow_pos bits)
    rw [BitVec.le_def, raw_toNat hbits, mask_toNat hbits]
    omega
  rw [now, if_pos hraw, raw_sub_and_mask hbits hle hlt hfits, word_add, Nat.add_sub_cancel' hle]

end

/-- What a call returns when the total is the true time. -/
def Call.exact (bits : ℕ) (call : Call) : Returned := ⟨call.context, call.raw bits, word 64 call.count⟩

/-- RUN: the total follows the true count from call to call. -/
theorem run_exact (hbits : bits ≤ 63) (calls : List Call) (last : ℕ) (returned : List Returned)
    (hapart : (last :: calls.map Call.count).IsChain fun a b => a ≤ b ∧ b < a + 2 ^ bits)
    (hfits : ∀ call ∈ calls, call.count < 2 ^ 64) :
    (run (step bits) ⟨word 64 last, returned⟩ calls).map State.returned =
      some (returned ++ calls.map (Call.exact bits)) := by
  induction calls generalizing last returned with
  | nil => simp
  | cons call calls ih =>
    rw [List.map_cons, List.isChain_cons_cons] at hapart
    obtain ⟨⟨hle, hlt⟩, hrest⟩ := hapart
    have hfit := hfits call List.mem_cons_self
    rw [run, step, now_eq hbits hle hlt hfit, Option.map_some, Option.bind_some,
      ih _ _ hrest fun c hc => hfits c (List.mem_cons_of_mem _ hc)]
    simp [Call.exact]

/-- Time starts at zero with the total. -/
theorem Timely.isChain {calls : List Call} (h : Timely bits calls) :
    (0 :: calls.map Call.count).IsChain fun a b => a ≤ b ∧ b < a + 2 ^ bits := by
  cases calls with
  | nil => exact List.IsChain.singleton _
  | cons call calls =>
    have hcounts : ((call :: calls).map Call.count).IsChain fun a b => a ≤ b ∧ b < a + 2 ^ bits :=
      (List.isChain_map Call.count).mpr h.apart
    rw [List.map_cons] at hcounts ⊢
    rw [List.isChain_cons_cons, Nat.zero_add]
    exact ⟨⟨Nat.zero_le _, h.first call rfl⟩, hcounts⟩

/-- CORRECT: every call returns the true count, whoever makes it; the ticks never decrease, and their
    low bits are the readings. -/
theorem reconstructs_true_time (bits : ℕ) (hbits : 1 ≤ bits ∧ bits ≤ 63) (calls : List Call)
    (h : Timely bits calls) :
    ∃ s, run (step bits) State.init calls = some s ∧
      s.returned.map (fun r => (r.context, r.tick.toNat)) = calls.map (fun c => (c.context, c.count)) ∧
      s.returned.map Returned.raw = calls.map (Call.raw bits) ∧
      s.returned.Pairwise (fun a b => a.tick ≤ b.tick) ∧
      ∀ r ∈ s.returned, r.tick &&& mask bits = r.raw := by
  have hrun := run_exact hbits.2 calls 0 [] h.isChain h.fits
  obtain ⟨s, hs, hreturned⟩ := Option.map_eq_some_iff.mp hrun
  rw [List.nil_append] at hreturned
  have htick : ∀ call ∈ calls, (word 64 call.count).toNat = call.count := by
    intro call hcall
    rw [word_toNat, Nat.mod_eq_of_lt (h.fits call hcall)]
  refine ⟨s, hs, ?_, ?_, ?_, ?_⟩
  · rw [hreturned, List.map_map]
    refine List.map_congr_left fun call hcall => ?_
    simp [Call.exact, htick call hcall]
  · rw [hreturned, List.map_map]
    rfl
  · have hsorted : calls.Pairwise fun a b => a.count ≤ b.count :=
      List.pairwise_map.mp ((h.isChain.imp fun _ _ hab => hab.1).pairwise.tail)
    rw [hreturned, List.pairwise_map]
    refine hsorted.imp_of_mem fun ha hb hab => ?_
    change word 64 _ ≤ word 64 _
    rw [BitVec.le_def, htick _ ha, htick _ hb]
    exact hab
  · intro r hr
    rw [hreturned] at hr
    obtain ⟨call, hcall, rfl⟩ := List.mem_map.mp hr
    refine BitVec.eq_of_toNat_eq ?_
    rw [and_mask_toNat hbits.2, Call.exact, htick call hcall, raw_toNat hbits.2]

/-- A 4-bit counter read by two contexts across two wraps. -/
theorem reconstructs_true_time_sample :
    Timely 4 [⟨0, 14⟩, ⟨1, 17⟩, ⟨0, 17⟩, ⟨1, 32⟩] ∧
      ∃ s, run (step 4) State.init [⟨0, 14⟩, ⟨1, 17⟩, ⟨0, 17⟩, ⟨1, 32⟩] = some s ∧
        s.returned.map (fun r => (r.context, r.tick.toNat)) = [(0, 14), (1, 17), (0, 17), (1, 32)] := by
  have htimely : Timely 4 [⟨0, 14⟩, ⟨1, 17⟩, ⟨0, 17⟩, ⟨1, 32⟩] := by
    refine ⟨?_, by simp, by simp⟩
    rintro call ⟨⟩
    decide
  obtain ⟨s, hs, hticks, -⟩ := reconstructs_true_time 4 (by decide) _ htimely
  exact ⟨htimely, s, hs, hticks⟩

end Metl.TickExtender
