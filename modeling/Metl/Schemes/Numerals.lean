import Mathlib.Data.Nat.Digits.Lemmas

/-! Numerals, most significant digit first.

```
    value 10 [4, 0, 7] = 407        numeral 10 407 = [4, 0, 7]      padded 10 5 407 = [0, 0, 4, 0, 7]
```

`numeral` is the shortest numeral of a number, `padded` the one of a given length, and
`stripZeros` goes from any numeral to the shortest. -/

namespace Metl.Schemes.Numerals

/-- The number a numeral stands for. -/
def value (base : ℕ) (ds : List ℕ) : ℕ := Nat.ofDigits base ds.reverse

/-- The shortest numeral; zero is written with one digit. -/
def numeral (base v : ℕ) : List ℕ := if v = 0 then [0] else (Nat.digits base v).reverse

/-- The last `count` digits, zeros in front where the number has fewer. -/
def padded (base : ℕ) : ℕ → ℕ → List ℕ
  | 0, _ => []
  | count + 1, v => padded base count (v / base) ++ [v % base]

/-- Leading zeros removed, the last character kept whatever it is. -/
def stripZeros {α : Type*} [DecidableEq α] (zero : α) : List α → List α
  | [] => []
  | [c] => [c]
  | c :: d :: rest => if c = zero then stripZeros zero (d :: rest) else c :: d :: rest

variable {base v : ℕ}

@[simp] theorem value_nil : value base [] = 0 := rfl

@[simp] theorem value_concat (ds : List ℕ) (d : ℕ) :
    value base (ds ++ [d]) = value base ds * base + d := by
  simp [value, Nat.ofDigits_cons]
  ring

theorem value_cons (c : ℕ) (ds : List ℕ) :
    value base (c :: ds) = c * base ^ ds.length + value base ds := by
  simp only [value, List.reverse_cons, Nat.ofDigits_append, Nat.ofDigits_singleton, List.length_reverse]
  ring

theorem value_lt (hbase : 1 < base) {ds : List ℕ} (hds : ∀ d ∈ ds, d < base) :
    value base ds < base ^ ds.length := by
  have h := Nat.ofDigits_lt_base_pow_length hbase (l := ds.reverse) (by simpa using hds)
  simpa [value] using h

theorem numeral_of_lt (h : v < base) : numeral base v = [v] := by
  unfold numeral
  split
  · next hzero => rw [hzero]
  · next hpos => rw [Nat.digits_of_lt base v hpos h, List.reverse_singleton]

theorem numeral_of_le (hbase : 1 < base) (h : base ≤ v) :
    numeral base v = numeral base (v / base) ++ [v % base] := by
  have hv : v ≠ 0 := by omega
  have hq : v / base ≠ 0 := by
    have := Nat.div_pos h (by omega)
    omega
  unfold numeral
  rw [if_neg hv, if_neg hq, Nat.digits_def' hbase (Nat.pos_of_ne_zero hv), List.reverse_cons]

/-- Every digit of a number appended to its numeral gives a numeral. -/
theorem numeral_mul_add (hbase : 1 < base) (hv : v ≠ 0) {d : ℕ} (hd : d < base) :
    numeral base (v * base + d) = numeral base v ++ [d] := by
  have hle : base ≤ v * base + d := by
    have := Nat.le_mul_of_pos_left base (Nat.pos_of_ne_zero hv)
    omega
  have hdiv : (v * base + d) / base = v := by
    rw [mul_comm, Nat.mul_add_div (by omega), Nat.div_eq_of_lt hd, add_zero]
  have hmod : (v * base + d) % base = d := by
    rw [mul_comm, Nat.mul_add_mod, Nat.mod_eq_of_lt hd]
  rw [numeral_of_le hbase hle, hdiv, hmod]

theorem numeral_ne_nil (hbase : 1 < base) (v : ℕ) : numeral base v ≠ [] := by
  by_cases h : v < base
  · simp [numeral_of_lt h]
  · simp [numeral_of_le hbase (not_lt.mp h)]

@[simp] theorem length_padded (count v : ℕ) : (padded base count v).length = count := by
  induction count generalizing v with
  | zero => rfl
  | succ count ih => simp [padded, ih]

theorem padded_lt (hbase : 0 < base) (count v : ℕ) : ∀ d ∈ padded base count v, d < base := by
  induction count generalizing v with
  | zero => simp [padded]
  | succ count ih =>
    intro d hd
    rcases List.mem_append.mp hd with h | h
    · exact ih _ d h
    · rw [List.mem_singleton.mp h]
      exact Nat.mod_lt _ hbase

theorem value_padded (count v : ℕ) (h : v < base ^ count) : value base (padded base count v) = v := by
  induction count generalizing v with
  | zero =>
    rw [pow_zero] at h
    change 0 = v
    omega
  | succ count ih =>
    have hq : v / base < base ^ count := Nat.div_lt_of_lt_mul (by rwa [← pow_succ'])
    rw [padded, value_concat, ih _ hq, mul_comm]
    exact Nat.div_add_mod v base

section

variable (hbase : 1 < base)
include hbase

/-- The shortest numeral is the padded one of its own length. -/
theorem padded_length_numeral (v : ℕ) : padded base (numeral base v).length v = numeral base v := by
  induction v using Nat.strongRecOn with
  | ind v ih =>
    by_cases h : v < base
    · simp [numeral_of_lt h, padded, Nat.mod_eq_of_lt h]
    · have hle := not_lt.mp h
      have hlt : v / base < v := Nat.div_lt_self (by omega) hbase
      rw [numeral_of_le hbase hle, List.length_append, List.length_singleton, padded, ih _ hlt]

/-- A number fits into `count` digits exactly when its shortest numeral does. -/
theorem length_numeral_le (v count : ℕ) :
    (numeral base v).length ≤ count ↔ 0 < count ∧ v < base ^ count := by
  induction count generalizing v with
  | zero =>
    have := List.length_pos_iff.mpr (numeral_ne_nil hbase v)
    omega
  | succ count ih =>
    by_cases h : v < base
    · have hpow : base ≤ base ^ (count + 1) := Nat.le_self_pow (by omega) base
      simp only [numeral_of_lt h, List.length_singleton]
      omega
    · have hle := not_lt.mp h
      have hlen : (numeral base v).length ≤ count + 1 ↔ (numeral base (v / base)).length ≤ count := by
        simp [numeral_of_le hbase hle]
      rw [hlen, ih, Nat.div_lt_iff_lt_mul (by omega), ← pow_succ]
      rcases Nat.eq_zero_or_pos count with rfl | hcount
      · simp
        omega
      · simp [hcount]

theorem lt_pow_length_numeral (v : ℕ) : v < base ^ (numeral base v).length :=
  ((length_numeral_le hbase v _).mp le_rfl).2

theorem value_numeral (v : ℕ) : value base (numeral base v) = v := by
  rw [← padded_length_numeral hbase v]
  exact value_padded _ v (lt_pow_length_numeral hbase v)

theorem numeral_lt (v : ℕ) : ∀ d ∈ numeral base v, d < base := by
  rw [← padded_length_numeral hbase v]
  exact padded_lt (by omega) _ v

end

/-! ## Removing zeros -/

section Strip

variable {α β : Type*} [DecidableEq α] [DecidableEq β]

theorem stripZeros_map {zero : α} {g : α → β} {cs : List α} (hg : ∀ c ∈ cs, g c = g zero → c = zero) :
    stripZeros (g zero) (cs.map g) = (stripZeros zero cs).map g := by
  induction cs with
  | nil => rfl
  | cons c cs ih =>
    cases cs with
    | nil => rfl
    | cons d rest =>
      have ih := ih (fun c hc => hg c (List.mem_cons_of_mem _ hc))
      by_cases h : c = zero
      · simpa [stripZeros, h] using ih
      · have hne : g c ≠ g zero := fun heq => h (hg c (by simp) heq)
        simp [stripZeros, h, hne]

theorem mem_of_mem_stripZeros {zero c : α} {cs : List α} (h : c ∈ stripZeros zero cs) : c ∈ cs := by
  induction cs with
  | nil => exact h
  | cons d cs ih =>
    cases cs with
    | nil => exact h
    | cons e rest =>
      rw [stripZeros] at h
      split at h
      · exact List.mem_cons_of_mem _ (ih h)
      · exact h

end Strip

/-- Once the number is not zero its first digits stay when more are added. -/
theorem stripZeros_append {ds : List ℕ} (h : value base ds ≠ 0) (es : List ℕ) :
    stripZeros 0 (ds ++ es) = stripZeros 0 ds ++ es := by
  induction ds with
  | nil => exact absurd rfl h
  | cons c ds ih =>
    by_cases hc : c = 0
    · have hds : value base ds ≠ 0 := by
        intro hzero
        exact h (by rw [value_cons, hc, hzero, zero_mul])
      cases ds with
      | nil => exact absurd rfl hds
      | cons d rest => simpa [stripZeros, hc] using ih hds
    · cases ds with
      | nil => cases es <;> simp [stripZeros, hc]
      | cons d rest => simp [stripZeros, hc]

theorem stripZeros_concat_of_zero {ds : List ℕ} (h : value base ds = 0) (hbase : 0 < base) (d : ℕ) :
    stripZeros 0 (ds ++ [d]) = [d] := by
  induction ds with
  | nil => rfl
  | cons c ds ih =>
    rw [value_cons] at h
    have hpos := Nat.pow_pos (n := ds.length) hbase
    have hc : c = 0 := by
      rcases Nat.eq_zero_or_pos c with hc | hc
      · exact hc
      · have := Nat.mul_pos hc hpos
        omega
    have ih := ih (by omega)
    cases ds with
    | nil => simp [stripZeros, hc]
    | cons e rest => simpa [stripZeros, hc] using ih

/-- CORRECT: a numeral without its leading zeros is the shortest one of its number. -/
theorem stripZeros_eq_numeral (hbase : 1 < base) {ds : List ℕ} (hne : ds ≠ [])
    (hds : ∀ d ∈ ds, d < base) : stripZeros 0 ds = numeral base (value base ds) := by
  induction ds using List.reverseRecOn with
  | nil => exact absurd rfl hne
  | append_singleton ds d ih =>
    have hd : d < base := hds d (by simp)
    rw [value_concat]
    by_cases hzero : value base ds = 0
    · rw [stripZeros_concat_of_zero hzero (by omega), hzero, zero_mul, zero_add, numeral_of_lt hd]
    · have hds' : ds ≠ [] := by
        rintro rfl
        exact hzero rfl
      rw [stripZeros_append hzero, numeral_mul_add hbase hzero hd,
        ih hds' (fun e he => hds e (by simp [he]))]

end Metl.Schemes.Numerals
