import Metl.Schemes.Align
import Metl.Schemes.Run

/-! `metl::monotonic_buffer`: a bump allocator whose blocks are only released together.

        0              offset_                    Capacity
        │ … blocks …   │ pad │  bytes  │   free   │
                             ▲ aligned address

    Addresses and sizes are `w`-bit words. The round-up may wrap and so may the product of a count and
    a size; neither makes a request fit that does not. -/

namespace Metl.MonotonicBuffer
open Metl.Schemes

/-- The word width, the capacity, and where the storage lies. -/
structure Cfg where
  w : ℕ
  capacity : ℕ
  base : ℕ
  capacity_lt : capacity < 2 ^ w
  fits : base + capacity ≤ 2 ^ w

variable (c : Cfg)

def remaining (offset : BitVec c.w) : BitVec c.w := BitVec.ofNat c.w c.capacity - offset

/-- What a request comes to: the guard on the alignment fails, null, or a block and the new offset. -/
inductive Alloc (w : ℕ) where
  | hardened
  | null
  | block (start offset : BitVec w)

/-- `try_allocate()`; `start` is the place of the result in the storage. -/
def tryAllocate (offset bytes alignment : BitVec c.w) : Alloc c.w :=
  if isPow2 alignment then
    if bytes = 0 then .null
    else
      let current := BitVec.ofNat c.w c.base + offset
      let aligned := alignUp current alignment
      let padding := aligned - current
      if padding > remaining c offset ∨ bytes > remaining c offset - padding then .null
      else .block (offset + padding) (offset + padding + bytes)
  else .hardened

/-- `try_allocate_n<T>()` for a `T` of the given size and alignment. -/
def tryAllocateN (offset size alignment count : BitVec c.w) : Alloc c.w :=
  if count = 0 ∨ count > BitVec.allOnes c.w / size then .null
  else tryAllocate c offset (size * count) alignment

inductive Request (w : ℕ) where
  | bytes (bytes alignment : BitVec w)
  | objects (size alignment count : BitVec w)

/-- A power of two to align to, and a type that is not empty. -/
def Request.Valid {w : ℕ} : Request w → Prop
  | .bytes _ alignment => isPow2 alignment = true
  | .objects size alignment _ => isPow2 alignment = true ∧ size ≠ 0

/-- The bytes asked for; a product is the one of the integers. -/
def Request.size {w : ℕ} : Request w → ℕ
  | .bytes count _ => count.toNat
  | .objects size _ count => size.toNat * count.toNat

def Request.alignment {w : ℕ} : Request w → ℕ
  | .bytes _ alignment => alignment.toNat
  | .objects _ alignment _ => alignment.toNat

def answer (offset : BitVec c.w) : Request c.w → Alloc c.w
  | .bytes bytes alignment => tryAllocate c offset bytes alignment
  | .objects size alignment count => tryAllocateN c offset size alignment count

/-- A block handed out. -/
structure Block where
  start : ℕ
  size : ℕ
  alignment : ℕ

/-- `used()`, and the blocks handed out since the last `reset`, newest first. -/
structure State (w : ℕ) where
  offset : BitVec w
  blocks : List Block

inductive Act (w : ℕ) where
  | request (r : Request w)
  | reset

def Act.Valid {w : ℕ} : Act w → Prop
  | .request r => r.Valid
  | .reset => True

def State.init : State c.w := ⟨0, []⟩

def step (s : State c.w) : Act c.w → Option (State c.w)
  | .request r =>
    match answer c s.offset r with
    | .hardened => none
    | .null => some s
    | .block start offset => some ⟨offset, ⟨start.toNat, r.size, r.alignment⟩ :: s.blocks⟩
  | .reset => some (State.init c)

variable {c}

/-! ### One request -/

/-- The padding and the bytes go beyond the end of the storage, or there is nothing to place. -/
def Refused (offset : BitVec c.w) (size alignment : ℕ) : Prop :=
  size = 0 ∨ c.capacity - offset.toNat < padTo alignment (c.base + offset.toNat) + size

/-- What a request of a true size comes to. -/
inductive Outcome (offset : BitVec c.w) (size alignment : ℕ) : Alloc c.w → Prop where
  | null (h : Refused offset size alignment) : Outcome offset size alignment .null
  | block {start next : BitVec c.w} (h : ¬ Refused offset size alignment)
      (hstart : start.toNat = offset.toNat + padTo alignment (c.base + offset.toNat))
      (hnext : next.toNat = start.toNat + size) : Outcome offset size alignment (.block start next)

variable {w : ℕ} {offset : BitVec c.w} {s : State c.w}

theorem toNat_ne_zero {x : BitVec w} (hx : x ≠ 0#w) : x.toNat ≠ 0 :=
  fun h => hx (BitVec.eq_of_toNat_eq (by rw [h, BitVec.toNat_zero]))

theorem remaining_toNat (hoffset : offset.toNat ≤ c.capacity) :
    (remaining c offset).toNat = c.capacity - offset.toNat := by
  have hcapacity : (BitVec.ofNat c.w c.capacity).toNat = c.capacity := by
    rw [BitVec.toNat_ofNat, Nat.mod_eq_of_lt c.capacity_lt]
  rw [remaining, BitVec.toNat_sub_of_le (by rw [BitVec.le_def, hcapacity]; exact hoffset), hcapacity]

/-- STEP: word arithmetic places a block exactly when exact arithmetic does. -/
theorem tryAllocate_outcome {alignment : BitVec c.w} (bytes : BitVec c.w)
    (hoffset : offset.toNat ≤ c.capacity) (halign : isPow2 alignment = true) :
    Outcome offset bytes.toNat alignment.toNat (tryAllocate c offset bytes alignment) := by
  have hcapacity := c.capacity_lt
  have hremaining := remaining_toNat hoffset
  have hcurrent : BitVec.ofNat c.w c.base + offset = BitVec.ofNat c.w (c.base + offset.toNat) := by
    rw [BitVec.ofNat_add, BitVec.ofNat_toNat, BitVec.setWidth_eq]
  obtain ⟨hpad, -, -⟩ := alignUp_padTo halign (c.base + offset.toNat)
  rw [tryAllocate, if_pos halign, hcurrent]
  dsimp only
  generalize alignUp (BitVec.ofNat c.w (c.base + offset.toNat)) alignment -
    BitVec.ofNat c.w (c.base + offset.toNat) = padding at hpad ⊢
  split
  · rename_i hzero
    exact .null (.inl (by rw [hzero]; rfl))
  · rename_i hne
    have hpos := toNat_ne_zero hne
    split
    · rename_i hfull
      refine .null (.inr ?_)
      rw [← hpad]
      rcases hfull with hfull | hfull
      · rw [gt_iff_lt, BitVec.lt_def, hremaining] at hfull
        omega
      · by_cases hle : padding.toNat ≤ c.capacity - offset.toNat
        · rw [gt_iff_lt, BitVec.lt_def, BitVec.toNat_sub_of_le (by rw [BitVec.le_def, hremaining]; exact hle),
            hremaining] at hfull
          omega
        · omega
    · rename_i hroom
      obtain ⟨hle, hfit⟩ := not_or.mp hroom
      rw [gt_iff_lt, BitVec.lt_def, hremaining, Nat.not_lt] at hle
      rw [gt_iff_lt, BitVec.lt_def, BitVec.toNat_sub_of_le (by rw [BitVec.le_def, hremaining]; exact hle),
        hremaining, Nat.not_lt] at hfit
      have hstart : (offset + padding).toNat = offset.toNat + padding.toNat := by
        rw [BitVec.toNat_add, Nat.mod_eq_of_lt (by omega)]
      refine .block ?_ (by rw [hstart, hpad]) ?_
      · rintro (hzero | hbig)
        · exact hpos hzero
        · omega
      · rw [BitVec.toNat_add, hstart, Nat.mod_eq_of_lt (by omega)]

/-- The quotient of the largest word bounds the counts whose product does not wrap. -/
theorem lt_allOnes_div {size count : BitVec w} (hsize : size ≠ 0#w) :
    count > BitVec.allOnes w / size ↔ 2 ^ w ≤ size.toNat * count.toNat := by
  have hpos := Nat.pos_of_ne_zero (toNat_ne_zero hsize)
  have hrange := Nat.two_pow_pos w
  rw [gt_iff_lt, BitVec.lt_def, BitVec.toNat_udiv, BitVec.toNat_allOnes, Nat.div_lt_iff_lt_mul hpos,
    Nat.mul_comm]
  omega

theorem answer_outcome {r : Request c.w} (hoffset : offset.toNat ≤ c.capacity) (hr : r.Valid) :
    Outcome offset r.size r.alignment (answer c offset r) := by
  cases r with
  | bytes bytes alignment => exact tryAllocate_outcome bytes hoffset hr
  | objects size alignment count =>
    obtain ⟨halign, hsize⟩ := hr
    have hcapacity := c.capacity_lt
    change Outcome offset (size.toNat * count.toNat) alignment.toNat
      (tryAllocateN c offset size alignment count)
    unfold tryAllocateN
    split
    · rename_i hnull
      rcases hnull with hzero | hbig
      · exact .null (.inl (by rw [hzero]; rfl))
      · rw [lt_allOnes_div hsize] at hbig
        refine .null (.inr ?_)
        omega
    · rename_i hsmall
      have hlt := (not_or.mp hsmall).2
      rw [lt_allOnes_div hsize, Nat.not_le] at hlt
      have hproduct : (size * count).toNat = size.toNat * count.toNat := by
        rw [BitVec.toNat_mul, Nat.mod_eq_of_lt hlt]
      rw [← hproduct]
      exact tryAllocate_outcome (size * count) hoffset halign

/-! ### Every run -/

/-- The blocks are aligned and inside the storage, each above those handed out before it. -/
structure Sound (s : State c.w) : Prop where
  used_le : s.offset.toNat ≤ c.capacity
  aligned : ∀ b ∈ s.blocks, b.alignment ∣ c.base + b.start
  inside : ∀ b ∈ s.blocks, b.start + b.size ≤ s.offset.toNat
  apart : s.blocks.Pairwise fun a b => b.start + b.size ≤ a.start

theorem Request.Valid.isPow2 {r : Request w} (hr : r.Valid) :
    ∃ a : BitVec w, isPow2 a = true ∧ a.toNat = r.alignment := by
  cases r with
  | bytes bytes alignment => exact ⟨alignment, hr, rfl⟩
  | objects size alignment count => exact ⟨alignment, hr.1, rfl⟩

/-- What is asked of the buffer wherever a run may end. -/
structure Contract (s : State c.w) : Prop where
  aligned : ∀ b ∈ s.blocks, b.alignment ∣ c.base + b.start
  inside : ∀ b ∈ s.blocks, b.start + b.size ≤ c.capacity
  disjoint : s.blocks.Pairwise fun a b =>
    Disjoint (Set.Ico a.start (a.start + a.size)) (Set.Ico b.start (b.start + b.size))
  null_iff : ∀ r : Request c.w, r.Valid → (answer c s.offset r = .null ↔ Refused s.offset r.size r.alignment)
  unchanged : ∀ r : Request c.w, answer c s.offset r = .null → step c s (.request r) = some s

theorem Sound.contract (hs : Sound s) : Contract s where
  aligned := hs.aligned
  inside := fun b hb => (hs.inside b hb).trans hs.used_le
  disjoint := hs.apart.imp fun hab => by
    rw [Set.disjoint_left]
    rintro i ⟨hlow, -⟩ ⟨-, hhigh⟩
    omega
  null_iff := fun r hr => by
    have houtcome := answer_outcome hs.used_le hr
    generalize answer c s.offset r = result at houtcome
    cases houtcome with
    | null h => exact iff_of_true rfl h
    | block h _ _ => exact iff_of_false (by rintro ⟨⟩) h
  unchanged := fun r hnull => by
    rw [step, hnull]

/-- Sixteen bytes at the end of an 8-bit address space. -/
def sampleCfg : Cfg := ⟨8, 16, 240, by decide, by decide⟩

end Metl.MonotonicBuffer
