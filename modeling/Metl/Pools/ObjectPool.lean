import Metl.Schemes.Chain
import Metl.Schemes.Lifecycle

/-! `metl::object_pool`: slots addressed by pointer.

    Freed slots form a stack linked through their own bytes; slots never used are taken in index order
    behind it. A link is a slot index plus one in the smallest unsigned type the pool chose for its
    capacity, and 0 ends the stack. As for `handle_pool`, the operations are cut where an element's
    constructor or destructor runs.

        try_emplace = claim ; constructor ; (construct | unwind)
        destroy     = resolves ; startRelease ; destructor ; pushFree -/

namespace Metl.ObjectPool
open Metl.Schemes Function

/-- The pool's parameters and where its storage lies in a `w`-bit address space. -/
structure Cfg where
  capacity : ℕ
  w : ℕ
  base : ℕ
  slotSize : ℕ
  base_pos : 0 < base
  slotSize_pos : 0 < slotSize
  fits : base + slotSize * capacity ≤ 2 ^ w

/-- The bytes of a slot: not yet written, the link of a freed slot, or an element. -/
inductive Slot (T : Type*) where
  | raw
  | link (next : ℕ)
  | object (x : T)

def Slot.IsObject {T : Type*} (bytes : Slot T) : Prop := ∃ x, bytes = .object x

structure Pool (T : Type*) where
  storage : ℕ → Slot T
  live : ℕ → Bool
  freeHead : ℕ
  unused : ℕ
  size : ℕ

variable {T : Type*} (c : Cfg)

/-- The width of `link_type`. -/
def linkBits (capacity : ℕ) : ℕ :=
  if capacity ≤ 0xFF then 8 else if capacity ≤ 0xFFFF then 16 else 32

/-- The link stored in a freed slot. -/
def Pool.link (s : Pool T) (i : ℕ) : Option ℕ :=
  match s.storage i with
  | .link next => some next
  | _ => none

def init : Pool T := ⟨fun _ => .raw, fun _ => false, 0, 0, 0⟩

/-- `live_.set(i)` and `++size_`. -/
def Pool.setLive (s : Pool T) (i : ℕ) : Pool T :=
  { s with live := update s.live i true, size := s.size + 1 }

/-- `live_.reset(i)` and `--size_`. -/
def Pool.resetLive (s : Pool T) (i : ℕ) : Pool T :=
  { s with live := update s.live i false, size := s.size - 1 }

/-- `try_emplace` up to the constructor: the slot freed last, or the lowest one never used. -/
def claim (s : Pool T) : Option (Option ℕ × Pool T) :=
  if s.freeHead ≠ 0 then
    (s.link (s.freeHead - 1)).map fun next =>
      (some (s.freeHead - 1), { s with freeHead := next }.setLive (s.freeHead - 1))
  else if s.unused < c.capacity then
    some (some s.unused, { s with
      unused := (s.unused + 1) % 2 ^ linkBits c.capacity }.setLive s.unused)
  else some (none, s)

/-- The constructor has built `x` in slot `i`. -/
def construct (s : Pool T) (i : ℕ) (x : T) : Pool T :=
  { s with storage := update s.storage i (.object x) }

/-- `push_free()`: the slot goes on top of the freed ones. -/
def pushFree (s : Pool T) (i : ℕ) : Pool T :=
  { s with storage := update s.storage i (.link s.freeHead),
           freeHead := (i + 1) % 2 ^ linkBits c.capacity }

/-- `~release_on_unwind`: the constructor threw. -/
def unwind (s : Pool T) (i : ℕ) : Pool T := pushFree c (s.resetLive i) i

/-- The pointer `try_emplace` returns for slot `i`. -/
def slotPtr (i : ℕ) : BitVec c.w := BitVec.ofNat c.w (c.base + c.slotSize * i)

/-- `index_of()`: the slot an address starts, or `capacity`; addresses outside wrap past the end. -/
def indexOf (object : BitVec c.w) : ℕ :=
  let offset := (object - BitVec.ofNat c.w c.base).toNat
  if c.slotSize * c.capacity ≤ offset then c.capacity
  else if offset % c.slotSize ≠ 0 then c.capacity
  else offset / c.slotSize

/-- `contains()`, and the test of `destroy()`. -/
def contains (s : Pool T) (object : BitVec c.w) : Bool :=
  decide (indexOf c object < c.capacity) && s.live (indexOf c object)

/-- `end_life()` up to the destructor, which needs an element in the slot. -/
def startRelease (s : Pool T) (i : ℕ) : Option (Pool T) :=
  match s.storage i with
  | .object _ => some (s.resetLive i)
  | _ => none

/-- The parts of the pool's operations around the callbacks. -/
def ops : PoolOps (Pool T) (BitVec c.w) T where
  capacity := c.capacity
  init := init
  claim := claim c
  construct := construct
  unwind := unwind c
  slotOf := indexOf c
  resolves := contains c
  startRelease := startRelease
  endRelease := pushFree c
  isLive := Pool.live
  size := Pool.size

/-! ### Addresses -/

/-- The address of a slot is taken back to the slot. -/
theorem indexOf_slotPtr {i : ℕ} (hi : i < c.capacity) : indexOf c (slotPtr c i) = i := by
  have hpos := c.slotSize_pos
  have hlt : c.slotSize * i < c.slotSize * c.capacity := Nat.mul_lt_mul_of_pos_left hi hpos
  have hoff : (slotPtr c i - BitVec.ofNat c.w c.base).toNat = c.slotSize * i := by
    have hfits := c.fits
    have hbase := c.base_pos
    have hsub : slotPtr c i - BitVec.ofNat c.w c.base = BitVec.ofNat c.w (c.slotSize * i) := by
      rw [slotPtr, BitVec.ofNat_add, BitVec.add_comm, BitVec.add_sub_cancel]
    rw [hsub, BitVec.toNat_ofNat, Nat.mod_eq_of_lt (by omega)]
  simp only [indexOf, hoff]
  rw [if_neg (Nat.not_le.mpr hlt), if_neg (by simp), Nat.mul_div_cancel_left i hpos]

/-- Any address taken to a slot is the address of that slot. -/
theorem slotPtr_indexOf {object : BitVec c.w} (h : indexOf c object < c.capacity) :
    slotPtr c (indexOf c object) = object := by
  unfold indexOf at h ⊢
  simp only at h ⊢
  split at h
  · exact absurd h (Nat.lt_irrefl _)
  · next hin =>
    split at h
    · exact absurd h (Nat.lt_irrefl _)
    · next hstart =>
      rw [if_neg hin, if_neg hstart, slotPtr,
        Nat.mul_div_cancel' (Nat.dvd_of_mod_eq_zero (not_not.mp hstart)), BitVec.ofNat_add,
        BitVec.ofNat_toNat, BitVec.setWidth_eq, BitVec.add_comm, BitVec.sub_add_cancel]

/-! ### The free slots and the phases -/

/-- The freed slots in the order of their stack, then the ones never used. -/
structure Rep (s : Pool T) (free : List ℕ) (ph : ℕ → Phase) : Prop where
  census : Census c.capacity s.size free ph
  freed : ∃ l, Chain s.link (· + 1) 0 s.freeHead l ∧
    free = l ++ List.range' s.unused (c.capacity - s.unused)
  unused_le : s.unused ≤ c.capacity
  live : ∀ i < c.capacity, s.live i = (ph i).inUse
  object : ∀ i, ph i = .live ∨ ph i = .dying → (s.storage i).IsObject

variable {c} {s : Pool T} {free : List ℕ} {ph : ℕ → Phase} {i : ℕ}

/-- An index plus one fits a link, below the capacity that no 32-bit link can hold. -/
theorem cast_link (hcap : c.capacity < 2 ^ 32) (hi : i < c.capacity) :
    (i + 1) % 2 ^ linkBits c.capacity = i + 1 := by
  refine Nat.mod_eq_of_lt ?_
  unfold linkBits
  split
  · omega
  · split <;> omega

theorem rep_init : Rep c (init : Pool T) (List.range c.capacity) fun _ => .free := by
  refine ⟨⟨List.nodup_range, fun i => by simp, fun i h => absurd rfl h, ?_⟩, ⟨[], rfl, ?_⟩,
    Nat.zero_le _, fun i _ => rfl, fun i h => ?_⟩
  · simp [init, useCount, Phase.inUse]
  · rw [List.nil_append, List.range_eq_range']
    rfl
  · rcases h with h | h <;> cases h

/-- With nothing freed, the lowest slot never used is next. -/
theorem claim_unused (hhead : s.freeHead = 0) (hlt : s.unused < c.capacity) : claim c s =
    some (some s.unused, ({ s with
      unused := (s.unused + 1) % 2 ^ linkBits c.capacity } : Pool T).setLive s.unused) := by
  rw [claim, if_neg (by simp [hhead]), if_pos hlt]

theorem rep_claim_full (hr : Rep c s [] ph) : claim c s = some (none, s) := by
  obtain ⟨l, hchain, hfree⟩ := hr.freed
  obtain ⟨rfl, hrange⟩ := List.append_eq_nil_iff.mp hfree.symm
  have hhead : s.freeHead = 0 := hchain
  have hall : c.capacity ≤ s.unused := by
    have hlen := congrArg List.length hrange
    simp only [List.length_range', List.length_nil] at hlen
    omega
  rw [claim, if_neg (by simp [hhead]), if_neg (by omega)]

/-- The bits and the census after a claim, whichever way the slot was found. -/
theorem live_setLive (hr : Rep c s free ph) (x : Phase) (hx : x.inUse = true) :
    ∀ j < c.capacity, (s.setLive i).live j = (update ph i x j).inUse :=
  flag_update hr.live (fun _ hji => update_of_ne hji ..) ((update_self ..).trans hx.symm)

theorem live_resetLive (hr : Rep c s free ph) (x : Phase) (hx : x.inUse = false) :
    ∀ j < c.capacity, (s.resetLive i).live j = (update ph i x j).inUse :=
  flag_update hr.live (fun _ hji => update_of_ne hji ..) ((update_self ..).trans hx.symm)

theorem rep_claim (hcap : c.capacity < 2 ^ 32) (hr : Rep c s (i :: free) ph) :
    ∃ s', claim c s = some (some i, s') ∧ Rep c s' free (update ph i .building) := by
  obtain ⟨l, hchain, hfree⟩ := hr.freed
  have hobject : ∀ j, update ph i .building j = .live ∨ update ph i .building j = .dying →
      (s.storage j).IsObject := stored_update hr.object (fun _ _ _ => rfl) (by simp)
  cases l with
  | nil =>
    -- nothing was freed: the lowest slot never used
    have hhead : s.freeHead = 0 := hchain
    have hlt : s.unused < c.capacity := by
      have hlen := congrArg List.length hfree
      simp only [List.length_cons, List.nil_append, List.length_range'] at hlen
      omega
    rw [List.nil_append, show c.capacity - s.unused = (c.capacity - (s.unused + 1)) + 1 by omega,
      List.range'_succ] at hfree
    obtain ⟨rfl, rfl⟩ := List.cons.inj hfree
    refine ⟨_, by rw [claim_unused hhead hlt, cast_link hcap hlt], ?_⟩
    exact ⟨hr.census.claim, ⟨[], hhead, rfl⟩, hlt, live_setLive hr _ rfl, hobject⟩
  | cons k l =>
    obtain ⟨rfl, rfl⟩ := List.cons.inj hfree
    obtain ⟨hhead, next, hnext, hrest⟩ := hchain
    refine ⟨({ s with freeHead := next } : Pool T).setLive i, ?_, ?_⟩
    · rw [claim, if_pos (by rw [hhead]; exact Nat.succ_ne_zero i), hhead, Nat.add_sub_cancel, hnext]
      rfl
    · exact ⟨hr.census.claim, ⟨l, hrest, rfl⟩, hr.unused_le, live_setLive hr _ rfl, hobject⟩

/-- `unused` passes exactly the slots that were taken so far. -/
theorem unused_claim {s' : Pool T} (hcap : c.capacity < 2 ^ 32) (hr : Rep c s (i :: free) ph)
    (hclaim : claim c s = some (some i, s')) (j : ℕ) : j < s'.unused ↔ j < s.unused ∨ j = i := by
  obtain ⟨l, hchain, hfree⟩ := hr.freed
  cases l with
  | nil =>
    have hhead : s.freeHead = 0 := hchain
    have hlt : s.unused < c.capacity := by
      have hlen := congrArg List.length hfree
      simp only [List.length_cons, List.nil_append, List.length_range'] at hlen
      omega
    rw [claim_unused hhead hlt, cast_link hcap hlt] at hclaim
    obtain ⟨hi, rfl⟩ := Prod.mk.inj (Option.some.inj hclaim)
    rw [Option.some.injEq] at hi
    change j < s.unused + 1 ↔ _
    omega
  | cons k l =>
    obtain ⟨rfl, rfl⟩ := List.cons.inj hfree
    obtain ⟨hhead, next, hnext, -⟩ := hchain
    -- a freed slot was taken before
    have hbelow : i < s.unused := by
      have hlt := ((hr.census.mem i).mp (List.mem_cons_self ..)).1
      have hnot : i ∉ l ++ List.range' s.unused (c.capacity - s.unused) :=
        (List.nodup_cons.mp hr.census.nodup).1
      rw [List.mem_append, List.mem_range'_1] at hnot
      omega
    rw [claim, if_pos (by rw [hhead]; exact Nat.succ_ne_zero i), hhead, Nat.add_sub_cancel,
      hnext] at hclaim
    obtain ⟨-, rfl⟩ := Prod.mk.inj (Option.some.inj hclaim)
    change j < s.unused ↔ _
    omega

/-- An object is written into a slot that is in use. -/
theorem rep_construct (x : T) (hr : Rep c s free ph) (hi : (ph i).inUse = true) :
    Rep c (construct s i x) free (update ph i .live) := by
  have hne : ph i ≠ .free := by
    intro h
    rw [h] at hi
    cases hi
  have hnot := hr.census.notMem hne
  obtain ⟨l, hchain, rfl⟩ := hr.freed
  refine ⟨hr.census.move hne (by decide) (by rw [hi]; rfl), ⟨l, hchain.congr fun j hj => ?_, rfl⟩,
    hr.unused_le, ?_, ?_⟩
  · have hji : j ≠ i := fun h => hnot (List.mem_append_left _ (h ▸ hj))
    simp [Pool.link, construct, hji]
  · exact flag_update hr.live (fun _ _ => rfl) ((hr.live i (hr.census.bound i hne)).trans hi)
  · exact stored_update hr.object (fun _ hji _ => update_of_ne hji ..) fun _ => ⟨x, update_self ..⟩

/-- Pushing a slot puts it in front of the freed ones. -/
theorem chain_pushFree (hcap : c.capacity < 2 ^ 32) {l : List ℕ}
    (hchain : Chain s.link (· + 1) 0 s.freeHead l) (hnot : i ∉ l) (hi : i < c.capacity) :
    Chain (pushFree c s i).link (· + 1) 0 (pushFree c s i).freeHead (i :: l) := by
  have hpush : Chain (pushFree c s i).link (· + 1) 0 (i + 1) (i :: l) := by
    refine hchain.push ?_ fun j hj => ?_
    · simp [Pool.link, pushFree]
    · have hji : j ≠ i := fun h => hnot (h ▸ hj)
      simp [Pool.link, pushFree, hji]
  rw [← cast_link hcap hi] at hpush
  exact hpush

theorem rep_unwind (hcap : c.capacity < 2 ^ 32) (hr : Rep c s free ph) (hi : ph i = .building) :
    Rep c (unwind c s i) (i :: free) (update ph i .free) := by
  have hne : ph i ≠ .free := by rw [hi]; decide
  have hnot := hr.census.notMem hne
  have hpos := hr.census.pos (i := i) (by rw [hi]; rfl)
  obtain ⟨l, hchain, rfl⟩ := hr.freed
  have hback := chain_pushFree (s := s.resetLive i) hcap hchain
    (fun h => hnot (List.mem_append_left _ h)) (hr.census.bound i hne)
  refine ⟨hr.census.give hne (List.Perm.refl _) ?_, ⟨i :: l, hback, rfl⟩, hr.unused_le,
    live_resetLive hr _ rfl, stored_update hr.object (fun _ hji _ => update_of_ne hji ..) (by simp)⟩
  rw [hi]
  exact Nat.sub_add_cancel hpos

theorem rep_startRelease (hr : Rep c s free ph) (hi : ph i = .live) :
    ∃ s', startRelease s i = some s' ∧ Rep c s' free (update ph i .dying) := by
  have hne : ph i ≠ .free := by rw [hi]; decide
  have hpos := hr.census.pos (i := i) (by rw [hi]; rfl)
  obtain ⟨x, hx⟩ := hr.object i (.inl hi)
  refine ⟨s.resetLive i, by rw [startRelease, hx], hr.census.move hne (by decide) ?_, hr.freed,
    hr.unused_le, live_resetLive hr _ rfl, stored_update hr.object (fun _ _ _ => rfl) fun _ => ⟨x, hx⟩⟩
  rw [hi]
  exact Nat.sub_add_cancel hpos

theorem rep_pushFree (hcap : c.capacity < 2 ^ 32) (hr : Rep c s free ph) (hi : ph i = .dying) :
    Rep c (pushFree c s i) (i :: free) (update ph i .free) := by
  have hne : ph i ≠ .free := by rw [hi]; decide
  have hnot := hr.census.notMem hne
  obtain ⟨l, hchain, rfl⟩ := hr.freed
  have hback := chain_pushFree hcap hchain (fun h => hnot (List.mem_append_left _ h))
    (hr.census.bound i hne)
  refine ⟨hr.census.give hne (List.Perm.refl _) (by rw [hi]; rfl), ⟨i :: l, hback, rfl⟩,
    hr.unused_le, flag_update hr.live (fun _ _ => rfl) ?_,
    stored_update hr.object (fun _ hji _ => update_of_ne hji ..) (by simp)⟩
  exact (hr.live i (hr.census.bound i hne)).trans (by rw [hi]; rfl)

/-- The pool keeps the laws of claiming and releasing, while a link can hold every index. -/
theorem lawful (hcap : c.capacity < 2 ^ 32) :
    Lawful (ops c : PoolOps (Pool T) (BitVec c.w) T) (Rep c) where
  init := ⟨_, rep_init⟩
  nodup := fun hr => hr.census.nodup
  mem := fun hr => hr.census.mem
  bound := fun hr => hr.census.bound
  claim_full := rep_claim_full
  claim := rep_claim hcap
  construct := fun x hr hi => rep_construct x hr (by rw [hi]; rfl)
  unwind := fun hr hi => ⟨_, List.Perm.refl _, rep_unwind hcap hr hi⟩
  resolves := fun {s free ph object} hr hres => by
    obtain ⟨hlt, hlive⟩ := Bool.and_eq_true_iff.mp hres
    exact (hr.live _ (of_decide_eq_true hlt)).symm.trans hlive
  startRelease := rep_startRelease
  endRelease := fun hr hi => ⟨_, List.Perm.refl _, rep_pushFree hcap hr hi⟩
  isLive := fun hr => hr.live
  size := fun hr => hr.census.count

end Metl.ObjectPool
