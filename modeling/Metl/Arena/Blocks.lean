import Metl.Arena.ArenaAllocator

/-! The blocks of an arena.

    The blocks, newest first, tile the storage from 0 up to the top: each begins where the one below
    ends, and its record repeats in bytes what the block is. A mark is the end of one of them. -/

namespace Metl.ArenaAllocator
open Metl.Schemes

variable {c : Cfg}

/-- Where the newest block ends. -/
def top : List (Block c.w) → ℕ
  | [] => 0
  | b :: _ => b.stop

/-- All births in the list are below this one. -/
def nextBirth : List (Block c.w) → ℕ
  | [] => 0
  | b :: _ => b.birth + 1

/-- An aligned payload behind its padding, followed by its record, inside the storage. -/
structure Block.Ok (c : Cfg) (b : Block c.w) : Prop where
  prev_le : b.prev ≤ b.pay
  size_pos : 0 < b.size
  stop_eq : b.pay + b.size + c.record.size = b.stop
  stop_le : b.stop ≤ c.capacity
  aligned : b.alignment ∣ c.base + b.pay
  destroy_ne : ∀ destroy, b.kind = .object destroy → destroy ≠ 0

/-- Each block begins where the next older one ends. -/
def Linked (c : Cfg) : List (Block c.w) → Prop
  | [] => True
  | b :: bs => b.Ok c ∧ b.prev = top bs ∧ nextBirth bs ≤ b.birth ∧ Linked c bs

/-- `t` is 0 or the end of a block. -/
def Bound (t : ℕ) : List (Block c.w) → Prop
  | [] => t = 0
  | b :: bs => t = b.stop ∨ Bound t bs

/-- The mark stands where it was set: below the blocks allocated since, above the older ones. -/
def Marked (m : Mark) : List (Block c.w) → Prop
  | [] => m.offset = 0
  | b :: bs => (m.offset = b.stop ∧ b.birth < m.time) ∨ (m.time ≤ b.birth ∧ Marked m bs)

/-- The function registered in the record of a block, if any. -/
def Kind.destroyFn {w : ℕ} : Kind w → BitVec w
  | .object destroy => destroy
  | _ => 0

/-- The record a block of this kind has. -/
def Block.record (c : Cfg) (b : Block c.w) : Record c.w :=
  ⟨BitVec.ofNat c.w b.prev, if b.kind = .dying then destroying c else BitVec.ofNat c.w b.pay,
    b.kind.destroyFn⟩

/-- Every block finds its record in the bytes before its end. -/
def Stored (c : Cfg) (storage : ℕ → UInt8) (blocks : List (Block c.w)) : Prop :=
  ∀ b ∈ blocks, loadRecord c storage b.stop = b.record c

variable {b b' : Block c.w} {bs new rest : List (Block c.w)} {m : Mark} {t : ℕ}
  {storage storage' : ℕ → UInt8}

@[simp] theorem top_cons (b : Block c.w) (bs : List (Block c.w)) : top (b :: bs) = b.stop := rfl

@[simp] theorem nextBirth_cons (b : Block c.w) (bs : List (Block c.w)) :
    nextBirth (b :: bs) = b.birth + 1 := rfl

/-! ### Order -/

theorem Block.Ok.prev_lt (hb : b.Ok c) : b.prev < b.stop := by
  have h1 := hb.prev_le
  have h2 := hb.size_pos
  have h3 := hb.stop_eq
  omega

theorem Linked.tail (h : Linked c (b :: bs)) : Linked c bs := h.2.2.2

/-- Older blocks end where a block begins or before. -/
theorem Linked.stop_le_top (h : Linked c bs) : ∀ b ∈ bs, b.Ok c ∧ b.stop ≤ top bs := by
  induction bs with
  | nil => simp
  | cons b bs ih =>
    obtain ⟨hok, hprev, -, hrest⟩ := h
    intro x hx
    rcases List.mem_cons.mp hx with rfl | hx
    · exact ⟨hok, Nat.le_refl _⟩
    · obtain ⟨hx1, hx2⟩ := ih hrest x hx
      have hlt := hok.prev_lt
      exact ⟨hx1, by rw [top_cons]; omega⟩

theorem Linked.ok (h : Linked c bs) (hb : b ∈ bs) : b.Ok c := (h.stop_le_top b hb).1

theorem Linked.of_append (h : Linked c (new ++ rest)) : Linked c rest := by
  induction new with
  | nil => exact h
  | cons b new ih => exact ih h.tail

/-- A block begins at or above all that is older. -/
theorem Linked.top_le_prev (h : Linked c (new ++ rest)) : ∀ b ∈ new, top rest ≤ b.prev := by
  induction new with
  | nil => simp
  | cons b new ih =>
    obtain ⟨hok, hprev, -, hrest⟩ := h
    intro x hx
    rcases List.mem_cons.mp hx with rfl | hx
    · cases new with
      | nil => exact hprev.ge
      | cons b' new =>
        have hle := ih hrest b' (List.mem_cons_self ..)
        have hlt := (Linked.ok hrest (List.mem_cons_self ..)).prev_lt
        have hat : x.prev = b'.stop := hprev
        omega
    · exact ih hrest x hx

/-- Two blocks are the same or lie apart. -/
theorem Linked.apart (h : Linked c bs) (hb : b ∈ bs) (hb' : b' ∈ bs) :
    b = b' ∨ b.stop ≤ b'.prev ∨ b'.stop ≤ b.prev := by
  induction bs with
  | nil => cases hb
  | cons x bs ih =>
    obtain ⟨-, hprev, -, hrest⟩ := h
    rcases List.mem_cons.mp hb with rfl | hmem <;> rcases List.mem_cons.mp hb' with rfl | hmem'
    · exact .inl rfl
    · exact .inr (.inr (hprev ▸ (hrest.stop_le_top b' hmem').2))
    · exact .inr (.inl (hprev ▸ (hrest.stop_le_top b hmem).2))
    · exact ih hrest hmem hmem'

theorem Linked.stop_inj (h : Linked c bs) (hb : b ∈ bs) (hb' : b' ∈ bs) (heq : b.stop = b'.stop) :
    b = b' := by
  have h1 := (h.ok hb).prev_lt
  have h2 := (h.ok hb').prev_lt
  rcases h.apart hb hb' with hsame | hle | hle
  · exact hsame
  · omega
  · omega

theorem Linked.birth_lt (h : Linked c bs) : ∀ b ∈ bs, b.birth < nextBirth bs := by
  induction bs with
  | nil => simp
  | cons b bs ih =>
    obtain ⟨-, -, hbirth, hrest⟩ := h
    intro x hx
    rcases List.mem_cons.mp hx with rfl | hx
    · exact Nat.lt_succ_self _
    · have hlt := ih hrest x hx
      rw [nextBirth_cons]
      omega

/-- Newer blocks were born later. -/
theorem Linked.birth_ge (h : Linked c (new ++ rest)) : ∀ b ∈ new, nextBirth rest ≤ b.birth := by
  induction new with
  | nil => simp
  | cons b new ih =>
    obtain ⟨-, -, hbirth, hrest⟩ := h
    intro x hx
    rcases List.mem_cons.mp hx with rfl | hx
    · cases new with
      | nil => exact hbirth
      | cons b' new =>
        have hge := ih hrest b' (List.mem_cons_self ..)
        have hnext : b'.birth + 1 ≤ x.birth := hbirth
        omega
    · exact ih hrest x hx

/-! ### Noting a kind -/

@[simp] theorem top_setKind (stop : ℕ) (kind : Kind c.w) (bs : List (Block c.w)) :
    top (setKind stop kind bs) = top bs := by
  cases bs with
  | nil => rfl
  | cons b bs =>
    simp only [setKind]
    split <;> rfl

@[simp] theorem nextBirth_setKind (stop : ℕ) (kind : Kind c.w) (bs : List (Block c.w)) :
    nextBirth (setKind stop kind bs) = nextBirth bs := by
  cases bs with
  | nil => rfl
  | cons b bs =>
    simp only [setKind]
    split <;> rfl

theorem Linked.setKind {stop : ℕ} {kind : Kind c.w} (h : Linked c bs)
    (hkind : ∀ destroy, kind = .object destroy → destroy ≠ 0) : Linked c (setKind stop kind bs) := by
  induction bs with
  | nil => exact h
  | cons b bs ih =>
    obtain ⟨hok, hprev, hbirth, hrest⟩ := h
    simp only [ArenaAllocator.setKind]
    split
    · exact ⟨⟨hok.prev_le, hok.size_pos, hok.stop_eq, hok.stop_le, hok.aligned, hkind⟩, hprev, hbirth,
        hrest⟩
    · exact ⟨hok, by simpa using hprev, by simpa using hbirth, ih hrest⟩

theorem Marked.setKind {stop : ℕ} {kind : Kind c.w} (h : Marked m bs) :
    Marked m (setKind stop kind bs) := by
  induction bs with
  | nil => exact h
  | cons b bs ih =>
    simp only [ArenaAllocator.setKind]
    split
    · exact h
    · rcases h with h | ⟨htime, hrest⟩
      · exact .inl h
      · exact .inr ⟨htime, ih hrest⟩

/-- The block found is the one that ends there. -/
theorem setKind_append (kind : Kind c.w) (h : Linked c (new ++ b :: rest)) :
    ArenaAllocator.setKind b.stop kind (new ++ b :: rest) = new ++ { b with kind := kind } :: rest := by
  induction new with
  | nil => simp [ArenaAllocator.setKind]
  | cons x new ih =>
    have hge : top (b :: rest) ≤ x.prev := h.top_le_prev x (List.mem_cons_self ..)
    have hlt := (Linked.ok h (List.mem_cons_self ..)).prev_lt
    have hne : x.stop ≠ b.stop := by
      rw [top_cons] at hge
      omega
    simp only [List.cons_append, ArenaAllocator.setKind, if_neg hne, ih h.tail]

/-! ### Boundaries and marks -/

theorem bound_top (bs : List (Block c.w)) : Bound (top bs) bs := by
  cases bs with
  | nil => rfl
  | cons b bs => exact .inl rfl

theorem bound_zero (bs : List (Block c.w)) : Bound 0 bs := by
  induction bs with
  | nil => rfl
  | cons b bs ih => exact .inr ih

theorem Bound.append (h : Bound t rest) : Bound t (new ++ rest) := by
  induction new with
  | nil => exact h
  | cons b new ih => exact .inr ih

theorem Bound.le_top (h : Bound t bs) (hl : Linked c bs) : t ≤ top bs := by
  induction bs with
  | nil => exact h.le
  | cons b bs ih =>
    obtain ⟨hok, hprev, -, hrest⟩ := hl
    rcases h with h | h
    · exact h.le
    · have hle := ih h hrest
      have hlt := hok.prev_lt
      rw [top_cons]
      omega

/-- A boundary below the top is a boundary of the older blocks. -/
theorem Bound.older (h : Bound t (b :: bs)) (hlt : t < b.stop) : Bound t bs := by
  rcases h with h | h
  · omega
  · exact h

theorem Marked.bound (h : Marked m bs) : Bound m.offset bs := by
  induction bs with
  | nil => exact h
  | cons b bs ih =>
    rcases h with h | h
    · exact .inl h.1
    · exact .inr (ih h.2)

theorem Marked.older (h : Marked m (b :: bs)) (hlt : m.offset < b.stop) : Marked m bs := by
  rcases h with h | h
  · omega
  · exact h.2

/-- A mark set at the top. -/
theorem marked_top {clock : ℕ} (hclock : nextBirth bs ≤ clock) : Marked ⟨top bs, clock⟩ bs := by
  cases bs with
  | nil => rfl
  | cons b bs => exact .inl ⟨rfl, hclock⟩

/-- The blocks since a mark, and the ones before it. -/
theorem Marked.split (h : Marked m bs) (hl : Linked c bs) : ∃ above below, bs = above ++ below ∧
    top below = m.offset ∧ (∀ b ∈ above, m.time ≤ b.birth) ∧ ∀ b ∈ below, b.birth < m.time := by
  induction bs with
  | nil => exact ⟨[], [], rfl, h.symm, by simp, by simp⟩
  | cons b bs ih =>
    rcases h with ⟨hoff, htime⟩ | ⟨htime, hrest⟩
    · refine ⟨[], b :: bs, rfl, hoff.symm, by simp, ?_⟩
      intro x hx
      have hlt := hl.birth_lt x hx
      rw [nextBirth_cons] at hlt
      omega
    · obtain ⟨above, below, rfl, htop, habove, hbelow⟩ := ih hrest hl.tail
      refine ⟨b :: above, below, rfl, htop, ?_, hbelow⟩
      intro x hx
      rcases List.mem_cons.mp hx with rfl | hx
      · exact htime
      · exact habove x hx

/-! ### Records -/

section

variable (hb : b.Ok c)
include hb

theorem Block.Ok.stop_lt : b.stop < 2 ^ c.w := Nat.lt_of_le_of_lt hb.stop_le c.capacity_lt

theorem Block.Ok.prev_toNat : (b.record c).previousOffset.toNat = b.prev := by
  have h1 := hb.prev_lt
  have h2 := hb.stop_lt
  rw [record, BitVec.toNat_ofNat, Nat.mod_eq_of_lt (by omega)]

/-- A payload lies inside the storage, so its offset is not the mark of a running destructor. -/
theorem Block.Ok.pay_lt : b.pay < 2 ^ c.w - 1 := by
  have h1 := hb.size_pos
  have h2 := hb.stop_eq
  have h3 := hb.stop_lt
  omega

theorem Block.Ok.pay_toNat (hkind : b.kind ≠ .dying) : (b.record c).payloadOffset.toNat = b.pay := by
  have hlt := hb.pay_lt
  simp only [record, if_neg hkind, BitVec.toNat_ofNat]
  exact Nat.mod_eq_of_lt (by omega)

theorem Block.Ok.destroying_iff : (b.record c).payloadOffset = destroying c ↔ b.kind = .dying := by
  constructor
  · intro h
    by_contra hkind
    have hpay := hb.pay_toNat hkind
    rw [h, destroying, BitVec.toNat_allOnes] at hpay
    have hlt := hb.pay_lt
    omega
  · intro hkind
    simp [record, hkind]

theorem Block.Ok.destroy_iff : (b.record c).destroy ≠ 0 ↔ ∃ destroy, b.kind = .object destroy := by
  have hne := hb.destroy_ne
  simp only [record]
  cases hk : b.kind with
  | object destroy => simpa [Kind.destroyFn] using hne destroy hk
  | raw => simp [Kind.destroyFn]
  | building => simp [Kind.destroyFn]
  | dying => simp [Kind.destroyFn]

end

/-- Bytes outside the records may change. -/
theorem Stored.frame (h : Stored c storage bs) (hl : Linked c bs)
    (hsame : ∀ b ∈ bs, ∀ i, b.pay + b.size ≤ i → i < b.stop → storage' i = storage i) :
    Stored c storage' bs := by
  intro b hb
  have hstop := (hl.ok hb).stop_eq
  rw [← h b hb]
  refine c.record.load_congr ?_
  intro i hle hlt
  exact hsame b hb i (by omega) (by omega)

/-- Storing the record of one block leaves the others alone. -/
theorem Stored.store (new : List (Block c.w)) (hl : Linked c (new ++ b :: rest))
    (hnew : Stored c storage new) (hrest : Stored c storage rest) :
    Stored c (storeRecord c storage b.stop (b.record c)) (new ++ b :: rest) := by
  have hok := (hl.ok (b := b) (by simp))
  have hstop := hok.stop_eq
  have hpay := hok.prev_le
  intro x hx
  rcases List.mem_append.mp hx with hx | hx
  · -- a newer block: its record lies above
    have hge := hl.top_le_prev x hx
    have hxok := hl.ok (b := x) (List.mem_append_left _ hx)
    have h1 := hxok.prev_le
    have h2 := hxok.stop_eq
    rw [top_cons] at hge
    rw [← hnew x hx]
    exact c.record.load_store_apart (.inr (by omega))
  · rcases List.mem_cons.mp hx with rfl | hx
    · exact c.record.load_store
    · have hprev : b.prev = top rest := (hl.of_append).2.1
      have hle := (hl.of_append.tail.stop_le_top x hx).2
      have hxok := hl.of_append.tail.ok hx
      have h2 := hxok.stop_eq
      rw [← hrest x hx]
      exact c.record.load_store_apart (.inl (by omega))

/-! ### Allocation -/

/-- A request at an aligned place fits or not, as exact arithmetic says. -/
theorem allocateImpl_spec {a : Arena} {alignment : BitVec c.w} (bytes destroy : BitVec c.w)
    (halign : isPow2 alignment = true) (hoff : a.offset ≤ c.capacity) :
    ∃ p, p < alignment.toNat ∧ alignment.toNat ∣ c.base + (a.offset + p) ∧
      (bytes = 0 ∨ c.capacity - a.offset < p + bytes.toNat + c.record.size →
        allocateImpl c a bytes alignment destroy = .null) ∧
      (bytes ≠ 0 → p + bytes.toNat + c.record.size ≤ c.capacity - a.offset →
        allocateImpl c a bytes alignment destroy = .block (a.offset + p)
          ⟨a.offset + (p + bytes.toNat + c.record.size),
            storeRecord c a.storage (a.offset + (p + bytes.toNat + c.record.size))
              ⟨BitVec.ofNat c.w a.offset, BitVec.ofNat c.w (a.offset + p), destroy⟩⟩) := by
  obtain ⟨hpad, hlt, hdvd⟩ := alignUp_padTo halign (c.base + a.offset)
  refine ⟨_, hlt, by rwa [← Nat.add_assoc], ?_, ?_⟩
  · intro hnull
    simp only [allocateImpl, if_pos halign, ← BitVec.ofNat_add, hpad]
    rcases hnull with hzero | hbig
    · rw [if_pos hzero]
    · split
      · rfl
      · split
        · rfl
        · split
          · rfl
          · split
            · rfl
            · rw [if_pos (by omega)]
  · intro hne hfit
    have hpos : 0 < bytes.toNat := Nat.pos_of_ne_zero fun h => hne (BitVec.eq_of_toNat_eq (by simpa using h))
    simp only [allocateImpl, if_pos halign, if_neg hne, ← BitVec.ofNat_add, hpad]
    rw [if_neg (by omega), if_neg (by omega), if_neg (by omega), if_neg (by omega)]

end Metl.ArenaAllocator
