import Metl.Pools.ObjectPool
import Metl.Schemes.Codec

/-! `metl::object_pool` down to its bytes.

    A slot is a stretch of bytes: an object while the slot is live, and in the same bytes the link of
    the stack of freed slots once it is not. A link is a `link_type`, as narrow as the capacity allows.

        0               slotSize          2 * slotSize
        │ object │ pad  │ link │ left over │ never written …      free_head_ = 2, unused_ = 2

    `Mirrors` ties this pool to the one whose slots are typed: each operation here does to the bytes
    what the operation of the same name does there. -/

namespace Metl.PoolBytes
open Metl.Schemes Function
open Metl.ObjectPool (linkBits slotPtr indexOf)

/-- A pool of `T`s in memory: `sizeof(storage_type)` covers an object and a link, and the object
    representations of both types are whatever the platform makes them. -/
structure Layout (T : Type*) extends ObjectPool.Cfg where
  capacity_lt : capacity < 2 ^ 32
  object : Codec T
  link : Codec (BitVec (linkBits capacity))
  object_fits : object.size ≤ slotSize
  link_fits : link.size ≤ slotSize

/-- The data members; `storage` is indexed by the offset from `storage_.items[0].addr()`. -/
structure Pool {T : Type*} (c : Layout T) where
  storage : ℕ → UInt8
  live : ℕ → Bool
  freeHead : BitVec (linkBits c.capacity)
  unused : BitVec (linkBits c.capacity)
  size : ℕ

variable {T : Type*} {c : Layout T}

/-- A new pool leaves the bytes of its slots as they were. -/
def Pool.new (c : Layout T) (garbage : ℕ → UInt8) : Pool c := ⟨garbage, fun _ => false, 0, 0, 0⟩

/-- `link()`. -/
def Pool.link (s : Pool c) (i : ℕ) : BitVec (linkBits c.capacity) :=
  c.link.load s.storage (c.slotSize * i)

/-- The object in slot `i`, read from its bytes. -/
def Pool.object (s : Pool c) (i : ℕ) : T := c.object.load s.storage (c.slotSize * i)

/-- `push_free()`. -/
def Pool.pushFree (s : Pool c) (i : ℕ) : Pool c :=
  { s with storage := c.link.store s.storage (c.slotSize * i) s.freeHead,
           freeHead := BitVec.ofNat _ (i + 1) }

/-- `live_.set(i)` and `++size_`. -/
def Pool.setLive (s : Pool c) (i : ℕ) : Pool c :=
  { s with live := update s.live i true, size := s.size + 1 }

/-- `live_.reset(i)` and `--size_`. -/
def Pool.resetLive (s : Pool c) (i : ℕ) : Pool c :=
  { s with live := update s.live i false, size := s.size - 1 }

/-- `try_emplace` up to the constructor. -/
def Pool.claim (s : Pool c) : Option ℕ × Pool c :=
  if s.freeHead ≠ 0 then
    let i := s.freeHead.toNat - 1
    (some i, { s with freeHead := s.link i }.setLive i)
  else if s.unused.toNat < c.capacity then
    (some s.unused.toNat, { s with unused := s.unused + 1 }.setLive s.unused.toNat)
  else (none, s)

/-- A constructor has made `x` in slot `i`, or the program assigns it there. -/
def Pool.write (s : Pool c) (i : ℕ) (x : T) : Pool c :=
  { s with storage := c.object.store s.storage (c.slotSize * i) x }

/-- A destructor, or a constructor that threw, leaves what it likes in the object's bytes. -/
def Pool.scribble (s : Pool c) (i : ℕ) (left : Fin c.object.size → UInt8) : Pool c :=
  { s with storage := (Codec.bytes _).store s.storage (c.slotSize * i) left }

/-- `contains()`, and the test of `destroy()`. -/
def Pool.contains (s : Pool c) (object : BitVec c.w) : Bool :=
  decide (indexOf c.toCfg object < c.capacity) && s.live (indexOf c.toCfg object)

/-! ### The calls -/

/-- What a constructor does: it makes an object, or throws and leaves some bytes behind. -/
inductive Made (c : Layout T) where
  | object (x : T)
  | throws (left : Fin c.object.size → UInt8)

/-- The pool, with ghosts: the number of the object in each slot, how many were built, the destroyed
    ones in order, and the slots that were ever handed to a constructor. -/
structure World (c : Layout T) where
  pool : Pool c
  holds : ℕ → Option ℕ
  built : ℕ
  gone : List ℕ
  used : ℕ → Bool

def World.new (c : Layout T) (garbage : ℕ → UInt8) : World c :=
  ⟨Pool.new c garbage, fun _ => none, 0, [], fun _ => false⟩

inductive Answer (c : Layout T) where
  | pointer (object : Option (BitVec c.w))
  | thrown
  | flag (b : Bool)
  | done

/-- `try_emplace()`; `~release_on_unwind` frees the slot of a constructor that threw. -/
def tryEmplace (v : World c) (made : Made c) : World c × Answer c :=
  match v.pool.claim with
  | (none, _) => (v, .pointer none)
  | (some i, s) =>
    match made with
    | .object x =>
      ({ v with pool := s.write i x, holds := update v.holds i (some v.built),
                built := v.built + 1, used := update v.used i true },
        .pointer (some (slotPtr c.toCfg i)))
    | .throws left =>
      ({ v with pool := ((s.scribble i left).resetLive i).pushFree i,
                used := update v.used i true }, .thrown)

/-- `end_life()`; the destructor needs an object in the slot. -/
def endLife (v : World c) (i : ℕ) (left : Fin c.object.size → UInt8) : Option (World c) :=
  (v.holds i).map fun k =>
    { v with pool := ((v.pool.resetLive i).scribble i left).pushFree i,
             holds := update v.holds i none, gone := v.gone ++ [k] }

/-- `destroy()`. -/
def destroy (v : World c) (object : BitVec c.w) (left : Fin c.object.size → UInt8) :
    Option (World c × Answer c) :=
  if v.pool.contains object then
    (endLife v (indexOf c.toCfg object) left).map fun v' => (v', .flag true)
  else some (v, .flag false)

/-- The loop of `clear()` over the slots that are left. -/
def clearLoop (left : ℕ → Fin c.object.size → UInt8) : List ℕ → World c → Option (World c)
  | [], v => some v
  | i :: rest, v =>
    if v.pool.live i then (endLife v i (left i)).bind (clearLoop left rest) else clearLoop left rest v

/-- `clear()`, which is also all the pool's destructor does. -/
def clear (v : World c) (left : ℕ → Fin c.object.size → UInt8) : Option (World c) :=
  clearLoop left (List.range c.capacity) v

/-- The program writes through a pointer it holds, while the object is alive. -/
def assign (v : World c) (object : BitVec c.w) (x : T) : World c :=
  if v.pool.contains object then { v with pool := v.pool.write (indexOf c.toCfg object) x } else v

inductive Call (c : Layout T) where
  | tryEmplace (made : Made c)
  | destroy (object : BitVec c.w) (left : Fin c.object.size → UInt8)
  | contains (object : BitVec c.w)
  | clear (left : ℕ → Fin c.object.size → UInt8)
  | assign (object : BitVec c.w) (x : T)

/-- One call; `none` where it would destroy an object that is not there. -/
def serve (v : World c) : Call c → Option (World c × Answer c)
  | .tryEmplace made => some (tryEmplace v made)
  | .destroy object left => destroy v object left
  | .contains object => some (v, .flag (v.pool.contains object))
  | .clear left => (clear v left).map fun v' => (v', .done)
  | .assign object x => some (assign v object x, .done)

/-! ### The bytes of one slot -/

/-- `s'` differs from `s` in the bytes of slot `i` only. -/
def Touches (i : ℕ) (s s' : Pool c) : Prop :=
  ∀ k, k < c.slotSize * i ∨ c.slotSize * i + c.slotSize ≤ k → s'.storage k = s.storage k

section Touches
variable {s s' s'' : Pool c} {i j : ℕ}

theorem Touches.trans (h : Touches i s s') (h' : Touches i s' s'') : Touches i s s'' :=
  fun k hk => (h' k hk).trans (h k hk)

/-- Writing a value that fits a slot. -/
theorem touches_store {α : Type*} (C : Codec α) (x : α) (hfits : C.size ≤ c.slotSize)
    (h : s'.storage = C.store s.storage (c.slotSize * i) x) : Touches i s s' := by
  intro k hk
  rw [h]
  refine C.store_outside ?_
  rcases hk with hk | hk
  · exact .inl hk
  · exact .inr (by omega)

theorem touches_write (x : T) : Touches i s (s.write i x) :=
  touches_store c.object x c.object_fits rfl

theorem touches_scribble (left : Fin c.object.size → UInt8) : Touches i s (s.scribble i left) :=
  touches_store (Codec.bytes _) left c.object_fits rfl

theorem touches_pushFree : Touches i s (s.pushFree i) :=
  touches_store c.link s.freeHead c.link_fits rfl

/-- Different slots do not overlap. -/
theorem slots_apart (hij : j ≠ i) : c.slotSize * j + c.slotSize ≤ c.slotSize * i ∨
    c.slotSize * i + c.slotSize ≤ c.slotSize * j := by
  rcases Nat.lt_or_gt_of_ne hij with hlt | hlt
  · left
    rw [← Nat.mul_succ]
    exact Nat.mul_le_mul_left _ hlt
  · right
    rw [← Nat.mul_succ]
    exact Nat.mul_le_mul_left _ hlt

/-- What another slot holds stays as it is. -/
theorem Touches.load {α : Type*} (h : Touches i s s') (hij : j ≠ i) (C : Codec α)
    (hfits : C.size ≤ c.slotSize) :
    C.load s'.storage (c.slotSize * j) = C.load s.storage (c.slotSize * j) := by
  refine C.load_congr ?_
  intro k hle hlt
  refine h k ?_
  rcases slots_apart (c := c) hij with hap | hap
  · left; omega
  · right; omega

theorem Touches.object (h : Touches i s s') (hij : j ≠ i) : s'.object j = s.object j :=
  h.load hij c.object c.object_fits

theorem Touches.link (h : Touches i s s') (hij : j ≠ i) : s'.link j = s.link j :=
  h.load hij c.link c.link_fits

end Touches

/-- The bytes of slot `i` are those of the typed slot. -/
def Shows (s : Pool c) (i : ℕ) : ObjectPool.Slot T → Prop
  | .raw => True
  | .link next => (s.link i).toNat = next
  | .object x => s.object i = x

theorem Touches.shows {s s' : Pool c} {i j : ℕ} {slot : ObjectPool.Slot T} (h : Touches i s s')
    (hij : j ≠ i) (hslot : Shows s j slot) : Shows s' j slot := by
  cases slot with
  | raw => trivial
  | link next => exact (congrArg BitVec.toNat (h.link hij)).trans hslot
  | object x => exact (h.object hij).trans hslot

/-- One slot of the typed pool was rewritten, and the bytes were too. -/
theorem Touches.rewritten {s s' : Pool c} {i : ℕ} {slots : ℕ → ObjectPool.Slot T}
    {slot : ObjectPool.Slot T} (h : Touches i s s') (hslots : ∀ j, Shows s j (slots j))
    (hslot : Shows s' i slot) : ∀ j, Shows s' j (update slots i slot j) := by
  intro j
  rcases eq_or_ne j i with rfl | hji
  · rw [update_self]
    exact hslot
  · rw [update_of_ne hji]
    exact h.shows hji (hslots j)

/-! ### The typed pool in the bytes -/

/-- The pool in memory is the typed pool `p`. -/
structure Mirrors (s : Pool c) (p : ObjectPool.Pool T) : Prop where
  live : s.live = p.live
  freeHead : s.freeHead.toNat = p.freeHead
  unused : s.unused.toNat = p.unused
  size : s.size = p.size
  slots : ∀ i, Shows s i (p.storage i)

section Mirrors
variable {s : Pool c} {p p' : ObjectPool.Pool T} {i : ℕ}

theorem mirrors_new (garbage : ℕ → UInt8) : Mirrors (Pool.new c garbage) ObjectPool.init :=
  ⟨rfl, BitVec.toNat_zero, BitVec.toNat_zero, rfl, fun _ => trivial⟩

section

variable (h : Mirrors s p)
include h

theorem Mirrors.setLive : Mirrors (s.setLive i) (p.setLive i) where
  live := congrArg (fun live : ℕ → Bool => update live i true) h.live
  freeHead := h.freeHead
  unused := h.unused
  size := congrArg (· + 1) h.size
  slots := h.slots

theorem Mirrors.resetLive : Mirrors (s.resetLive i) (p.resetLive i) where
  live := congrArg (fun live : ℕ → Bool => update live i false) h.live
  freeHead := h.freeHead
  unused := h.unused
  size := congrArg (· - 1) h.size
  slots := h.slots

/-- A link of the typed pool stands in the bytes. -/
theorem Mirrors.link {next : ℕ} (hnext : p.link i = some next) : (s.link i).toNat = next := by
  have hslot := h.slots i
  unfold ObjectPool.Pool.link at hnext
  split at hnext
  · next heq =>
    rw [heq] at hslot
    cases hnext
    exact hslot
  · cases hnext

/-- Both pools take the same slot. The link read is the typed one, and incrementing `unused_` narrows
    it as there. -/
theorem Mirrors.claim {slot : Option ℕ} (hclaim : ObjectPool.claim c.toCfg p = some (slot, p')) :
    ∃ s', s.claim = (slot, s') ∧ s'.storage = s.storage ∧ Mirrors s' p' := by
  have hzero : s.freeHead ≠ 0 ↔ p.freeHead ≠ 0 := by
    rw [← h.freeHead, ne_eq, ne_eq, ← BitVec.toNat_inj]
    exact Iff.rfl
  unfold ObjectPool.claim at hclaim
  unfold Pool.claim
  split at hclaim
  · next hhead =>
    obtain ⟨next, hnext, hpair⟩ := Option.map_eq_some_iff.mp hclaim
    obtain ⟨rfl, rfl⟩ := Prod.mk.inj hpair
    rw [if_pos (hzero.mpr hhead)]
    simp only [h.freeHead]
    exact ⟨_, rfl, rfl, Mirrors.setLive ⟨h.live, h.link hnext, h.unused, h.size, h.slots⟩⟩
  · next hhead =>
    rw [if_neg (fun hne => hhead (hzero.mp hne)), h.unused]
    split at hclaim
    · next hlt =>
      obtain ⟨rfl, rfl⟩ := Prod.mk.inj (Option.some.inj hclaim)
      rw [if_pos hlt]
      refine ⟨_, rfl, rfl, Mirrors.setLive ⟨h.live, h.freeHead, ?_, h.size, h.slots⟩⟩
      simp [BitVec.toNat_add, h.unused]
    · next hlt =>
      obtain ⟨rfl, rfl⟩ := Prod.mk.inj (Option.some.inj hclaim)
      rw [if_neg hlt]
      exact ⟨s, rfl, rfl, h⟩

theorem Mirrors.write (x : T) : Mirrors (s.write i x) (ObjectPool.construct p i x) where
  live := h.live
  freeHead := h.freeHead
  unused := h.unused
  size := h.size
  slots := (touches_write x).rewritten h.slots (c.object.load_store)

/-- A slot is freed: whatever was left in its bytes, the link stands there afterwards. -/
theorem Mirrors.pushFree (left : Fin c.object.size → UInt8) :
    Mirrors ((s.scribble i left).pushFree i) (ObjectPool.pushFree c.toCfg p i) where
  live := h.live
  freeHead := BitVec.toNat_ofNat ..
  unused := h.unused
  size := h.size
  slots := by
    refine ((touches_scribble left).trans touches_pushFree).rewritten h.slots ?_
    exact (congrArg BitVec.toNat c.link.load_store).trans h.freeHead

end

end Mirrors

end Metl.PoolBytes
