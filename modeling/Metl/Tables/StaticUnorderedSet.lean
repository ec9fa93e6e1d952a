import Metl.Tables.StaticUnorderedMap

/-! `metl::static_unordered_set`: the table of `static_unordered_map`, written out again for keys alone.

        index     0        1        2        3       …    bucket_count - 1
        state   empty   occupied  tombstone  occupied
        storage    -       k         -          k'

    The conventions are those of the map: `storage i` is the live key of slot `i`, `npos` is `none`, and
    a result of `none` where the source returns a value says that an assertion failed, that an object
    that is not there was read, or that a loop ran out of fuel. -/

namespace Metl.StaticUnorderedSet

open Metl.Tables Function
open Metl.StaticUnorderedMap (SlotState scanBits)

/-- The template arguments and what follows from them. -/
structure Cfg (K : Type) (w : ℕ) where
  capacity : BitVec w
  constants : HashMixConstants w
  wide : Option (WideKey K)
  /-- `std::is_nothrow_move_constructible_v<value_type>`. -/
  rebuildCannotThrow : Bool
  /-- The `static_assert` of `detail::bitset<bucket_count>`. -/
  buckets_pos : 0 < (computeBucketCount capacity).toNat

structure KeySet (K : Type) (w : ℕ) where
  storage : ℕ → Option K
  occupied : ℕ → Bool
  tombstone : ℕ → Bool
  size : ℕ
  tombstones : ℕ
  hasher : K → BitVec w
  keyEqual : K → K → Bool

variable {K : Type} {w : ℕ}

def Cfg.bucketCount (c : Cfg K w) : ℕ := (computeBucketCount c.capacity).toNat

/-- The constructor `empty_with`, and the default constructor. -/
def emptyWith (hasher : K → BitVec w) (keyEqual : K → K → Bool) : KeySet K w where
  storage := fun _ => none
  occupied := fun _ => false
  tombstone := fun _ => false
  size := 0
  tombstones := 0
  hasher := hasher
  keyEqual := keyEqual

namespace KeySet

def state (s : KeySet K w) (index : ℕ) : SlotState :=
  if s.occupied index then .occupied else if s.tombstone index then .tombstone else .empty

def setState (s : KeySet K w) (index : ℕ) (next : SlotState) : KeySet K w :=
  { s with
    occupied := update s.occupied index (next == .occupied)
    tombstone := update s.tombstone index (next == .tombstone) }

/-- `key_equal_(*slot_value(index), key)`. -/
def keyEqualAt (s : KeySet K w) (index : ℕ) (key : K) : Bool :=
  (s.storage index).any fun k => s.keyEqual k key

/-- Construct an object in a slot. -/
def construct (s : KeySet K w) (index : ℕ) (key : K) : KeySet K w :=
  { s with storage := update s.storage index (some key) }

/-- Destroy the object of a slot, or move it out and then destroy it. -/
def destroy (s : KeySet K w) (index : ℕ) : KeySet K w :=
  { s with storage := update s.storage index none }

end KeySet

variable (c : Cfg K w)

/-! ### Lookup -/

def bucketIndex (s : KeySet K w) (key : K) : ℕ :=
  (hashMix c.constants (hashKey c.constants c.wide s.hasher key)).toNat &&& (c.bucketCount - 1)

/-- The probe loop of `find_existing_index`, with `left` probes to go. -/
def findLoop (s : KeySet K w) (key : K) (start : ℕ) : ℕ → ℕ → Option ℕ
  | 0, _ => none
  | left + 1, probe =>
    let index := (start + probe) &&& (c.bucketCount - 1)
    if s.state index = .empty then none
    else if s.state index = .occupied ∧ s.keyEqualAt index key then some index
    else findLoop s key start left (probe + 1)

def findExistingIndex (s : KeySet K w) (key : K) : Option ℕ :=
  if c.capacity.toNat = 0 then none
  else findLoop c s key (bucketIndex c s key) c.bucketCount 0

/-- The probe loop of `locate_insert_index`, with `left` probes to go. -/
def locateLoop (s : KeySet K w) (key : K) (start : ℕ) : ℕ → ℕ → Option ℕ → Option ℕ
  | 0, _, firstTombstone => firstTombstone
  | left + 1, probe, firstTombstone =>
    let index := (start + probe) &&& (c.bucketCount - 1)
    match s.state index with
    | .empty => some (firstTombstone.getD index)
    | .tombstone => locateLoop s key start left (probe + 1) (firstTombstone.or (some index))
    | .occupied =>
      if s.keyEqualAt index key then some index
      else locateLoop s key start left (probe + 1) firstTombstone

def locateInsertIndex (s : KeySet K w) (key : K) : Option ℕ :=
  if c.capacity.toNat = 0 then none
  else locateLoop c s key (bucketIndex c s key) c.bucketCount 0 none

/-- The stored key the returned pointer designates. -/
def find (s : KeySet K w) (key : K) : Option K :=
  (findExistingIndex c s key).bind fun index => s.storage index

def contains (s : KeySet K w) (key : K) : Bool := (find c s key).isSome

def full (s : KeySet K w) : Bool := s.size == c.capacity.toNat

/-! ### The in-place rebuild -/

/-- `while (state(target) == occupied)`: the next slot no placed element holds. -/
def skipOccupied (s : KeySet K w) : ℕ → ℕ → Option ℕ
  | 0, _ => none
  | fuel + 1, target =>
    if s.state target = .occupied then skipOccupied s fuel ((target + 1) &&& (c.bucketCount - 1))
    else some target

/-- `for (;;)`: settle the carried key, then the one it displaces, and so on. -/
def settleLoop : ℕ → KeySet K w → K → Option (KeySet K w)
  | 0, _, _ => none
  | fuel + 1, s, carry =>
    (skipOccupied c s c.bucketCount (bucketIndex c s carry)).bind fun target =>
      if s.state target = .empty then
        some { s.construct target carry with occupied := update s.occupied target true }
      else
        (s.storage target).bind fun displaced =>
          settleLoop fuel
            { s.construct target carry with
              tombstone := update s.tombstone target false
              occupied := update s.occupied target true } displaced

/-- The loop of phase 2, with `left` slots to go from slot `i`. -/
def placeLoop : ℕ → ℕ → KeySet K w → Option (KeySet K w)
  | 0, _, s => some s
  | left + 1, i, s =>
    if s.tombstone i then
      (s.storage i).bind fun carry =>
        (settleLoop c (c.bucketCount + 1)
          { s.destroy i with tombstone := update s.tombstone i false } carry).bind
            (placeLoop left (i + 1))
    else placeLoop left (i + 1) s

/-- Phase 1 marks every live key as not yet placed, with the tombstone bit. -/
def markUnplaced (s : KeySet K w) : KeySet K w :=
  { s with tombstone := s.occupied, occupied := fun _ => false, tombstones := 0 }

def rehashInPlace (s : KeySet K w) : Option (KeySet K w) :=
  if c.capacity.toNat = 0 then some s else placeLoop c c.bucketCount 0 (markUnplaced s)

/-! ### Placing and destroying one key -/

def placeAt (s : KeySet K w) (index : ℕ) (key : K) : Option (KeySet K w) :=
  if index < c.bucketCount then
    some { (s.construct index key).setState index .occupied with
           tombstones := if s.state index = .tombstone then s.tombstones - 1 else s.tombstones
           size := s.size + 1 }
  else none

/-- Returns the slot the key ended up in. -/
def constructAt (s : KeySet K w) (index : ℕ) (key : K) : Option (KeySet K w × ℕ) :=
  if c.rebuildCannotThrow ∧ c.bucketCount / 8 < s.tombstones then
    (rehashInPlace c s).bind fun s =>
      (locateInsertIndex c s key).bind fun index =>
        if index < c.bucketCount then
          some ({ (s.construct index key).setState index .occupied with size := s.size + 1 }, index)
        else none
  else (placeAt c s index key).map fun s => (s, index)

def destroyAt (s : KeySet K w) (index : ℕ) (next : SlotState) : KeySet K w :=
  { (s.setState index next).destroy index with
    size := s.size - 1
    tombstones := if next = .tombstone then s.tombstones + 1 else s.tombstones }

/-! ### Iteration -/

/-- The lowest occupied slot at or above `start`, or `bucket_count`: where an iterator built at
    `start` stands. -/
def skipToOccupied (s : KeySet K w) (start : ℕ) : ℕ :=
  if c.bucketCount ≤ start then c.bucketCount
  else scanBits s.occupied (c.bucketCount - start) start

/-- The slots a range-based `for` visits, with the iterator at `index`. -/
def visitLoop (s : KeySet K w) : ℕ → ℕ → List ℕ
  | 0, _ => []
  | fuel + 1, index =>
    if index = c.bucketCount then []
    else index :: visitLoop s fuel (skipToOccupied c s (index + 1))

/-- The keys a range-based `for` visits, in order. -/
def items (s : KeySet K w) : List K :=
  (visitLoop c s c.bucketCount (skipToOccupied c s 0)).filterMap s.storage

/-! ### Modifiers -/

def tryEmplace (s : KeySet K w) (key : K) : Option (KeySet K w × Bool) :=
  match locateInsertIndex c s key with
  | none => some (s, false)
  | some index =>
    if s.state index = .occupied then some (s, false)
    else if c.capacity.toNat ≤ s.size then some (s, false)
    else (constructAt c s index key).map fun r => (r.1, true)

/-- `emplace`: the slot of the returned key. -/
def emplaceSlot (s : KeySet K w) (key : K) : Option (KeySet K w × ℕ) :=
  match findExistingIndex c s key with
  | some existing => some (s, existing)
  | none =>
    if s.size < c.capacity.toNat then
      (locateInsertIndex c s key).bind fun index =>
        if s.state index = .occupied then none else constructAt c s index key
    else none

/-- The key the returned reference designates. -/
def emplace (s : KeySet K w) (key : K) : Option (KeySet K w × K) :=
  (emplaceSlot c s key).bind fun r => (r.1.storage r.2).map fun k => (r.1, k)

/-- `erase(const key_type&)`. -/
def eraseKey (s : KeySet K w) (key : K) : KeySet K w × Bool :=
  match findExistingIndex c s key with
  | none => (s, false)
  | some index => (destroyAt s index .tombstone, true)

/-- `erase(const_iterator)`: also where the returned iterator stands. -/
def eraseAt (s : KeySet K w) (index : ℕ) : Option (KeySet K w × ℕ) :=
  if index < c.bucketCount ∧ s.state index = .occupied then
    let s := destroyAt s index .tombstone
    some (s, skipToOccupied c s (index + 1))
  else none

/-- The loop of `erase_if`, with the iterator at `index`. -/
def eraseIfLoop (pred : K → Bool) : ℕ → KeySet K w → ℕ → ℕ → Option (KeySet K w × ℕ)
  | 0, s, index, erased => if index = c.bucketCount then some (s, erased) else none
  | fuel + 1, s, index, erased =>
    if index = c.bucketCount then some (s, erased)
    else
      (s.storage index).bind fun k =>
        if pred k then
          (eraseAt c s index).bind fun r => eraseIfLoop pred fuel r.1 r.2 (erased + 1)
        else eraseIfLoop pred fuel s (skipToOccupied c s (index + 1)) erased

def eraseIf (s : KeySet K w) (pred : K → Bool) : Option (KeySet K w × ℕ) :=
  eraseIfLoop c pred c.bucketCount s (skipToOccupied c s 0) 0

/-- The loop of `clear`, with `left` slots to go from slot `i`. -/
def clearLoop : ℕ → ℕ → KeySet K w → KeySet K w
  | 0, _, s => s
  | left + 1, i, s =>
    clearLoop left (i + 1) (if s.state i = .occupied then destroyAt s i .empty else s.setState i .empty)

def clear (s : KeySet K w) : KeySet K w := { clearLoop c.bucketCount 0 s with tombstones := 0 }

/-! ### Two sets -/

/-- One slot of `swap_contents`; `none` if an occupied slot holds no object. -/
def swapSlot (i : ℕ) (s other : KeySet K w) : Option (KeySet K w × KeySet K w) :=
  if s.state i = .occupied ∧ other.state i = .occupied then
    (s.storage i).bind fun k => (other.storage i).map fun k' =>
      (s.construct i k', other.construct i k)
  else if s.state i = .occupied then
    (s.storage i).map fun k =>
      ((s.setState i (other.state i)).destroy i, (other.construct i k).setState i .occupied)
  else if other.state i = .occupied then
    (other.storage i).map fun k =>
      ((s.construct i k).setState i .occupied, (other.setState i (s.state i)).destroy i)
  else some (s.setState i (other.state i), other.setState i (s.state i))

def swapLoop : ℕ → ℕ → KeySet K w → KeySet K w → Option (KeySet K w × KeySet K w)
  | 0, _, s, other => some (s, other)
  | left + 1, i, s, other => (swapSlot i s other).bind fun r => swapLoop left (i + 1) r.1 r.2

/-- `swap_contents`: the functors first, the slots one by one, the counters last. -/
def swapContents (s other : KeySet K w) : Option (KeySet K w × KeySet K w) :=
  (swapLoop c.bucketCount 0 { s with hasher := other.hasher, keyEqual := other.keyEqual }
    { other with hasher := s.hasher, keyEqual := s.keyEqual }).map fun r =>
      ({ r.1 with size := r.2.size, tombstones := r.2.tombstones },
        { r.2 with size := r.1.size, tombstones := r.1.tombstones })

/-- `for (item : other) emplace(item)`. -/
def emplaceAll (s : KeySet K w) : List K → Option (KeySet K w)
  | [] => some s
  | k :: ks => (emplaceSlot c s k).bind fun r => emplaceAll r.1 ks

/-- The copy constructor. -/
def copyConstruct (other : KeySet K w) : Option (KeySet K w) :=
  emplaceAll c (emptyWith other.hasher other.keyEqual) (items c other)

/-- Copy assignment from another set. -/
def copyAssign (s other : KeySet K w) : Option (KeySet K w) :=
  emplaceAll c { clear c s with hasher := other.hasher, keyEqual := other.keyEqual } (items c other)

/-- The move constructor: the new set, and what is left of `other`. A functor moved from is equal to
    what it was. -/
def moveConstruct (other : KeySet K w) : Option (KeySet K w × KeySet K w) :=
  (copyConstruct c other).map fun s => (s, clear c other)

/-- Move assignment from another set. -/
def moveAssign (s other : KeySet K w) : Option (KeySet K w × KeySet K w) :=
  (copyAssign c s other).map fun s => (s, clear c other)

end Metl.StaticUnorderedSet
