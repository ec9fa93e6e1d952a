import Metl.Tables.Hashing

/-! `metl::static_unordered_map`: a fixed table with linear probing and tombstones.

        index     0        1        2        3       …    bucket_count - 1
        state   empty   occupied  tombstone  occupied
        storage    -     (k, v)      -        (k', v')

    A slot's state is two bits, one in each bitset; `storage i` is the live object of slot `i`, if
    there is one. Indices and counters are natural numbers: a bucket index stays below `bucketCount`
    and `npos` is `none`. A result of `none` where the source returns a value says that an assertion
    failed, that an object that is not there was read, or that a loop ran out of fuel. -/

namespace Metl.StaticUnorderedMap
open Metl.Tables Function

/-- The template arguments and what follows from them. -/
structure Cfg (K V : Type) (w : ℕ) where
  capacity : BitVec w
  constants : HashMixConstants w
  wide : Option (WideKey K)
  /-- `std::is_nothrow_move_constructible_v<value_type>`. -/
  rebuildCannotThrow : Bool
  /-- `mapped_type{}`. -/
  mappedInit : V
  /-- The `static_assert` of `detail::bitset<bucket_count>`. -/
  buckets_pos : 0 < (computeBucketCount capacity).toNat

inductive SlotState where
  | empty
  | occupied
  | tombstone
  deriving DecidableEq, Repr

structure Map (K V : Type) (w : ℕ) where
  storage : ℕ → Option (K × V)
  occupied : ℕ → Bool
  tombstone : ℕ → Bool
  size : ℕ
  tombstones : ℕ
  hasher : K → BitVec w
  keyEqual : K → K → Bool

/-- A value argument: a value of the caller's, or a reference to the mapped value in a slot. -/
inductive Arg (V : Type) where
  | value (v : V)
  | slot (index : ℕ)

variable {K V : Type} {w : ℕ}

def Cfg.bucketCount (c : Cfg K V w) : ℕ := (computeBucketCount c.capacity).toNat

/-- The constructor `empty_with`, and the default constructor. -/
def emptyWith (hasher : K → BitVec w) (keyEqual : K → K → Bool) : Map K V w where
  storage := fun _ => none
  occupied := fun _ => false
  tombstone := fun _ => false
  size := 0
  tombstones := 0
  hasher := hasher
  keyEqual := keyEqual

namespace Map

def state (m : Map K V w) (index : ℕ) : SlotState :=
  if m.occupied index then .occupied else if m.tombstone index then .tombstone else .empty

def setState (m : Map K V w) (index : ℕ) (next : SlotState) : Map K V w :=
  { m with
    occupied := update m.occupied index (next == .occupied)
    tombstone := update m.tombstone index (next == .tombstone) }

/-- `key_equal_(slot_value(index)->key, key)`. -/
def keyEqualAt (m : Map K V w) (index : ℕ) (key : K) : Bool :=
  (m.storage index).any fun e => m.keyEqual e.1 key

/-- What a value argument reads as now. -/
def read (m : Map K V w) : Arg V → Option V
  | .value v => some v
  | .slot index => (m.storage index).map Prod.snd

/-- Construct an object in a slot. -/
def construct (m : Map K V w) (index : ℕ) (e : K × V) : Map K V w :=
  { m with storage := update m.storage index (some e) }

/-- Destroy the object of a slot, or move it out and then destroy it. -/
def destroy (m : Map K V w) (index : ℕ) : Map K V w :=
  { m with storage := update m.storage index none }

end Map

variable (c : Cfg K V w)

/-! ### Lookup -/

def bucketIndex (m : Map K V w) (key : K) : ℕ :=
  (hashMix c.constants (hashKey c.constants c.wide m.hasher key)).toNat &&& (c.bucketCount - 1)

/-- The probe loop of `find_existing_index`, with `left` probes to go. -/
def findLoop (m : Map K V w) (key : K) (start : ℕ) : ℕ → ℕ → Option ℕ
  | 0, _ => none
  | left + 1, probe =>
    let index := (start + probe) &&& (c.bucketCount - 1)
    if m.state index = .empty then none
    else if m.state index = .occupied ∧ m.keyEqualAt index key then some index
    else findLoop m key start left (probe + 1)

def findExistingIndex (m : Map K V w) (key : K) : Option ℕ :=
  if c.capacity.toNat = 0 then none
  else findLoop c m key (bucketIndex c m key) c.bucketCount 0

/-- The probe loop of `locate_insert_index`, with `left` probes to go. -/
def locateLoop (m : Map K V w) (key : K) (start : ℕ) : ℕ → ℕ → Option ℕ → Option ℕ
  | 0, _, firstTombstone => firstTombstone
  | left + 1, probe, firstTombstone =>
    let index := (start + probe) &&& (c.bucketCount - 1)
    match m.state index with
    | .empty => some (firstTombstone.getD index)
    | .tombstone => locateLoop m key start left (probe + 1) (firstTombstone.or (some index))
    | .occupied =>
      if m.keyEqualAt index key then some index
      else locateLoop m key start left (probe + 1) firstTombstone

def locateInsertIndex (m : Map K V w) (key : K) : Option ℕ :=
  if c.capacity.toNat = 0 then none
  else locateLoop c m key (bucketIndex c m key) c.bucketCount 0 none

def find (m : Map K V w) (key : K) : Option V :=
  (findExistingIndex c m key).bind fun index => (m.storage index).map Prod.snd

def contains (m : Map K V w) (key : K) : Bool := (find c m key).isSome

def full (m : Map K V w) : Bool := m.size == c.capacity.toNat

/-! ### The in-place rebuild -/

/-- `while (state(target) == occupied)`: the next slot no placed element holds. -/
def skipOccupied (m : Map K V w) : ℕ → ℕ → Option ℕ
  | 0, _ => none
  | fuel + 1, target =>
    if m.state target = .occupied then skipOccupied m fuel ((target + 1) &&& (c.bucketCount - 1))
    else some target

/-- `for (;;)`: settle the carried element, then the one it displaces, and so on. -/
def settleLoop : ℕ → Map K V w → K × V → Option (Map K V w)
  | 0, _, _ => none
  | fuel + 1, m, carry =>
    (skipOccupied c m c.bucketCount (bucketIndex c m carry.1)).bind fun target =>
      if m.state target = .empty then
        some { m.construct target carry with occupied := update m.occupied target true }
      else
        (m.storage target).bind fun displaced =>
          settleLoop fuel
            { m.construct target carry with
              tombstone := update m.tombstone target false
              occupied := update m.occupied target true } displaced

/-- The loop of phase 2, with `left` slots to go from slot `i`. -/
def placeLoop : ℕ → ℕ → Map K V w → Option (Map K V w)
  | 0, _, m => some m
  | left + 1, i, m =>
    if m.tombstone i then
      (m.storage i).bind fun carry =>
        (settleLoop c (c.bucketCount + 1)
          { m.destroy i with tombstone := update m.tombstone i false } carry).bind
            (placeLoop left (i + 1))
    else placeLoop left (i + 1) m

/-- Phase 1 marks every live element as not yet placed, with the tombstone bit. -/
def markUnplaced (m : Map K V w) : Map K V w :=
  { m with tombstone := m.occupied, occupied := fun _ => false, tombstones := 0 }

def rehashInPlace (m : Map K V w) : Option (Map K V w) :=
  if c.capacity.toNat = 0 then some m else placeLoop c c.bucketCount 0 (markUnplaced m)

/-! ### Placing and destroying one element -/

def placeAt (m : Map K V w) (index : ℕ) (key : K) (value : Arg V) : Option (Map K V w) :=
  if index < c.bucketCount then
    (m.read value).map fun v =>
      { (m.construct index (key, v)).setState index .occupied with
        tombstones := if m.state index = .tombstone then m.tombstones - 1 else m.tombstones
        size := m.size + 1 }
  else none

/-- Returns the slot the element ended up in. On the rebuild path the element is built, and its value
    argument read, before the rebuild moves anything. -/
def constructAt (m : Map K V w) (index : ℕ) (key : K) (value : Arg V) : Option (Map K V w × ℕ) :=
  if c.rebuildCannotThrow ∧ c.bucketCount / 8 < m.tombstones then
    (m.read value).bind fun v =>
      (rehashInPlace c m).bind fun m =>
        (locateInsertIndex c m key).bind fun index =>
          if index < c.bucketCount then
            some ({ (m.construct index (key, v)).setState index .occupied with
                    size := m.size + 1 }, index)
          else none
  else (placeAt c m index key value).map fun m => (m, index)

def destroyAt (m : Map K V w) (index : ℕ) (next : SlotState) : Map K V w :=
  { (m.setState index next).destroy index with
    size := m.size - 1
    tombstones := if next = .tombstone then m.tombstones + 1 else m.tombstones }

/-! ### Iteration -/

/-- The scan of `bitset::find_next_set`, with `left` bits to go. -/
def scanBits (bits : ℕ → Bool) : ℕ → ℕ → ℕ
  | 0, i => i
  | left + 1, i => if bits i then i else scanBits bits left (i + 1)

/-- The lowest occupied slot at or above `start`, or `bucket_count`: where an iterator built at
    `start` stands. -/
def skipToOccupied (m : Map K V w) (start : ℕ) : ℕ :=
  if c.bucketCount ≤ start then c.bucketCount
  else scanBits m.occupied (c.bucketCount - start) start

/-- The slots a range-based `for` visits, with the iterator at `index`. -/
def visitLoop (m : Map K V w) : ℕ → ℕ → List ℕ
  | 0, _ => []
  | fuel + 1, index =>
    if index = c.bucketCount then []
    else index :: visitLoop m fuel (skipToOccupied c m (index + 1))

/-- The elements a range-based `for` visits, in order. -/
def items (m : Map K V w) : List (K × V) :=
  (visitLoop c m c.bucketCount (skipToOccupied c m 0)).filterMap m.storage

/-! ### Modifiers -/

def tryEmplace (m : Map K V w) (key : K) (value : Arg V) : Option (Map K V w × Bool) :=
  match locateInsertIndex c m key with
  | none => some (m, false)
  | some index =>
    if m.state index = .occupied then some (m, false)
    else if c.capacity.toNat ≤ m.size then some (m, false)
    else (constructAt c m index key value).map fun r => (r.1, true)

/-- The body `emplace` and `operator[]` share: the slot of the element, found or new. -/
def emplaceSlot (m : Map K V w) (key : K) (value : Arg V) : Option (Map K V w × ℕ) :=
  match findExistingIndex c m key with
  | some existing => some (m, existing)
  | none =>
    if m.size < c.capacity.toNat then
      (locateInsertIndex c m key).bind fun index =>
        if m.state index = .occupied then none else constructAt c m index key value
    else none

/-- The element the returned reference designates. -/
def emplace (m : Map K V w) (key : K) (value : Arg V) : Option (Map K V w × (K × V)) :=
  (emplaceSlot c m key value).bind fun r => (r.1.storage r.2).map fun e => (r.1, e)

/-- `operator[]`: the value the returned reference designates. -/
def subscript (m : Map K V w) (key : K) : Option (Map K V w × V) :=
  (emplaceSlot c m key (.value c.mappedInit)).bind fun r =>
    (r.1.storage r.2).map fun e => (r.1, e.2)

/-- Assignment to the mapped value of a slot, by the map or through a reference it handed out. -/
def assignAt (m : Map K V w) (index : ℕ) (value : Arg V) : Option (Map K V w) :=
  (m.storage index).bind fun e => (m.read value).map fun v => m.construct index (e.1, v)

/-- The slot of the element, `none` for `npos`. -/
def insertOrAssignImpl (m : Map K V w) (key : K) (value : Arg V) : Option (Map K V w × Option ℕ) :=
  match findExistingIndex c m key with
  | some existing => (assignAt m existing value).map fun m => (m, some existing)
  | none =>
    if c.capacity.toNat ≤ m.size then some (m, none)
    else
      match locateInsertIndex c m key with
      | none => some (m, none)
      | some index => (constructAt c m index key value).map fun r => (r.1, some r.2)

def tryInsertOrAssign (m : Map K V w) (key : K) (value : Arg V) : Option (Map K V w × Bool) :=
  (insertOrAssignImpl c m key value).map fun r => (r.1, r.2.isSome)

def insertOrAssign (m : Map K V w) (key : K) (value : Arg V) : Option (Map K V w × (K × V)) :=
  (insertOrAssignImpl c m key value).bind fun r => r.2.bind fun index =>
    if index < c.bucketCount then (r.1.storage index).map fun e => (r.1, e) else none

/-- `erase(const key_type&)`. -/
def eraseKey (m : Map K V w) (key : K) : Map K V w × Bool :=
  match findExistingIndex c m key with
  | none => (m, false)
  | some index => (destroyAt m index .tombstone, true)

/-- `erase(const_iterator)`: also where the returned iterator stands. -/
def eraseAt (m : Map K V w) (index : ℕ) : Option (Map K V w × ℕ) :=
  if index < c.bucketCount ∧ m.state index = .occupied then
    let m := destroyAt m index .tombstone
    some (m, skipToOccupied c m (index + 1))
  else none

/-- The loop of `erase_if`, with the iterator at `index`. -/
def eraseIfLoop (pred : K × V → Bool) : ℕ → Map K V w → ℕ → ℕ → Option (Map K V w × ℕ)
  | 0, m, index, erased => if index = c.bucketCount then some (m, erased) else none
  | fuel + 1, m, index, erased =>
    if index = c.bucketCount then some (m, erased)
    else
      (m.storage index).bind fun e =>
        if pred e then
          (eraseAt c m index).bind fun r => eraseIfLoop pred fuel r.1 r.2 (erased + 1)
        else eraseIfLoop pred fuel m (skipToOccupied c m (index + 1)) erased

def eraseIf (m : Map K V w) (pred : K × V → Bool) : Option (Map K V w × ℕ) :=
  eraseIfLoop c pred c.bucketCount m (skipToOccupied c m 0) 0

/-- The loop of `clear`, with `left` slots to go from slot `i`. -/
def clearLoop : ℕ → ℕ → Map K V w → Map K V w
  | 0, _, m => m
  | left + 1, i, m =>
    clearLoop left (i + 1) (if m.state i = .occupied then destroyAt m i .empty else m.setState i .empty)

def clear (m : Map K V w) : Map K V w := { clearLoop c.bucketCount 0 m with tombstones := 0 }

/-! ### Two maps -/

/-- One slot of `swap_contents`; `none` if an occupied slot holds no object. -/
def swapSlot (i : ℕ) (m other : Map K V w) : Option (Map K V w × Map K V w) :=
  if m.state i = .occupied ∧ other.state i = .occupied then
    (m.storage i).bind fun e => (other.storage i).map fun e' =>
      (m.construct i e', other.construct i e)
  else if m.state i = .occupied then
    (m.storage i).map fun e =>
      ((m.setState i (other.state i)).destroy i, (other.construct i e).setState i .occupied)
  else if other.state i = .occupied then
    (other.storage i).map fun e =>
      ((m.construct i e).setState i .occupied, (other.setState i (m.state i)).destroy i)
  else some (m.setState i (other.state i), other.setState i (m.state i))

def swapLoop : ℕ → ℕ → Map K V w → Map K V w → Option (Map K V w × Map K V w)
  | 0, _, m, other => some (m, other)
  | left + 1, i, m, other => (swapSlot i m other).bind fun r => swapLoop left (i + 1) r.1 r.2

/-- `swap_contents`: the functors first, the slots one by one, the counters last. -/
def swapContents (m other : Map K V w) : Option (Map K V w × Map K V w) :=
  (swapLoop c.bucketCount 0 { m with hasher := other.hasher, keyEqual := other.keyEqual }
    { other with hasher := m.hasher, keyEqual := m.keyEqual }).map fun r =>
      ({ r.1 with size := r.2.size, tombstones := r.2.tombstones },
        { r.2 with size := r.1.size, tombstones := r.1.tombstones })

/-- `for (item : other) emplace(item.key, item.value)`. -/
def emplaceAll (m : Map K V w) : List (K × V) → Option (Map K V w)
  | [] => some m
  | e :: es => (emplaceSlot c m e.1 (.value e.2)).bind fun r => emplaceAll r.1 es

/-- The copy constructor. -/
def copyConstruct (other : Map K V w) : Option (Map K V w) :=
  emplaceAll c (emptyWith other.hasher other.keyEqual) (items c other)

/-- Copy assignment from another map. -/
def copyAssign (m other : Map K V w) : Option (Map K V w) :=
  emplaceAll c { clear c m with hasher := other.hasher, keyEqual := other.keyEqual } (items c other)

/-- The move constructor: the new map, and what is left of `other`. A functor moved from is equal to
    what it was. -/
def moveConstruct (other : Map K V w) : Option (Map K V w × Map K V w) :=
  (copyConstruct c other).map fun m => (m, clear c other)

/-- Move assignment from another map. -/
def moveAssign (m other : Map K V w) : Option (Map K V w × Map K V w) :=
  (copyAssign c m other).map fun m => (m, clear c other)

end Metl.StaticUnorderedMap
