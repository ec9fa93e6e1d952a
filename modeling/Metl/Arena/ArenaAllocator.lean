import Metl.Schemes.Align
import Metl.Schemes.Codec
import Metl.Schemes.Run

/-! `metl::arena_allocator`: a bump allocator that unwinds in LIFO order.

    Every allocation pushes a record behind its payload, in the same bytes, and `rewind` walks the
    records back. Constructors and destructors call back into the arena, so the calls form a stack;
    a destructor that is running has its record marked, and a walk that meets the mark stops there.

        0        prev    pay         pay + size   stop
        │ … older │ pad  │  payload   │  record   │ … free
                                       previous_offset, payload_offset, destroy

    A step is the code between two points at which user code runs. -/

namespace Metl.ArenaAllocator
open Metl.Schemes

/-- `allocation_record`; a null `destroy` is 0. -/
structure Record (w : ℕ) where
  previousOffset : BitVec w
  payloadOffset : BitVec w
  destroy : BitVec w
  deriving DecidableEq

/-- The word width, the capacity, where the storage lies, and the layout of a record. -/
structure Cfg where
  w : ℕ
  capacity : ℕ
  base : ℕ
  record : Codec (Record w)
  capacity_lt : capacity < 2 ^ w
  fits : base + capacity ≤ 2 ^ w

structure Arena where
  offset : ℕ
  storage : ℕ → UInt8

variable (c : Cfg)

/-- `payload_offset` of a record whose destructor is running. -/
def destroying : BitVec c.w := BitVec.allOnes c.w

def storeRecord (storage : ℕ → UInt8) (endOffset : ℕ) (r : Record c.w) : ℕ → UInt8 :=
  c.record.store storage (endOffset - c.record.size) r

def loadRecord (storage : ℕ → UInt8) (endOffset : ℕ) : Record c.w :=
  c.record.load storage (endOffset - c.record.size)

/-- What a request comes to: the guard on the alignment fails, null, or a payload. -/
inductive Alloc where
  | hardened
  | null
  | block (payloadOffset : ℕ) (a : Arena)

/-- `allocate_impl()`. Addresses are words and may wrap; offsets never leave the storage. -/
def allocateImpl (a : Arena) (bytes alignment destroy : BitVec c.w) : Alloc :=
  if isPow2 alignment then
    if bytes = 0 then .null
    else if c.capacity = 0 then .null
    else
      let current := BitVec.ofNat c.w c.base + BitVec.ofNat c.w a.offset
      let padding := (alignUp current alignment - current).toNat
      let space := c.capacity - a.offset
      if space < padding then .null
      else if space - padding < bytes.toNat then .null
      else if space - padding - bytes.toNat < c.record.size then .null
      else
        let payloadOffset := a.offset + padding
        let nextOffset := a.offset + (padding + bytes.toNat + c.record.size)
        .block payloadOffset ⟨nextOffset, storeRecord c a.storage nextOffset
          ⟨BitVec.ofNat c.w a.offset, BitVec.ofNat c.w payloadOffset, destroy⟩⟩
  else .hardened

/-! ### The machine of nested calls -/

/-- What a block holds: plain bytes, an object under construction, one with a registered destructor,
    or one whose destructor runs. -/
inductive Kind (w : ℕ) where
  | raw
  | building
  | object (destroy : BitVec w)
  | dying
  deriving DecidableEq

/-- A block handed out, with its padding and its record; `birth` numbers the allocations. -/
structure Block (w : ℕ) where
  prev : ℕ
  pay : ℕ
  size : ℕ
  stop : ℕ
  alignment : ℕ
  birth : ℕ
  kind : Kind w
  deriving DecidableEq

/-- A `mark_type`, and the number of allocations made before it. -/
structure Mark where
  offset : ℕ
  time : ℕ
  deriving DecidableEq

/-- The loop of a `rewind`; a destructor running inside such a loop; the rest of that loop's body,
    below the `rewind` it calls; a constructor. `below` notes the blocks up to the object destroyed. -/
inductive Frame (w : ℕ) where
  | loop (target : ℕ)
  | dtor (recordEnd prev target : ℕ) (below : List (Block w))
  | after (prev target : ℕ) (below : List (Block w))
  | ctor (recordEnd : ℕ) (destroy : BitVec w)

/-- The arena and the running calls. Ghosts: the allocated blocks, newest first, the objects whose
    constructor finished, the objects destroyed, and the marks no rollback has invalidated. -/
structure State (w : ℕ) where
  arena : Arena
  stack : List (Frame w)
  stopped : Bool
  blocks : List (Block w)
  clock : ℕ
  built : List ℕ
  destroyed : List ℕ
  marks : List Mark

inductive Act (w : ℕ) where
  | allocate (bytes alignment : BitVec w)
  | emplace (bytes alignment destroy : BitVec w)
  | finish
  | throw
  | write (i : ℕ) (v : UInt8)
  | mark
  | rewind (m : Mark)
  | reset
  | endDtor
  | tick

def State.init (storage : ℕ → UInt8) : State c.w := ⟨⟨0, storage⟩, [], false, [], 0, [], [], []⟩

variable {c}

/-- The main program, a constructor or a destructor runs, rather than the loop of a `rewind`. -/
def userRuns : List (Frame c.w) → Bool
  | [] => true
  | .dtor .. :: _ => true
  | .ctor .. :: _ => true
  | _ => false

/-- Constructors allocate but do not roll back. -/
def mayRewind : List (Frame c.w) → Bool
  | [] => true
  | .dtor .. :: _ => true
  | _ => false

/-- Note the kind of the block that ends at `stop`. -/
def setKind (stop : ℕ) (kind : Kind c.w) : List (Block c.w) → List (Block c.w)
  | [] => []
  | b :: bs => if b.stop = stop then { b with kind := kind } :: bs else b :: setKind stop kind bs

variable (c)

/-- The state after a request, and the payload's offset unless it is null. -/
def request (s : State c.w) (bytes alignment : BitVec c.w) (kind : Kind c.w) : State c.w × Option ℕ :=
  match allocateImpl c s.arena bytes alignment 0 with
  | .hardened => ({ s with stopped := true }, none)
  | .null => (s, none)
  | .block pay a =>
    let b := ⟨s.arena.offset, pay, bytes.toNat, a.offset, alignment.toNat, s.clock, kind⟩
    ({ s with arena := a, blocks := b :: s.blocks, clock := s.clock + 1 }, some pay)

/-- `try_allocate()`. -/
def tryAllocate (s : State c.w) (bytes alignment : BitVec c.w) : State c.w × Option ℕ :=
  request c s bytes alignment .raw

/-- `try_emplace()` up to the constructor. -/
def tryEmplace (s : State c.w) (bytes alignment destroy : BitVec c.w) : State c.w × Option ℕ :=
  if c.capacity < bytes.toNat + c.record.size then (s, none)
  else
    match request c s bytes alignment .building with
    | (s', some pay) => ({ s' with stack := .ctor s'.arena.offset destroy :: s'.stack }, some pay)
    | (s', none) => (s', none)

/-- `try_emplace()` after the constructor: the destructor goes into this allocation's own record. -/
def finish (s : State c.w) (recordEnd : ℕ) (destroy : BitVec c.w) (rest : List (Frame c.w)) : State c.w :=
  let record := loadRecord c s.arena.storage recordEnd
  { s with
    arena := { s.arena with
      storage := storeRecord c s.arena.storage recordEnd { record with destroy := destroy } }
    stack := rest
    blocks := setKind recordEnd (.object destroy) s.blocks
    built := s.built ++ ((s.blocks.find? fun b => b.stop = recordEnd).map Block.birth).toList }

/-- A call of `rewind()`, whose assertion compares the target with the top. -/
def startRewind (s : State c.w) (target : ℕ) (stack : List (Frame c.w)) : State c.w :=
  if target ≤ s.arena.offset then { s with stack := .loop target :: stack }
  else { s with stopped := true }

/-- `offset_ = previous_offset`: what lies above is released, and marks up there end. -/
def release (s : State c.w) (prev : ℕ) (stack : List (Frame c.w)) : State c.w :=
  { s with
    arena := { s.arena with offset := prev }
    stack := stack
    blocks := s.blocks.dropWhile fun b => decide (prev < b.stop)
    marks := s.marks.filter fun m => decide (m.offset ≤ prev) }

/-- One round of the loop of `rewind()`. Without an object where the record says, none. -/
def loopStep (s : State c.w) (target : ℕ) (rest : List (Frame c.w)) : Option (State c.w) :=
  if s.arena.offset ≤ target then some { s with stack := rest }
  else
    let record := loadRecord c s.arena.storage s.arena.offset
    let prev := record.previousOffset.toNat
    if prev < target then some { s with stopped := true }
    else if record.destroy ≠ 0 then
      (s.blocks.find? fun b =>
          decide (b.pay = record.payloadOffset.toNat ∧ b.kind = .object record.destroy)).map fun b =>
        let below := setKind s.arena.offset .dying s.blocks
        { s with
          arena := { s.arena with
            storage := storeRecord c s.arena.storage s.arena.offset
              { record with destroy := 0, payloadOffset := destroying c } }
          stack := .dtor s.arena.offset prev target below :: rest
          blocks := below
          destroyed := s.destroyed ++ [b.birth] }
    else if record.payloadOffset = destroying c then some { s with stack := rest }
    else some (release c s prev (.loop target :: rest))

/-- The steps the arena itself takes, in a loop or after the `rewind` a loop has called. -/
def tick (s : State c.w) : Option (State c.w) :=
  match s.stack with
  | .loop target :: rest => loopStep c s target rest
  | .after prev target _ :: rest => some (release c s prev (.loop target :: rest))
  | _ => none

/-- The destructor returned: `rewind` to the record, whose storage goes last. -/
def endDtor (s : State c.w) : Option (State c.w) :=
  match s.stack with
  | .dtor recordEnd prev target below :: rest =>
    some (startRewind c s recordEnd (.after prev target below :: rest))
  | _ => none

def act (s : State c.w) : Act c.w → Option (State c.w)
  | .allocate bytes alignment =>
    if userRuns s.stack then some (tryAllocate c s bytes alignment).1 else none
  | .emplace bytes alignment destroy =>
    -- the address of a function is not null
    if userRuns s.stack ∧ destroy ≠ 0 then some (tryEmplace c s bytes alignment destroy).1 else none
  | .finish =>
    match s.stack with
    | .ctor recordEnd destroy :: rest => some (finish c s recordEnd destroy rest)
    | _ => none
  | .throw =>
    match s.stack with
    | .ctor recordEnd _ :: rest =>
      some { s with stack := rest, blocks := setKind recordEnd .raw s.blocks }
    | _ => none
  | .write i v =>
    -- the owner of a block writes into it
    if userRuns s.stack ∧ ∃ b ∈ s.blocks, b.pay ≤ i ∧ i < b.pay + b.size then
      some { s with arena := { s.arena with storage := Function.update s.arena.storage i v } }
    else none
  | .mark =>
    if userRuns s.stack then some { s with marks := ⟨s.arena.offset, s.clock⟩ :: s.marks } else none
  | .rewind m =>
    if mayRewind s.stack ∧ m ∈ s.marks then some (startRewind c s m.offset s.stack) else none
  | .reset => if mayRewind s.stack then some (startRewind c s 0 s.stack) else none
  | .endDtor => endDtor c s
  | .tick => tick c s

def step (s : State c.w) (a : Act c.w) : Option (State c.w) := if s.stopped then none else act c s a

end Metl.ArenaAllocator
