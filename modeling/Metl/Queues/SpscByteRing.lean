import Metl.Schemes.Wrap
import Metl.Schemes.Run

/-! `metl::spsc_byte_ring`: one producer and one consumer over a ring of bytes.

    Each side mixes two protocols freely: spans into the storage that are filled and committed, or
    inspected and consumed, and the copying `try_write` and `read`. Every load or store of an index
    and every byte written or copied is one step. `stream` collects the bytes the producer supplied,
    at the store that publishes them, and `output` the bytes the consumer took out of the storage, at
    the store that releases them; so their lengths are the true tail and head.

        writable_span:  tail, tail, head ──▶ span         readable_span:  head, tail, head ──▶ span
        commit_write:   tail, head ──▶ check ──▶ tail, store tail
        try_write:      tail, head ──▶ check ──▶ copy* ──▶ store tail
        consume:        tail, head ──▶ check ──▶ store head
        read:           tail, head ──▶ copy* ──▶ store head -/

namespace Metl.SpscByteRing
open Metl.Schemes

inductive ProdRet where
  | span (size : ℕ)
  | committed
  | wrote (ok : Bool)

/-- Where the producer stands; `tail` is a local copy of `tail_`, `base` an offset into the storage. -/
inductive ProdPc (w : ℕ) where
  | idle
  | spanBase
  | spanTail (base : ℕ)
  | spanHead (base : ℕ) (tail : BitVec w)
  | commitTail (count : ℕ)
  | commitHead (count : ℕ) (tail : BitVec w)
  | commitLoad (count : ℕ)
  | commitStore (count : ℕ) (tail : BitVec w)
  | writeTail (source : List UInt8)
  | writeHead (source : List UInt8) (tail : BitVec w)
  | writeCopy (source : List UInt8) (tail : BitVec w) (i : ℕ)
  | returned (r : ProdRet)
  | aborted

inductive ConsRet where
  | span (size : ℕ)
  | consumed
  | read (destination : List UInt8)

/-- Where the consumer stands; `copied` are the bytes already in the destination. -/
inductive ConsPc (w : ℕ) where
  | idle
  | spanBase
  | spanTail (base : ℕ)
  | spanHead (base : ℕ) (tail : BitVec w)
  | consumeTail (count : ℕ)
  | consumeHead (count : ℕ) (tail : BitVec w)
  | consumeStore (count : ℕ) (head : BitVec w)
  | readTail (size : ℕ)
  | readHead (size : ℕ) (tail : BitVec w)
  | readCopy (head : BitVec w) (count : ℕ) (copied : List UInt8)
  | returned (r : ConsRet)
  | aborted

/-- A span handed out earlier; `used` of its bytes were published or released since. -/
structure Span where
  base : ℕ
  size : ℕ
  used : ℕ

structure State (w : ℕ) where
  head : BitVec w
  tail : BitVec w
  storage : ℕ → UInt8
  prod : ProdPc w
  cons : ConsPc w
  writable : Span
  readable : Span
  -- ghosts: bytes published, bytes released, and bytes filled but not committed yet
  stream : List UInt8
  output : List UInt8
  staged : List UInt8
  -- ghosts: what the readable span showed when it was returned, and the bytes published when the
  -- consumer last loaded the tail
  view : List UInt8
  tailSeen : ℕ

variable (r : Ring)

def init : State r.w where
  head := 0
  tail := 0
  storage := fun _ => 0
  prod := .idle
  cons := .idle
  writable := ⟨0, 0, 0⟩
  readable := ⟨0, 0, 0⟩
  stream := []
  output := []
  staged := []
  view := []
  tailSeen := 0

/-- `Capacity - (tail - head)`, in word arithmetic. -/
def freeTotal (tail head : BitVec r.w) : ℕ := (BitVec.ofNat r.w r.capacity - (tail - head)).toNat

/-- Bytes from the slot of an index to the physical end of the storage. -/
def toEnd (i : BitVec r.w) : ℕ := r.capacity - r.slot i

def writableRun (tail head : BitVec r.w) : ℕ := min (freeTotal r tail head) (toEnd r tail)

def readableRun (tail head : BitVec r.w) : ℕ := min (tail - head).toNat (toEnd r head)

/-- The bytes of the storage at `count` indices from `head` on. -/
def stored (storage : ℕ → UInt8) (head : BitVec r.w) (count : ℕ) : List UInt8 :=
  (List.range count).map fun i => storage (r.slot (head + BitVec.ofNat r.w i))

/-- `tail_.store(tail + count)`, which publishes `bytes`. -/
def State.publish {w : ℕ} (s : State w) (tail : BitVec w) (count : ℕ) (bytes : List UInt8) : State w :=
  { s with tail := tail + BitVec.ofNat w count, stream := s.stream ++ bytes,
           staged := s.staged.drop count,
           writable := { s.writable with used := s.writable.used + count } }

/-- `head_.store(head + count)`, which releases `bytes`. -/
def State.release {w : ℕ} (s : State w) (head : BitVec w) (count : ℕ) (bytes : List UInt8) : State w :=
  { s with head := head + BitVec.ofNat w count, output := s.output ++ bytes,
           readable := { s.readable with used := s.readable.used + count } }

/-- One step of the producer's call. -/
def produce (s : State r.w) : Option (State r.w) :=
  match s.prod with
  | .idle => none
  | .returned _ => none
  | .aborted => none
  | .spanBase => some { s with prod := .spanTail (r.slot s.tail) }
  | .spanTail base => some { s with prod := .spanHead base s.tail }
  | .spanHead base tail =>
    let size := writableRun r tail s.head
    some { s with prod := .returned (.span size), writable := ⟨base, size, 0⟩ }
  | .commitTail count => some { s with prod := .commitHead count s.tail }
  | .commitHead count tail =>
    if count ≤ writableRun r tail s.head then
      some { s with prod := .commitLoad count }
    else some { s with prod := .aborted }
  | .commitLoad count => some { s with prod := .commitStore count s.tail }
  | .commitStore count tail =>
    some { s.publish tail count (s.staged.take count) with prod := .returned .committed }
  | .writeTail source => some { s with prod := .writeHead source s.tail }
  | .writeHead source tail =>
    if freeTotal r tail s.head < source.length then
      some { s with prod := .returned (.wrote false) }
    else some { s with prod := .writeCopy source tail 0 }
  | .writeCopy source tail i =>
    match source[i]? with
    | some b =>
      some { s with storage := Function.update s.storage (r.slot (tail + BitVec.ofNat r.w i)) b,
                    prod := .writeCopy source tail (i + 1) }
    | none => some { s.publish tail source.length source with prod := .returned (.wrote true) }

/-- One step of the consumer's call. -/
def consume (s : State r.w) : Option (State r.w) :=
  match s.cons with
  | .idle => none
  | .returned _ => none
  | .aborted => none
  | .spanBase => some { s with cons := .spanTail (r.slot s.head) }
  | .spanTail base => some { s with cons := .spanHead base s.tail, tailSeen := s.stream.length }
  | .spanHead base tail =>
    let size := readableRun r tail s.head
    some { s with cons := .returned (.span size), readable := ⟨base, size, 0⟩,
                  view := (List.range size).map fun k => s.storage (base + k) }
  | .consumeTail count =>
    some { s with cons := .consumeHead count s.tail, tailSeen := s.stream.length }
  | .consumeHead count tail =>
    if count ≤ (tail - s.head).toNat then some { s with cons := .consumeStore count s.head }
    else some { s with cons := .aborted }
  | .consumeStore count head =>
    some { s.release head count (stored r s.storage head count) with cons := .returned .consumed }
  | .readTail size => some { s with cons := .readHead size s.tail, tailSeen := s.stream.length }
  | .readHead size tail =>
    some { s with cons := .readCopy s.head (min (tail - s.head).toNat size) [] }
  | .readCopy head count copied =>
    if copied.length < count then
      let b := s.storage (r.slot (head + BitVec.ofNat r.w copied.length))
      some { s with cons := .readCopy head count (copied ++ [b]) }
    else some { s.release head count copied with cons := .returned (.read copied) }

/-- The calls of both sides, their steps, and a byte written into the held writable span at offset `j`
    past what is published; the span is filled from its front. -/
inductive Act where
  | writableSpan
  | fill (j : ℕ) (b : UInt8)
  | commitWrite (count : ℕ)
  | tryWrite (source : List UInt8)
  | produce
  | readableSpan
  | consumeBytes (count : ℕ)
  | read (size : ℕ)
  | consume

def ProdPc.ready {w : ℕ} : ProdPc w → Bool
  | .idle => true
  | .returned _ => true
  | _ => false

def ConsPc.ready {w : ℕ} : ConsPc w → Bool
  | .idle => true
  | .returned _ => true
  | _ => false

/-- Write `b` at offset `j` of the filled bytes, or right after them. -/
def fillAt (staged : List UInt8) (j : ℕ) (b : UInt8) : List UInt8 :=
  staged.take j ++ b :: staged.drop (j + 1)

def step (s : State r.w) : Act → Option (State r.w)
  | .writableSpan => if s.prod.ready then some { s with prod := .spanBase } else none
  | .fill j b =>
    if s.prod.ready ∧ j ≤ s.staged.length ∧ s.writable.used + j < s.writable.size then
      some { s with storage := Function.update s.storage (s.writable.base + s.writable.used + j) b,
                    staged := fillAt s.staged j b }
    else none
  | .commitWrite count =>
    -- the caller commits at most what it filled
    if s.prod.ready ∧ count ≤ s.staged.length then some { s with prod := .commitTail count } else none
  | .tryWrite source => if s.prod.ready then some { s with prod := .writeTail source } else none
  | .produce => produce r s
  | .readableSpan => if s.cons.ready then some { s with cons := .spanBase } else none
  | .consumeBytes count => if s.cons.ready then some { s with cons := .consumeTail count } else none
  | .read size => if s.cons.ready then some { s with cons := .readTail size } else none
  | .consume => consume r s

/-- The storage index a step writes to. -/
def target (s : State r.w) : Act → Option ℕ
  | .fill j _ => some (s.writable.base + s.writable.used + j)
  | .produce =>
    match s.prod with
    | .writeCopy source tail i =>
      if i < source.length then some (r.slot (tail + BitVec.ofNat r.w i)) else none
    | _ => none
  | _ => none

/-- Bytes the consumer has copied out in a `read` that has not returned yet. -/
def ConsPc.copied {w : ℕ} : ConsPc w → List UInt8
  | .readCopy _ _ copied => copied
  | _ => []

end Metl.SpscByteRing
