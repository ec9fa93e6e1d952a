import Metl.Schemes.Storage

/-! `flat_map` and `flat_set`: sorted entries in one run of slots.

        slot    0    1    2    3    4
                a <  c <  d    ·    ·        size 3, sorted by the comparator

    An insertion searches, builds the entry aside and shifts the tail right; an erase moves the entry
    out and closes the gap. Every copy, move, assignment and comparison is a call of user code: a
    script says of each whether it throws, and what a move that succeeds leaves of its source. An
    entry of a map moves its key before its value; an entry of a set is its key. -/

namespace Metl.FlatMap

open Metl.Schemes Metl.Schemes.Storage

structure Entry (K V : Type) where
  key : K
  value : V
  deriving DecidableEq, Repr

/-- What a move leaves of its source. -/
structure Left (K V : Type) where
  key : K → K
  value : V → V

inductive Call (K V : Type) where
  | throws
  | leaves (left : Left K V)

/-- What the code asks of the types, and which of the two containers it is. -/
structure Traits where
  isMap : Bool
  assignable : Bool
  nothrowMoveKey : Bool
  nothrowMoveValue : Bool
  nothrowSwapKey : Bool
  nothrowSwapValue : Bool
  nothrowSwapCompare : Bool
  noExceptions : Bool

/-- `is_nothrow_move_constructible_v<value_type>` -/
def Traits.relocateCannotThrow (T : Traits) : Bool :=
  T.nothrowMoveKey && (!T.isMap || T.nothrowMoveValue)

def Traits.swapCannotThrow (T : Traits) : Bool :=
  T.relocateCannotThrow && T.nothrowSwapKey && (!T.isMap || T.nothrowSwapValue) && T.nothrowSwapCompare

/-- `size_` and `comp_` of every container, and the calls of user code to come. -/
structure Regs (C K V : Type) where
  size : C → ℕ
  less : C → K → K → Bool
  script : List (Call K V)

/-- Slot `n` of container `c` is the place `(c, n)`. -/
abbrev World (C K V : Type) := Storage (C × ℕ) (Entry K V) (Regs C K V)

variable {C K V : Type}

def withScript (w : World C K V) (script : List (Call K V)) : World C K V :=
  { w with regs := { w.regs with script := script } }

/-- A call of user code; one declared not to throw does not. -/
def call (T : Traits) (nothrow : Bool) : Prog (World C K V) (Left K V) := fun w =>
  match w.regs.script with
  | [] => .ret ⟨id, id⟩ w
  | .leaves left :: rest => .ret left (withScript w rest)
  | .throws :: rest =>
    if nothrow || T.noExceptions then .ret ⟨id, id⟩ (withScript w rest)
    else .thrown (withScript w rest)

/-- The entry `target` after its key was assigned from that of `source`; an entry of a set is its key. -/
def keyed (T : Traits) (target source : Entry K V) : Entry K V :=
  ⟨source.key, if T.isMap then target.value else source.value⟩

/-- The part of an operation on entries that concerns mapped values. -/
def mapped (T : Traits) (m : Prog (World C K V) Unit) : Prog (World C K V) Unit :=
  if T.isMap then m else pure ()

def sizeOf (c : C) : Prog (World C K V) ℕ := do
  let r ← getRegs
  pure (r.size c)

/-- `comp_(a, b)` -/
def compare (T : Traits) (c : C) (a b : K) : Prog (World C K V) Bool := do
  let _ ← call T false
  let r ← getRegs
  pure (r.less c a b)

/-- A key and a value constructed from the caller's arguments, or moved between locals. -/
def moveLocal (T : Traits) (nothrowKey nothrowValue : Bool) : Prog (World C K V) Unit := do
  let _ ← call T nothrowKey
  mapped T do
    let _ ← call T nothrowValue
    pure ()

variable [DecidableEq C]

def setSize (c : C) (n : ℕ) : Prog (World C K V) Unit :=
  modifyRegs fun r => { r with size := Function.update r.size c n }

/-! ### Entries -/

def moveKey (T : Traits) (c : C) (n : ℕ) : Prog (World C K V) Unit := do
  let left ← call T T.nothrowMoveKey
  let e ← readAt (c, n)
  writeAt (c, n) { e with key := left.key e.key }

def moveValue (T : Traits) (c : C) (n : ℕ) : Prog (World C K V) Unit := do
  let left ← call T T.nothrowMoveValue
  let e ← readAt (c, n)
  writeAt (c, n) { e with value := left.value e.value }

/-- `value_type(static_cast<value_type&&>(data()[n]))`: the key first, then the value. -/
def moveEntry (T : Traits) (c : C) (n : ℕ) : Prog (World C K V) (Entry K V) := do
  let e ← readAt (c, n)
  moveKey T c n
  mapped T (moveValue T c n)
  pure e

def assignKey (T : Traits) (c : C) (i j : ℕ) : Prog (World C K V) Unit := do
  let left ← call T false
  let source ← readAt (c, j)
  let target ← readAt (c, i)
  writeAt (c, j) { source with key := left.key source.key }
  writeAt (c, i) (keyed T target source)

def assignMapped (T : Traits) (c : C) (i j : ℕ) : Prog (World C K V) Unit := do
  let left ← call T false
  let source ← readAt (c, j)
  let target ← readAt (c, i)
  writeAt (c, j) { source with value := left.value source.value }
  writeAt (c, i) { target with value := source.value }

/-- `data()[i] = static_cast<value_type&&>(data()[j])` -/
def assignEntry (T : Traits) (c : C) (i j : ℕ) : Prog (World C K V) Unit := do
  assignKey T c i j
  mapped T (assignMapped T c i j)

/-- `data()[i] = static_cast<value_type&&>(entry)` -/
def assignLocal (T : Traits) (c : C) (i : ℕ) (entry : Entry K V) : Prog (World C K V) Unit := do
  let _ ← call T false
  let target ← readAt (c, i)
  writeAt (c, i) (keyed T target entry)
  mapped T do
    let _ ← call T false
    let target ← readAt (c, i)
    writeAt (c, i) { target with value := entry.value }

/-- `::new (storage_.slot(i)) value_type(static_cast<value_type&&>(data()[j]))` of container `d`. -/
def constructFrom (T : Traits) (c : C) (i : ℕ) (d : C) (j : ℕ) : Prog (World C K V) Unit := do
  let e ← moveEntry T d j
  constructAt (c, i) e

/-! ### Search -/

/-- The loop of `lower_bound_index`; every round at least halves `count`. -/
def lowerBoundLoop (T : Traits) (c : C) (key : K) : ℕ → ℕ → ℕ → Prog (World C K V) ℕ
  | _, first, 0 => pure first
  | 0, _, _ + 1 => Prog.invalid
  | fuel + 1, first, count + 1 => do
    let half := (count + 1) / 2
    let e ← readAt (c, first + half)
    let before ← compare T c e.key key
    if before then lowerBoundLoop T c key fuel (first + half + 1) (count + 1 - (half + 1))
    else lowerBoundLoop T c key fuel first half

def lowerBoundIndex (T : Traits) (c : C) (key : K) : Prog (World C K V) ℕ := do
  let s ← sizeOf c
  lowerBoundLoop T c key s 0 s

/-- The position of `key`, and whether an equivalent key is there. -/
def locate (T : Traits) (c : C) (key : K) : Prog (World C K V) (ℕ × Bool) := do
  let index ← lowerBoundIndex T c key
  let s ← sizeOf c
  if index < s then
    let e ← readAt (c, index)
    let after ← compare T c key e.key
    pure (index, !after)
  else pure (index, false)

/-! ### Removal -/

/-- `clear`, from the back: `n` elements are left. -/
def clearLoop (c : C) : ℕ → Prog (World C K V) Unit
  | 0 => pure ()
  | n + 1 => do
    setSize c n
    destroyAt (c, n)
    clearLoop c n

def clear (c : C) : Prog (World C K V) Unit := do
  let s ← sizeOf c
  clearLoop c s

/-- Destroys `n` elements from slot `j` on. -/
def destroyFrom (c : C) (j : ℕ) : ℕ → Prog (World C K V) Unit
  | 0 => pure ()
  | n + 1 => do
    destroyAt (c, j)
    destroyFrom c (j + 1) n

/-- The handlers that find slot `i` dead: the other slots below `n` are destroyed, and the container is
    empty. -/
def abandon (c : C) (i n : ℕ) : Prog (World C K V) Unit := do
  destroyFrom c 0 i
  destroyFrom c (i + 1) (n - (i + 1))
  setSize c 0

/-- The loop of `erase_at`, with `r` elements left behind the gap at `i`. -/
def closeGap (T : Traits) (c : C) (s : ℕ) : ℕ → ℕ → Prog (World C K V) Unit
  | 0, _ => pure ()
  | r + 1, i => do
    let relocate := if T.relocateCannotThrow then constructFrom T c i c (i + 1)
      else (constructFrom T c i c (i + 1)).onThrow (abandon c i s)
    relocate
    destroyAt (c, i + 1)
    closeGap T c s r (i + 1)

def eraseAt (T : Traits) (c : C) (index : ℕ) : Prog (World C K V) Unit := do
  -- `leaving`: the move out is not guarded
  let _ ← moveEntry T c index
  destroyAt (c, index)
  let s ← sizeOf c
  closeGap T c s (s - 1 - index) index
  setSize c (s - 1)

/-! ### Insertion -/

/-- `for (i = size_ - 2; i > index; --i) data()[i] = move(data()[i - 1])` -/
def shiftLoop (T : Traits) (c : C) (index : ℕ) : ℕ → Prog (World C K V) Unit
  | 0 => pure ()
  | i + 1 =>
    if index < i + 1 then do
      assignEntry T c (i + 1) i
      shiftLoop T c index i
    else pure ()

/-- `shift_right_from`: slot `i` is the next to be built, from the one before it. -/
def shiftRightFrom (T : Traits) (c : C) (index s : ℕ) : ℕ → Prog (World C K V) Unit
  | 0 => pure ()
  | i + 1 =>
    if index < i + 1 then do
      (constructFrom T c (i + 1) c i).onThrow (abandon c (i + 1) (s + 1))
      destroyAt (c, i)
      shiftRightFrom T c index s i
    else pure ()

def insertShifting (T : Traits) (c : C) (index : ℕ) (entry : Entry K V) : Prog (World C K V) Unit := do
  let s ← sizeOf c
  if T.assignable then
    if index = s then
      moveLocal T T.nothrowMoveKey T.nothrowMoveValue
      constructAt (c, s) entry
      setSize c (s + 1)
    else
      -- the first move is not guarded
      constructFrom T c s c (s - 1)
      setSize c (s + 1)
      Prog.onThrow (do
          shiftLoop T c index (s - 1)
          assignLocal T c index entry)
        (clear c)
  else
    shiftRightFrom T c index s s
    Prog.onThrow (do
        moveLocal T T.nothrowMoveKey T.nothrowMoveValue
        constructAt (c, index) entry)
      (abandon c index (s + 1))
    setSize c (s + 1)

def tryInsertAt (T : Traits) (capacity : ℕ) (c : C) (index : ℕ) (key : K) (value : V) :
    Prog (World C K V) Bool := do
  let s ← sizeOf c
  if s = capacity then pure false
  else
    moveLocal T false false
    insertShifting T c index ⟨key, value⟩
    pure true

/-! ### `swap` -/

/-- `std::swap` of a part of the entries in slot `n`: a move construction and two move assignments. A
    move leaves something of its source, and an assignment takes the part over. -/
def swapPart (T : Traits) (nothrow : Bool) (leave : Left K V → Entry K V → Entry K V)
    (take : Entry K V → Entry K V → Entry K V) (c d : C) (n : ℕ) : Prog (World C K V) Unit := do
  let left ← call T nothrow
  let a ← readAt (c, n)
  writeAt (c, n) (leave left a)
  let left ← call T nothrow
  let b ← readAt (d, n)
  writeAt (d, n) (leave left b)
  writeAt (c, n) (take a b)
  let _ ← call T nothrow
  writeAt (d, n) (take b a)

def swapKeys (T : Traits) (c d : C) (n : ℕ) : Prog (World C K V) Unit :=
  swapPart T T.nothrowSwapKey (fun left e => { e with key := left.key e.key }) (keyed T) c d n

def swapValues (T : Traits) (c d : C) (n : ℕ) : Prog (World C K V) Unit :=
  swapPart T T.nothrowSwapValue (fun left e => { e with value := left.value e.value })
    (fun target source => { target with value := source.value }) c d n

/-- The elements both hold, from slot `i` on. -/
def swapCommon (T : Traits) (c d : C) : ℕ → ℕ → Prog (World C K V) Unit
  | 0, _ => pure ()
  | r + 1, i => do
    swapKeys T c d i
    mapped T (swapValues T c d i)
    swapCommon T c d r (i + 1)

/-- The longer one's remaining elements, counted into `shorter` as each exists. -/
def moveTail (T : Traits) (shorter longer : C) : ℕ → ℕ → Prog (World C K V) Unit
  | 0, _ => pure ()
  | r + 1, i => do
    constructFrom T shorter i longer i
    setSize shorter (i + 1)
    moveTail T shorter longer r (i + 1)

/-- `while (longer.size_ > common)`: `r` elements too many. -/
def dropTail (longer : C) (common : ℕ) : ℕ → Prog (World C K V) Unit
  | 0 => pure ()
  | r + 1 => do
    setSize longer (common + r)
    destroyAt (longer, common + r)
    dropTail longer common r

def swapCompare (T : Traits) (c d : C) : Prog (World C K V) Unit := do
  let _ ← call T T.nothrowSwapCompare
  modifyRegs fun r =>
    { r with less := Function.update (Function.update r.less c (r.less d)) d (r.less c) }

def swapContents (T : Traits) (c d : C) : Prog (World C K V) Unit := do
  swapCompare T c d
  let m ← sizeOf c
  let n ← sizeOf d
  swapCommon T c d (min m n) 0
  if m < n then
    moveTail T c d (n - m) m
    dropTail d m (n - m)
  else if n < m then
    moveTail T d c (m - n) n
    dropTail c n (m - n)
  else pure ()

def swap (T : Traits) (c d : C) : Prog (World C K V) Unit :=
  if c = d then pure ()
  else if T.swapCannotThrow then swapContents T c d
  else
    Prog.onThrow (swapContents T c d) do
      clear c
      clear d

/-! ### The operations -/

inductive Op (C K V : Type) where
  | tryEmplace (c : C) (key : K) (value : V)
  | emplace (c : C) (key : K) (value : V)
  | tryInsertOrAssign (c : C) (key : K) (value : V)
  | insertOrAssign (c : C) (key : K) (value : V)
  | eraseKey (c : C) (key : K)
  | eraseAt (c : C) (index : ℕ)
  | swap (c d : C)

/-- `data()[index].value = std::forward<V>(value)` -/
def assignValue (T : Traits) (c : C) (index : ℕ) (value : V) : Prog (World C K V) Unit := do
  let _ ← call T false
  let e ← readAt (c, index)
  writeAt (c, index) { e with value := value }

def harden (b : Bool) : Prog (World C K V) Unit := if b then pure () else Prog.stop

/-- The operations; a result that is not a flag is read as `true`. -/
def exec (T : Traits) (capacity : ℕ) : Op C K V → Prog (World C K V) Bool
  | .tryEmplace c key value => do
    let found ← locate T c key
    if found.2 then pure false else tryInsertAt T capacity c found.1 key value
  | .emplace c key value => do
    let found ← locate T c key
    harden !found.2
    let inserted ← tryInsertAt T capacity c found.1 key value
    harden inserted
    pure true
  | .tryInsertOrAssign c key value => do
    let found ← locate T c key
    if found.2 then
      assignValue T c found.1 value
      pure true
    else tryInsertAt T capacity c found.1 key value
  | .insertOrAssign c key value => do
    let found ← locate T c key
    if found.2 then
      assignValue T c found.1 value
      pure true
    else
      let stored ← tryInsertAt T capacity c found.1 key value
      harden stored
      pure true
  | .eraseKey c key => do
    let found ← locate T c key
    if found.2 then
      eraseAt T c found.1
      pure true
    else pure false
  | .eraseAt c index => do
    let s ← sizeOf c
    harden (decide (index < s))
    eraseAt T c index
    pure true
  | .swap c d => do
    swap T c d
    pure true

/-- One operation of a program, with what its calls of user code do. -/
structure Action (C K V : Type) where
  op : Op C K V
  script : List (Call K V)

/-- Empty containers with the given comparators. -/
def init (less : C → K → K → Bool) : World C K V :=
  ⟨fun _ => none, 0, [], ⟨fun _ => 0, less, []⟩⟩

/-- The program goes on after an exception, but not after a stop. -/
def step (T : Traits) (capacity : ℕ) (w : World C K V) (a : Action C K V) : Option (World C K V) :=
  match exec T capacity a.op (withScript w a.script) with
  | .ret _ w' => some w'
  | .thrown w' => some w'
  | .stopped => none
  | .undefined => none

end Metl.FlatMap
