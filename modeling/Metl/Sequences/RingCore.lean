import Metl.Schemes.Storage

/-! `ring_core`, and the two containers over it: `ring_buffer` and `fixed_deque`.

        slot     0   1   2   3   4          head_ 3, size_ 4
                 c   d   ·   a   b          logical order a b c d

    The elements stand around a circle of inline slots. An insertion claims its slot before the
    element constructor runs and gives it back if that throws; a removal unlinks the element before it
    destroys it. The constructor of an element is user code: a program that runs and then says what the
    element is. `ring_buffer` adds `push_overwrite`, `fixed_deque` the front insertions and
    `pop_back`. -/

namespace Metl.RingCore

open Metl.Schemes Metl.Schemes.Storage

/-- `Capacity`, whether `METL_ASSERT` is compiled in, whether `T` is move-constructible, and what a move
    leaves of an element. -/
structure Params (A : Type) where
  capacity : ℕ
  checked : Bool
  movable : Bool
  moved : A → A

/-- `head_` and `size_` of every container. -/
structure Regs (C : Type) where
  head : C → ℕ
  size : C → ℕ

/-- Slot `n` of container `c` is the place `(c, n)`. -/
abbrev World (C A : Type) := Storage (C × ℕ) A (Regs C)

/-! ### Indices -/

def powerOfTwoCapacity (capacity : ℕ) : Bool :=
  decide (capacity ≠ 0 ∧ capacity &&& (capacity - 1) = 0)

def advance (capacity index : ℕ) : ℕ :=
  if capacity = 0 then 0
  else if powerOfTwoCapacity capacity then (index + 1) &&& (capacity - 1)
  else if index + 1 = capacity then 0 else index + 1

def retreat (capacity index : ℕ) : ℕ :=
  if capacity = 0 then 0
  else if index = 0 then capacity - 1 else index - 1

def physicalIndex (capacity head logicalIndex : ℕ) : ℕ :=
  if capacity = 0 then 0
  else if powerOfTwoCapacity capacity then (head + logicalIndex) &&& (capacity - 1)
  else if head + logicalIndex ≥ capacity then head + logicalIndex - capacity
  else head + logicalIndex

variable {C A : Type}

def headOf (c : C) : Prog (World C A) ℕ := do
  let r ← getRegs
  pure (r.head c)

def sizeOf (c : C) : Prog (World C A) ℕ := do
  let r ← getRegs
  pure (r.size c)

/-- `physical_index(logical_index)` of container `c` -/
def physicalIndexOf (P : Params A) (c : C) (logicalIndex : ℕ) : Prog (World C A) ℕ := do
  let head ← headOf c
  pure (physicalIndex P.capacity head logicalIndex)

def harden (b : Bool) : Prog (World C A) Unit := if b then pure () else Prog.stop

/-- `METL_ASSERT` -/
def assert (P : Params A) (b : Bool) : Prog (World C A) Unit :=
  if P.checked then harden b else pure ()

/-- The slot `front()` refers to. -/
def front (P : Params A) (c : C) : Prog (World C A) ℕ := do
  let s ← sizeOf c
  assert P (decide (0 < s))
  headOf c

/-- The slot `back()` refers to. -/
def back (P : Params A) (c : C) : Prog (World C A) ℕ := do
  let s ← sizeOf c
  assert P (decide (0 < s))
  physicalIndexOf P c (s - 1)

/-- The slot `at(index)` refers to. -/
def slotAt (P : Params A) (c : C) (index : ℕ) : Prog (World C A) ℕ := do
  let s ← sizeOf c
  assert P (decide (index < s))
  physicalIndexOf P c index

variable [DecidableEq C]

def setHead (c : C) (n : ℕ) : Prog (World C A) Unit :=
  modifyRegs fun r => { r with head := Function.update r.head c n }

def setSize (c : C) (n : ℕ) : Prog (World C A) Unit :=
  modifyRegs fun r => { r with size := Function.update r.size c n }

/-- `::new (storage_.items[slot].addr()) T`; outside the storage the behaviour is undefined. -/
def constructSlot (P : Params A) (c : C) (slot : ℕ) (value : A) : Prog (World C A) Unit :=
  if slot < P.capacity then constructAt (c, slot) value else Prog.invalid

/-! ### Insertion -/

def tryEmplaceBack (P : Params A) (c : C) (ctor : Prog (World C A) A) : Prog (World C A) Bool := do
  let s ← sizeOf c
  if s = P.capacity then pure false
  else
    setSize c (s + 1)
    let slot ← physicalIndexOf P c (s + 1 - 1)
    Prog.onThrow (do
        let value ← ctor
        constructSlot P c slot value)
      (do
        let now ← sizeOf c
        harden (decide (now = s + 1))
        setSize c (now - 1))
    pure true

/-- The slot of the element the reference denotes. -/
def emplaceBack (P : Params A) (c : C) (ctor : Prog (World C A) A) : Prog (World C A) ℕ := do
  let s ← sizeOf c
  let slot ← physicalIndexOf P c s
  let inserted ← tryEmplaceBack P c ctor
  assert P inserted
  if inserted then pure slot
  else
    let s ← sizeOf c
    harden (decide (0 < s))
    back P c

def tryEmplaceFront (P : Params A) (c : C) (ctor : Prog (World C A) A) : Prog (World C A) Bool := do
  let s ← sizeOf c
  if s = P.capacity then pure false
  else
    let previousHead ← headOf c
    let slot := retreat P.capacity previousHead
    setHead c slot
    setSize c (s + 1)
    Prog.onThrow (do
        let value ← ctor
        constructSlot P c slot value)
      (do
        let head ← headOf c
        let now ← sizeOf c
        harden (decide (head = slot ∧ now = s + 1))
        setHead c previousHead
        setSize c (now - 1))
    pure true

def emplaceFront (P : Params A) (c : C) (ctor : Prog (World C A) A) : Prog (World C A) ℕ := do
  let head ← headOf c
  let slot := retreat P.capacity head
  let inserted ← tryEmplaceFront P c ctor
  assert P inserted
  if inserted then pure slot
  else
    let s ← sizeOf c
    harden (decide (0 < s))
    front P c

/-! ### Removal -/

def popFront (P : Params A) (c : C) : Prog (World C A) Unit := do
  let s ← sizeOf c
  harden (decide (0 < s))
  let leaving ← headOf c
  setHead c (advance P.capacity leaving)
  setSize c (s - 1)
  destroyAt (c, leaving)

/-- The last of `s` elements leaves: shrink first, then destroy. -/
def dropBack (P : Params A) (c : C) (s : ℕ) : Prog (World C A) Unit := do
  setSize c (s - 1)
  let slot ← physicalIndexOf P c (s - 1)
  destroyAt (c, slot)

def popBack (P : Params A) (c : C) : Prog (World C A) Unit := do
  let s ← sizeOf c
  harden (decide (0 < s))
  dropBack P c s

/-- `while (size_ != 0) pop_front()`, for at most `fuel` rounds. -/
def clearLoop (P : Params A) (c : C) : ℕ → Prog (World C A) Unit
  | 0 => Prog.invalid
  | fuel + 1 => do
    let s ← sizeOf c
    if s = 0 then pure ()
    else
      popFront P c
      clearLoop P c fuel

def clear (P : Params A) (c : C) : Prog (World C A) Unit := clearLoop P c (P.capacity + 1)

/-- A full ring evicts its oldest element. -/
def pushOverwrite (P : Params A) (c : C) (ctor : Prog (World C A) A) : Prog (World C A) ℕ := do
  let s ← sizeOf c
  if s = P.capacity then
    if P.movable then
      -- built aside, since the arguments may refer to the element being evicted
      let value ← ctor
      popFront P c
      emplaceBack P c (pure value)
    else
      popFront P c
      emplaceBack P c ctor
  else emplaceBack P c ctor

/-! ### Whole containers -/

/-- `T(e)` and `T(static_cast<T&&>(e))` for the element in `p`. -/
def copyFrom (p : C × ℕ) : Prog (World C A) A := readAt p

def moveFrom (P : Params A) (p : C × ℕ) : Prog (World C A) A := do
  let e ← readAt p
  writeAt p (P.moved e)
  pure e

/-- `for (; i < other.size_; ++i) emplace_back(take(other.at(i)))`, for at most `fuel` rounds. -/
def appendLoop (P : Params A) (take : C × ℕ → Prog (World C A) A) (c other : C) :
    ℕ → ℕ → Prog (World C A) Unit
  | _, 0 => Prog.invalid
  | i, fuel + 1 => do
    let s ← sizeOf other
    if i < s then
      let slot ← slotAt P other i
      let _ ← emplaceBack P c (take (other, slot))
      appendLoop P take c other (i + 1) fuel
    else pure ()

def copyAll (P : Params A) (c other : C) : Prog (World C A) Unit :=
  appendLoop P copyFrom c other 0 (P.capacity + 1)

def moveAll (P : Params A) (c other : C) : Prog (World C A) Unit := do
  appendLoop P (moveFrom P) c other 0 (P.capacity + 1)
  clear P other

/-- `~ring_core()`, and then `ring_core()` in the same storage. -/
def renew (P : Params A) (c : C) : Prog (World C A) Unit := do
  clear P c
  setHead c 0
  setSize c 0

def copyConstruct (P : Params A) (c other : C) : Prog (World C A) Unit := do
  renew P c
  copyAll P c other

def moveConstruct (P : Params A) (c other : C) : Prog (World C A) Unit := do
  renew P c
  moveAll P c other

def copyAssign (P : Params A) (c other : C) : Prog (World C A) Unit :=
  if c = other then pure ()
  else do
    clear P c
    copyAll P c other

def moveAssign (P : Params A) (c other : C) : Prog (World C A) Unit :=
  if c = other then pure ()
  else do
    clear P c
    moveAll P c other

/-- `swap(a, b)` of two elements: `T t(move(a)); a = move(b); b = move(t)`. -/
def swapElements (P : Params A) (p q : C × ℕ) : Prog (World C A) Unit := do
  let a ← moveFrom P p
  let b ← moveFrom P q
  writeAt p b
  writeAt q a

/-- `for (; i < common; ++i) swap(at(i), other.at(i))` -/
def swapLoop (P : Params A) (c other : C) (common : ℕ) : ℕ → ℕ → Prog (World C A) Unit
  | _, 0 => Prog.invalid
  | i, fuel + 1 =>
    if i < common then do
      let p ← slotAt P c i
      let q ← slotAt P other i
      swapElements P (c, p) (other, q)
      swapLoop P c other common (i + 1) fuel
    else pure ()

/-- `while (longer.size_ > common)`, for at most `fuel` rounds. -/
def shrinkLoop (P : Params A) (longer : C) (common : ℕ) : ℕ → Prog (World C A) Unit
  | 0 => Prog.invalid
  | fuel + 1 => do
    let s ← sizeOf longer
    if s > common then
      dropBack P longer s
      shrinkLoop P longer common fuel
    else pure ()

/-- The tail of the longer ring moves across. -/
def moveTail (P : Params A) (shorter longer : C) (common : ℕ) : Prog (World C A) Unit := do
  appendLoop P (moveFrom P) shorter longer common (P.capacity + 1)
  shrinkLoop P longer common (P.capacity + 1)

def swapCore (P : Params A) (c other : C) : Prog (World C A) Unit :=
  if c = other then pure ()
  else do
    let s ← sizeOf c
    let t ← sizeOf other
    let common := if s < t then s else t
    swapLoop P c other common 0 (P.capacity + 1)
    if s = t then pure ()
    else if s < t then moveTail P c other common
    else moveTail P other c common

/-! ### Calls -/

inductive End where
  | back
  | front
  deriving DecidableEq, Repr

/-- The arguments an element is constructed from. -/
inductive Source (C A : Type) where
  | value (a : A)
  /-- The constructor throws. -/
  | throws
  /-- A reference to element `index` of `c`: the constructor makes `make x` of it and leaves `leave x`; a
      copy is `element c index id id`, a move `element c index id moved`. -/
  | element (c : C) (index : ℕ) (make leave : A → A)

/-- What the constructor does that was given a reference to the element in `p`. -/
def construct (p : C × ℕ) (make leave : A → A) : Prog (World C A) A := do
  let x ← readAt p
  writeAt p (leave x)
  pure (make x)

/-- The arguments are bound before the call; a reference is to a slot. -/
def bindArgs (P : Params A) : Source C A → Prog (World C A) (Prog (World C A) A)
  | .value a => pure (pure a)
  | .throws => pure Prog.raise
  | .element c index make leave => do
    let slot ← slotAt P c index
    pure (construct (c, slot) make leave)

/-- A call on one of the containers. `push_back`, `push_front` and their `try_` forms are the emplacing
    calls with a reference or a value. -/
inductive Op (C A : Type) where
  | tryEmplace (e : End) (c : C) (args : Source C A)
  | emplace (e : End) (c : C) (args : Source C A)
  | pushOverwrite (c : C) (args : Source C A)
  | popFront (c : C)
  | popBack (c : C)
  | clear (c : C)
  | copyConstruct (c other : C)
  | moveConstruct (c other : C)
  | copyAssign (c other : C)
  | moveAssign (c other : C)
  | swap (c other : C)

/-- What a call returns: nothing, a flag, or a reference to the element in a slot. -/
inductive Answer where
  | done
  | flag (b : Bool)
  | reference (slot : ℕ)
  deriving DecidableEq, Repr

def tryEmplaceAt (P : Params A) (c : C) (ctor : Prog (World C A) A) : End → Prog (World C A) Bool
  | .back => tryEmplaceBack P c ctor
  | .front => tryEmplaceFront P c ctor

def emplaceAt (P : Params A) (c : C) (ctor : Prog (World C A) A) : End → Prog (World C A) ℕ
  | .back => emplaceBack P c ctor
  | .front => emplaceFront P c ctor

def quietly (m : Prog (World C A) Unit) : Prog (World C A) Answer := do
  m
  pure .done

def exec (P : Params A) : Op C A → Prog (World C A) Answer
  | .tryEmplace e c args => do
    let ctor ← bindArgs P args
    let b ← tryEmplaceAt P c ctor e
    pure (.flag b)
  | .emplace e c args => do
    let ctor ← bindArgs P args
    let slot ← emplaceAt P c ctor e
    pure (.reference slot)
  | .pushOverwrite c args => do
    let ctor ← bindArgs P args
    let slot ← pushOverwrite P c ctor
    pure (.reference slot)
  | .popFront c => quietly (popFront P c)
  | .popBack c => quietly (popBack P c)
  | .clear c => quietly (clear P c)
  | .copyConstruct c other => quietly (copyConstruct P c other)
  | .moveConstruct c other => quietly (moveConstruct P c other)
  | .copyAssign c other => quietly (copyAssign P c other)
  | .moveAssign c other => quietly (moveAssign P c other)
  | .swap c other => quietly (swapCore P c other)

/-- Two empty containers, or however many there are. -/
def init (C A : Type) : World C A where
  cell := fun _ => none
  built := 0
  destroyed := []
  regs := ⟨fun _ => 0, fun _ => 0⟩

end Metl.RingCore
