import Metl.Schemes.Storage

/-! `fixed_vector`: elements in the first slots of an inline buffer.

        slot    0   1   2   3   4           emplace at 1:  a  x  b  c  ·
                a   b   c   ·   ·           size 3, capacity 5

    An element constructor is user code: while it runs it may append further elements to the same
    vector, whose constructors may append in turn. An append claims its slot before it runs the
    constructor. An insertion at a position builds the new value aside, moves the last element up by
    one and assigns the others. -/

namespace Metl.FixedVector

open Metl.Schemes Metl.Schemes.Storage

inductive How where
  | tryEmplaceBack
  | emplaceBack
  deriving DecidableEq, Repr

/-- What an element constructor does while it runs. -/
inductive Ctor (A : Type) where
  | returns
  | throws
  /-- Appends `value`, whose own constructor does `within`, and goes on with `rest`. -/
  | append (how : How) (value : A) (within rest : Ctor A)
  deriving Repr

variable {A : Type}

/-- No constructor throws. -/
def Ctor.quiet : Ctor A → Bool
  | .returns => true
  | .throws => false
  | .append _ _ within rest => within.quiet && rest.quiet

/-- The values it tries to append, in the order of their slots. -/
def Ctor.values : Ctor A → List A
  | .returns => []
  | .throws => []
  | .append _ value within rest => value :: (within.values ++ rest.values)

/-- The vector's parameters: `Capacity`, whether `METL_ASSERT` is compiled in, what a move leaves of an
    element, and what the move constructor does. -/
structure Params (A : Type) where
  capacity : ℕ
  checked : Bool
  moved : A → A
  relocate : Ctor A

/-- The slots, and `size_`. -/
abbrev World (A : Type) := Storage ℕ A ℕ

def size : Prog (World A) ℕ := getRegs

def setSize (n : ℕ) : Prog (World A) Unit := modifyRegs fun _ => n

def harden (b : Bool) : Prog (World A) Unit := if b then pure () else Prog.stop

/-- `METL_ASSERT` -/
def assert (P : Params A) (b : Bool) : Prog (World A) Unit := if P.checked then harden b else pure ()

/-- `::new (slot_(index)) T`; outside the storage the behaviour is undefined. -/
def constructSlot (P : Params A) (index : ℕ) (value : A) : Prog (World A) Unit :=
  if index < P.capacity then constructAt index value else Prog.invalid

/-! ### Appending -/

/-- The slot is claimed before the constructor runs, and given back if it throws. -/
def tryEmplaceBack (P : Params A) (value : A) (ctor : Prog (World A) Unit) : Prog (World A) Bool := do
  let index ← size
  if index = P.capacity then pure false
  else
    setSize (index + 1)
    Prog.onThrow (do
        ctor
        constructSlot P index value)
      (do
        let s ← size
        harden (decide (s = index + 1))
        setSize (s - 1))
    pure true

/-- The index of the element the reference denotes. -/
def emplaceBack (P : Params A) (value : A) (ctor : Prog (World A) Unit) : Prog (World A) ℕ := do
  let index ← size
  let inserted ← tryEmplaceBack P value ctor
  assert P inserted
  if inserted then pure index
  else
    let s ← size
    harden (decide (0 < s))
    pure (s - 1)

/-- An append by a constructor: `emplace_back` only when the vector is not full. -/
def appendBy (P : Params A) (value : A) (ctor : Prog (World A) Unit) : How → Prog (World A) Unit
  | .tryEmplaceBack => do
    let _ ← tryEmplaceBack P value ctor
    pure ()
  | .emplaceBack => do
    let s ← size
    if s = P.capacity then pure ()
    else
      let _ ← emplaceBack P value ctor
      pure ()

def runCtor (P : Params A) : Ctor A → Prog (World A) Unit
  | .returns => pure ()
  | .throws => Prog.raise
  | .append how value within rest => do
    appendBy P value (runCtor P within) how
    runCtor P rest

/-! ### Inserting at a position -/

/-- `for (i = size_ - 2; i > index; --i) data()[i] = move(data()[i - 1])` -/
def shiftLoop (P : Params A) (index : ℕ) : ℕ → Prog (World A) Unit
  | 0 => pure ()
  | i + 1 =>
    if index < i + 1 then do
      let e ← readAt i
      writeAt i (P.moved e)
      writeAt (i + 1) e
      shiftLoop P index i
    else pure ()

/-- The end of `emplace`: the last element, of the `s` there were, is moved into slot `s`, the others up to
    `index` are shifted, and the new value is assigned. -/
def shiftIn (P : Params A) (index : ℕ) (value : A) (s : ℕ) (last : A) : Prog (World A) ℕ := do
  writeAt (s - 1) (P.moved last)
  constructSlot P s last
  let s ← size
  setSize (s + 1)
  shiftLoop P index (s - 1)
  writeAt index value
  pure index

/-- `emplace(pos, args...)`: `build` is what the constructor of `value` does. -/
def emplace (P : Params A) (index : ℕ) (value : A) (build : Ctor A) : Prog (World A) ℕ := do
  let s ← size
  harden (decide (index ≤ s))
  harden (decide (s < P.capacity))
  if index = s then
    let _ ← emplaceBack P value (runCtor P build)
    pure index
  else
    -- the value is built aside; the vector may be longer afterwards
    runCtor P build
    let s ← size
    let last ← readAt (s - 1)
    runCtor P P.relocate
    shiftIn P index value s last

/-- `end()` when the vector is full. -/
def tryEmplace (P : Params A) (index : ℕ) (value : A) (build : Ctor A) : Prog (World A) ℕ := do
  let s ← size
  harden (decide (index ≤ s))
  if s = P.capacity then pure s else emplace P index value build

/-- `insert(pos, value)`: `build` is what the copy or move constructor does. -/
def insert (P : Params A) (index : ℕ) (value : A) (build : Ctor A) : Prog (World A) ℕ :=
  emplace P index value build

def tryInsert (P : Params A) (index : ℕ) (value : A) (build : Ctor A) : Prog (World A) ℕ :=
  tryEmplace P index value build

inductive Form where
  | emplace
  | insert
  | tryEmplace
  | tryInsert
  deriving DecidableEq, Repr

/-- An insertion before position `index`. -/
structure Op (A : Type) where
  form : Form
  index : ℕ
  value : A
  build : Ctor A

def exec (P : Params A) (op : Op A) : Prog (World A) ℕ :=
  match op.form with
  | .emplace => emplace P op.index op.value op.build
  | .insert => insert P op.index op.value op.build
  | .tryEmplace => tryEmplace P op.index op.value op.build
  | .tryInsert => tryInsert P op.index op.value op.build

end Metl.FixedVector
