import Metl.Tables.FlatMap

/-! The calls of `flat_map` and `flat_set`, with arguments that may refer into a container.

        m.try_emplace(k, m.nth(2).value)       the value is read before anything is shifted
        m.erase(m.nth(1).key)                  the key is read before anything is moved

    Beside the insertions and erasures these are the lookups, `erase_if`, the copies and the moves. A
    copy or a move compares nothing: the elements of the source are appended in their order, and the
    comparator goes with them. -/

namespace Metl.FlatMap

open Metl.Schemes Metl.Schemes.Storage

/-- An argument: a value of the caller's, or a reference into element `n` of container `d`. -/
inductive Arg (C A : Type) where
  | value (a : A)
  | element (d : C) (n : ℕ)

/-- What the containers are instances of, and what a move leaves of a comparator. -/
structure Params (K : Type) where
  traits : Traits
  capacity : ℕ
  leftCompare : (K → K → Bool) → K → K → Bool

variable {C K V A : Type}

def Arg.read (part : Entry K V → A) : Arg C A → Prog (World C K V) A
  | .value a => pure a
  | .element d n => do
    let e ← readAt (d, n)
    pure (part e)

/-! ### Lookup -/

/-- The loop of `upper_bound_index` and `upper_bound_index_from`. -/
def upperBoundLoop (T : Traits) (c : C) (key : K) : ℕ → ℕ → ℕ → Prog (World C K V) ℕ
  | _, first, 0 => pure first
  | 0, _, _ + 1 => Prog.invalid
  | fuel + 1, first, count + 1 => do
    let half := (count + 1) / 2
    let e ← readAt (c, first + half)
    let after ← compare T c key e.key
    if !after then upperBoundLoop T c key fuel (first + half + 1) (count + 1 - (half + 1))
    else upperBoundLoop T c key fuel first half

def upperBoundIndexFrom (T : Traits) (c : C) (key : K) (lo : ℕ) : Prog (World C K V) ℕ := do
  let s ← sizeOf c
  upperBoundLoop T c key (s - lo) lo (s - lo)

def upperBoundIndex (T : Traits) (c : C) (key : K) : Prog (World C K V) ℕ := do
  let s ← sizeOf c
  upperBoundLoop T c key s 0 s

def equalRange (T : Traits) (c : C) (key : K) : Prog (World C K V) (ℕ × ℕ) := do
  let lo ← lowerBoundIndex T c key
  let hi ← upperBoundIndexFrom T c key lo
  pure (lo, hi)

/-- The position whose mapped value `find` points to; none for the null pointer. -/
def find (T : Traits) (c : C) (key : K) : Prog (World C K V) (Option ℕ) := do
  let found ← locate T c key
  pure (if found.2 then some found.1 else none)

def contains (T : Traits) (c : C) (key : K) : Prog (World C K V) Bool := do
  let p ← find T c key
  pure p.isSome

variable [DecidableEq C]

/-! ### Insertion and assignment -/

/-- `try_insert_at`: the entry is built before the shift, which moves from what `value` refers to. -/
def tryInsertFrom (T : Traits) (capacity : ℕ) (c : C) (index : ℕ) (key : K) (value : Arg C V) :
    Prog (World C K V) Bool := do
  let s ← sizeOf c
  if s = capacity then pure false
  else
    moveLocal T false false
    let v ← value.read Entry.value
    insertShifting T c index ⟨key, v⟩
    pure true

def assignFrom (T : Traits) (c : C) (index : ℕ) (value : Arg C V) : Prog (World C K V) Unit := do
  let v ← value.read Entry.value
  assignValue T c index v

/-- The search for a key that may be an element's own: it writes nothing, so the key is read once. -/
def search (T : Traits) (c : C) (key : Arg C K) : Prog (World C K V) (K × ℕ × Bool) := do
  let k ← key.read Entry.key
  let found ← locate T c k
  pure (k, found)

def tryEmplace (T : Traits) (capacity : ℕ) (c : C) (key : Arg C K) (value : Arg C V) :
    Prog (World C K V) Bool := do
  let (k, index, present) ← search T c key
  if present then pure false else tryInsertFrom T capacity c index k value

/-- The position the returned reference names, with the element there. -/
def referenceTo (c : C) (index : ℕ) : Prog (World C K V) (ℕ × Entry K V) := do
  let e ← readAt (c, index)
  pure (index, e)

def emplace (T : Traits) (capacity : ℕ) (c : C) (key : Arg C K) (value : Arg C V) :
    Prog (World C K V) (ℕ × Entry K V) := do
  let (k, index, present) ← search T c key
  harden !present
  let inserted ← tryInsertFrom T capacity c index k value
  harden inserted
  referenceTo c index

def tryInsertOrAssign (T : Traits) (capacity : ℕ) (c : C) (key : Arg C K) (value : Arg C V) :
    Prog (World C K V) Bool := do
  let (k, index, present) ← search T c key
  if present then
    assignFrom T c index value
    pure true
  else tryInsertFrom T capacity c index k value

def insertOrAssign (T : Traits) (capacity : ℕ) (c : C) (key : Arg C K) (value : Arg C V) :
    Prog (World C K V) (ℕ × Entry K V) := do
  let (k, index, present) ← search T c key
  if present then
    assignFrom T c index value
    referenceTo c index
  else
    let stored ← tryInsertFrom T capacity c index k value
    harden stored
    referenceTo c index

/-! ### Removal -/

def eraseKey (T : Traits) (c : C) (key : Arg C K) : Prog (World C K V) Bool := do
  let (_, index, present) ← search T c key
  if present then
    eraseAt T c index
    pure true
  else pure false

/-- `erase(iterator)`: the position after the erased element, never past the end. -/
def erasePosition (T : Traits) (c : C) (pos : ℕ) : Prog (World C K V) ℕ := do
  let s ← sizeOf c
  harden (decide (pos < s))
  eraseAt T c pos
  let s ← sizeOf c
  pure (if pos < s then pos else s)

/-- The loop of `erase_if`, at position `it`; every round leaves one element less to look at. -/
def eraseIfLoop (T : Traits) (c : C) (pred : K → V → Bool) : ℕ → ℕ → ℕ → Prog (World C K V) ℕ
  | fuel, it, erased => do
    let s ← sizeOf c
    if it = s then pure erased
    else
      match fuel with
      | 0 => Prog.invalid
      | fuel + 1 =>
        let e ← readAt (c, it)
        let _ ← call T false
        if pred e.key e.value then
          let it ← erasePosition T c it
          eraseIfLoop T c pred fuel it (erased + 1)
        else eraseIfLoop T c pred fuel (it + 1) erased

def eraseIf (T : Traits) (c : C) (pred : K → V → Bool) : Prog (World C K V) ℕ := do
  let s ← sizeOf c
  eraseIfLoop T c pred s 0 0

/-! ### Copies and moves -/

/-- `append_copies_from`, with `r` elements of `d` left from slot `i` on. -/
def appendCopies (T : Traits) (c d : C) : ℕ → ℕ → Prog (World C K V) Unit
  | 0, _ => pure ()
  | r + 1, i => do
    let e ← readAt (d, i)
    moveLocal T false false
    let s ← sizeOf c
    constructAt (c, s) e
    setSize c (s + 1)
    appendCopies T c d r (i + 1)

/-- `append_sorted_from`, likewise. -/
def appendSorted (T : Traits) (c d : C) : ℕ → ℕ → Prog (World C K V) Unit
  | 0, _ => pure ()
  | r + 1, i => do
    let s ← sizeOf c
    constructFrom T c s d i
    setSize c (s + 1)
    appendSorted T c d r (i + 1)

def setCompare (T : Traits) (c : C) (less : K → K → Bool) : Prog (World C K V) Unit := do
  let _ ← call T false
  modifyRegs fun r => { r with less := Function.update r.less c less }

/-- The copy constructor, in place of what `c` was, and the copy assignment from another container. -/
def copyFrom (T : Traits) (c d : C) : Prog (World C K V) Unit := do
  clear c
  let r ← getRegs
  setCompare T c (r.less d)
  let s ← sizeOf d
  appendCopies T c d s 0

def moveCompare (P : Params K) (c d : C) : Prog (World C K V) Unit := do
  let r ← getRegs
  setCompare P.traits c (r.less d)
  modifyRegs fun r => { r with less := Function.update r.less d (P.leftCompare (r.less d)) }

/-- The move constructor, likewise, and the move assignment. -/
def moveFrom (P : Params K) (c d : C) : Prog (World C K V) Unit := do
  clear c
  moveCompare P c d
  let s ← sizeOf d
  appendSorted P.traits c d s 0
  clear d

def copyAssign (T : Traits) (c d : C) : Prog (World C K V) Unit :=
  if c = d then pure () else copyFrom T c d

def moveAssign (P : Params K) (c d : C) : Prog (World C K V) Unit :=
  if c = d then pure () else moveFrom P c d

/-! ### The calls -/

/-- A call, with the arguments for keys in `A`, for values in `B`, and positions in `P`. -/
inductive Request (C K V A B P : Type) where
  | tryEmplace (c : C) (key : A) (value : B)
  | emplace (c : C) (key : A) (value : B)
  | tryInsertOrAssign (c : C) (key : A) (value : B)
  | insertOrAssign (c : C) (key : A) (value : B)
  | eraseKey (c : C) (key : A)
  | eraseAt (c : C) (pos : P)
  | eraseIf (c : C) (pred : K → V → Bool)
  | clear (c : C)
  | swap (c d : C)
  | copyConstruct (c d : C)
  | copyAssign (c d : C)
  | moveConstruct (c d : C)
  | moveAssign (c d : C)

/-- What a call returns: an iterator is a position, a reference a position with the element there. -/
inductive Answer (K V : Type) where
  | done
  | flag (b : Bool)
  | item (n : ℕ) (key : K) (value : V)
  | position (n : ℕ)
  | count (n : ℕ)
  deriving DecidableEq

/-- A request as the program makes it. -/
abbrev Ask (C K V : Type) := Request C K V (Arg C K) (Arg C V) ℕ

def serve (P : Params K) : Ask C K V → Prog (World C K V) (Answer K V)
  | .tryEmplace c key value => do
    let b ← tryEmplace P.traits P.capacity c key value
    pure (.flag b)
  | .emplace c key value => do
    let (n, e) ← emplace P.traits P.capacity c key value
    pure (.item n e.key e.value)
  | .tryInsertOrAssign c key value => do
    let b ← tryInsertOrAssign P.traits P.capacity c key value
    pure (.flag b)
  | .insertOrAssign c key value => do
    let (n, e) ← insertOrAssign P.traits P.capacity c key value
    pure (.item n e.key e.value)
  | .eraseKey c key => do
    let b ← eraseKey P.traits c key
    pure (.flag b)
  | .eraseAt c pos => do
    let n ← erasePosition P.traits c pos
    pure (.position n)
  | .eraseIf c pred => do
    let n ← eraseIf P.traits c pred
    pure (.count n)
  | .clear c => do
    clear c
    pure .done
  | .swap c d => do
    swap P.traits c d
    pure .done
  | .copyConstruct c d => do
    copyFrom P.traits c d
    pure .done
  | .copyAssign c d => do
    copyAssign P.traits c d
    pure .done
  | .moveConstruct c d => do
    moveFrom P c d
    pure .done
  | .moveAssign c d => do
    moveAssign P c d
    pure .done

/-- One request of a program, with what its calls of user code do. -/
structure Turn (C K V : Type) where
  request : Ask C K V
  script : List (Call K V)

/-- A call that returns; one that throws or stops ends the run. -/
def answer (P : Params K) (w : World C K V) (t : Turn C K V) : Option (World C K V × Answer K V) :=
  match serve P t.request (withScript w t.script) with
  | .ret a w' => some (w', a)
  | _ => none

end Metl.FlatMap
