import Metl.Schemes.References
import Metl.Schemes.Run
import Metl.Schemes.Throwing

/-! `intrusive_ptr`: pointers that count the references to an object in the object itself.

        root r ──► ┌ object a ┐           the pointers of a program: its roots, and the members
                   │ count 1  │           of the objects that still live
                   │ member 0 ┼──► object b (count 2) ◄── root s
                   └──────────┘

    Releasing the last reference runs the object's destructor on the spot, which destroys its members
    and so releases in turn. Reading or writing a pointer that has been destroyed, or the count of an
    object whose destructor has begun, is undefined. -/

namespace Metl.IntrusivePtr

open Metl.Schemes Function

variable {R O : Type}

/-- The `intrusive_ptr` objects of a program: a root, or member `i` of an object. -/
abbrev Ptr (R : Type) {O : Type} (arity : O → ℕ) : Type := R ⊕ (o : O) × Fin (arity o)

/-- What happens to counts and objects, in the order it happens. -/
inductive Event (O : Type) where
  | dropped (o : O) (left : ℕ)
  | destroyed (o : O)
  deriving DecidableEq

structure World (R : Type) {O : Type} (arity : O → ℕ) where
  ptr : Ptr R arity → Option O
  -- whether the pointer object exists
  built : Ptr R arity → Bool
  count : O → ℕ
  -- whether the destructor has not begun
  alive : O → Bool
  -- references taken out by `detach` and not yet adopted
  detached : O → ℕ
  log : List (Event O)

variable {arity : O → ℕ}

abbrev Program (R : Type) {O : Type} (arity : O → ℕ) (α : Type) : Type := Prog (World R arity) α

/-- Every object lives and is referred to by nothing; no root exists yet. -/
def init : World R arity where
  ptr := fun _ => none
  built := fun p => match p with
    | .inl _ => false
    | .inr _ => true
  count := fun _ => 0
  alive := fun _ => true
  detached := fun _ => 0
  log := []

section Programs
variable [DecidableEq R] [DecidableEq O]

/-- Reads `ptr_`. -/
def get (p : Ptr R arity) : Program R arity (Option O) := fun w =>
  if w.built p then .ret (w.ptr p) w else .undefined

/-- Writes `ptr_`. -/
def store (p : Ptr R arity) (v : Option O) : Program R arity Unit := fun w =>
  if w.built p then .ret () { w with ptr := update w.ptr p v } else .undefined

/-- A pointer object comes into being with the value `v`. -/
def build (p : Ptr R arity) (v : Option O) : Program R arity Unit := fun w =>
  if w.built p then .undefined
  else .ret () { w with ptr := update w.ptr p v, built := update w.built p true }

/-- The pointer object is gone. -/
def unbuild (p : Ptr R arity) : Program R arity Unit := fun w =>
  .ret () { w with built := update w.built p false }

/-- `++refcount_`, in a `size_t` of `bits` bits. -/
def intrusivePtrAddRef (bits : ℕ) (o : O) : Program R arity Unit := fun w =>
  if w.alive o then
    .ret () { w with count := update w.count o ((w.count o + 1) % 2 ^ bits) }
  else .undefined

/-- `prev = refcount_--`. -/
def dropRef (bits : ℕ) (o : O) : Program R arity ℕ := fun w =>
  if w.alive o then
    let left := (w.count o + 2 ^ bits - 1) % 2 ^ bits
    .ret (w.count o)
      { w with count := update w.count o left, log := w.log ++ [.dropped o left] }
  else .undefined

/-- Retains the object `v` refers to, if any. -/
def addRefIf (bits : ℕ) (v : Option O) : Program R arity Unit :=
  match v with
  | none => pure ()
  | some o => intrusivePtrAddRef bits o

section Release
variable (release : O → Program R arity Unit)

/-- The new value is in place before the old one is released. -/
def releaseAndStore (p : Ptr R arity) (incoming : Option O) : Program R arity Unit := do
  let old ← get p
  store p incoming
  match old with
  | none => pure ()
  | some o => release o

def reset (p : Ptr R arity) : Program R arity Unit := releaseAndStore release p none

/-- `~intrusive_ptr`. -/
def destroyPtr (p : Ptr R arity) : Program R arity Unit := do
  reset release p
  unbuild p

/-- The destructor of an object begins. -/
def beginDestroy (o : O) : Program R arity Unit := fun w =>
  .ret () { w with alive := update w.alive o false, log := w.log ++ [.destroyed o] }

def destroyMembers (o : O) : List (Fin (arity o)) → Program R arity Unit
  | [] => pure ()
  | i :: rest => do
    destroyPtr release (.inr ⟨o, i⟩)
    destroyMembers o rest

/-- `~Derived`: the members are destroyed in the reverse of their order. -/
def destroyObject (o : O) : Program R arity Unit := do
  beginDestroy o
  destroyMembers release o (List.finRange (arity o)).reverse

end Release

/-- `intrusive_ptr_release`; the releases it causes nest at most `depth` deep. -/
def intrusivePtrRelease (bits : ℕ) : (depth : ℕ) → O → Program R arity Unit
  | 0, _ => Prog.invalid
  | depth + 1, o => do
    let prev ← dropRef bits o
    if prev = 0 then Prog.stop
    else if prev = 1 then destroyObject (intrusivePtrRelease bits depth) o
    else pure ()

/-- `detached` changes by the reference `v` stands for. -/
def handOut (v : Option O) : Program R arity Unit :=
  Prog.modify fun w => { w with detached := fun o => w.detached o + one v o }

def takeBack (v : Option O) : Program R arity Unit :=
  Prog.modify fun w => { w with detached := fun o => w.detached o - one v o }

inductive Action (R : Type) {O : Type} (arity : O → ℕ) where
  | construct (r : R)
  | retain (r : R) (raw : Option O)
  | adopt (r : R) (raw : Option O)
  | copyConstruct (r : R) (other : Ptr R arity)
  | moveConstruct (r : R) (other : Ptr R arity)
  | copyAssign (p other : Ptr R arity)
  | moveAssign (p other : Ptr R arity)
  | convertCopyAssign (p other : Ptr R arity)
  | convertMoveAssign (p other : Ptr R arity)
  | reset (p : Ptr R arity)
  | detach (p : Ptr R arity)
  | swap (p other : Ptr R arity)
  | destroy (r : R)

/-- The converting constructor does the same, through `other.get()`. -/
def copyConstruct (bits : ℕ) (r : R) (other : Ptr R arity) : Program R arity Unit := do
  let v ← get other
  build (.inl r) v
  addRefIf bits v

/-- The converting constructor does the same, through `other.detach()`. -/
def moveConstruct (r : R) (other : Ptr R arity) : Program R arity Unit := do
  let v ← get other
  build (.inl r) v
  store other none

def copyAssign (bits : ℕ) (release : O → Program R arity Unit) (p other : Ptr R arity) :
    Program R arity Unit :=
  if p = other then pure ()
  else do
    let incoming ← get other
    addRefIf bits incoming
    releaseAndStore release p incoming

def moveAssign (release : O → Program R arity Unit) (p other : Ptr R arity) : Program R arity Unit :=
  if p = other then pure ()
  else do
    let incoming ← get other
    store other none
    releaseAndStore release p incoming

/-- `p = other` for a pointer to another type: a temporary is constructed from `other`, moved from,
    and null when it is destroyed. -/
def convertCopyAssign (bits : ℕ) (release : O → Program R arity Unit) (p other : Ptr R arity) :
    Program R arity Unit := do
  let temporary ← get other
  addRefIf bits temporary
  releaseAndStore release p temporary

def convertMoveAssign (release : O → Program R arity Unit) (p other : Ptr R arity) :
    Program R arity Unit := do
  let temporary ← get other
  store other none
  releaseAndStore release p temporary

def detach (p : Ptr R arity) : Program R arity Unit := do
  let result ← get p
  store p none
  handOut result

def swap (p other : Ptr R arity) : Program R arity Unit := do
  let temp ← get p
  let v ← get other
  store p v
  store other temp

def exec [Fintype O] (bits : ℕ) : Action R arity → Program R arity Unit
  | .construct r => build (.inl r) none
  | .retain r raw => do
    build (.inl r) raw
    addRefIf bits raw
  | .adopt r raw => do
    build (.inl r) raw
    takeBack raw
  | .copyConstruct r other => copyConstruct bits r other
  | .moveConstruct r other => moveConstruct r other
  | .copyAssign p other => copyAssign bits (intrusivePtrRelease bits (Fintype.card O)) p other
  | .moveAssign p other => moveAssign (intrusivePtrRelease bits (Fintype.card O)) p other
  | .convertCopyAssign p other =>
    convertCopyAssign bits (intrusivePtrRelease bits (Fintype.card O)) p other
  | .convertMoveAssign p other =>
    convertMoveAssign (intrusivePtrRelease bits (Fintype.card O)) p other
  | .reset p => reset (intrusivePtrRelease bits (Fintype.card O)) p
  | .detach p => detach p
  | .swap p other => swap p other
  | .destroy r => destroyPtr (intrusivePtrRelease bits (Fintype.card O)) (.inl r)

end Programs

/-- The pointers a call names exist, a new root does not, a raw pointer is to a living object, and an
    adopted reference was detached. -/
def valid (w : World R arity) : Action R arity → Bool
  | .construct r => !w.built (.inl r)
  | .retain r raw => !w.built (.inl r) && raw.all w.alive
  | .adopt r raw => !w.built (.inl r) && raw.all fun o => 0 < w.detached o
  | .copyConstruct r other => !w.built (.inl r) && w.built other
  | .moveConstruct r other => !w.built (.inl r) && w.built other
  | .copyAssign p other => w.built p && w.built other
  | .moveAssign p other => w.built p && w.built other
  | .convertCopyAssign p other => w.built p && w.built other
  | .convertMoveAssign p other => w.built p && w.built other
  | .reset p => w.built p
  | .detach p => w.built p
  | .swap p other => w.built p && w.built other
  | .destroy r => w.built (.inl r)

variable [DecidableEq R] [DecidableEq O]

/-- The object a call retains. -/
def retained (w : World R arity) : Action R arity → Option O
  | .retain _ raw => raw
  | .copyConstruct _ other => w.ptr other
  | .copyAssign p other => if p = other then none else w.ptr other
  | .convertCopyAssign _ other => w.ptr other
  | _ => none

/-- The count of the object a call retains can still be raised. -/
def countable (bits : ℕ) (w : World R arity) (a : Action R arity) : Bool :=
  (retained w a).all fun o => w.count o + 1 < 2 ^ bits

variable [Fintype O]

def step (bits : ℕ) (w : World R arity) (a : Action R arity) : Option (World R arity) :=
  if valid w a then
    match exec bits a w with
    | .ret _ w' => some w'
    | _ => none
  else none

/-- The same steps while no count is at its largest value when it is raised. -/
def stepCountable (bits : ℕ) (w : World R arity) (a : Action R arity) : Option (World R arity) :=
  if countable bits w a then step bits w a else none

end Metl.IntrusivePtr
