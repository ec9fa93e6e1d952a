import Metl.Schemes.Throwing
import Mathlib.Data.Nat.Notation
import Mathlib.Logic.Function.Basic

/-! `metl::fixed_function` and `metl::fixed_any_invocable`: a callable in inline storage.

    The two wrappers share every function below; the move-only one lacks the copies. Releasing a target
    runs its destructor, and what it owns goes with it: callables it carries, and wrappers it keeps in
    other storage, whose targets are released in turn. The source of an assignment can be among them.

        slot ──▶ old target ──owns──▶ node ──▶ next : fixed_function ──▶ its target
          ▲                                      │
          └──────────────── slot = next ─────────┘

    What a destructor does is given with each call, as a script. Touching an object or a wrapper whose
    life is over is undefined behaviour. -/

namespace Metl.FixedFunction
open Metl.Schemes Function

/-- The decayed types `F` of the callables as the wrapper sees them. -/
structure Traits (F : Type) where
  copyable : Bool
  capacity : ℕ
  size : F → ℕ
  isPointer : F → Bool
  isWrapper : F → Bool

/-- A callable; `null` is a null function pointer, or a METL wrapper without a target. -/
structure Callable (F V : Type) where
  type : F
  value : V
  null : Bool
  deriving DecidableEq

/-- Where a callable can live: in the storage of a wrapper, anywhere else in the program, in the local
    of `try_assign_callable`, or in that of `swap`. -/
inductive Place (W : Type) where
  | target (w : W)
  | callable (k : ℕ)
  | incoming
  | tmp
  deriving DecidableEq

/-- What the destructor of a callable does: `has_value()` or `reset()` on the wrapper that holds it,
    and ending wrappers and callables it owns. `inner` is what the destructor reached that way does. -/
inductive Script (W : Type) where
  | done
  | hasValue (rest : Script W)
  | reset (inner rest : Script W)
  | endWrapper (w : W) (inner rest : Script W)
  | endCallable (k : ℕ) (inner rest : Script W)

/-- The wrappers and the callables. Ghosts: every object has a number, and `gone` lists the destroyed
    ones. -/
structure World (W F V : Type) where
  alive : W → Bool
  ops : W → Option F
  object : Place W → Option (Callable F V × ℕ)
  built : ℕ
  gone : List ℕ

def World.start {W F V : Type} : World W F V := ⟨fun _ => false, fun _ => none, fun _ => none, 0, []⟩

/-- How a callable comes in: as an lvalue, or as an rvalue that is left with another value. -/
inductive Forward (V : Type) where
  | copy
  | move (left : V × Bool)

variable {W F V : Type} [DecidableEq W] [DecidableEq F]

/-! ### Objects -/

/-- What a move leaves in place of `x`. -/
def Callable.moved (x : Callable F V) (left : V × Bool) : Callable F V :=
  { x with value := left.1, null := left.2 }

/-- Read `ops_`. -/
def opsOf (w : W) : Prog (World W F V) (Option F) := fun v =>
  if v.alive w then .ret (v.ops w) v else .undefined

/-- Write `ops_`. -/
def setOps (w : W) (ops : Option F) : Prog (World W F V) Unit := fun v =>
  if v.alive w then .ret () { v with ops := update v.ops w ops } else .undefined

/-- The storage of a dead wrapper is gone with it. -/
def World.usable (v : World W F V) : Place W → Bool
  | .target w => v.alive w
  | _ => true

/-- `::new (place) F(x)`, where nothing lives yet. -/
def build (p : Place W) (x : Callable F V) : Prog (World W F V) Unit := fun v =>
  if v.usable p = true ∧ v.object p = none then
    .ret () { v with object := update v.object p (some (x, v.built)), built := v.built + 1 }
  else .undefined

/-- The callable at `p`. -/
def read (p : Place W) : Prog (World W F V) (Callable F V) := fun v =>
  match v.object p with
  | some (x, _) => .ret x v
  | none => .undefined

/-- The callable at `p`, through an operation table for `f`. -/
def readAs (p : Place W) (f : F) : Prog (World W F V) (Callable F V) := do
  let x ← read p
  if x.type = f then pure x else Prog.invalid

/-- `copy_object<F>()`. -/
def copyObject (f : F) (destination source : Place W) : Prog (World W F V) Unit := do
  let x ← readAs source f
  build destination x

/-- The value of the object at `p` changes. -/
def setValue (p : Place W) (x : Callable F V) : Prog (World W F V) Unit := fun v =>
  match v.object p with
  | some (_, n) => .ret () { v with object := update v.object p (some (x, n)) }
  | none => .undefined

/-- `move_object<F>()`. -/
def moveObject (f : F) (destination source : Place W) (left : V × Bool) : Prog (World W F V) Unit := do
  let x ← readAs source f
  build destination x
  setValue source (x.moved left)

/-- The life of the object at `p` ends; what its destructor does comes after. -/
def endLife (p : Place W) : Prog (World W F V) Unit := fun v =>
  match v.object p with
  | some (_, n) => .ret () { v with object := update v.object p none, gone := v.gone ++ [n] }
  | none => .undefined

/-- `destroy_object<F>()`, where `dtor` is the body of the destructor. -/
def destroyObject (f : F) (p : Place W) (dtor : Prog (World W F V) Unit) : Prog (World W F V) Unit := do
  let _ ← readAs p f
  endLife p
  dtor

/-- The wrapper's own members are gone. -/
def endWrapper (w : W) : Prog (World W F V) Unit := fun v =>
  if v.alive w then .ret () { v with alive := update v.alive w false } else .undefined

/-- The wrapper's members are there, with no target. -/
def beginWrapper (w : W) : Prog (World W F V) Unit := fun v =>
  if v.alive w then .undefined
  else .ret () { v with alive := update v.alive w true, ops := update v.ops w none }

/-! ### Destructors -/

/-- `reset()`: empty first, then destroy. -/
def resetBy (w : W) (dtor : Prog (World W F V) Unit) : Prog (World W F V) Unit := do
  match ← opsOf w with
  | none => pure ()
  | some f => do
    setOps w none
    destroyObject f (.target w) dtor

/-- The destructor of a callable held by the wrapper `own`, if any. -/
def runScript (own : Option W) : Script W → Prog (World W F V) Unit
  | .done => pure ()
  | .hasValue rest => do
    match own with
    | none => pure ()
    | some w => do
      let _ ← opsOf w
      pure ()
    runScript own rest
  | .reset inner rest => do
    match own with
    | none => pure ()
    | some w => resetBy w (runScript (some w) inner)
    runScript own rest
  | .endWrapper w inner rest => do
    resetBy w (runScript (some w) inner)
    endWrapper w
    runScript own rest
  | .endCallable k inner rest => do
    endLife (.callable k)
    runScript none inner
    runScript own rest

/-! ### The wrappers -/

/-- `reset()`, and `operator=(nullptr)`. -/
def reset (w : W) (dtor : Script W) : Prog (World W F V) Unit := resetBy w (runScript (some w) dtor)

/-- `~fixed_function()`. -/
def destruct (w : W) (dtor : Script W) : Prog (World W F V) Unit := do
  reset w dtor
  endWrapper w

/-- `other.ops_`, dereferenced. -/
def tableOf (w : W) : Prog (World W F V) F := do
  match ← opsOf w with
  | none => Prog.invalid
  | some f => pure f

/-- `other.ops_->copy(storage_ptr(), other.storage_ptr_const()); ops_ = other.ops_;` -/
def copyTarget (self other : W) : Prog (World W F V) Unit := do
  let f ← tableOf other
  copyObject f (.target self) (.target other)
  let ops ← opsOf other
  setOps self ops

/-- `other.ops_->move(storage_ptr(), other.storage_ptr()); ops_ = other.ops_;` -/
def moveTarget (self other : W) (left : V × Bool) : Prog (World W F V) Unit := do
  let f ← tableOf other
  moveObject f (.target self) (.target other) left
  let ops ← opsOf other
  setOps self ops

/-- `fixed_function(const fixed_function& other)`. -/
def copyConstruct (self other : W) : Prog (World W F V) Unit := do
  beginWrapper self
  match ← opsOf other with
  | none => pure ()
  | some _ => copyTarget self other

/-- `fixed_function(fixed_function&& other)`. -/
def moveConstruct (self other : W) (left : V × Bool) (dtor : Script W) : Prog (World W F V) Unit := do
  beginWrapper self
  match ← opsOf other with
  | none => pure ()
  | some _ => do
    moveTarget self other left
    reset other dtor

/-- `operator=(const fixed_function& other)`: the old target goes first. -/
def copyAssign (self other : W) (dtor : Script W) : Prog (World W F V) Unit := do
  if self = other then pure ()
  else
    match ← opsOf other with
    | none => reset self dtor
    | some _ => do
      reset self dtor
      copyTarget self other

/-- `operator=(fixed_function&& other)`: the old target goes first. -/
def moveAssign (self other : W) (left : V × Bool) (dtor otherDtor : Script W) :
    Prog (World W F V) Unit := do
  if self = other then pure ()
  else
    match ← opsOf other with
    | none => reset self dtor
    | some _ => do
      reset self dtor
      moveTarget self other left
      reset other otherDtor

/-- `ops_->destroy(storage_ptr())` on a target that was moved from, with `ops_` still set. -/
def destroyMoved (w : W) (dtor : Script W) : Prog (World W F V) Unit := do
  let f ← tableOf w
  destroyObject f (.target w) (runScript (some w) dtor)

/-- `swap()`; the scripts are those of the three objects moved from. -/
def swap (self other : W) (left : V × Bool) (dtor otherDtor tmpDtor : Script W) :
    Prog (World W F V) Unit := do
  if self = other then pure ()
  else
    match ← opsOf self, ← opsOf other with
    | some f, some _ => do
      moveObject f .tmp (.target self) left
      destroyMoved self dtor
      moveTarget self other left
      destroyMoved other otherDtor
      moveObject f (.target other) .tmp left
      setOps other (some f)
      destroyObject f .tmp (runScript none tmpDtor)
    | some _, none => do
      moveTarget other self left
      destroyMoved self dtor
      setOps self none
    | none, some _ => do
      moveTarget self other left
      destroyMoved other otherDtor
      setOps other none
    | none, none => pure ()

/-- `decayed_type incoming(std::forward<F>(function))`. -/
def takeIn (source : Place W) (f : F) : Forward V → Prog (World W F V) Unit
  | .copy => copyObject f .incoming source
  | .move left => moveObject f .incoming source left

/-- `try_assign_callable()`: the new target is built before the old one goes. -/
def tryAssignCallable (t : Traits F) (self : W) (source : Place W) (forward : Forward V)
    (dtor incomingDtor : Script W) : Prog (World W F V) Bool := do
  let x ← read source
  if t.isPointer x.type && x.null then Prog.stop
  else if t.isWrapper x.type && x.null then do
    reset self dtor
    pure true
  else if t.capacity < t.size x.type then pure false
  else do
    takeIn source x.type forward
    reset self dtor
    moveObject x.type (.target self) .incoming (x.value, x.null)
    setOps self (some x.type)
    destroyObject x.type .incoming (runScript none incomingDtor)
    pure true

/-- `assign()`, which the assignment from a callable also is. -/
def assign (t : Traits F) (self : W) (source : Place W) (forward : Forward V)
    (dtor incomingDtor : Script W) : Prog (World W F V) Unit := do
  let assigned ← tryAssignCallable t self source forward dtor incomingDtor
  if assigned then pure () else Prog.stop

/-- The converting constructor. -/
def construct (t : Traits F) (self : W) (source : Place W) (forward : Forward V)
    (incomingDtor : Script W) : Prog (World W F V) Unit := do
  beginWrapper self
  assign t self source forward .done incomingDtor

/-! ### The calls of a program -/

/-- The wrappers' functions, and the program making and ending its own callables. -/
inductive Call (W F V : Type) where
  | create (k : ℕ) (x : Callable F V)
  | discard (k : ℕ) (dtor : Script W)
  | default (self : W)
  | construct (self : W) (source : Place W) (forward : Forward V) (incomingDtor : Script W)
  | copyConstruct (self other : W)
  | moveConstruct (self other : W) (left : V × Bool) (dtor : Script W)
  | tryAssign (self : W) (source : Place W) (forward : Forward V) (dtor incomingDtor : Script W)
  | assign (self : W) (source : Place W) (forward : Forward V) (dtor incomingDtor : Script W)
  | copyAssign (self other : W) (dtor : Script W)
  | moveAssign (self other : W) (left : V × Bool) (dtor otherDtor : Script W)
  | swap (self other : W) (left : V × Bool) (dtor otherDtor tmpDtor : Script W)
  | reset (self : W) (dtor : Script W)
  | destruct (self : W) (dtor : Script W)

/-- One call; only `try_assign()` answers. -/
def serve (t : Traits F) : Call W F V → Prog (World W F V) (Option Bool)
  | .create k x => do
    build (.callable k) x
    pure none
  | .discard k dtor => do
    endLife (.callable k)
    runScript none dtor
    pure none
  | .default self => do
    beginWrapper self
    pure none
  | .construct self source forward incomingDtor => do
    FixedFunction.construct t self source forward incomingDtor
    pure none
  | .copyConstruct self other => do
    FixedFunction.copyConstruct self other
    pure none
  | .moveConstruct self other left dtor => do
    FixedFunction.moveConstruct self other left dtor
    pure none
  | .tryAssign self source forward dtor incomingDtor => do
    let assigned ← tryAssignCallable t self source forward dtor incomingDtor
    pure (some assigned)
  | .assign self source forward dtor incomingDtor => do
    FixedFunction.assign t self source forward dtor incomingDtor
    pure none
  | .copyAssign self other dtor => do
    FixedFunction.copyAssign self other dtor
    pure none
  | .moveAssign self other left dtor otherDtor => do
    FixedFunction.moveAssign self other left dtor otherDtor
    pure none
  | .swap self other left dtor otherDtor tmpDtor => do
    FixedFunction.swap self other left dtor otherDtor tmpDtor
    pure none
  | .reset self dtor => do
    FixedFunction.reset self dtor
    pure none
  | .destruct self dtor => do
    FixedFunction.destruct self dtor
    pure none

end Metl.FixedFunction
