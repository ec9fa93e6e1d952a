import Mathlib
import Metl.Schemes.Throwing

/-! `expected<T, E>`: a value or an error in one union, with a discriminant managed by hand.

        state     value ◄────── switching ──────► error
        storage   [T alive]     [T, E or dead]    [E alive]

    Every operation that replaces the member builds the new one aside, marks the discriminant
    `switching`, destroys the old member, moves the new one in and names it. Where that last move can
    throw, the old member is set aside first and moved back by the handler.

    The user's constructors, moves, assignments and swaps are calls that may throw: a script says, call
    by call, which do. A reference passed as an argument names an object, so reading it after that
    object is gone is undefined. -/

namespace Metl.Expected

open Metl.Schemes Function

inductive Kind where
  | value
  | error
  deriving DecidableEq, Repr

def Kind.other : Kind → Kind
  | .value => .error
  | .error => .value

/-- `expected_state` -/
inductive State where
  | value
  | error
  | switching
  deriving DecidableEq, Repr

def Kind.state : Kind → State
  | .value => .value
  | .error => .error

/-- The contents of a `T` or of an `E`. -/
inductive Member (V W : Type) where
  | value (v : V)
  | error (e : W)
  deriving DecidableEq, Repr

def Member.kind {V W : Type} : Member V W → Kind
  | .value _ => .value
  | .error _ => .error

/-- An object in the union; `id` numbers the objects ever built in one. -/
structure Object (V W : Type) where
  id : ℕ
  member : Member V W

structure Slot (V W : Type) where
  state : State
  storage : Option (Object V W)

/-- What a call that throws leaves in the contents it was working on. -/
structure Damage (V W : Type) where
  value : V → V
  error : W → W

def Damage.apply {V W : Type} (d : Damage V W) : Member V W → Member V W
  | .value v => .value (d.value v)
  | .error e => .error (d.error e)

/-- What the code asks of the types `T` and `E`, and what a move leaves of its source. -/
structure Types (V W : Type) where
  nothrowMove : Kind → Bool
  noExceptions : Bool
  movedValue : V → V
  movedError : W → W

def Types.moved {V W : Type} (T : Types V W) : Member V W → Member V W
  | .value v => .value (T.movedValue v)
  | .error e => .error (T.movedError e)

/-- The expected objects that exist, the union objects built and destroyed so far (each with the
    discriminant its destructor could read), and what the next calls of user code do. -/
structure World (I V W : Type) where
  slot : I → Option (Slot V W)
  built : ℕ
  destroyed : List (ℕ × State)
  script : List (Option (Damage V W))

def init {I V W : Type} : World I V W := ⟨fun _ => none, 0, [], []⟩

variable {I V W : Type} [DecidableEq I]

/-! ### What happens to one object -/

/-- The contents at `i` change in place. -/
def alter (w : World I V W) (i : I) (f : Member V W → Member V W) : World I V W :=
  { w with
    slot := update w.slot i ((w.slot i).map fun s =>
      { s with storage := s.storage.map fun o => { o with member := f o.member } }) }

/-- A call of user code that works on the members of `touched`. -/
def userCall (T : Types V W) (nothrow : Bool) (touched : List I) : Prog (World I V W) Unit := fun w =>
  if nothrow || T.noExceptions then .ret () w
  else match w.script with
    | [] => .ret () w
    | none :: rest => .ret () { w with script := rest }
    | some d :: rest =>
      .thrown (touched.foldl (fun w i => alter w i d.apply) { w with script := rest })

def slotOf (i : I) : Prog (World I V W) (Slot V W) := fun w =>
  match w.slot i with
  | none => .undefined
  | some s => .ret s w

def setState (i : I) (state : State) : Prog (World I V W) Unit := fun w =>
  match w.slot i with
  | none => .undefined
  | some s => .ret () { w with slot := update w.slot i (some { s with state := state }) }

/-- `value_ptr()->~T()` or `error_ptr()->~E()`. -/
def destroyMember (i : I) (k : Kind) : Prog (World I V W) Unit := fun w =>
  match w.slot i with
  | some ⟨state, some o⟩ =>
    if o.member.kind = k then .ret ()
      { w with
        slot := update w.slot i (some ⟨state, none⟩)
        destroyed := w.destroyed ++ [(o.id, state)] }
    else .undefined
  | _ => .undefined

/-- A new object in the storage of `i`, over whatever it held. -/
def constructAt (i : I) (m : Member V W) : Prog (World I V W) Unit := fun w =>
  match w.slot i with
  | none => .undefined
  | some s => .ret ()
    { w with
      slot := update w.slot i (some { s with storage := some ⟨w.built, m⟩ })
      built := w.built + 1 }

/-- The contents of the member of `i`, which must be a `k`, and what reading them leaves there. -/
def readMember (i : I) (k : Kind) (left : Member V W → Member V W) :
    Prog (World I V W) (Member V W) := fun w =>
  match w.slot i with
  | some ⟨_, some o⟩ => if o.member.kind = k then .ret o.member (alter w i left) else .undefined
  | _ => .undefined

/-- `U local(static_cast<U&&>(*slot))` -/
def moveOut (T : Types V W) (i : I) (k : Kind) : Prog (World I V W) (Member V W) := do
  userCall T (T.nothrowMove k) [i]
  readMember i k T.moved

/-- `::new (slot) U(static_cast<U&&>(local))` -/
def moveInto (T : Types V W) (i : I) (m : Member V W) : Prog (World I V W) Unit := do
  userCall T (T.nothrowMove m.kind) []
  constructAt i m

/-- Construction in `i` from the member of `j`, moved. -/
def moveAcross (T : Types V W) (i j : I) (k : Kind) : Prog (World I V W) Unit := do
  userCall T (T.nothrowMove k) [j]
  let m ← readMember j k T.moved
  constructAt i m

/-! ### Arguments -/

/-- The arguments of a constructor or an assignment: values, or references into the member of some
    expected, from which the call computes the new contents and what it leaves there. -/
inductive Arg (I V W C : Type) where
  | const (c : C)
  | member (j : I) (fromValue : V → C × V) (fromError : W → C × W)

/-- Arguments bound to the objects they refer to. -/
inductive Ref (I V W : Type) where
  | const (m : Member V W)
  | object (j : I) (id : ℕ) (f : Member V W → Member V W × Member V W)

def Ref.touched : Ref I V W → List I
  | .const _ => []
  | .object j _ _ => [j]

/-- The result of the call, with the part that stays behind. -/
def applyArg {C : Type} (mk : C → Member V W) (fromValue : V → C × V) (fromError : W → C × W) :
    Member V W → Member V W × Member V W
  | .value v => (mk (fromValue v).1, .value (fromValue v).2)
  | .error e => (mk (fromError e).1, .error (fromError e).2)

def Arg.bind {C : Type} (mk : C → Member V W) : Arg I V W C → Prog (World I V W) (Ref I V W)
  | .const c => pure (.const (mk c))
  | .member j fromValue fromError => fun w =>
    match w.slot j with
    | some ⟨_, some o⟩ => .ret (.object j o.id (applyArg mk fromValue fromError)) w
    | _ => .undefined

/-- Reading an argument; undefined once the object it refers to is gone. -/
def Ref.read : Ref I V W → Prog (World I V W) (Member V W)
  | .const m => pure m
  | .object j id f => fun w =>
    match w.slot j with
    | some ⟨_, some o⟩ =>
      if o.id = id then .ret (f o.member).1 (alter w j fun m => (f m).2) else .undefined
    | _ => .undefined

/-- `U incoming(std::forward<Args>(args)...)` -/
def build (T : Types V W) (nothrow : Bool) (args : Ref I V W) : Prog (World I V W) (Member V W) := do
  userCall T nothrow args.touched
  args.read

/-- `*slot = std::forward<U>(value)`, with the assignment of the user's type: it takes the contents
    the source had, also when the source lies inside the target. -/
def assign (T : Types V W) (i : I) (value : Ref I V W) : Prog (World I V W) Unit := do
  userCall T false (i :: value.touched)
  let m ← value.read
  Prog.modify fun w => alter w i fun _ => m

/-! ### Replacing the member -/

def requireSettled (i : I) : Prog (World I V W) Unit := do
  let s ← slotOf i
  if s.state = .switching then Prog.stop else pure ()

/-- The member of kind `old` gives way to `incoming`, built aside. Only the move of `incoming` can throw
    once the old member is gone; where it can, the old member is kept in `backup` to move back. -/
def exchange (T : Types V W) (i : I) (old new : Kind) (incoming : Member V W) :
    Prog (World I V W) Unit := do
  if T.nothrowMove new || T.noExceptions then
    setState i .switching
    destroyMember i old
    moveInto T i incoming
  else
    let backup ← moveOut T i old
    setState i .switching
    destroyMember i old
    (moveInto T i incoming).onThrow do
      moveInto T i backup
      setState i old.state

/-- `replace_live`: a member of kind `k` is replaced by a new one of its kind. -/
def replaceLive (T : Types V W) (i : I) (k : Kind) (args : Ref I V W) : Prog (World I V W) Unit := do
  let incoming ← build T false args
  exchange T i k k incoming
  setState i k.state

def commitValue (T : Types V W) (i : I) (incoming : Member V W) : Prog (World I V W) Unit :=
  exchange T i .error .value incoming

def commitError (T : Types V W) (i : I) (incoming : Member V W) : Prog (World I V W) Unit :=
  exchange T i .value .error incoming

/-- `reinit_as_value` and `reinit_as_error`, for movable members. -/
def reinitAs (T : Types V W) (i : I) (k : Kind) (nothrow : Bool) (args : Ref I V W) :
    Prog (World I V W) Unit := do
  let incoming ← build T nothrow args
  match k with
  | .value => commitValue T i incoming
  | .error => commitError T i incoming
  setState i k.state

/-- `assign_value_or_rebind` and `assign_error_or_rebind`. -/
def assignOrRebind (T : Types V W) (i : I) (k : Kind) (nothrow : Bool) (value : Ref I V W) :
    Prog (World I V W) Unit := do
  requireSettled i
  let s ← slotOf i
  if s.state = k.state then assign T i value else reinitAs T i k nothrow value

/-- `emplace` and `emplace_error`. -/
def emplaceAs (T : Types V W) (i : I) (k : Kind) (args : Ref I V W) : Prog (World I V W) Unit := do
  requireSettled i
  let s ← slotOf i
  if s.state = k.state then replaceLive T i k args else reinitAs T i k false args

/-- `operator=` from another expected: `left` says what reading the source leaves there. -/
def assignFrom (T : Types V W) (i j : I) (nothrow : Kind → Bool) (left : Member V W → Member V W) :
    Prog (World I V W) Unit := do
  requireSettled i
  requireSettled j
  if i = j then pure ()
  else
    let s ← slotOf j
    let k := if s.state = .value then Kind.value else Kind.error
    match s.storage with
    | none => Prog.invalid
    | some o => assignOrRebind T i k (nothrow k) (.object j o.id fun m => (m, left m))

/-- `swap_value_error` where errors move without throwing: the error waits in `tmp`. -/
def swapThroughError (T : Types V W) (v e : I) : Prog (World I V W) Unit := do
  let tmp ← moveOut T e .error
  destroyMember e .error
  let cross := if T.nothrowMove .value || T.noExceptions then moveAcross T e v .value
    else (moveAcross T e v .value).onThrow do
      moveInto T e tmp
      setState v .value
      setState e .error
  cross
  destroyMember v .value
  moveInto T v tmp

/-- `swap_value_error` where errors may throw: the value waits in `tmp`. -/
def swapThroughValue (T : Types V W) (v e : I) : Prog (World I V W) Unit := do
  let tmp ← moveOut T v .value
  destroyMember v .value
  (moveAcross T v e .error).onThrow do
    moveInto T v tmp
    setState v .value
    setState e .error
  destroyMember e .error
  moveInto T e tmp

/-- `swap_value_error`: `v` holds a value, `e` an error. Both read as switching until both members
    are in place again. -/
def swapValueError (T : Types V W) (v e : I) : Prog (World I V W) Unit := do
  setState v .switching
  setState e .switching
  let through := if T.nothrowMove .error then swapThroughError T v e else swapThroughValue T v e
  through
  setState v .error
  setState e .value

/-- The contents of two members change places. -/
def exchangeContents (i j : I) : Prog (World I V W) Unit := fun w =>
  match w.slot i, w.slot j with
  | some ⟨_, some a⟩, some ⟨_, some b⟩ =>
    .ret () (alter (alter w i fun _ => b.member) j fun _ => a.member)
  | _, _ => .undefined

/-- The user's `swap` of two members of one kind. -/
def swapMembers (T : Types V W) (i j : I) : Prog (World I V W) Unit := do
  userCall T false [i, j]
  exchangeContents i j

def swap (T : Types V W) (i j : I) : Prog (World I V W) Unit := do
  requireSettled i
  requireSettled j
  let s ← slotOf i
  let t ← slotOf j
  if s.state = .value then
    if t.state = .value then swapMembers T i j else swapValueError T i j
  else
    if t.state = .value then swapValueError T j i else swapMembers T i j

def addSlot (i : I) (m : Member V W) : Prog (World I V W) Unit := fun w =>
  match w.slot i with
  | some _ => .undefined
  | none => .ret ()
    { w with
      slot := update w.slot i (some ⟨m.kind.state, some ⟨w.built, m⟩⟩)
      built := w.built + 1 }

/-- A new expected, holding `m`. -/
def create (T : Types V W) (i : I) (m : Member V W) : Prog (World I V W) Unit := do
  userCall T false []
  addSlot i m

/-- `~expected_members` -/
def destroy (i : I) : Prog (World I V W) Unit := do
  requireSettled i
  let s ← slotOf i
  setState i .switching
  destroyMember i (if s.state = .value then .value else .error)
  Prog.modify fun w => { w with slot := update w.slot i none }

/-! ### Programs -/

inductive Op (I V W : Type) where
  | create (i : I) (m : Member V W)
  | copyAssign (i j : I)
  | moveAssign (i j : I)
  | assignValue (i : I) (value : Arg I V W V)
  | assignError (i : I) (error : Arg I V W W)
  | emplace (i : I) (args : Arg I V W V)
  | emplaceError (i : I) (args : Arg I V W W)
  | swap (i j : I)
  | destroy (i : I)

def exec (T : Types V W) : Op I V W → Prog (World I V W) Unit
  | .create i m => create T i m
  | .copyAssign i j => assignFrom T i j (fun _ => false) fun m => m
  | .moveAssign i j => assignFrom T i j T.nothrowMove T.moved
  | .assignValue i value => do
    let r ← value.bind .value
    assignOrRebind T i .value false r
  | .assignError i error => do
    let r ← error.bind .error
    assignOrRebind T i .error false r
  | .emplace i args => do
    let r ← args.bind .value
    emplaceAs T i .value r
  | .emplaceError i args => do
    let r ← args.bind .error
    emplaceAs T i .error r
  | .swap i j => swap T i j
  | .destroy i => destroy i

def Arg.valid {C : Type} (there : I → Bool) : Arg I V W C → Bool
  | .const _ => true
  | .member j _ _ => there j

/-- The expected objects an operation names exist, and the operation compiles: `swap` asserts that one
    of the two types moves without throwing. -/
def Op.valid (T : Types V W) (there : I → Bool) : Op I V W → Bool
  | .create i _ => !there i
  | .copyAssign i j => there i && there j
  | .moveAssign i j => there i && there j
  | .assignValue i value => there i && value.valid there
  | .assignError i error => there i && error.valid there
  | .emplace i args => there i && args.valid there
  | .emplaceError i args => there i && args.valid there
  | .swap i j => there i && there j && (T.nothrowMove .value || T.nothrowMove .error)
  | .destroy i => there i

/-- One operation of a program, with what its calls of user code do. -/
structure Action (I V W : Type) where
  op : Op I V W
  script : List (Option (Damage V W))

/-- The program goes on after an exception, but not after a stop. -/
def step (T : Types V W) (w : World I V W) (a : Action I V W) : Option (World I V W) :=
  if a.op.valid T fun i => (w.slot i).isSome then
    match exec T a.op { w with script := a.script } with
    | .ret _ w' => some w'
    | .thrown w' => some w'
    | .stopped => none
    | .undefined => none
  else none

end Metl.Expected
