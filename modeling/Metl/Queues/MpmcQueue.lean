import Metl.Queues.IndexDistance
import Metl.Schemes.Run

/-! `metl::mpmc_queue`: the bounded queue with one sequence number per cell.

    Any number of threads push and pop. Every atomic load, store and compare-exchange, and every
    construction, move-out and destruction of an element, is one step; a compare-exchange may fail
    spuriously. Tickets and sequences are `w`-bit words. The ghost counters `enq` and `deq` count the
    tickets issued on each side, and the ghost logs record what each ticket's owner did with it.

        push:  pos ──▶ seq ──▶ cas ──▶ build ──▶ publish ──▶ returned
                ▲       │ ahead │ lost
                └───────┘◀──────┘            behind ──▶ returned false
        pop:   pos ──▶ seq ──▶ cas ──▶ move ──▶ destroy ──▶ release ──▶ returned -/

namespace Metl.MpmcQueue
open Metl.Schemes Metl.IndexDistance Function

/-- The template parameters the queue accepts, on a word wide enough for the ticket comparison. -/
structure Cfg extends Ring where
  slack : capacity < 2 ^ (w - 2)

inductive Ret (T : Type*) where
  | pushed (ok : Bool)
  | popped (out : Option T)

/-- Where a thread stands; `pos` is its local copy of the ticket counter. -/
inductive Pc (T : Type*) (w : ℕ) where
  | idle
  | pushPos (v : T)
  | pushSeq (v : T) (pos : BitVec w)
  | pushCas (v : T) (pos : BitVec w)
  | pushBuild (v : T) (pos : BitVec w)
  | pushPublish (v : T) (pos : BitVec w)
  | popPos
  | popSeq (pos : BitVec w)
  | popCas (pos : BitVec w)
  | popMove (pos : BitVec w)
  | popDestroy (pos : BitVec w) (x : T)
  | popRelease (pos : BitVec w) (x : T)
  | returned (r : Ret T)

/-- A cell; `storage` is `some v` while an element lives in it. -/
structure Cell (T : Type*) (w : ℕ) where
  sequence : BitVec w
  storage : Option T

structure State (T : Type*) (w : ℕ) where
  cells : ℕ → Cell T w
  enqueuePos : BitVec w
  dequeuePos : BitVec w
  pcs : ℕ → Pc T w
  -- ghosts: tickets issued on each side, and each thread's view of its own side
  enq : ℕ
  deq : ℕ
  began : ℕ → ℕ
  ticket : ℕ → ℕ
  -- ghosts: what the owner of each ticket has done so far
  built : List (ℕ × T)
  published : List ℕ
  taken : List (ℕ × T)
  released : List ℕ

variable {T : Type*} (c : Cfg)

/-- Cell `i` starts ready for the producer whose ticket is `i`. -/
def init : State T c.w where
  cells := fun i => ⟨BitVec.ofNat c.w i, none⟩
  enqueuePos := 0
  dequeuePos := 0
  pcs := fun _ => .idle
  enq := 0
  deq := 0
  began := fun _ => 0
  ticket := fun _ => 0
  built := []
  published := []
  taken := []
  released := []

def State.setPc {w : ℕ} (s : State T w) (t : ℕ) (pc : Pc T w) : State T w :=
  { s with pcs := update s.pcs t pc }

/-- The cell a ticket word selects: `cells_[pos & mask]`. -/
def cellAt (s : State T c.w) (pos : BitVec c.w) : Cell T c.w := s.cells (c.slot pos)

def setCell (s : State T c.w) (pos : BitVec c.w) (x : Cell T c.w) : State T c.w :=
  { s with cells := update s.cells (c.slot pos) x }

/-- One step of `try_claim_and_construct` or `try_pop` by thread `t`, at program counter `pc`. -/
def advance (s : State T c.w) (t : ℕ) : Pc T c.w → Option (State T c.w)
  | .idle => none
  | .returned _ => none
  | .pushPos v => some (s.setPc t (.pushSeq v s.enqueuePos))
  | .pushSeq v pos =>
    let difference := compareTickets (cellAt c s pos).sequence pos
    if difference = 0 then some (s.setPc t (.pushCas v pos))
    else if difference < 0 then some (s.setPc t (.returned (.pushed false)))
    else some (s.setPc t (.pushPos v))
  | .pushCas v pos =>
    if s.enqueuePos = pos then
      some { s.setPc t (.pushBuild v pos) with
        enqueuePos := pos + 1, enq := s.enq + 1, ticket := update s.ticket t s.enq }
    else some (s.setPc t (.pushSeq v s.enqueuePos))
  | .pushBuild v pos =>
    some { (setCell c s pos { cellAt c s pos with storage := some v }).setPc t (.pushPublish v pos) with
      built := s.built ++ [(s.ticket t, v)] }
  | .pushPublish _ pos =>
    some { (setCell c s pos { cellAt c s pos with sequence := pos + 1 }).setPc t
        (.returned (.pushed true)) with
      published := s.published ++ [s.ticket t] }
  | .popPos => some (s.setPc t (.popSeq s.dequeuePos))
  | .popSeq pos =>
    let difference := compareTickets (cellAt c s pos).sequence (pos + 1)
    if difference = 0 then some (s.setPc t (.popCas pos))
    else if difference < 0 then some (s.setPc t (.returned (.popped none)))
    else some (s.setPc t .popPos)
  | .popCas pos =>
    if s.dequeuePos = pos then
      some { s.setPc t (.popMove pos) with
        dequeuePos := pos + 1, deq := s.deq + 1, ticket := update s.ticket t s.deq }
    else some (s.setPc t (.popSeq s.dequeuePos))
  | .popMove pos =>
    -- moving out of a cell without an element is not a step at all
    (cellAt c s pos).storage.map fun x =>
      { s.setPc t (.popDestroy pos x) with taken := s.taken ++ [(s.ticket t, x)] }
  | .popDestroy pos x =>
    some ((setCell c s pos { cellAt c s pos with storage := none }).setPc t (.popRelease pos x))
  | .popRelease pos x =>
    some { (setCell c s pos
        { cellAt c s pos with sequence := pos + BitVec.ofNat c.w c.capacity }).setPc t
        (.returned (.popped (some x))) with
      released := s.released ++ [s.ticket t] }

/-- The scheduler's choices for a thread: begin a call, take its next step, or fail its weak
    compare-exchange spuriously. -/
inductive Act (T : Type*) where
  | tryPush (v : T)
  | tryPop
  | go
  | spurious

def Pc.inProgress {w : ℕ} : Pc T w → Bool
  | .idle => false
  | .returned _ => false
  | _ => true

def Pc.isPush {w : ℕ} : Pc T w → Bool
  | .pushPos _ | .pushSeq _ _ | .pushCas _ _ | .pushBuild _ _ | .pushPublish _ _ => true
  | _ => false

def step (s : State T c.w) (a : ℕ × Act T) : Option (State T c.w) :=
  match a.2 with
  | .tryPush v =>
    if (s.pcs a.1).inProgress then none
    else some { s.setPc a.1 (.pushPos v) with began := update s.began a.1 s.enq }
  | .tryPop =>
    if (s.pcs a.1).inProgress then none
    else some { s.setPc a.1 .popPos with began := update s.began a.1 s.deq }
  | .go => advance c s a.1 (s.pcs a.1)
  | .spurious =>
    match s.pcs a.1 with
    | .pushCas v _ => some (s.setPc a.1 (.pushSeq v s.enqueuePos))
    | .popCas _ => some (s.setPc a.1 (.popSeq s.dequeuePos))
    | _ => none

/-- No call is in progress while `2 ^ (w - 2)` or more tickets are issued on its side. -/
def Timely (s : State T c.w) : Prop :=
  ∀ t, (s.pcs t).inProgress = true →
    (if (s.pcs t).isPush then s.enq else s.deq) - s.began t < 2 ^ (c.w - 2)

/-- A run all of whose states are timely. -/
inductive Reach : State T c.w → Prop where
  | init : Reach (init c)
  | step {s s' : State T c.w} (a : ℕ × Act T) :
      Reach s → step c s a = some s' → Timely c s' → Reach s'

/-- The loop of `~mpmc_queue()`: destroy in place from `pos` up to `last`, at most `fuel` elements.
    Destroying in a cell without an element is not a step, and neither is running out of fuel. -/
def destroyFrom : ℕ → (ℕ → Cell T c.w) → BitVec c.w → BitVec c.w → Option ((ℕ → Cell T c.w) × List T)
  | 0, cells, pos, last => if pos = last then some (cells, []) else none
  | fuel + 1, cells, pos, last =>
    if pos = last then some (cells, [])
    else (cells (c.slot pos)).storage.bind fun x =>
      (destroyFrom fuel (update cells (c.slot pos)
          { cells (c.slot pos) with storage := none }) (pos + 1) last).map
        fun out => (out.1, x :: out.2)

/-- `size_approx()`, both counters read from one state. -/
def sizeApprox (s : State T c.w) : ℕ := clampedIndexDistance s.dequeuePos s.enqueuePos c.capacity

end Metl.MpmcQueue
