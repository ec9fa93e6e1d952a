import Mathlib.Data.List.Basic
import Mathlib.Data.Nat.Notation

/-! The cooperative scheduler of `coro/scheduler.hpp`.

        tasks_     [ e0 | e1 | e2 ]                 an entry: task, poll, attachment number
        round_ ──► [ e0 | e1 ] ──► [ e0 ] ──► ∅     snapshots of the running rounds, innermost first

    A poll is user code: while it runs it may attach, detach and run further rounds, and those may
    poll it again. So `run_once` is cut at every poll, and the running rounds form a stack. A round
    that stands in a poll waits for it to return; any other round is in its loop.

    The number of an attachment is reused. To say which attachment an entry stands for, the model
    also counts the attachments ever made. -/

namespace Metl.Scheduler

/-- `entry`. The task is its address. -/
structure Entry (T F : Type) where
  task : T
  poll : F
  attachment : ℕ
  /-- Ghost: how many attachments were made before this one. -/
  serial : ℕ
  deriving DecidableEq

/-- One activation of `run_once`. -/
structure Round (T F : Type) where
  snapshot : List (Entry T F)
  index : ℕ
  /-- The poll of `snapshot[index]` is on the stack. -/
  polling : Bool
  stillRunning : ℕ
  /-- Ghost: how many attachments were made before the round began. -/
  began : ℕ
  /-- Ghost: for every turn so far, whether the attachment was attached then. -/
  live : List Bool
  /-- Ghost: the entries polled, and what their polls returned. -/
  polled : List (Entry T F)
  answers : List Bool

structure World (T F : Type) where
  tasks : List (Entry T F)
  nextAttachment : ℕ
  /-- The running rounds, innermost first: `round_` and its chain of `outer` pointers. -/
  rounds : List (Round T F)
  /-- Ghost: the attachments made so far, and the rounds that are over with their results. -/
  serials : ℕ
  returned : List (Round T F × ℕ)

variable {T F : Type} [DecidableEq T]

def init : World T F where
  tasks := []
  nextAttachment := 0
  rounds := []
  serials := 0
  returned := []

/-! ### Attaching and detaching -/

def isAttached (w : World T F) (task : T) : Bool := w.tasks.any fun e => e.task == task

def detach (w : World T F) (task : T) : World T F × Bool :=
  ({ w with tasks := w.tasks.eraseP fun e => e.task == task }, isAttached w task)

def holds (w : World T F) (attachment : ℕ) : Bool :=
  w.tasks.any fun e => e.attachment == attachment

def inUse (w : World T F) (attachment : ℕ) : Bool :=
  holds w attachment ||
    w.rounds.any fun frame => frame.snapshot.any fun e => e.attachment == attachment

def remove (w : World T F) (attachment : ℕ) : World T F :=
  { w with tasks := w.tasks.eraseP fun e => e.attachment == attachment }

/-- `attachment_numbers`; `2 * Capacity + 1` does not wrap, since an array of `Capacity` entries of
    three words fits the address space. -/
def attachmentNumbers (capacity : ℕ) : ℕ := 2 * capacity + 1

/-- The loop of `try_take_attachment`, with `tries` to go and `next_attachment_` at `next`. -/
def takeLoop (capacity : ℕ) (w : World T F) : ℕ → ℕ → ℕ × Option ℕ
  | 0, next => (next, none)
  | tries + 1, next =>
    let next' := if next + 1 = attachmentNumbers capacity then 0 else next + 1
    if inUse w next then takeLoop capacity w tries next' else (next', some next)

def tryTakeAttachment (capacity : ℕ) (w : World T F) : World T F × Option ℕ :=
  let r := takeLoop capacity w (attachmentNumbers capacity) w.nextAttachment
  ({ w with nextAttachment := r.1 }, r.2)

/-- `try_attach_impl`; a null `fn` is `none`, and the outer `none` is a `METL_HARDEN` that stops. -/
def tryAttachImpl (capacity : ℕ) (w : World T F) (task : T) (fn : Option F) : Option (World T F × Bool) :=
  if isAttached w task then none
  else
    fn.map fun poll =>
      if w.tasks.length = capacity then (w, false)
      else
        match tryTakeAttachment capacity w with
        | (w, none) => (w, false)
        | (w, some attachment) =>
          ({ w with
              tasks := w.tasks ++ [⟨task, poll, attachment, w.serials⟩]
              serials := w.serials + 1 }, true)

/-! ### Rounds -/

/-- `run_once` up to its loop. -/
def beginRound (w : World T F) : World T F :=
  { w with
    rounds :=
      { snapshot := w.tasks, index := 0, polling := false, stillRunning := 0, began := w.serials,
        live := [], polled := [], answers := [] } :: w.rounds }

/-- The loop of `run_once` goes on: the next entry is polled or skipped, or the round is over. -/
def advance (w : World T F) (r : Round T F) (outer : List (Round T F)) : World T F :=
  match r.snapshot[r.index]? with
  | none => { w with rounds := outer, returned := (r, r.stillRunning) :: w.returned }
  | some e =>
    let live := r.live ++ [w.tasks.any fun a => a.serial == e.serial]
    if holds w e.attachment then
      { w with rounds := { r with polling := true, live, polled := r.polled ++ [e] } :: outer }
    else { w with rounds := { r with index := r.index + 1, live } :: outer }

/-- The poll of `snapshot[index]` returns `more`. -/
def pollReturned (w : World T F) (r : Round T F) (outer : List (Round T F)) (e : Entry T F)
    (more : Bool) : World T F :=
  let r := { r with index := r.index + 1, polling := false, answers := r.answers ++ [more] }
  if more then { w with rounds := { r with stillRunning := r.stillRunning + 1 } :: outer }
  else { remove w e.attachment with rounds := r :: outer }

/-! ### The machine -/

inductive Act (T F : Type) where
  /-- The caller, or the running poll, calls `try_attach`, `detach` or `run_once`. -/
  | attach (task : T) (fn : Option F)
  | detach (task : T)
  | runOnce
  /-- The innermost round goes on. -/
  | advance
  /-- The running poll returns. -/
  | ret (more : Bool)

/-- No round is running, or the innermost one waits for its poll. -/
def userCode (w : World T F) : Bool :=
  match w.rounds with
  | [] => true
  | r :: _ => r.polling

def step (capacity : ℕ) (w : World T F) : Act T F → Option (World T F)
  | .attach task fn =>
    if userCode w then (tryAttachImpl capacity w task fn).map Prod.fst else none
  | .detach task => if userCode w then some (detach w task).1 else none
  | .runOnce => if userCode w then some (beginRound w) else none
  | .advance =>
    match w.rounds with
    | r :: outer => if r.polling then none else some (advance w r outer)
    | [] => none
  | .ret more =>
    match w.rounds with
    | r :: outer =>
      if r.polling then (r.snapshot[r.index]?).map fun e => pollReturned w r outer e more
      else none
    | [] => none

end Metl.Scheduler
