import Metl.Control.FixedPriorityQueue
import Metl.Schemes.Run

/-! The scheduler of `coro/deadline_scheduler.hpp`: tasks in the order of their deadlines.

        queue_        heap of entries, earliest on top
        run_due       top is due ─► pop ─► poll ─► push it again, if the poll gives a new deadline
        poll_depth_   one slot held back per poll on the stack

    A poll is user code: while it runs it may schedule, cancel, clear and run what is due. So `run_due`
    is cut at every poll and its activations form a stack, innermost first.

    The order of scheduling is a counter of 64 bits. The model also keeps every entry ever pushed, in
    order, and what became of it. -/

namespace Metl.DeadlineScheduler
open Metl.Schemes Metl.FixedPriorityQueue

/-! ### The machine -/

structure Entry (Tick T F : Type) where
  deadline : Tick
  task : T
  poll : F
  sequence : ℕ
  /-- Ghost: how many entries were pushed before. -/
  serial : ℕ
  deriving DecidableEq

/-- One activation of `run_due`. -/
structure Activation (Tick T F : Type) where
  now : Tick
  maxDispatches : ℕ
  dispatched : ℕ
  /-- The entry whose poll is on the stack. -/
  polling : Option (Entry Tick T F)

structure World (Tick T F : Type) where
  queue : List (Entry Tick T F)
  pollDepth : ℕ
  nextSequence : ℕ
  runs : List (Activation Tick T F)
  /-- Ghost: the entries pushed so far, those polled and those cancelled or cleared. -/
  pushed : List (Entry Tick T F)
  polled : List (Entry Tick T F)
  dropped : List (Entry Tick T F)
  /-- Ghost: the activations that are over. -/
  returned : List (Activation Tick T F)

variable {Tick T F : Type} [LinearOrder Tick] [DecidableEq T]

def init : World Tick T F where
  queue := []
  pollDepth := 0
  nextSequence := 0
  runs := []
  pushed := []
  polled := []
  dropped := []
  returned := []

/-- `later_deadline`: `lhs` comes out after `rhs`. -/
def laterDeadline (lhs rhs : Entry Tick T F) : Bool :=
  if lhs.deadline ≠ rhs.deadline then decide (rhs.deadline < lhs.deadline)
  else decide (rhs.sequence < lhs.sequence)

def reserved (w : World Tick T F) : ℕ := w.pollDepth

/-- The next entry, with `next_sequence_++`. -/
def newEntry (w : World Tick T F) (deadline : Tick) (task : T) (poll : F) : Entry Tick T F where
  deadline := deadline
  task := task
  poll := poll
  sequence := w.nextSequence
  serial := w.pushed.length

/-- The entry is in the queue, and its sequence number is used. -/
def afterPush (w : World Tick T F) (e : Entry Tick T F) (queue : List (Entry Tick T F)) :
    World Tick T F :=
  { w with queue, nextSequence := (w.nextSequence + 1) % 2 ^ 64, pushed := w.pushed ++ [e] }

/-- `try_schedule`; a null `fn` is `none`, and the outer `none` is the `METL_HARDEN`. -/
def trySchedule (capacity : ℕ) (w : World Tick T F) (task : T) (fn : Option F) (deadline : Tick) :
    Option (World Tick T F × Bool) :=
  fn.map fun poll =>
    if capacity ≤ w.queue.length + reserved w then (w, false)
    else
      let e := newEntry w deadline task poll
      match tryPush laterDeadline capacity w.queue e with
      | none => (w, false)
      | some queue => (afterPush w e queue, true)

def cancel (w : World Tick T F) (task : T) : World Tick T F × Bool :=
  let r := eraseIf laterDeadline (fun e => e.task == task) w.queue
  ({ w with queue := r.1, dropped := w.dropped ++ w.queue.filter fun e => e.task == task }, r.2 != 0)

def clear (w : World Tick T F) : World Tick T F :=
  { w with queue := [], dropped := w.dropped ++ w.queue }

/-- `run_due` up to its loop. -/
def beginRun (w : World Tick T F) (now : Tick) (maxDispatches : ℕ) : World Tick T F :=
  { w with runs := ⟨now, maxDispatches, 0, none⟩ :: w.runs }

/-- The loop of `run_due` goes on: the top is polled, or the call returns. -/
def advance (w : World Tick T F) (r : Activation Tick T F) (outer : List (Activation Tick T F)) :
    Option (World Tick T F) :=
  let done := { w with runs := outer, returned := r :: w.returned }
  match w.queue[0]? with
  | none => some done
  | some due =>
    if r.dispatched < r.maxDispatches ∧ ¬r.now < due.deadline then
      (pop laterDeadline w.queue).map fun queue =>
        { w with
          queue
          pollDepth := w.pollDepth + 1
          runs := { r with dispatched := r.dispatched + 1, polling := some due } :: outer
          polled := w.polled ++ [due] }
    else some done

/-- The poll of `due` returns; a new deadline is pushed, and `none` would be the assertion of
    `queue_.push`. -/
def pollReturned (capacity : ℕ) (w : World Tick T F) (r : Activation Tick T F)
    (outer : List (Activation Tick T F)) (due : Entry Tick T F) (next : Option Tick) :
    Option (World Tick T F) :=
  let back := { w with pollDepth := w.pollDepth - 1, runs := { r with polling := none } :: outer }
  match next with
  | none => some back
  | some deadline =>
    let e := newEntry w deadline due.task due.poll
    (push laterDeadline capacity w.queue e).map (afterPush back e)

inductive Act (Tick T F : Type) where
  /-- The caller, or the running poll, calls the scheduler. -/
  | schedule (task : T) (fn : Option F) (deadline : Tick)
  | cancel (task : T)
  | clear
  | runDue (now : Tick) (maxDispatches : ℕ)
  /-- The innermost `run_due` goes on. -/
  | advance
  /-- The running poll returns. -/
  | ret (next : Option Tick)

/-- No `run_due` is running, or the innermost one waits for a poll. -/
def userCode (w : World Tick T F) : Bool :=
  match w.runs with
  | [] => true
  | r :: _ => r.polling.isSome

def step (capacity : ℕ) (w : World Tick T F) : Act Tick T F → Option (World Tick T F)
  | .schedule task fn deadline =>
    if userCode w then (trySchedule capacity w task fn deadline).map Prod.fst else none
  | .cancel task => if userCode w then some (cancel w task).1 else none
  | .clear => if userCode w then some (clear w) else none
  | .runDue now maxDispatches => if userCode w then some (beginRun w now maxDispatches) else none
  | .advance =>
    match w.runs with
    | r :: outer => if r.polling.isSome then none else advance w r outer
    | [] => none
  | .ret next =>
    match w.runs with
    | r :: outer => r.polling.bind fun due => pollReturned capacity w r outer due next
    | [] => none

/-! ### The order of the queue -/

omit [DecidableEq T] in
theorem laterDeadline_iff {a b : Entry Tick T F} : laterDeadline a b = true ↔
    b.deadline < a.deadline ∨ a.deadline = b.deadline ∧ b.sequence < a.sequence := by
  unfold laterDeadline
  by_cases heq : a.deadline = b.deadline
  · simp [heq]
  · simp [heq]

omit [DecidableEq T] in
theorem laterDeadline_false {a b : Entry Tick T F} : laterDeadline a b = false ↔
    a.deadline < b.deadline ∨ a.deadline = b.deadline ∧ a.sequence ≤ b.sequence := by
  rw [← Bool.not_eq_true, laterDeadline_iff]
  constructor
  · intro h
    rw [not_or, not_lt] at h
    rcases lt_or_eq_of_le h.1 with hlt | heq
    · exact Or.inl hlt
    · refine Or.inr ⟨heq, ?_⟩
      by_contra hseq
      exact h.2 ⟨heq, by omega⟩
  · rintro (hlt | ⟨heq, hseq⟩) (hlt' | ⟨heq', hseq'⟩)
    · exact lt_asymm hlt hlt'
    · exact hlt.ne heq'
    · exact hlt'.ne heq.symm
    · omega

omit [DecidableEq T] in
theorem laterDeadline_strictWeak :
    StrictWeak (laterDeadline : Entry Tick T F → Entry Tick T F → Bool) where
  asymm := by
    intro a b h
    rcases laterDeadline_iff.mp h with hlt | ⟨heq, hseq⟩
    · exact laterDeadline_false.mpr (Or.inl hlt)
    · exact laterDeadline_false.mpr (Or.inr ⟨heq.symm, by omega⟩)
  trans := by
    intro a b c hab hbc
    rw [laterDeadline_false] at hab hbc ⊢
    rcases hab with hab | ⟨hab, hab'⟩
    · rcases hbc with hbc | ⟨hbc, -⟩
      · exact Or.inl (hab.trans hbc)
      · exact Or.inl (hbc ▸ hab)
    · rcases hbc with hbc | ⟨hbc, hbc'⟩
      · exact Or.inl (hab ▸ hbc)
      · exact Or.inr ⟨hab.trans hbc, Nat.le_trans hab' hbc'⟩

end Metl.DeadlineScheduler
