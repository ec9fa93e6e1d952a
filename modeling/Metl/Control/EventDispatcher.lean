import Mathlib

/-! The fan-out of `event_dispatcher.hpp`.

        slots_     [ id 4 | free | id 7 ]           a free slot has id 0
        next_id_   9

    A listener is user code: while it runs it may subscribe, unsubscribe, clear and dispatch again.
    So `dispatch` is cut at every call of a listener, and the running dispatches form a stack,
    innermost first.

    Ids wrap after `2^64 - 1` subscriptions. To say which subscription a slot holds, the model also
    counts the subscriptions ever made. -/

namespace Metl.EventDispatcher

/-- A slot; an empty delegate is `none`. -/
structure Slot (L : Type) where
  id : ℕ
  listener : Option L
  /-- Ghost: how many subscriptions were made before the last one in this slot. -/
  serial : ℕ
  deriving DecidableEq

/-- One activation of `dispatch`. -/
structure Dispatch (L : Type) where
  firstUnheard : ℕ
  index : ℕ
  /-- The listener in the slot `index` is on the stack. -/
  calling : Bool
  /-- Ghost: how many subscriptions were made before, and what the slots held then. -/
  began : ℕ
  present : List (Option (Slot L))
  /-- Ghost: for every slot reached, whether its subscription was there then. -/
  live : List Bool
  /-- Ghost: the slots whose listener was called. -/
  called : List (Slot L)

structure World (L : Type) where
  slots : ℕ → Slot L
  nextId : ℕ
  dispatches : List (Dispatch L)
  /-- Ghost: the ids given so far, in order, and the dispatches that are over. -/
  given : List ℕ
  returned : List (Dispatch L)

variable {L : Type}

def init : World L where
  slots := fun _ => ⟨0, none, 0⟩
  nextId := 1
  dispatches := []
  given := []
  returned := []

/-! ### Subscribing -/

/-- `next_id_++` on 64 bits, and past 0. -/
def bump (id : ℕ) : ℕ := if (id + 1) % 2 ^ 64 = 0 then 1 else (id + 1) % 2 ^ 64

def trySubscribe (capacity : ℕ) (w : World L) (listener : Option L) : World L × Option ℕ :=
  if listener.isNone then (w, none)
  else
    match (List.range capacity).find? fun i => (w.slots i).id == 0 with
    | none => (w, none)
    | some i =>
      ({ w with
          slots := Function.update w.slots i ⟨w.nextId, listener, w.given.length⟩
          nextId := bump w.nextId
          given := w.given ++ [w.nextId] }, some w.nextId)

def unsubscribe (capacity : ℕ) (w : World L) (id : ℕ) : World L × Bool :=
  if id = 0 then (w, false)
  else
    match (List.range capacity).find? fun i => (w.slots i).id == id with
    | none => (w, false)
    | some i =>
      ({ w with slots := Function.update w.slots i ⟨0, none, (w.slots i).serial⟩ }, true)

def clear (capacity : ℕ) (w : World L) : World L :=
  { w with
    slots := fun i => if i < capacity then ⟨0, none, (w.slots i).serial⟩ else w.slots i }

/-! ### Dispatching -/

/-- What the slot holds: a subscription, or nothing. -/
def held (w : World L) (i : ℕ) : Option (Slot L) :=
  if (w.slots i).id = 0 then none else some (w.slots i)

/-- The subscription is still in some slot. -/
def active (capacity : ℕ) (w : World L) (serial : ℕ) : Bool :=
  (List.range capacity).any fun i => (w.slots i).id != 0 && (w.slots i).serial == serial

/-- `dispatch` up to its loop. -/
def beginDispatch (capacity : ℕ) (w : World L) : World L :=
  { w with
    dispatches :=
      { firstUnheard := w.nextId, index := 0, calling := false, began := w.given.length,
        present := (List.range capacity).map (held w), live := [], called := [] } :: w.dispatches }

/-- Whether what was in the slot when the dispatch began is still subscribed. -/
def stillThere (capacity : ℕ) (w : World L) (d : Dispatch L) : Bool :=
  match d.present[d.index]? with
  | some (some s) => active capacity w s.serial
  | _ => false

/-- The loop of `dispatch` goes on: the next slot is called or skipped, or the dispatch is over. -/
def advance (capacity : ℕ) (w : World L) (d : Dispatch L) (outer : List (Dispatch L)) : World L :=
  if d.index < capacity then
    let slot := w.slots d.index
    let live := d.live ++ [stillThere capacity w d]
    if slot.id ≠ 0 ∧ slot.id < d.firstUnheard then
      { w with dispatches := { d with calling := true, live, called := d.called ++ [slot] } :: outer }
    else { w with dispatches := { d with index := d.index + 1, live } :: outer }
  else { w with dispatches := outer, returned := d :: w.returned }

/-! ### The machine -/

inductive Act (L : Type) where
  /-- The caller, or the running listener, calls the dispatcher. -/
  | subscribe (listener : Option L)
  | unsubscribe (id : ℕ)
  | clear
  | dispatch
  /-- The innermost dispatch goes on. -/
  | advance
  /-- The running listener returns. -/
  | ret

/-- No dispatch is running, or the innermost one waits for a listener. -/
def userCode (w : World L) : Bool :=
  match w.dispatches with
  | [] => true
  | d :: _ => d.calling

def step (capacity : ℕ) (w : World L) : Act L → Option (World L)
  | .subscribe listener => if userCode w then some (trySubscribe capacity w listener).1 else none
  | .unsubscribe id => if userCode w then some (unsubscribe capacity w id).1 else none
  | .clear => if userCode w then some (clear capacity w) else none
  | .dispatch => if userCode w then some (beginDispatch capacity w) else none
  | .advance =>
    match w.dispatches with
    | d :: outer => if d.calling then none else some (advance capacity w d outer)
    | [] => none
  | .ret =>
    match w.dispatches with
    | d :: outer =>
      if d.calling then
        some { w with dispatches := { d with index := d.index + 1, calling := false } :: outer }
      else none
    | [] => none

end Metl.EventDispatcher
