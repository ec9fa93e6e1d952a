import Metl.Lists.Membership
import Metl.Schemes.Run
import Metl.Schemes.Thread

/-! `intrusive_forward_list`: the caller's objects in singly linked lists.

        list l:   head l ──► elem a ──► elem b ──► ⊥       every node records its owner

    A node is a list's own head or an element's hook, as for the doubly linked list, and a position is
    a pointer to a node, null for `end()`. A node does not know its predecessor: `erase(t)` looks for
    it from the head. -/

namespace Metl.IntrusiveForwardList

open Metl.Schemes Function
open Metl.IntrusiveList (Node)

structure World (L E : Type) where
  next : Node L E → Option (Node L E)
  owner : Node L E → Option L
  size : L → ℕ
  listAlive : L → Bool
  elemAlive : E → Bool

/-- How a call ends: at a `METL_HARDEN`, in a null dereference, in a loop past its bound, or normally,
    with the iterator it returns (if it returns one; a null iterator is `end()`). -/
inductive Outcome (L E : Type) where
  | harden (w : World L E)
  | null
  | endless
  | done (w : World L E) (ret : Option (Option (Node L E)))

/-- The world a call leaves, if it returns. -/
def Outcome.world? {L E : Type} : Outcome L E → Option (World L E)
  | .done w _ => some w
  | _ => none

/-- The same outcome for a caller that discards the iterator. -/
def Outcome.void {L E : Type} : Outcome L E → Outcome L E
  | .done w _ => .done w none
  | o => o

inductive Action (L E : Type) where
  | pushFront (l : L) (value : E)
  | popFront (l : L)
  | insertAfter (l : L) (pos : Option (Node L E)) (value : E)
  | eraseAfter (l : L) (pos : Option (Node L E))
  | erase (l : L) (value : E)
  | clear (l : L)
  | destroyList (l : L)
  | destroyElem (value : E)

section Links
variable {N : Type} [DecidableEq N]

/-- Links `node` directly after `pos`. -/
def slistLinkAfter (next : N → Option N) (pos node : N) : N → Option N :=
  update (update next node (next pos)) pos (some node)

/-- Unlinks the link after `pos` and gives it back, its own link nulled. -/
def slistUnlinkAfter (next : N → Option N) (pos : N) : Option ((N → Option N) × N) :=
  match next pos with
  | none => none
  | some node => some (update (update next pos (next node)) node none, node)

/-- Where `slist_previous` ends. -/
inductive Search (N : Type) where
  | found (pos : N)
  | null
  | endless

/-- The link whose successor is `node`, walking on from `pos`; at most `fuel` tests of the loop's
    condition. -/
def slistPrevious (next : N → Option N) (node : N) : ℕ → N → Search N
  | 0, _ => .endless
  | fuel + 1, pos =>
    if next pos = some node then .found pos
    else match next pos with
      | none => .null
      | some p => slistPrevious next node fuel p

end Links

variable {L E : Type} [DecidableEq L] [DecidableEq E]

/-- Each list is empty, its head owned by the list; no hook is linked. -/
def init : World L E where
  next := fun _ => none
  owner := fun n => match n with
    | .head l => some l
    | .elem _ => none
  size := fun _ => 0
  listAlive := fun _ => true
  elemAlive := fun _ => true

def inThisList (w : World L E) (l : L) (pos : Option (Node L E)) : Bool :=
  match pos with
  | none => false
  | some n => w.owner n = some l

def unlinkAfter (w : World L E) (l : L) (pos : Node L E) : Option (World L E) :=
  (slistUnlinkAfter w.next pos).map fun (next, node) =>
    { w with
      next := next
      owner := update w.owner node none
      size := update w.size l (w.size l - 1) }

def insertAfter (w : World L E) (l : L) (pos : Option (Node L E)) (value : E) : Outcome L E :=
  if w.owner (.elem value) ≠ none then .harden w
  else if inThisList w l pos = false then .harden w
  else match pos with
    | none => .null
    | some p => .done
      { w with
        next := slistLinkAfter w.next p (.elem value)
        owner := update w.owner (.elem value) (some l)
        size := update w.size l (w.size l + 1) } (some (some (.elem value)))

def eraseAfter (w : World L E) (l : L) (pos : Option (Node L E)) : Outcome L E :=
  if inThisList w l pos = false then .harden w
  else match pos with
    | none => .null
    | some p =>
      if w.next p = none then .harden w
      else match unlinkAfter w l p with
        | none => .null
        | some w' => .done w' (some (w'.next p))

def pushFront (w : World L E) (l : L) (value : E) : Outcome L E :=
  (insertAfter w l (some (.head l)) value).void

def popFront (w : World L E) (l : L) : Outcome L E := (eraseAfter w l (some (.head l))).void

def erase (w : World L E) (l : L) (value : E) : Outcome L E :=
  if w.owner (.elem value) ≠ some l then .harden w
  else match slistPrevious w.next (.elem value) (w.size l + 1) (.head l) with
    | .null => .null
    | .endless => .endless
    | .found pos =>
      match unlinkAfter w l pos with
      | none => .null
      | some w' => .done w' none

/-- The loop of `clear`, at most `fuel` tests of its condition. -/
def clearLoop (l : L) : ℕ → World L E → Outcome L E
  | 0, _ => .endless
  | fuel + 1, w =>
    if w.next (.head l) = none then .done w none
    else match unlinkAfter w l (.head l) with
      | none => .null
      | some w' => clearLoop l fuel w'

def clear (w : World L E) (l : L) : Outcome L E := clearLoop l (w.size l + 1) w

/-- `~intrusive_forward_list` clears; the object is gone afterwards. -/
def destroyList (w : World L E) (l : L) : Outcome L E :=
  match clear w l with
  | .done w' _ => .done { w' with listAlive := update w'.listAlive l false } none
  | o => o

/-- `~forward_list_hook` stops on an element that is destroyed while linked. -/
def destroyElem (w : World L E) (value : E) : Outcome L E :=
  if w.owner (.elem value) ≠ none then .harden w
  else .done { w with elemAlive := update w.elemAlive value false } none

def exec (w : World L E) : Action L E → Outcome L E
  | .pushFront l value => pushFront w l value
  | .popFront l => popFront w l
  | .insertAfter l pos value => insertAfter w l pos value
  | .eraseAfter l pos => eraseAfter w l pos
  | .erase l value => erase w l value
  | .clear l => clear w l
  | .destroyList l => destroyList w l
  | .destroyElem value => destroyElem w value

/-- A position that may be passed: null, or a node not yet destroyed, whatever its list. -/
def positionAlive (w : World L E) : Option (Node L E) → Bool
  | none => true
  | some (.head l) => w.listAlive l
  | some (.elem e) => w.elemAlive e

/-- The objects a call names exist. -/
def valid (w : World L E) : Action L E → Bool
  | .pushFront l value => w.listAlive l && w.elemAlive value
  | .popFront l => w.listAlive l
  | .insertAfter l pos value => w.listAlive l && positionAlive w pos && w.elemAlive value
  | .eraseAfter l pos => w.listAlive l && positionAlive w pos
  | .erase l value => w.listAlive l && w.elemAlive value
  | .clear l => w.listAlive l
  | .destroyList l => w.listAlive l
  | .destroyElem value => w.elemAlive value

def step (w : World L E) (a : Action L E) : Option (World L E) :=
  if valid w a then (exec w a).world? else none

/-- The nodes met by following the links from the head of `l`; `none` if there are more than the list
    says it has elements. -/
def traverse (w : World L E) (l : L) : Option (List (Node L E)) :=
  trail w.next (w.size l) (w.next (.head l))

end Metl.IntrusiveForwardList
