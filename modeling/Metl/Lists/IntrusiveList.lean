import Metl.Lists.Membership
import Metl.Schemes.Ring
import Metl.Schemes.Run

/-! `intrusive_list`: the caller's objects linked through a hook each of them holds.

        list l:   head l ⇄ elem a ⇄ elem b ⇄ (head l)       every node records its owner

    A node is either a list's own head or an element's hook. Positions are pointers to nodes, null
    when the iterator was default-constructed. An operation tests its preconditions first and only
    then writes links. -/

namespace Metl.IntrusiveList

open Metl.Schemes Function

structure World (L E : Type) where
  links : Links (Node L E)
  owner : Node L E → Option L
  size : L → ℕ
  listAlive : L → Bool
  elemAlive : E → Bool

/-- How a call ends: at a `METL_HARDEN`, in a null dereference, in a loop past its bound, or normally
    with the iterator it returns (if it returns one). -/
inductive Outcome (L E : Type) where
  | harden (w : World L E)
  | null
  | endless
  | done (w : World L E) (ret : Option (Node L E))

/-- The world a call leaves, if it returns. -/
def Outcome.world? {L E : Type} : Outcome L E → Option (World L E)
  | .done w _ => some w
  | _ => none

/-- The same outcome for a caller that discards the iterator. -/
def Outcome.void {L E : Type} : Outcome L E → Outcome L E
  | .done w _ => .done w none
  | o => o

inductive Action (L E : Type) where
  | pushFront (l : L) (value : E)
  | pushBack (l : L) (value : E)
  | popFront (l : L)
  | popBack (l : L)
  | insert (l : L) (pos : Option (Node L E)) (value : E)
  | erase (l : L) (pos : Option (Node L E))
  | eraseValue (l : L) (value : E)
  | splice (l : L) (pos : Option (Node L E)) (other : L) (it : Option (Node L E))
  | clear (l : L)
  | destroyList (l : L)
  | destroyElem (value : E)

section Links
variable {N : Type} [DecidableEq N]

/-- Links `node` directly before `pos`. -/
def dlistLinkBefore (s : Links N) (pos node : N) : Option (Links N) :=
  match s.prev pos with
  | none => none
  | some p => some
    { next := update (update s.next node (some pos)) p (some node)
      prev := update (update s.prev node (some p)) pos (some node) }

/-- Joins the neighbours of `node` and nulls its own links. -/
def dlistUnlink (s : Links N) (node : N) : Option (Links N) :=
  match s.prev node, s.next node with
  | some p, some q => some
    { next := update (update s.next p (some q)) node none
      prev := update (update s.prev q (some p)) node none }
  | _, _ => none

end Links

variable {L E : Type} [DecidableEq L] [DecidableEq E]

/-- Each list's head points to itself and is owned by its list; no hook is linked. -/
def init : World L E where
  links :=
    { next := fun n => match n with
        | .head l => some (.head l)
        | .elem _ => none
      prev := fun n => match n with
        | .head l => some (.head l)
        | .elem _ => none }
  owner := fun n => match n with
    | .head l => some l
    | .elem _ => none
  size := fun _ => 0
  listAlive := fun _ => true
  elemAlive := fun _ => true

def inThisList (w : World L E) (l : L) (pos : Option (Node L E)) : Bool :=
  match pos with
  | none => false
  | some n => w.owner n = some l

def unlink (w : World L E) (l : L) (node : Node L E) : Option (World L E) :=
  (dlistUnlink w.links node).map fun links =>
    { w with
      links := links
      owner := update w.owner node none
      size := update w.size l (w.size l - 1) }

def insert (w : World L E) (l : L) (pos : Option (Node L E)) (value : E) : Outcome L E :=
  if w.owner (.elem value) ≠ none then .harden w
  else if inThisList w l pos = false then .harden w
  else match pos with
    | none => .null
    | some p =>
      match dlistLinkBefore w.links p (.elem value) with
      | none => .null
      | some links => .done
        { w with
          links := links
          owner := update w.owner (.elem value) (some l)
          size := update w.size l (w.size l + 1) } (some (.elem value))

def erase (w : World L E) (l : L) (pos : Option (Node L E)) : Outcome L E :=
  if inThisList w l pos = false then .harden w
  else if pos = some (.head l) then .harden w
  else match pos with
    | none => .null
    | some p =>
      match unlink w l p with
      | none => .null
      | some w' => .done w' (w.links.next p)

def eraseValue (w : World L E) (l : L) (value : E) : Outcome L E :=
  if w.owner (.elem value) ≠ some l then .harden w
  else match unlink w l (.elem value) with
    | none => .null
    | some w' => .done w' none

def pushFront (w : World L E) (l : L) (value : E) : Outcome L E :=
  (insert w l (w.links.next (.head l)) value).void

def pushBack (w : World L E) (l : L) (value : E) : Outcome L E :=
  (insert w l (some (.head l)) value).void

def popFront (w : World L E) (l : L) : Outcome L E := (erase w l (w.links.next (.head l))).void

def popBack (w : World L E) (l : L) : Outcome L E := (erase w l (w.links.prev (.head l))).void

def splice (w : World L E) (l : L) (pos : Option (Node L E)) (other : L)
    (it : Option (Node L E)) : Outcome L E :=
  if inThisList w l pos = false then .harden w
  else if inThisList w other it = false then .harden w
  else if it = some (.head other) then .harden w
  else match pos, it with
    | some p, some n =>
      -- already directly before `pos`
      if p = n ∨ some p = w.links.next n then .done w none
      else match (dlistUnlink w.links n).bind fun links => dlistLinkBefore links p n with
        | none => .null
        | some links =>
          if other ≠ l then .done
            { w with
              links := links
              owner := update w.owner n (some l)
              size := update (update w.size other (w.size other - 1)) l (w.size l + 1) } none
          else .done { w with links := links } none
    | _, _ => .null

/-- The loop of `clear`, at most `fuel` tests of its condition. -/
def clearLoop (l : L) : ℕ → World L E → Outcome L E
  | 0, _ => .endless
  | fuel + 1, w =>
    match w.links.next (.head l) with
    | none => .null
    | some n =>
      if n = .head l then .done w none
      else match unlink w l n with
        | none => .null
        | some w' => clearLoop l fuel w'

def clear (w : World L E) (l : L) : Outcome L E := clearLoop l (w.size l + 1) w

/-- `~intrusive_list` clears; the object is gone afterwards. -/
def destroyList (w : World L E) (l : L) : Outcome L E :=
  match clear w l with
  | .done w' _ => .done { w' with listAlive := update w'.listAlive l false } none
  | o => o

/-- `~list_hook` stops on an element that is destroyed while linked. -/
def destroyElem (w : World L E) (value : E) : Outcome L E :=
  if w.owner (.elem value) ≠ none then .harden w
  else .done { w with elemAlive := update w.elemAlive value false } none

def exec (w : World L E) : Action L E → Outcome L E
  | .pushFront l value => pushFront w l value
  | .pushBack l value => pushBack w l value
  | .popFront l => popFront w l
  | .popBack l => popBack w l
  | .insert l pos value => insert w l pos value
  | .erase l pos => erase w l pos
  | .eraseValue l value => eraseValue w l value
  | .splice l pos other it => splice w l pos other it
  | .clear l => clear w l
  | .destroyList l => destroyList w l
  | .destroyElem value => destroyElem w value

def Node.alive (w : World L E) : Node L E → Bool
  | .head l => w.listAlive l
  | .elem e => w.elemAlive e

/-- A position that may be passed: null, or a node not yet destroyed, whatever its list. -/
def positionAlive (w : World L E) (pos : Option (Node L E)) : Bool :=
  match pos with
  | none => true
  | some n => n.alive w

/-- The objects a call names exist. -/
def valid (w : World L E) : Action L E → Bool
  | .pushFront l value => w.listAlive l && w.elemAlive value
  | .pushBack l value => w.listAlive l && w.elemAlive value
  | .popFront l => w.listAlive l
  | .popBack l => w.listAlive l
  | .insert l pos value => w.listAlive l && positionAlive w pos && w.elemAlive value
  | .erase l pos => w.listAlive l && positionAlive w pos
  | .eraseValue l value => w.listAlive l && w.elemAlive value
  | .splice l pos other it =>
    w.listAlive l && positionAlive w pos && w.listAlive other && positionAlive w it
  | .clear l => w.listAlive l
  | .destroyList l => w.listAlive l
  | .destroyElem value => w.elemAlive value

def step (w : World L E) (a : Action L E) : Option (World L E) :=
  if valid w a then (exec w a).world? else none

/-- The nodes met by following one of the two links around list `l`, from its head until back at
    its head; `none` if that takes more steps than the list says it has elements. -/
def traverse (w : World L E) (link : Node L E → Option (Node L E)) (l : L) : Option (List (Node L E)) :=
  (link (.head l)).bind (follow link (.head l) (w.size l + 1))

end Metl.IntrusiveList
