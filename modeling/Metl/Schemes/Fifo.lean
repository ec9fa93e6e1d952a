import Mathlib.Data.List.Basic

/-! The sequential bounded FIFO queue, as the set of histories it allows.

    `Legal cap h q`: the completed calls `h`, oldest first, are what a bounded queue of `cap` elements
    would have answered from empty, and it now holds `q`. A concurrent queue is linearizable when the
    completion order of its calls is always such a history. -/

namespace Metl.Schemes.Fifo

/-- One completed call with its result. -/
inductive Call (T : Type*) where
  | pushOk (v : T)
  | pushFull
  | popOk (x : T)
  | popEmpty
  deriving DecidableEq

inductive Legal {T : Type*} (cap : ℕ) : List (Call T) → List T → Prop where
  | nil : Legal cap [] []
  | pushOk {h q} (v : T) : Legal cap h q → q.length < cap → Legal cap (h ++ [.pushOk v]) (q ++ [v])
  | pushFull {h q} : Legal cap h q → q.length = cap → Legal cap (h ++ [.pushFull]) q
  | popOk {h q} (x : T) : Legal cap h (x :: q) → Legal cap (h ++ [.popOk x]) q
  | popEmpty {h} : Legal cap h [] → Legal cap (h ++ [.popEmpty]) []

variable {T : Type*}

/-- Values of the successful pushes, oldest first. -/
def pushed : List (Call T) → List T :=
  List.filterMap fun | .pushOk v => some v | _ => none

/-- Values of the successful pops, oldest first. -/
def popped : List (Call T) → List T :=
  List.filterMap fun | .popOk x => some x | _ => none

end Metl.Schemes.Fifo
