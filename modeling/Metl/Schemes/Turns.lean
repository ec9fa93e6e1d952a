import Mathlib.Data.List.Basic
import Mathlib.Data.Nat.Notation

/-! A pass over a list that gives every item one turn.

        items   a     b     c     d     e
        live    tt    ff    tt    ·     ·          two turns to come
        taken   a           c

    What is done in one turn may change what the later turns find, so the verdict on an item is known
    only once it has had its turn. -/

namespace Metl.Schemes

variable {α : Type*} {items : List α} {live : List Bool}

/-- The items that were live at their turn. -/
def taken : List α → List Bool → List α
  | a :: items, true :: live => a :: taken items live
  | _ :: items, false :: live => taken items live
  | _, _ => []

@[simp] theorem taken_nil (items : List α) : taken items [] = [] := by
  cases items <;> rfl

/-- Items are taken in their order, each at most once. -/
theorem taken_sublist (items : List α) (live : List Bool) : (taken items live).Sublist items := by
  induction items generalizing live with
  | nil => cases live <;> exact List.Sublist.refl []
  | cons a items ih =>
    rcases live with - | ⟨_ | _, live⟩
    · exact List.nil_sublist _
    · exact (ih live).cons a
    · exact (ih live).cons_cons a

/-- One more turn. -/
theorem taken_snoc {a : α} (hturn : items[live.length]? = some a) (b : Bool) :
    taken items (live ++ [b]) = taken items live ++ if b then [a] else [] := by
  induction items generalizing live with
  | nil => simp at hturn
  | cons x items ih =>
    rcases live with - | ⟨_ | _, live⟩
    · simp only [List.length_nil, List.getElem?_cons_zero, Option.some.injEq] at hturn
      subst hturn
      cases b <;> simp [taken]
    · exact ih (by simpa using hturn)
    · simp only [List.cons_append, taken, ih (by simpa using hturn)]

end Metl.Schemes
