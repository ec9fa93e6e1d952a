import Mathlib.Data.List.Basic
import Mathlib.Data.Nat.Notation

/-! The order of a binary heap kept in a row of slots.

              0              an element is not outranked by its children:
            ┌─┴─┐            `comp (parent) (child)` is false, where `comp a b` says that
            1   2            `a` comes out after `b`
           ┌┴┐ ┌┴┐
           3 4 5 6

    While an element is moved up or down, the order fails at one place only: at the edge into its slot
    (`Raised`), or at the edges out of it (`Lowered`). An exchange with the parent, or with the child
    that outranks the other, moves that place by one level. -/

namespace Metl.Schemes

variable {α : Type*} {comp : α → α → Bool} {l l' : List α}

/-- A strict weak ordering. -/
structure StrictWeak (comp : α → α → Bool) : Prop where
  asymm : ∀ a b, comp a b = true → comp b a = false
  trans : ∀ a b c, comp a b = false → comp b c = false → comp a c = false

theorem StrictWeak.irrefl (hc : StrictWeak comp) (a : α) : comp a a = false := by
  by_contra h
  rw [Bool.not_eq_false] at h
  have hfalse := hc.asymm a a h
  rw [h] at hfalse
  cases hfalse

def parent (i : ℕ) : ℕ := (i - 1) / 2

theorem parent_lt {i : ℕ} (hi : 0 < i) : parent i < i := by
  unfold parent
  omega

theorem parent_eq_iff {i j : ℕ} (hj : 0 < j) : parent j = i ↔ j = 2 * i + 1 ∨ j = 2 * i + 2 := by
  unfold parent
  omega

/-- The element in slot `j` does not outrank that in slot `i`. -/
def Above (comp : α → α → Bool) (l : List α) (i j : ℕ) : Prop :=
  ∀ a b, l[i]? = some a → l[j]? = some b → comp a b = false

/-- The order holds on the edges out of the slots from `k` on. -/
def HeapFrom (comp : α → α → Bool) (l : List α) (k : ℕ) : Prop :=
  ∀ j, 0 < j → k ≤ parent j → Above comp l (parent j) j

/-- In a heap nothing outranks the top. -/
theorem HeapFrom.top (hc : StrictWeak comp) (h : HeapFrom comp l 0) {a b : α}
    (ha : l[0]? = some a) (hb : b ∈ l) : comp a b = false := by
  obtain ⟨j, hj⟩ := List.mem_iff_getElem?.mp hb
  -- by induction on the depth of the slot
  induction j using Nat.strongRecOn generalizing b with
  | ind j ih =>
    rcases Nat.eq_zero_or_pos j with rfl | hpos
    · rw [ha] at hj
      cases hj
      exact hc.irrefl a
    · have hlt := parent_lt hpos
      have hlen := (List.getElem?_eq_some_iff.mp hj).1
      have hup : l[parent j]? = some (l[parent j]) := List.getElem?_eq_getElem (by omega)
      have htop := ih (parent j) hlt (List.getElem_mem (by omega)) hup
      exact hc.trans a _ b htop (h j hpos (Nat.zero_le _) _ b hup hj)

/-- `l'` is `l` with two slots exchanged. -/
def Exchanged (l l' : List α) (i j : ℕ) : Prop :=
  ∀ k, l'[k]? = if k = i then l[j]? else if k = j then l[i]? else l[k]?

section Exchanged
variable {i j : ℕ} (hx : Exchanged l l' i j)
include hx

theorem Exchanged.left : l'[i]? = l[j]? := by simp [hx i]

theorem Exchanged.right : l'[j]? = l[i]? := by
  rcases eq_or_ne j i with rfl | hij
  · simp [hx j]
  · simp [hx j, hij]

theorem Exchanged.other {k : ℕ} (hi : k ≠ i) (hj : k ≠ j) : l'[k]? = l[k]? := by
  simp [hx k, hi, hj]

end Exchanged

/-! ### Moving up -/

/-- Only the edge into slot `i` may fail, and what is below it stands back for what is above. -/
structure Raised (comp : α → α → Bool) (l : List α) (i : ℕ) : Prop where
  except : ∀ j, 0 < j → j ≠ i → Above comp l (parent j) j
  across : 0 < i → ∀ j, 0 < j → parent j = i → Above comp l (parent i) j

theorem Raised.heap {i : ℕ} (h : Raised comp l i) (hedge : 0 < i → Above comp l (parent i) i) :
    HeapFrom comp l 0 := by
  intro j hj _
  rcases eq_or_ne j i with rfl | hji
  · exact hedge hj
  · exact h.except j hj hji

/-- The element outranks its parent and changes places with it. -/
theorem Raised.up (hc : StrictWeak comp) {i : ℕ} (h : Raised comp l i) (hi : 0 < i)
    {a b : α} (ha : l[parent i]? = some a) (hb : l[i]? = some b) (hab : comp a b = true)
    (hx : Exchanged l l' (parent i) i) : Raised comp l' (parent i) := by
  have hlt := parent_lt hi
  have hba := hc.asymm a b hab
  have hleft : l'[parent i]? = some b := by rw [hx.left, hb]
  have hright : l'[i]? = some a := by rw [hx.right, ha]
  refine ⟨?_, ?_⟩
  · intro j hj hjp x y hxx hyy
    rcases eq_or_ne j i with rfl | hji
    · rw [hleft] at hxx
      rw [hright] at hyy
      cases hxx
      cases hyy
      exact hba
    · rw [hx.other hjp hji] at hyy
      by_cases hpp : parent j = parent i
      · -- the other child of the parent
        have hold := h.except j hj hji a y (by rw [hpp, ha]) hyy
        rw [hpp, hleft] at hxx
        cases hxx
        exact hc.trans b a y hba hold
      · by_cases hpi : parent j = i
        · rw [hpi, hright] at hxx
          cases hxx
          exact h.across hi j hj hpi a y ha hyy
        · rw [hx.other hpp hpi] at hxx
          exact h.except j hj hji x y hxx hyy
  · intro hp j hj hpj x y hxx hyy
    have hlt' := parent_lt hp
    rw [hx.other (by omega) (by omega)] at hxx
    have hedge := h.except (parent i) hp (by omega) x a hxx ha
    rcases eq_or_ne j i with rfl | hji
    · rw [hright] at hyy
      cases hyy
      exact hedge
    · have hjp : j ≠ parent i := by
        rintro rfl
        omega
      rw [hx.other hjp hji] at hyy
      exact hc.trans x a y hedge (h.except j hj hji a y (by rw [hpj, ha]) hyy)

/-! ### Moving down -/

/-- Among the edges from `k` on only those out of slot `i` may fail, and what is below it stands back
    for what is above. -/
structure Lowered (comp : α → α → Bool) (l : List α) (i k : ℕ) : Prop where
  within : k ≤ i
  except : ∀ j, 0 < j → k ≤ parent j → parent j ≠ i → Above comp l (parent j) j
  across : 0 < i → k ≤ parent i → ∀ j, 0 < j → parent j = i → Above comp l (parent i) j

theorem Lowered.heap {i k : ℕ} (h : Lowered comp l i k)
    (hedge : ∀ j, 0 < j → parent j = i → Above comp l i j) : HeapFrom comp l k := by
  intro j hj hk
  by_cases hji : parent j = i
  · rw [hji]
    exact hedge j hj hji
  · exact h.except j hj hk hji

/-- The child that outranks the other outranks the element too, and changes places with it. -/
theorem Lowered.down (hc : StrictWeak comp) {i k best : ℕ} (h : Lowered comp l i k)
    (hpos : 0 < best) (hchild : parent best = i)
    (hbest : ∀ j, 0 < j → parent j = i → Above comp l best j) {a b : α} (ha : l[i]? = some a)
    (hb : l[best]? = some b) (hab : comp a b = true) (hx : Exchanged l l' i best) :
    Lowered comp l' best k := by
  have hlt := parent_lt hpos
  have hwithin := h.within
  have hleft : l'[i]? = some b := by rw [hx.left, hb]
  have hright : l'[best]? = some a := by rw [hx.right, ha]
  refine ⟨by omega, ?_, ?_⟩
  · intro j hj hk hjp x y hxx hyy
    by_cases hpi : parent j = i
    · rw [hpi, hleft] at hxx
      cases hxx
      rcases eq_or_ne j best with rfl | hjb
      · rw [hright] at hyy
        cases hyy
        exact hc.asymm a b hab
      · have hji : j ≠ i := by
          have hjlt := parent_lt hj
          omega
        rw [hx.other hji hjb] at hyy
        exact hbest j hj hpi b y hb hyy
    · rw [hx.other hpi hjp] at hxx
      rcases eq_or_ne j i with rfl | hji
      · rw [hleft] at hyy
        cases hyy
        exact h.across hj hk best hpos hchild x b hxx hb
      · rcases eq_or_ne j best with rfl | hjb
        · exact absurd hchild hpi
        · rw [hx.other hji hjb] at hyy
          exact h.except j hj hk hpi x y hxx hyy
  · intro _ hk j hj hpj x y hxx hyy
    rw [hchild, hleft] at hxx
    cases hxx
    have hjlt := parent_lt hj
    rw [hx.other (by omega) (by omega)] at hyy
    exact h.except j hj (by omega) (by omega) b y (by rw [hpj, hb]) hyy

end Metl.Schemes
