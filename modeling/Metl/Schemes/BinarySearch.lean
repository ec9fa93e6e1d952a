import Mathlib.Data.List.Basic
import Mathlib.Data.Nat.Notation

/-! Binary search for the place where a test stops to hold.

        p     true  true   ?   ?   ?   false  false
                         first    first + count

    The test holds along a first part of the list and fails along the rest. A search keeps a window
    around the boundary and halves it, by the test at one element, until it is empty. -/

namespace Metl.Schemes

variable {α : Type*} {p : α → Bool} {l : List α} {first count half index : ℕ} {e : α}

/-- Where the test holds, it holds at every earlier element. -/
def Falls (p : α → Bool) (l : List α) : Prop :=
  ∀ (i j : ℕ) (a b : α), i < j → l[i]? = some a → l[j]? = some b → p b = true → p a = true

/-- The test holds exactly before `index`. -/
structure SplitsAt (p : α → Bool) (l : List α) (index : ℕ) : Prop where
  bound : index ≤ l.length
  before : ∀ n e, l[n]? = some e → (p e = true ↔ n < index)

/-- The boundary is in the `count` elements from `first` on, or next to them. -/
structure Window (p : α → Bool) (l : List α) (first count : ℕ) : Prop where
  bound : first + count ≤ l.length
  below : ∀ n e, n < first → l[n]? = some e → p e = true
  above : ∀ n e, first + count ≤ n → l[n]? = some e → p e = false

theorem window_all (p : α → Bool) (l : List α) : Window p l 0 l.length where
  bound := by omega
  below := fun n e hn => by omega
  above := fun n e hn he => by
    obtain ⟨hlen, -⟩ := List.getElem?_eq_some_iff.mp he
    omega

theorem Window.element (h : Window p l first count) (hhalf : half < count) :
    ∃ e, l[first + half]? = some e :=
  ⟨_, List.getElem?_eq_getElem (Nat.lt_of_lt_of_le (Nat.add_lt_add_left hhalf first) h.bound)⟩

/-- The test holds at an element of the window: the boundary is after it. -/
theorem Window.right (h : Window p l first count) (hfalls : Falls p l) (hhalf : half < count)
    (he : l[first + half]? = some e) (hp : p e = true) :
    Window p l (first + half + 1) (count - (half + 1)) where
  bound := by
    have := h.bound
    omega
  below := fun n a hn ha => by
    rcases Nat.eq_or_lt_of_le (Nat.le_of_lt_succ hn) with rfl | hlt
    · rw [he, Option.some.injEq] at ha
      rw [← ha, hp]
    · exact hfalls n (first + half) a e hlt ha he hp
  above := fun n a hn => h.above n a (by omega)

/-- The test fails at an element of the window: the boundary is not after it. -/
theorem Window.left (h : Window p l first count) (hfalls : Falls p l) (hhalf : half < count)
    (he : l[first + half]? = some e) (hp : p e = false) : Window p l first half where
  bound := by
    have := h.bound
    omega
  below := h.below
  above := fun n a hn ha => by
    rcases Nat.eq_or_lt_of_le hn with rfl | hgt
    · rw [he, Option.some.injEq] at ha
      rw [← ha, hp]
    · by_contra htrue
      rw [Bool.not_eq_false] at htrue
      rw [hfalls (first + half) n e a hgt he ha htrue] at hp
      cases hp

theorem Window.splitsAt (h : Window p l first 0) : SplitsAt p l first where
  bound := h.bound
  before := fun n e he => by
    constructor
    · intro hp
      by_contra hge
      rw [h.above n e (by omega) he] at hp
      cases hp
    · intro hn
      exact h.below n e hn he

/-- The boundary is the first place where the test fails. -/
theorem SplitsAt.findIdx (h : SplitsAt p l index) : l.findIdx (fun e => !p e) = index := by
  have hbefore : ∀ n (hn : n < l.length), p l[n] = true ↔ n < index := fun n hn =>
    h.before n _ (List.getElem?_eq_getElem hn)
  rcases Nat.eq_or_lt_of_le h.bound with rfl | hlt
  · rw [List.findIdx_eq_length]
    intro e he
    obtain ⟨n, hn, rfl⟩ := List.mem_iff_getElem.mp he
    simp [(hbefore n hn).mpr hn]
  · rw [List.findIdx_eq hlt]
    constructor
    · simpa using (hbefore index hlt).not.mpr (Nat.lt_irrefl index)
    · intro n hn
      simp [(hbefore n (by omega)).mpr hn]

/-- The boundary counts the elements that pass the test. -/
theorem SplitsAt.countP (h : SplitsAt p l index) : l.countP p = index := by
  have hbefore : ∀ n (hn : n < l.length), p l[n] = true ↔ n < index := fun n hn =>
    h.before n _ (List.getElem?_eq_getElem hn)
  have hbound := h.bound
  have htake : (l.take index).countP p = index := by
    have hall : (l.take index).countP p = (l.take index).length := by
      rw [List.countP_eq_length]
      intro e he
      obtain ⟨n, hn, rfl⟩ := List.mem_iff_getElem.mp he
      rw [List.length_take] at hn
      rw [List.getElem_take]
      exact (hbefore n (by omega)).mpr (by omega)
    rw [hall, List.length_take]
    omega
  have hdrop : (l.drop index).countP p = 0 := by
    rw [List.countP_eq_zero]
    intro e he
    obtain ⟨n, hn, rfl⟩ := List.mem_iff_getElem.mp he
    rw [List.length_drop] at hn
    rw [List.getElem_drop]
    exact (hbefore (index + n) (by omega)).not.mpr (by omega)
  calc l.countP p = (l.take index ++ l.drop index).countP p := by rw [List.take_append_drop]
    _ = index := by rw [List.countP_append, htake, hdrop, Nat.add_zero]

end Metl.Schemes
