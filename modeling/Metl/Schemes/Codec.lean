import Mathlib.Data.Nat.Notation

/-! Values kept in the bytes of a buffer.

    A codec says how a value is laid out in `size` bytes and that reading the bytes back gives the
    value. Loads and stores go through it, so two of them at places that do not overlap leave each
    other alone. -/

namespace Metl.Schemes

/-- A layout of the values of `α` in `size` bytes. -/
structure Codec (α : Type*) where
  size : ℕ
  enc : α → ℕ → UInt8
  dec : (ℕ → UInt8) → α
  dec_congr : ∀ f g, (∀ k < size, f k = g k) → dec f = dec g
  dec_enc : ∀ x, dec (enc x) = x

namespace Codec
variable {α : Type*} (C : Codec α) {m m' : ℕ → UInt8} {a b : ℕ} {x : α}

/-- The value whose bytes start at `a`. -/
def load (m : ℕ → UInt8) (a : ℕ) : α := C.dec fun k => m (a + k)

/-- Write the bytes of `x` from `a` on. -/
def store (m : ℕ → UInt8) (a : ℕ) (x : α) (i : ℕ) : UInt8 :=
  if a ≤ i ∧ i < a + C.size then C.enc x (i - a) else m i

theorem store_outside {i : ℕ} (hi : i < a ∨ a + C.size ≤ i) : C.store m a x i = m i := by
  rw [store, if_neg]
  rintro ⟨hle, hlt⟩
  rcases hi with hi | hi <;> omega

/-- Only the bytes of the value matter. -/
theorem load_congr (h : ∀ i, a ≤ i → i < a + C.size → m' i = m i) : C.load m' a = C.load m a := by
  refine C.dec_congr _ _ ?_
  intro k hk
  exact h (a + k) (by omega) (by omega)

@[simp] theorem load_store : C.load (C.store m a x) a = x := by
  have hbytes : C.load (C.store m a x) a = C.dec (C.enc x) := by
    refine C.dec_congr _ _ ?_
    intro k hk
    rw [store, if_pos (by omega), Nat.add_sub_cancel_left]
  rw [hbytes, C.dec_enc]

/-- A store next to a value leaves it alone. -/
theorem load_store_apart (h : b + C.size ≤ a ∨ a + C.size ≤ b) :
    C.load (C.store m a x) b = C.load m b := by
  refine C.load_congr ?_
  intro i hle hlt
  refine C.store_outside ?_
  rcases h with h | h
  · left; omega
  · right; omega

/-- Plain bytes. -/
def bytes (n : ℕ) : Codec (Fin n → UInt8) where
  size := n
  enc := fun f k => if h : k < n then f ⟨k, h⟩ else 0
  dec := fun m k => m k
  dec_congr := fun _ _ h => funext fun k => h k k.isLt
  dec_enc := fun _ => funext fun k => dif_pos k.isLt

end Codec

end Metl.Schemes
