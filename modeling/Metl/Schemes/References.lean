import Mathlib

/-! Counting references.

    `ptr p` is what pointer `p` refers to. `held ptr o` is the number of pointers to `o`, and `one t`
    is the single reference a local variable with the value `t` stands for.

        ptr: a ↦ x, b ↦ x, c ↦ ⊥          held x = 2
        b := y                            held x + 1 = 2,  held y = 1 -/

namespace Metl.Schemes
open Function

variable {P O : Type*} [DecidableEq O]

/-- The reference a pointer with the value `t` is to `o`. -/
def one (t : Option O) (o : O) : ℕ := if t = some o then 1 else 0

@[simp] theorem one_none (o : O) : one none o = 0 := by simp [one]

@[simp] theorem one_some_self (o : O) : one (some o) o = 1 := by simp [one]

theorem one_some_of_ne {t o : O} (h : o ≠ t) : one (some t) o = 0 := by
  simp [one, Ne.symm h]

variable [Fintype P]

/-- How many pointers refer to `o`. -/
def held (ptr : P → Option O) (o : O) : ℕ := ∑ p, one (ptr p) o

theorem held_pos {ptr : P → Option O} {p : P} {o : O} (h : ptr p = some o) : 0 < held ptr o := by
  have hle : one (ptr p) o ≤ held ptr o :=
    Finset.single_le_sum (f := fun q => one (ptr q) o) (fun _ _ => Nat.zero_le _) (Finset.mem_univ p)
  rw [h, one_some_self] at hle
  omega

variable [DecidableEq P]

/-- A pointer redirected: what it referred to loses a reference, what it refers to gains one. -/
theorem held_update (ptr : P → Option O) (p : P) (v : Option O) (o : O) :
    held (update ptr p v) o + one (ptr p) o = held ptr o + one v o := by
  have hold := Finset.add_sum_erase Finset.univ (fun q => one (ptr q) o) (Finset.mem_univ p)
  have hnew := Finset.add_sum_erase Finset.univ (fun q => one (update ptr p v q) o) (Finset.mem_univ p)
  have hrest : ∑ q ∈ Finset.univ.erase p, one (update ptr p v q) o =
      ∑ q ∈ Finset.univ.erase p, one (ptr q) o :=
    Finset.sum_congr rfl (fun q hq => by rw [update_of_ne (Finset.ne_of_mem_erase hq)])
  rw [update_self, hrest] at hnew
  unfold held
  omega

end Metl.Schemes
