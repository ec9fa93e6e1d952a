import Mathlib

/-! Intrusive singly linked lists.

    The links live in the elements themselves: `next i` is the cursor stored in element `i`, if it
    holds one. A cursor names element `i` as `enc i`, and the cursor `stop` ends the list. -/

namespace Metl.Schemes

/-- Following the links from `cur` visits exactly `l` and ends at `stop`. -/
def Chain (next : ℕ → Option ℕ) (enc : ℕ → ℕ) (stop : ℕ) : ℕ → List ℕ → Prop
  | cur, [] => cur = stop
  | cur, i :: l => cur = enc i ∧ ∃ n, next i = some n ∧ Chain next enc stop n l

namespace Chain
variable {next next' : ℕ → Option ℕ} {enc : ℕ → ℕ} {stop cur i t : ℕ} {l : List ℕ}

/-- Other links that say the same wherever the first ones say something. -/
theorem mono (h : Chain next enc stop cur l)
    (hsame : ∀ j ∈ l, ∀ n, next j = some n → next' j = some n) : Chain next' enc stop cur l := by
  induction l generalizing cur with
  | nil => exact h
  | cons j l ih =>
    obtain ⟨hcur, n, hn, hrest⟩ := h
    have hj := hsame j (List.mem_cons_self ..) n hn
    exact ⟨hcur, n, hj, ih hrest fun k hk => hsame k (List.mem_cons_of_mem _ hk)⟩

/-- Only the links of the visited elements matter. -/
theorem congr (h : Chain next enc stop cur l) (heq : ∀ j ∈ l, next' j = next j) :
    Chain next' enc stop cur l :=
  h.mono fun j hj _ hn => (heq j hj).trans hn

/-- Push at the front: the new element links to the old first one. -/
theorem push (h : Chain next enc stop cur l) (hi : next' i = some cur)
    (heq : ∀ j ∈ l, next' j = next j) : Chain next' enc stop (enc i) (i :: l) :=
  ⟨rfl, cur, hi, h.congr heq⟩

/-- Append at the back: the old last element `t` links to the new one, which ends the list. -/
theorem snoc (h : Chain next enc stop cur (l ++ [t])) (ht : next' t = some (enc i))
    (hi : next' i = some stop) (heq : ∀ j ∈ l, next' j = next j) :
    Chain next' enc stop cur (l ++ [t] ++ [i]) := by
  induction l generalizing cur with
  | nil =>
    obtain ⟨hcur, -⟩ := h
    exact ⟨hcur, enc i, ht, rfl, stop, hi, rfl⟩
  | cons j l ih =>
    obtain ⟨hcur, n, hn, hrest⟩ := h
    have hj : next' j = some n := by rw [heq j (List.mem_cons_self ..), hn]
    exact ⟨hcur, n, hj, ih hrest fun k hk => heq k (List.mem_cons_of_mem _ hk)⟩

/-- The run `k, k + 1, …, k + n - 1` of elements that link to their successors. -/
theorem range' {k n : ℕ} (hnext : ∀ j, k ≤ j → j < k + n → next j = some (enc (j + 1)))
    (hstop : enc (k + n) = stop) : Chain next enc stop (enc k) (List.range' k n) := by
  induction n generalizing k with
  | zero => exact hstop
  | succ n ih =>
    refine ⟨rfl, enc (k + 1), hnext k (Nat.le_refl _) (by omega), ih (fun j h1 h2 => ?_) ?_⟩
    · exact hnext j (by omega) (by omega)
    · rw [← hstop, Nat.add_right_comm, Nat.add_assoc]

end Chain

end Metl.Schemes
