import Mathlib.Data.List.Perm.Basic
import Mathlib.Data.Nat.Notation

/-! Bounded finite maps up to a key equality.

    A map is a list of entries in no particular order. No two entries have equal keys and there are at
    most `cap` of them; both are part of the value, so no operation can lose them. -/

namespace Metl.Schemes

/-- A partial function with at most `cap` keys, with `equal` for the equality of keys. -/
structure FiniteMap (K V : Type*) (cap : ℕ) where
  equal : K → K → Bool
  entries : List (K × V)
  distinct : entries.Pairwise fun a b => equal a.1 b.1 = false
  bounded : entries.length ≤ cap

/-- At most one element of `l` satisfies `p`, so any order of `l` finds the same one. -/
theorem find?_perm {α : Type*} {l l' : List α} {p : α → Bool} (hperm : l.Perm l')
    (huniq : ∀ a ∈ l, ∀ b ∈ l, p a → p b → a = b) : l.find? p = l'.find? p := by
  cases h : l.find? p with
  | none =>
    symm
    rw [List.find?_eq_none] at h ⊢
    intro a ha
    exact h a (hperm.mem_iff.mpr ha)
  | some a =>
    have ha : a ∈ l ∧ p a := ⟨List.mem_of_find?_eq_some h, List.find?_some h⟩
    cases h' : l'.find? p with
    | none =>
      rw [List.find?_eq_none] at h'
      exact absurd ha.2 (h' a (hperm.mem_iff.mp ha.1))
    | some b =>
      have hb : b ∈ l := hperm.mem_iff.mpr (List.mem_of_find?_eq_some h')
      rw [huniq a ha.1 b hb ha.2 (List.find?_some h')]

namespace FiniteMap

variable {K V : Type*} {cap : ℕ}

/-- The map without entries. -/
def empty (equal : K → K → Bool) : FiniteMap K V cap where
  equal := equal
  entries := []
  distinct := List.Pairwise.nil
  bounded := Nat.zero_le cap

/-- The entry stored under a key equal to `key`. -/
def entry (μ : FiniteMap K V cap) (key : K) : Option (K × V) :=
  μ.entries.find? fun e => μ.equal e.1 key

/-- The value stored under a key equal to `key`. -/
def lookup (μ : FiniteMap K V cap) (key : K) : Option V := (μ.entry key).map Prod.snd

/-- Add an entry: the key is absent and there is room for one more. -/
def add (μ : FiniteMap K V cap) (key : K) (value : V) : Option (FiniteMap K V cap) :=
  if h : μ.entry key = none ∧ μ.entries.length < cap then
    some {
      equal := μ.equal
      entries := μ.entries ++ [(key, value)]
      distinct := by
        rw [List.pairwise_append]
        refine ⟨μ.distinct, List.pairwise_singleton _ _, ?_⟩
        intro a ha b hb
        rw [List.mem_singleton.mp hb]
        simpa using List.find?_eq_none.mp h.1 a ha
      bounded := by
        rw [List.length_append]
        exact h.2 }
  else none

/-- Replace the value stored under a key equal to `key`; the stored key stays. -/
def assign (μ : FiniteMap K V cap) (key : K) (value : V) : FiniteMap K V cap where
  equal := μ.equal
  entries := μ.entries.map fun e => if μ.equal e.1 key then (e.1, value) else e
  distinct := by
    rw [List.pairwise_map]
    refine μ.distinct.imp ?_
    intro a b hab
    split <;> split <;> exact hab
  bounded := by
    rw [List.length_map]
    exact μ.bounded

/-- Keep the entries that satisfy `p`. -/
def filter (μ : FiniteMap K V cap) (p : K × V → Bool) : FiniteMap K V cap where
  equal := μ.equal
  entries := μ.entries.filter p
  distinct := μ.distinct.filter p
  bounded := Nat.le_trans (List.length_filter_le p μ.entries) μ.bounded

/-- Drop the entry stored under a key equal to `key`. -/
def erase (μ : FiniteMap K V cap) (key : K) : FiniteMap K V cap :=
  μ.filter fun e => !μ.equal e.1 key

theorem add_eq_some {μ μ' : FiniteMap K V cap} {key : K} {value : V} :
    μ.add key value = some μ' ↔ (μ.entry key = none ∧ μ.entries.length < cap) ∧
      μ'.equal = μ.equal ∧ μ'.entries = μ.entries ++ [(key, value)] := by
  unfold add
  split
  · rename_i h
    rw [Option.some.injEq]
    constructor
    · rintro rfl
      exact ⟨h, rfl, rfl⟩
    · rintro ⟨-, hequal, hentries⟩
      cases μ'
      cases hequal
      cases hentries
      rfl
  · rename_i h
    simp [h]

end FiniteMap

end Metl.Schemes
