import Metl.Tables.FlatSearch
import Metl.Schemes.FiniteMap

/-! The sorted entries of a finite map.

        finite map        {5 ↦ x, 2 ↦ y, 8 ↦ z}          keys up to equivalence
        flat map          (2, y) (5, x) (8, z)           in increasing order

    Two keys are equivalent when neither comes before the other. A finite map has one increasing list of
    entries; inserting at the lower bound, erasing and assigning keep the two together. -/

namespace Metl.FlatMap

open Metl.Schemes

variable {K V : Type} {lt : K → K → Bool} {l l' : List (Entry K V)} {key : K} {value : V}
  {index i j n cap : ℕ} {a b : Entry K V} {μ : FiniteMap K V cap}

/-- Neither key comes before the other. -/
def equivalent (lt : K → K → Bool) (a b : K) : Bool := !lt a b && !lt b a

theorem equivalent_iff {x y : K} : equivalent lt x y = true ↔ lt x y = false ∧ lt y x = false := by
  simp [equivalent]

def Entry.pair (e : Entry K V) : K × V := (e.key, e.value)

theorem Entry.pair_injective : Function.Injective (Entry.pair : Entry K V → K × V) := by
  rintro ⟨k, v⟩ ⟨k', v'⟩ h
  cases h
  rfl

/-- The list is the increasing list of the entries of `μ`. -/
structure Stands (lt : K → K → Bool) (l : List (Entry K V)) (μ : FiniteMap K V cap) : Prop where
  sorted : SortedBy lt l
  equal : μ.equal = equivalent lt
  entries : (l.map Entry.pair).Perm μ.entries

/-- How many keys come before `key`. -/
def rank (lt : K → K → Bool) (μ : FiniteMap K V cap) (key : K) : ℕ :=
  μ.entries.countP fun e => lt e.1 key

theorem Stands.length (h : Stands lt l μ) : l.length = μ.entries.length := by
  rw [← h.entries.length_eq, List.length_map]

/-- A finite map has only one increasing list of entries. -/
theorem Stands.unique (h : Stands lt l μ) (h' : Stands lt l' μ) (hlt : StrictWeak lt) : l = l' := by
  have hperm : l.Perm l' :=
    (List.map_perm_map_iff Entry.pair_injective).mp (h.entries.trans h'.entries.symm)
  refine hperm.eq_of_pairwise (fun a b _ _ hab hba => ?_) h.sorted h'.sorted
  rw [hlt.asymm _ _ hab] at hba
  cases hba

theorem Stands.rank (h : Stands lt l μ) (hs : Splits lt l key index) : rank lt μ key = index := by
  have hsplit : SplitsAt (fun e : Entry K V => lt e.key key) l index := ⟨hs.bound, hs.before⟩
  rw [FlatMap.rank, ← h.entries.countP_eq, List.countP_map]
  exact hsplit.countP

/-! ### Equivalent keys -/

section Equivalent
variable (hlt : StrictWeak lt)
include hlt

/-- At most one entry has a key equivalent to `key`. -/
theorem SortedBy.unique (h : SortedBy lt l) (ha : l[i]? = some a) (hb : l[j]? = some b)
    (hak : equivalent lt a.key key = true) (hbk : equivalent lt b.key key = true) : i = j := by
  obtain ⟨hak₁, hak₂⟩ := equivalent_iff.mp hak
  obtain ⟨hbk₁, hbk₂⟩ := equivalent_iff.mp hbk
  rcases Nat.lt_trichotomy i j with hij | rfl | hji
  · have hfalse := hlt.trans _ _ _ hak₁ hbk₂
    rw [h.increasing hij ha hb] at hfalse
    cases hfalse
  · rfl
  · have hfalse := hlt.trans _ _ _ hbk₁ hak₂
    rw [h.increasing hji hb ha] at hfalse
    cases hfalse

theorem Stands.entry_of_equivalent (h : Stands lt l μ) (ha : l[i]? = some a)
    (hak : equivalent lt a.key key = true) : μ.entry key = some a.pair := by
  cases hentry : μ.entry key with
  | none =>
    have hmem : a.pair ∈ μ.entries := h.entries.mem_iff.mp (List.mem_map_of_mem (List.mem_of_getElem? ha))
    have hnot := List.find?_eq_none.mp hentry a.pair hmem
    rw [h.equal] at hnot
    exact absurd hak hnot
  | some p =>
    obtain ⟨b, hb, rfl⟩ := List.mem_map.mp (h.entries.mem_iff.mpr (List.mem_of_find?_eq_some hentry))
    obtain ⟨j, hj⟩ := List.mem_iff_getElem?.mp hb
    have hbk : equivalent lt b.key key = true := by
      have := List.find?_some hentry
      rwa [h.equal] at this
    have hij := h.sorted.unique hlt ha hj hak hbk
    rw [hij, hj, Option.some.injEq] at ha
    rw [ha]

omit hlt in
theorem Stands.entry_none (h : Stands lt l μ)
    (hall : ∀ (n : ℕ) (a : Entry K V), l[n]? = some a → equivalent lt a.key key = false) : μ.entry key = none := by
  refine List.find?_eq_none.mpr fun p hp => ?_
  obtain ⟨a, ha, rfl⟩ := List.mem_map.mp (h.entries.mem_iff.mpr hp)
  obtain ⟨n, hn⟩ := List.mem_iff_getElem?.mp ha
  rw [h.equal]
  simpa [Entry.pair] using hall n a hn

/-- From the lower bound on, the keys come after an absent key. -/
theorem SortedBy.after (h : SortedBy lt l)
    (habsent : ∀ a, l[index]? = some a → lt key a.key = true) (hn : index ≤ n) (ha : l[n]? = some a) :
    lt key a.key = true := by
  rcases Nat.eq_or_lt_of_le hn with rfl | hgt
  · exact habsent a ha
  · obtain ⟨hlen, -⟩ := List.getElem?_eq_some_iff.mp ha
    have hfirst : l[index]? = some l[index] := List.getElem?_eq_getElem (by omega)
    exact lt_trans_of hlt (habsent _ hfirst) (h.increasing hgt hfirst ha)

/-- What a search finds is what the finite map has. -/
theorem Located.entry {found : ℕ × Bool} (hfound : Located lt l key found) (h : Stands lt l μ) :
    (found.2 = true ∧ ∃ a, l[found.1]? = some a ∧ equivalent lt a.key key = true ∧
        μ.entry key = some a.pair) ∨ (found.2 = false ∧ μ.entry key = none) := by
  cases hpresent : found.2 with
  | true =>
    obtain ⟨a, ha, hafter⟩ := hfound.present hpresent
    have hak : equivalent lt a.key key = true := by
      refine equivalent_iff.mpr ⟨?_, hafter⟩
      rw [← Bool.not_eq_true]
      exact (hfound.splits.before _ a ha).not.mpr (Nat.lt_irrefl _)
    exact Or.inl ⟨rfl, a, ha, hak, h.entry_of_equivalent hlt ha hak⟩
  | false =>
    refine Or.inr ⟨rfl, h.entry_none fun n a ha => ?_⟩
    rcases Nat.lt_or_ge n found.1 with hn | hn
    · simp [equivalent, (hfound.splits.before n a ha).mpr hn]
    · simp [equivalent, h.sorted.after hlt (hfound.absent hpresent) hn ha]

/-! ### The operations -/

/-- An absent key goes in at its lower bound, if there is room. -/
theorem Stands.add (h : Stands lt l μ) (hs : Splits lt l key index)
    (habsent : ∀ a, l[index]? = some a → lt key a.key = true) (hentry : μ.entry key = none)
    (hroom : l.length < cap) (value : V) :
    ∃ μ', μ.add key value = some μ' ∧ Stands lt (l.insertIdx index ⟨key, value⟩) μ' := by
  rw [h.length] at hroom
  obtain ⟨μ', hadd⟩ : ∃ μ', μ.add key value = some μ' := by
    rw [FiniteMap.add, dif_pos ⟨hentry, hroom⟩]
    exact ⟨_, rfl⟩
  obtain ⟨-, hequal, hentries⟩ := FiniteMap.add_eq_some.mp hadd
  refine ⟨μ', hadd, h.sorted.insertIdx (e := ⟨key, value⟩) hlt hs habsent, hequal.trans h.equal, ?_⟩
  rw [hentries]
  calc ((l.insertIdx index ⟨key, value⟩).map Entry.pair).Perm
        ((⟨key, value⟩ :: l : List (Entry K V)).map Entry.pair) :=
        (List.perm_insertIdx _ _ hs.bound).map _
    _ = (key, value) :: l.map Entry.pair := rfl
    List.Perm _ ((key, value) :: μ.entries) := h.entries.cons _
    List.Perm _ (μ.entries ++ [(key, value)]) := (List.perm_append_singleton _ _).symm

omit hlt in
theorem Stands.add_full (h : Stands lt l μ) (hfull : l.length = cap) (key : K) (value : V) :
    μ.add key value = none := by
  rw [h.length] at hfull
  rw [FiniteMap.add, dif_neg]
  rintro ⟨-, hroom⟩
  omega

/-- The other entries have keys that are not equivalent. -/
theorem Stands.others (h : Stands lt l μ) (ha : l[i]? = some a) (hak : equivalent lt a.key key = true) :
    ∀ p ∈ (l.eraseIdx i).map Entry.pair, μ.equal p.1 key = false := by
  intro p hp
  obtain ⟨b, hb, rfl⟩ := List.mem_map.mp hp
  obtain ⟨j, hji, hj⟩ := List.mem_eraseIdx_iff_getElem?.mp hb
  rw [h.equal, ← Bool.not_eq_true]
  intro hbk
  exact hji (h.sorted.unique hlt hj ha hbk hak)

omit hlt in
/-- The entries, that at `i` first. -/
theorem Stands.split (h : Stands lt l μ) (ha : l[i]? = some a) :
    μ.entries.Perm (a.pair :: (l.eraseIdx i).map Entry.pair) := by
  obtain ⟨hi, rfl⟩ := List.getElem?_eq_some_iff.mp ha
  exact h.entries.symm.trans ((List.getElem_cons_eraseIdx_perm hi).symm.map Entry.pair)

theorem Stands.erase (h : Stands lt l μ) (ha : l[i]? = some a)
    (hak : equivalent lt a.key key = true) : Stands lt (l.eraseIdx i) (μ.erase key) := by
  refine ⟨h.sorted.eraseIdx i, h.equal, ?_⟩
  have hothers : ((l.eraseIdx i).map Entry.pair).filter (fun p => !μ.equal p.1 key) =
      (l.eraseIdx i).map Entry.pair := by
    rw [List.filter_eq_self]
    intro p hp
    simp [h.others hlt ha hak p hp]
  have hfilter := (h.split ha).filter fun p => !μ.equal p.1 key
  rw [List.filter_cons_of_neg (by simpa [h.equal, Entry.pair] using hak), hothers] at hfilter
  exact hfilter.symm

theorem Stands.assign (h : Stands lt l μ) (ha : l[i]? = some a)
    (hak : equivalent lt a.key key = true) (value : V) :
    Stands lt (l.set i { a with value := value }) (μ.assign key value) := by
  refine ⟨h.sorted.set_value ha, h.equal, ?_⟩
  have hothers : ((l.eraseIdx i).map Entry.pair).map
      (fun p => if μ.equal p.1 key then (p.1, value) else p) = (l.eraseIdx i).map Entry.pair := by
    rw [List.map_congr_left (g := id), List.map_id]
    intro p hp
    simp [h.others hlt ha hak p hp]
  have hmap := (h.split ha).map fun p => if μ.equal p.1 key then (p.1, value) else p
  have hkey : μ.equal a.pair.1 key = true := by
    rw [h.equal]
    exact hak
  rw [List.map_cons, if_pos hkey, hothers] at hmap
  obtain ⟨hi, -⟩ := List.getElem?_eq_some_iff.mp ha
  exact ((List.set_perm_cons_eraseIdx hi { a with value := value }).map Entry.pair).trans hmap.symm

end Equivalent

theorem Stands.filter (h : Stands lt l μ) (p : K → V → Bool) :
    Stands lt (l.filter fun e => p e.key e.value) (μ.filter fun e => p e.1 e.2) where
  sorted := List.Pairwise.filter _ h.sorted
  equal := h.equal
  entries := by
    have hfilter := h.entries.filter fun e => p e.1 e.2
    rw [List.filter_map] at hfilter
    exact hfilter

end Metl.FlatMap
