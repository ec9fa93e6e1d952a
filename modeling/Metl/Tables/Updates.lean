import Metl.Tables.Rebuild

/-! What changing one slot does to a table: placing a new element, assigning to one, erasing one. -/

namespace Metl.StaticUnorderedMap
open Metl.Schemes Metl.Tables Function

variable {K V : Type} {w : ℕ} {c : Cfg K V w} {m m' : Map K V w}

/-! ### One slot changes -/

/-- `m'` is `m` with slot `i` in state `s`, holding `x`. -/
structure Changed (m m' : Map K V w) (i : ℕ) (s : SlotState) (x : Option (K × V)) : Prop where
  state : ∀ j, m'.state j = if j = i then s else m.state j
  storage : m'.storage = update m.storage i x
  hasher : m'.hasher = m.hasher
  keyEqual : m'.keyEqual = m.keyEqual

/-- The elements outside slot `i`. -/
def others (c : Cfg K V w) (m : Map K V w) (i : ℕ) : List (K × V) :=
  contents c.bucketCount (update m.storage i none)

section Changed
variable {i : ℕ} {s : SlotState} {x : Option (K × V)}

theorem Changed.perm (hch : Changed m m' i s x) (hi : i < c.bucketCount) :
    (elements c m').Perm (x.toList ++ others c m i) := by
  rw [elements, hch.storage]
  exact contents_update hi m.storage x

theorem Changed.tombs (hch : Changed m m' i s x) (hi : i < c.bucketCount) :
    tally c.bucketCount (fun j => decide (m'.state j = .tombstone)) +
        (decide (m.state i = .tombstone)).toNat =
      tally c.bucketCount (fun j => decide (m.state j = .tombstone)) +
        (decide (s = .tombstone)).toNat := by
  rw [← tally_update hi (fun j => decide (m.state j = .tombstone)) (decide (s = .tombstone))]
  congr 1
  refine tally_congr ?_
  intro j _
  rw [hch.state]
  by_cases hji : j = i <;> simp [hji]

/-- STEP: one slot changes, and the walk gets to `z'`; the slot becomes empty only behind the walk. -/
theorem Swept.change {z z' : ℕ} (hw : Swept c m z) (hch : Changed m m' i s x)
    (hi : i < c.bucketCount) (hz : z ≤ z') (hs : s = .empty → i < z')
    (hemptied : ∀ j < z', j < c.bucketCount → m'.state j = .empty) (hx : x.isSome ↔ s = .occupied)
    (hreach : ∀ e, x = some e →
      Reached c.bucketCount (bucketIndex c m e.1) i fun j => m.state j ≠ .empty ∨ j < z)
    (hdistinct : (x.toList ++ others c m i).Pairwise (Apart m))
    (hsize : m'.size = (x.toList ++ others c m i).length) (hbound : m'.size ≤ c.capacity.toNat) :
    Swept c m' z' := by
  have hgrow : ∀ j < c.bucketCount, m.state j ≠ .empty ∨ j < z → m'.state j ≠ .empty ∨ j < z' := by
    intro j _ hj
    rw [hch.state]
    rcases eq_or_ne j i with rfl | hji
    · rw [if_pos rfl, ← imp_iff_not_or]
      exact hs
    · rw [if_neg hji]
      exact hj.imp_right fun hlt => by omega
  have hhome : ∀ key, bucketIndex c m' key = bucketIndex c m key := by
    intro key
    simp only [bucketIndex, hch.hasher]
  have hapart : Apart m' = Apart m := by
    funext a b
    rw [Apart, Apart, hch.keyEqual]
  have hperm := hch.perm hi
  refine ⟨?_, ?_, ?_, hemptied, ?_, ?_, hbound⟩
  · rw [hch.hasher, hch.keyEqual]
    exact hw.lawful
  · intro j hj
    rw [hch.storage, hch.state]
    by_cases hji : j = i
    · simpa [hji] using hx
    · simpa [hji] using hw.stored j hj
  · intro j hj e he
    rw [hhome]
    rw [hch.storage] at he
    rcases eq_or_ne j i with rfl | hji
    · exact (hreach e (by simpa using he)).mono hgrow
    · exact (hw.reached j hj e (by simpa [hji] using he)).mono hgrow
  · rw [hapart]
    exact (hperm.pairwise_iff fun {a b} => hw.lawful.apart_symm).mpr hdistinct
  · rw [hsize, hperm.length_eq]

/-- STEP: between two calls one slot changes to a state that is not empty. -/
theorem Inv.change (hinv : Inv c m) (hch : Changed m m' i s x) (hi : i < c.bucketCount)
    (hs : s ≠ .empty) (hx : x.isSome ↔ s = .occupied) (hreach : ∀ e, x = some e →
      Reached c.bucketCount (bucketIndex c m e.1) i fun j => m.state j ≠ .empty)
    (hdistinct : (x.toList ++ others c m i).Pairwise (Apart m))
    (hsize : m'.size = (x.toList ++ others c m i).length) (hbound : m'.size ≤ c.capacity.toNat)
    (htomb : m'.tombstones + (decide (m.state i = .tombstone)).toNat =
      m.tombstones + (decide (s = .tombstone)).toNat) : Inv c m' := by
  obtain ⟨hw, hold⟩ := inv_iff_swept.mp hinv
  refine inv_iff_swept.mpr ⟨?_, ?_⟩
  · refine hw.change hch hi (Nat.le_refl 0) (fun h => absurd h hs) (by simp) hx ?_ hdistinct hsize hbound
    intro e he
    refine (hreach e he).mono ?_
    intro j _ hj
    exact Or.inl hj
  · have htally := hch.tombs hi
    omega

end Changed

variable {i : ℕ} {e : K × V} {key : K} {v : V}

/-- One element and the others, with keys apart from its own. -/
theorem Lawful.split (hl : Lawful c m.hasher m.keyEqual) (hdistinct : (elements c m).Pairwise (Apart m))
    (hi : i < c.bucketCount) (he : m.storage i = some e) : (elements c m).Perm (e :: others c m i) ∧
      (others c m i).Pairwise (Apart m) ∧ ∀ a ∈ others c m i, m.keyEqual e.1 a.1 = false := by
  have hperm : (elements c m).Perm (e :: others c m i) := contents_take hi he
  have hpair := (hperm.pairwise_iff fun {a b} => hl.apart_symm).mp hdistinct
  rw [List.pairwise_cons] at hpair
  exact ⟨hperm, hpair.2, hpair.1⟩

theorem Inv.split (hinv : Inv c m) (hi : i < c.bucketCount) (he : m.storage i = some e) :
    (elements c m).Perm (e :: others c m i) ∧
      (others c m i).Pairwise (Apart m) ∧ ∀ a ∈ others c m i, m.keyEqual e.1 a.1 = false :=
  hinv.lawful.split hinv.distinct hi he

theorem Inv.others_of_none (hinv : Inv c m) (hi : i < c.bucketCount) (hfree : m.state i ≠ .occupied) :
    others c m i = elements c m := by
  rw [others, elements, ← hinv.storage_none hi hfree, update_eq_self]

/-! ### A new element -/

/-- `m'` is `m` with the new element `e` in slot `i`. -/
structure Inserted (c : Cfg K V w) (m m' : Map K V w) (i : ℕ) (e : K × V) : Prop where
  inv : Inv c m'
  lt : i < c.bucketCount
  storage : m'.storage i = some e
  elements : (elements c m').Perm (e :: elements c m)
  hasher : m'.hasher = m.hasher
  keyEqual : m'.keyEqual = m.keyEqual

/-- A free slot within reach of an absent key takes it. -/
theorem Inv.insert (hinv : Inv c m) (ha : Absent c m key) (hroom : m.size < c.capacity.toNat)
    (hi : i < c.bucketCount) (hfree : m.state i ≠ .occupied)
    (hreach : Reached c.bucketCount (bucketIndex c m key) i fun j => m.state j = .occupied)
    (hch : Changed m m' i .occupied (some (key, v))) (hsize : m'.size = m.size + 1)
    (htomb : m'.tombstones = if m.state i = .tombstone then m.tombstones - 1 else m.tombstones) :
    Inserted c m m' i (key, v) := by
  have hothers := hinv.others_of_none hi hfree
  have hperm := hch.perm hi
  rw [hothers] at hperm
  have hdistinct : ((some (key, v)).toList ++ others c m i).Pairwise (Apart m) := by
    rw [hothers]
    refine List.pairwise_cons.mpr ⟨?_, hinv.distinct⟩
    intro a hmem
    exact hinv.lawful.apart_symm (ha a hmem)
  refine ⟨?_, hi, ?_, hperm, hch.hasher, hch.keyEqual⟩
  · refine hinv.change hch hi (by simp) (by simp) ?_ hdistinct ?_ (by omega) ?_
    · rintro e ⟨⟩
      refine hreach.mono ?_
      intro j _ hj
      simp [hj]
    · rw [hsize, hothers, hinv.size]
      rfl
    · rw [htomb]
      -- a tombstone slot is counted, so the counter does not wrap
      cases hstate : m.state i with
      | tombstone =>
        have hpos : 0 < m.tombstones := by
          rw [hinv.tombstones, Nat.pos_iff_ne_zero]
          intro hzero
          have hfalse := tally_eq_zero.mp hzero i hi
          simp [hstate] at hfalse
        simp
        omega
      | empty => simp
      | occupied => exact absurd hstate hfree
  · rw [hch.storage, update_self]

theorem constructAt_spec (hinv : Inv c m) {value : Arg V} (hread : m.read value = some v)
    (ha : Absent c m key) (hroom : m.size < c.capacity.toNat) (hi : i < c.bucketCount)
    (hfree : m.state i ≠ .occupied)
    (hreach : Reached c.bucketCount (bucketIndex c m key) i fun j => m.state j = .occupied) :
    ∃ m' j, constructAt c m i key value = some (m', j) ∧ Inserted c m m' j (key, v) := by
  unfold constructAt
  split
  · obtain ⟨m₁, hrehash, hinv₁, hperm, hhasher, hequal, hsize, hzero⟩ :=
      rehashInPlace_spec hinv (by omega)
    have ha₁ : Absent c m₁ key := by
      intro e he
      rw [hequal]
      exact ha e (hperm.mem_iff.mp he)
    have hlt : m₁.size < c.bucketCount := by
      rw [hsize, hinv.size]
      exact length_contents_lt hi (hinv.storage_none hi hfree)
    obtain ⟨j, hj, hlocate, hfree₁, hreach₁⟩ := hinv₁.locate_absent ha₁ (by omega) hlt
    have hno : m₁.state j ≠ .tombstone := by
      have htally := hinv₁.tombstones
      rw [hzero, eq_comm, tally_eq_zero] at htally
      simpa using htally j hj
    simp only [hread, hrehash, hlocate, Option.bind_some, if_pos hj]
    refine ⟨_, j, rfl, ?_⟩
    have hins : Inserted c m₁ { (m₁.construct j (key, v)).setState j .occupied with
        size := m₁.size + 1 } j (key, v) :=
      hinv₁.insert ha₁ (by omega) hj hfree₁ hreach₁ ⟨fun _ => state_setState, rfl, rfl, rfl⟩ rfl
        (if_neg hno).symm
    exact ⟨hins.inv, hins.lt, hins.storage, hins.elements.trans (hperm.cons _),
      hins.hasher.trans hhasher, hins.keyEqual.trans hequal⟩
  · simp only [placeAt, if_pos hi, hread, Option.map_some]
    refine ⟨_, i, rfl, ?_⟩
    exact hinv.insert ha hroom hi hfree hreach ⟨fun _ => state_setState, rfl, rfl, rfl⟩ rfl rfl

/-- `emplace` and `operator[]` on an absent key. -/
theorem emplaceSlot_absent (hs : c.Sized) (hinv : Inv c m) (value : Arg V)
    (hread : m.read value = some v) (hfind : findExistingIndex c m key = none)
    (hroom : m.size < c.capacity.toNat) :
    ∃ m' i, emplaceSlot c m key value = some (m', i) ∧ Inserted c m m' i (key, v) := by
  have ha := hinv.find_none hfind
  have hcap := hs.capacity_lt
  obtain ⟨i, hi, hlocate, hfree, hreach⟩ := hinv.locate_absent ha (by omega) (by omega)
  simp only [emplaceSlot, hfind, if_pos hroom, hlocate, Option.bind_some, if_neg hfree]
  exact constructAt_spec hinv hread ha hroom hi hfree hreach

/-! ### An element erased, an element assigned to -/

section Existing
variable {i : ℕ} {e : K × V}

/-- An erased element leaves a tombstone, so no probe run is cut. -/
theorem Inv.erased (hinv : Inv c m) (hi : i < c.bucketCount) (he : m.storage i = some e) :
    Inv c (destroyAt m i .tombstone) ∧ (elements c (destroyAt m i .tombstone)).Perm (others c m i) := by
  have hch : Changed m (destroyAt m i .tombstone) i .tombstone none :=
    ⟨fun _ => state_setState, rfl, rfl, rfl⟩
  obtain ⟨hperm, hpair, -⟩ := hinv.split hi he
  have hlen := hperm.length_eq
  rw [List.length_cons, ← hinv.size] at hlen
  have hsize : (destroyAt m i .tombstone).size = m.size - 1 := rfl
  have hocc : m.state i = .occupied := (hinv.stored i hi).mp (by simp [he])
  refine ⟨?_, hch.perm hi⟩
  refine hinv.change hch hi (by simp) (by simp) (by simp) hpair ?_ ?_ ?_
  · rw [hsize, hlen]
    rfl
  · have hbound := hinv.bounded
    omega
  · simp [destroyAt, hocc]

/-- Assigning to a mapped value keeps the key, the slot and everything else. -/
theorem Inv.assigned (hinv : Inv c m) (hi : i < c.bucketCount) (he : m.storage i = some e) (v : V) :
    Inv c (m.construct i (e.1, v)) ∧
      (elements c (m.construct i (e.1, v))).Perm ((e.1, v) :: others c m i) := by
  have hocc : m.state i = .occupied := (hinv.stored i hi).mp (by simp [he])
  have hch : Changed m (m.construct i (e.1, v)) i .occupied (some (e.1, v)) := by
    refine ⟨?_, rfl, rfl, rfl⟩
    intro j
    by_cases hji : j = i <;> simp [hji, hocc]
  obtain ⟨hperm, hpair, hapart⟩ := hinv.split hi he
  have hlen := hperm.length_eq
  rw [List.length_cons, ← hinv.size] at hlen
  refine ⟨?_, hch.perm hi⟩
  refine hinv.change hch hi (by simp) (by simp) ?_ ?_ ?_ hinv.bounded ?_
  · rintro a ⟨⟩
    exact hinv.reached i hi e he
  · exact List.pairwise_cons.mpr ⟨hapart, hpair⟩
  · exact hlen
  · simp [hocc, Map.construct]

end Existing

end Metl.StaticUnorderedMap
