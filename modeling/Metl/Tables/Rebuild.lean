import Metl.Tables.Lookup

/-! `rehash_in_place`: the in-place rebuild that clears every tombstone.

        phase 1   every live element is marked unplaced (the tombstone bit), nothing is placed
        phase 2   carry ─► first slot of its probe run no placed element holds
                            empty: done      unplaced: settle here, carry on with the displaced one

    A placed element never moves again, so the slots before it stay placed, and every step takes one
    unplaced mark away. -/

namespace Metl.StaticUnorderedMap
open Metl.Schemes Metl.Tables Function

variable {K V : Type} {w : ℕ} {c : Cfg K V w} {m m' : Map K V w}

/-- In the middle of phase 2, with the elements `carry` in hand: the bits say which slots hold an
    element, placed or not, and a placed one is reached past placed ones only. `old` lists the elements
    the rebuild began with. -/
structure Rebuilding (c : Cfg K V w) (old : List (K × V)) (m : Map K V w) (carry : List (K × V)) :
    Prop where
  stored : ∀ i < c.bucketCount, (m.storage i).isSome ↔ m.state i ≠ .empty
  single : ∀ i < c.bucketCount, m.occupied i = true → m.tombstone i = false
  placed : ∀ i < c.bucketCount, ∀ e, m.storage i = some e → m.state i = .occupied →
    Reached c.bucketCount (bucketIndex c m e.1) i fun j => m.state j = .occupied
  kept : (carry ++ elements c m).Perm old

/-- The fields the rebuild leaves alone. -/
structure SameTable (m m' : Map K V w) : Prop where
  hasher : m'.hasher = m.hasher
  keyEqual : m'.keyEqual = m.keyEqual
  size : m'.size = m.size
  tombstones : m'.tombstones = m.tombstones

theorem SameTable.rfl : SameTable m m := ⟨by rfl, by rfl, by rfl, by rfl⟩

theorem SameTable.trans {m'' : Map K V w} (h : SameTable m m') (h' : SameTable m' m'') :
    SameTable m m'' :=
  ⟨h'.hasher.trans h.hasher, h'.keyEqual.trans h.keyEqual, h'.size.trans h.size,
    h'.tombstones.trans h.tombstones⟩

theorem SameTable.home (h : SameTable m m') (key : K) : bucketIndex c m' key = bucketIndex c m key := by
  simp only [bucketIndex, h.hasher]

/-! ### Where the carried element goes -/

/-- The walk over placed elements ends at the first slot no placed element holds. -/
theorem skipOccupied_spec {start d : ℕ} (fuel probe : ℕ)
    (hbefore : ∀ j < probe, m.state (bucket c.bucketCount start j) = .occupied)
    (hle : probe ≤ d) (hlt : d < probe + fuel) (hn : probe + fuel ≤ c.bucketCount)
    (hfree : m.state (bucket c.bucketCount start d) ≠ .occupied) :
    ∃ i < c.bucketCount, skipOccupied c m fuel (bucket c.bucketCount start probe) = some i ∧
      m.state i ≠ .occupied ∧ Reached c.bucketCount start i fun j => m.state j = .occupied := by
  induction fuel generalizing probe with
  | zero => omega
  | succ fuel ih =>
    simp only [skipOccupied, c.mask, bucket_succ]
    by_cases hocc : m.state (bucket c.bucketCount start probe) = .occupied
    · have hne : probe ≠ d := by
        rintro rfl
        exact hfree hocc
      rw [if_pos hocc]
      refine ih (probe + 1) ?_ (by omega) (by omega) (by omega)
      intro j hj
      rcases Nat.lt_succ_iff_lt_or_eq.mp hj with hj | rfl
      · exact hbefore j hj
      · exact hocc
    · rw [if_neg hocc]
      exact ⟨_, bucket_lt c.bucketCount_pos _ _, rfl, hocc, probe, by omega, rfl, hbefore⟩

variable {old : List (K × V)} {carry : K × V} {i : ℕ}

/-- With an element in hand there is a slot without one, so the walk ends. -/
theorem Rebuilding.target (hr : Rebuilding c old m [carry]) (hold : old.length ≤ c.bucketCount) :
    ∃ i < c.bucketCount, skipOccupied c m c.bucketCount (bucketIndex c m carry.1) = some i ∧
      m.state i ≠ .occupied ∧
      Reached c.bucketCount (bucketIndex c m carry.1) i fun j => m.state j = .occupied := by
  have hlen := hr.kept.length_eq
  simp only [List.singleton_append, List.length_cons, elements] at hlen
  obtain ⟨i, hlt, hnone⟩ := exists_none (by omega : (contents c.bucketCount m.storage).length < _)
  obtain ⟨d, hd, rfl⟩ := exists_bucket (bucketIndex c m carry.1) hlt
  have hfree : m.state (bucket c.bucketCount (bucketIndex c m carry.1) d) ≠ .occupied := by
    intro hocc
    have hsome := (hr.stored _ hlt).mpr (by simp [hocc])
    simp [hnone] at hsome
  have hwalk := skipOccupied_spec c.bucketCount 0 (by simp) (Nat.zero_le d) (by omega) (by omega) hfree
  rwa [bucket_zero (c.bucketIndex_lt m carry.1)] at hwalk

/-! ### Settling the carried element -/

/-- The carried element is placed in slot `i`. -/
def settle (m : Map K V w) (i : ℕ) (carry : K × V) : Map K V w :=
  { m.construct i carry with
    tombstone := update m.tombstone i false
    occupied := update m.occupied i true }

theorem state_settle {j : ℕ} : (settle m i carry).state j = if j = i then .occupied else m.state j := by
  by_cases hji : j = i
  · simp [settle, Map.state, hji]
  · simp [settle, Map.state, Map.construct, hji]

theorem settle_sameTable (i : ℕ) (carry : K × V) : SameTable m (settle m i carry) :=
  ⟨rfl, rfl, rfl, rfl⟩

/-- STEP: the carried element is placed, and the one it displaces, if any, is in hand. -/
theorem Rebuilding.settled (hr : Rebuilding c old m [carry]) (hi : i < c.bucketCount)
    (hreach : Reached c.bucketCount (bucketIndex c m carry.1) i fun j => m.state j = .occupied) :
    Rebuilding c old (settle m i carry) (m.storage i).toList := by
  have hgrow : ∀ j < c.bucketCount, m.state j = .occupied → (settle m i carry).state j = .occupied := by
    intro j _ hj
    rw [state_settle, hj, ite_self]
  refine ⟨?_, ?_, ?_, ?_⟩
  · intro j hj
    rw [state_settle]
    by_cases hji : j = i
    · simp [settle, hji]
    · simp [settle, hji, hr.stored j hj]
  · intro j hj hocc
    by_cases hji : j = i
    · simp [settle, hji]
    · have hold := hr.single j hj
      simp_all [settle]
  · intro j hj e he hocc
    rw [(settle_sameTable i carry).home]
    rcases eq_or_ne j i with rfl | hji
    · have hcarry : carry = e := by simpa [settle] using he
      exact hcarry ▸ hreach.mono hgrow
    · rw [state_settle, if_neg hji] at hocc
      have hsome : m.storage j = some e := by simpa [settle, hji] using he
      exact (hr.placed j hj e hsome hocc).mono hgrow
  · exact (contents_replace hi m.storage carry).trans hr.kept

/-- The cascade ends: enough fuel for the unplaced elements settles all it displaces. -/
theorem settleLoop_spec (hold : old.length ≤ c.bucketCount) {fuel : ℕ} (hr : Rebuilding c old m [carry])
    (hfuel : tally c.bucketCount m.tombstone < fuel) :
    ∃ m', settleLoop c fuel m carry = some m' ∧ Rebuilding c old m' [] ∧ SameTable m m' ∧
      ∀ i, m.tombstone i = false → m'.tombstone i = false := by
  induction fuel generalizing m carry with
  | zero => omega
  | succ fuel ih =>
    obtain ⟨i, hi, hskip, hfree, hreach⟩ := hr.target hold
    have hstep := hr.settled hi hreach
    have hmark : ∀ j, m.tombstone j = false → (settle m i carry).tombstone j = false := by
      intro j hj
      by_cases hji : j = i <;> simp [settle, hji, hj]
    rw [settleLoop, hskip, Option.bind_some]
    cases hstate : m.state i with
    | occupied => exact absurd hstate hfree
    | empty =>
      have hnone : m.storage i = none := by
        have hstored := hr.stored i hi
        simpa [hstate] using hstored
      have htomb : m.tombstone i = false := (state_empty_iff.mp hstate).2
      rw [hnone] at hstep
      refine ⟨settle m i carry, ?_, hstep, settle_sameTable i carry, hmark⟩
      rw [if_pos rfl, settle, ← htomb, update_eq_self]
      rfl
    | tombstone =>
      obtain ⟨displaced, hsome⟩ := Option.isSome_iff_exists.mp ((hr.stored i hi).mpr (by simp [hstate]))
      rw [hsome] at hstep
      have htomb : m.tombstone i = true := (state_tombstone_iff.mp hstate).2
      have htally := tally_update hi m.tombstone false
      rw [htomb] at htally
      have hless : tally c.bucketCount (settle m i carry).tombstone < fuel := by
        change tally c.bucketCount (update m.tombstone i false) < fuel
        simp only [Bool.toNat_true, Bool.toNat_false] at htally
        omega
      obtain ⟨m', hloop, hr', hsame, hmark'⟩ := ih hstep hless
      rw [if_neg (by simp), hsome, Option.bind_some]
      exact ⟨m', hloop, hr', (settle_sameTable i carry).trans hsame, fun j hj => hmark' j (hmark j hj)⟩

/-! ### The whole rebuild -/

/-- An unplaced element is taken in hand. -/
theorem Rebuilding.pick (hr : Rebuilding c old m []) (hi : i < c.bucketCount)
    (hmark : m.tombstone i = true) (hsome : m.storage i = some carry) :
    Rebuilding c old { m.destroy i with tombstone := update m.tombstone i false } [carry] := by
  have hocc : m.occupied i = false := by
    rw [← Bool.not_eq_true]
    intro hocc
    simp [hr.single i hi hocc] at hmark
  have hstate : ∀ j, ({ m.destroy i with
      tombstone := update m.tombstone i false } : Map K V w).state j =
        if j = i then .empty else m.state j := by
    intro j
    by_cases hji : j = i
    · simp [Map.state, Map.destroy, hji, hocc]
    · simp [Map.state, Map.destroy, hji]
  refine ⟨?_, ?_, ?_, ?_⟩
  · intro j hj
    rw [hstate]
    by_cases hji : j = i
    · simp [hji]
    · simp [hji, hr.stored j hj]
  · intro j hj hoccj
    by_cases hji : j = i
    · simp [hji]
    · simp [hji, hr.single j hj hoccj]
  · intro j hj e he hoccj
    rw [hstate] at hoccj
    split at hoccj
    · cases hoccj
    · rename_i hji
      have hsomej : m.storage j = some e := by simpa [hji] using he
      refine (hr.placed j hj e hsomej hoccj).mono ?_
      intro k _ hk
      rw [hstate, if_neg ?_]
      · exact hk
      · rintro rfl
        simp [state_occupied_iff.mp hk] at hocc
  · exact (contents_take hi hsome).symm.trans hr.kept

/-- RUN: after the slots below `i + left` none of them is unplaced. -/
theorem placeLoop_spec (hold : old.length ≤ c.bucketCount) {left : ℕ} (hr : Rebuilding c old m [])
    (hn : i + left ≤ c.bucketCount) (hdone : ∀ j < i, m.tombstone j = false) :
    ∃ m', placeLoop c left i m = some m' ∧ Rebuilding c old m' [] ∧ SameTable m m' ∧
      ∀ j < i + left, m'.tombstone j = false := by
  induction left generalizing i m with
  | zero => exact ⟨m, rfl, hr, SameTable.rfl, hdone⟩
  | succ left ih =>
    have hi : i < c.bucketCount := by omega
    rw [placeLoop]
    cases hmark : m.tombstone i with
    | false =>
      rw [if_neg (by simp)]
      have hdone' : ∀ j < i + 1, m.tombstone j = false := by
        intro j hj
        rcases Nat.lt_succ_iff_lt_or_eq.mp hj with hj | rfl
        · exact hdone j hj
        · exact hmark
      obtain ⟨m', hloop, hr', hsame, htomb⟩ := ih hr (by omega) hdone'
      exact ⟨m', hloop, hr', hsame, fun j hj => htomb j (by omega)⟩
    | true =>
      rw [if_pos rfl]
      have hne : m.state i ≠ .empty := by
        intro hempty
        simp [(state_empty_iff.mp hempty).2] at hmark
      obtain ⟨carry, hsome⟩ := Option.isSome_iff_exists.mp ((hr.stored i hi).mpr hne)
      rw [hsome, Option.bind_some]
      obtain ⟨m₁, hsettle, hr₁, hsame₁, hmark₁⟩ :=
        settleLoop_spec hold (hr.pick hi hmark hsome) (Nat.lt_succ_of_le (tally_le _ _))
      rw [hsettle, Option.bind_some]
      have hdone₁ : ∀ j < i + 1, m₁.tombstone j = false := by
        intro j hj
        refine hmark₁ j ?_
        rcases Nat.lt_succ_iff_lt_or_eq.mp hj with hj | rfl
        · simp [Nat.ne_of_lt hj, hdone j hj]
        · simp
      obtain ⟨m', hloop, hr', hsame, htomb⟩ := ih hr₁ (by omega) hdone₁
      have hpick : SameTable m m₁ := ⟨hsame₁.hasher, hsame₁.keyEqual, hsame₁.size, hsame₁.tombstones⟩
      exact ⟨m', hloop, hr', hpick.trans hsame, fun j hj => htomb j (by omega)⟩

/-- The bits and the objects agree: exactly the occupied slots hold one. -/
def SlotsAgree (c : Cfg K V w) (m : Map K V w) : Prop :=
  ∀ i < c.bucketCount, (m.storage i).isSome ↔ m.state i = .occupied

/-- Phase 1: nothing is placed. -/
theorem rebuilding_markUnplaced (hstored : SlotsAgree c m) :
    Rebuilding c (elements c m) (markUnplaced m) [] := by
  have hstate : ∀ j, (markUnplaced m).state j = if m.occupied j then .tombstone else .empty := by
    intro j
    cases hocc : m.occupied j <;> simp [Map.state, markUnplaced, hocc]
  refine ⟨?_, ?_, ?_, List.Perm.refl _⟩
  · intro i hlt
    have hstored := hstored i hlt
    rw [state_occupied_iff] at hstored
    rw [hstate]
    cases hocc : m.occupied i <;> simp_all [markUnplaced]
  · intro i _ hocc
    simp [markUnplaced] at hocc
  · intro i _ e _ hocc
    rw [hstate] at hocc
    split at hocc <;> cases hocc

/-- What a rebuild leaves: the same elements, each within reach past occupied slots only, and no
    tombstone. The functors and the size stay. -/
structure Rebuilt (c : Cfg K V w) (m m' : Map K V w) : Prop where
  stored : SlotsAgree c m'
  clean : ∀ i < c.bucketCount, m'.state i ≠ .tombstone
  reached : ∀ i < c.bucketCount, ∀ e, m'.storage i = some e →
    Reached c.bucketCount (bucketIndex c m' e.1) i fun j => m'.state j = .occupied
  elements : (elements c m').Perm (elements c m)
  same : SameTable (markUnplaced m) m'

/-- The rebuild ends, whatever the functors are. -/
theorem rehashInPlace_rebuilt (hstored : SlotsAgree c m) (hcap : c.capacity.toNat ≠ 0) :
    ∃ m', rehashInPlace c m = some m' ∧ Rebuilt c m m' := by
  obtain ⟨m', hloop, hr, hsame, htomb⟩ := placeLoop_spec (length_contents_le _ _)
    (rebuilding_markUnplaced hstored) (Nat.le_of_eq (Nat.zero_add _)) (by simp)
  rw [Nat.zero_add] at htomb
  have hclean : ∀ i < c.bucketCount, m'.state i ≠ .tombstone := by
    intro i hlt hstate
    simp [state_tombstone_iff, htomb i hlt] at hstate
  have hfull : ∀ i < c.bucketCount, m'.state i ≠ .empty ↔ m'.state i = .occupied := by
    intro i hlt
    have hno := hclean i hlt
    cases hst : m'.state i <;> simp_all
  rw [rehashInPlace, if_neg hcap]
  refine ⟨m', hloop, ?_, hclean, ?_, hr.kept, hsame⟩
  · intro i hlt
    rw [hr.stored i hlt, hfull i hlt]
  · intro i hlt e he
    exact hr.placed i hlt e he ((hfull i hlt).mp ((hr.stored i hlt).mp (by simp [he])))

/-- CORRECT: the rebuild ends; it keeps the elements and the invariant, and leaves no tombstone. -/
theorem rehashInPlace_spec (hi : Inv c m) (hcap : c.capacity.toNat ≠ 0) :
    ∃ m', rehashInPlace c m = some m' ∧ Inv c m' ∧ (elements c m').Perm (elements c m) ∧
      m'.hasher = m.hasher ∧ m'.keyEqual = m.keyEqual ∧ m'.size = m.size ∧ m'.tombstones = 0 := by
  obtain ⟨m', hrehash, hr⟩ := rehashInPlace_rebuilt hi.stored hcap
  have hhasher : m'.hasher = m.hasher := hr.same.hasher
  have hequal : m'.keyEqual = m.keyEqual := hr.same.keyEqual
  have hsize : m'.size = m.size := hr.same.size
  have hzero : m'.tombstones = 0 := hr.same.tombstones
  refine ⟨m', hrehash, ⟨?_, hr.stored, ?_, ?_, ?_, ?_, ?_⟩, hr.elements, hhasher, hequal, hsize, hzero⟩
  · rw [hhasher, hequal]
    exact hi.lawful
  · intro i hlt e he
    refine (hr.reached i hlt e he).mono ?_
    intro j _ hj
    simp [hj]
  · have hapart : Apart m' = Apart m := by
      funext a b
      rw [Apart, Apart, hequal]
    rw [hapart]
    exact (hr.elements.pairwise_iff fun {a b} => hi.lawful.apart_symm).mpr hi.distinct
  · rw [hsize, hi.size, hr.elements.length_eq]
  · rw [hsize]
    exact hi.bounded
  · rw [hzero, eq_comm, tally_eq_zero]
    intro i hlt
    simpa using hr.clean i hlt

end Metl.StaticUnorderedMap
