import Metl.Tables.LockStep
import Metl.Tables.Reachable

/-! How full of tombstones a table can get.

        B buckets     [ occupied … ] [ tombstones … ] [ empty … ]
                       <=  B/2        <=  B/8  when a slot that was empty is taken

    An erase turns an element into a tombstone and an insertion takes a tombstone or an empty slot, so
    the two together grow only where an empty slot is taken; there the tombstones are at most an eighth,
    since more of them make the insertion rebuild the table first. Nothing is asked of the hasher and of
    the key equality. -/

namespace Metl.StaticUnorderedMap
open Metl.Schemes Metl.Tables

variable {ι K V : Type} [DecidableEq ι] {w : ℕ} {c : Cfg K V w} {m m' other : Map K V w}

/-! ### The slots a search looks at -/

/-- `state(index) == occupied && key_equal_(...)`. -/
def hits (m : Map K V w) (key : K) (index : ℕ) : Bool :=
  decide (m.state index = .occupied) && m.keyEqualAt index key

/-- Both probe loops stop at an empty slot and at the key. -/
def stops (m : Map K V w) (key : K) (index : ℕ) : Bool :=
  decide (m.state index = .empty) || hits m key index

/-- The slots `find_existing_index` and `locate_insert_index` look at, in order. -/
def probed (c : Cfg K V w) (m : Map K V w) (key : K) : List ℕ :=
  probes c.bucketCount (bucketIndex c m key) (stops m key) c.bucketCount 0

section Searches
variable {key : K} {start : ℕ}

/-- The last slot says what is found. -/
theorem findLoop_probes (left probe : ℕ) : findLoop c m key start left probe =
      (probes c.bucketCount start (stops m key) left probe).getLast?.filter (hits m key) := by
  induction left generalizing probe with
  | zero => rfl
  | succ left ih =>
    simp only [findLoop, probes, c.probe]
    generalize bucket c.bucketCount start probe = i
    split
    · next hempty => simp [stops, hits, hempty, Option.filter_some]
    · next hfull =>
      split
      · next hhit =>
        have hhits : hits m key i = true := by simp [hits, hhit]
        simp [stops, hhits, Option.filter_some]
      · next hmiss =>
        have hhits : hits m key i = false := by
          rw [← Bool.not_eq_true]
          intro hhits
          simp only [hits, Bool.and_eq_true, decide_eq_true_eq] at hhits
          exact hmiss hhits
        have hgo : stops m key i = false := by simp [stops, hhits, hfull]
        rw [ih, hgo, if_neg (by simp), List.getLast?_cons]
        cases (probes c.bucketCount start (stops m key) left (probe + 1)).getLast? with
        | none => simp [hhits, Option.filter_some]
        | some j => rfl

/-- The slot of the key, else the first tombstone, else the empty slot that stopped the search. -/
theorem locateLoop_probes (left probe : ℕ) (first : Option ℕ) :
    locateLoop c m key start left probe first =
      let looked := probes c.bucketCount start (stops m key) left probe
      (looked.getLast?.filter (hits m key)).or
        ((first.or (looked.find? fun i => m.state i = .tombstone)).or
          (looked.getLast?.filter fun i => m.state i = .empty)) := by
  induction left generalizing probe first with
  | zero => simp [locateLoop, probes]
  | succ left ih =>
    simp only [locateLoop, probes, c.probe]
    generalize bucket c.bucketCount start probe = i
    have hlast : ∀ rest : List ℕ, ∀ p : ℕ → Bool, p i = false →
        (i :: rest).getLast?.filter p = rest.getLast?.filter p := by
      intro rest p hp
      rw [List.getLast?_cons]
      cases rest.getLast? with
      | none => simp [hp, Option.filter_some]
      | some j => rfl
    cases hstate : m.state i with
    | empty => cases first <;> simp [stops, hits, hstate, Option.filter_some]
    | tombstone =>
      have hhits : hits m key i = false := by simp [hits, hstate]
      have hgo : stops m key i = false := by simp [stops, hhits, hstate]
      dsimp only
      rw [ih, hgo, if_neg (by simp), hlast _ _ hhits, hlast _ _ (by simp [hstate])]
      cases first <;> simp [hstate]
    | occupied =>
      cases hkey : m.keyEqualAt i key with
      | true => simp [stops, hits, hstate, hkey, Option.filter_some]
      | false =>
        have hhits : hits m key i = false := by simp [hits, hkey]
        have hgo : stops m key i = false := by simp [stops, hhits, hstate]
        dsimp only
        rw [if_neg (by simp), ih, hgo, if_neg (by simp), hlast _ _ hhits, hlast _ _ (by simp [hstate])]
        cases first <;> simp [hstate]

/-- A key that is not found is located at a slot without an element, if at one at all. -/
theorem locate_of_not_found (hfind : findExistingIndex c m key = none) {i : ℕ}
    (hlocate : locateInsertIndex c m key = some i) : i < c.bucketCount ∧ m.state i ≠ .occupied := by
  unfold findExistingIndex at hfind
  unfold locateInsertIndex at hlocate
  split at hlocate
  · cases hlocate
  · next hcap =>
    rw [if_neg hcap, findLoop_probes] at hfind
    rw [locateLoop_probes] at hlocate
    dsimp only at hlocate
    rw [hfind, Option.none_or, Option.none_or] at hlocate
    have hlt : ∀ j ∈ probes c.bucketCount (bucketIndex c m key) (stops m key) c.bucketCount 0,
        j < c.bucketCount := by
      intro j hj
      obtain ⟨d, -, -, rfl⟩ := mem_probes hj
      exact bucket_lt c.bucketCount_pos _ _
    rcases Option.or_eq_some_iff.mp hlocate with htomb | ⟨-, hempty⟩
    · have hstate := List.find?_some htomb
      simp only [decide_eq_true_eq] at hstate
      exact ⟨hlt i (List.mem_of_find?_eq_some htomb), by simp [hstate]⟩
    · obtain ⟨hlast, hstate⟩ := Option.filter_eq_some_iff.mp hempty
      simp only [decide_eq_true_eq] at hstate
      exact ⟨hlt i (List.mem_of_getLast? hlast), by simp [hstate]⟩

theorem locate_lt {i : ℕ} (hlocate : locateInsertIndex c m key = some i) : i < c.bucketCount := by
  cases hfind : findExistingIndex c m key with
  | none => exact (locate_of_not_found hfind hlocate).1
  | some j =>
    obtain ⟨hj, -⟩ := find_some hfind
    unfold findExistingIndex at hfind
    unfold locateInsertIndex at hlocate
    split at hlocate
    · cases hlocate
    · next hcap =>
      rw [if_neg hcap, findLoop_probes] at hfind
      rw [locateLoop_probes] at hlocate
      dsimp only at hlocate
      rw [hfind, Option.some_or] at hlocate
      cases hlocate
      exact hj

end Searches

/-! ### The counts -/

/-- Where the counters stand. A hasher that is not consistent with the key equality can make a rebuild
    put a key over an equal one, so `size_` may be above the number of elements, never below. -/
structure Counts (c : Cfg K V w) (m : Map K V w) : Prop where
  agree : SlotsAgree c m
  size : (elements c m).length ≤ m.size
  bounded : m.size ≤ c.capacity.toNat
  tombstones : m.tombstones = tally c.bucketCount fun i => decide (m.state i = .tombstone)
  load : m.size + m.tombstones ≤ c.bucketCount / 2 + c.bucketCount / 8

theorem Blank.counts (hb : Blank c m) : Counts c m := by
  refine ⟨?_, ?_, ?_, ?_, ?_⟩
  · intro i hi
    simp [hb.state i hi, hb.storage i hi]
  · rw [hb.nil]
    exact Nat.zero_le _
  · rw [hb.size]
    exact Nat.zero_le _
  · rw [hb.tombstones, eq_comm, tally_eq_zero]
    intro i hi
    simp [hb.state i hi]
  · rw [hb.size, hb.tombstones]
    omega

section OneSlot
variable {i : ℕ} {s : SlotState} {x : Option (K × V)}

theorem Changed.length (hch : Changed m m' i s x) (hi : i < c.bucketCount) :
    (elements c m').length + (m.storage i).toList.length = (elements c m).length + x.toList.length := by
  have hnew := (hch.perm hi).length_eq
  have hold := (contents_split hi m.storage).length_eq
  rw [List.length_append] at hnew hold
  change (elements c m).length = _ + (others c m i).length at hold
  omega

theorem Changed.agree (hch : Changed m m' i s x) (hagree : SlotsAgree c m)
    (hx : x.isSome ↔ s = .occupied) : SlotsAgree c m' := by
  intro j hj
  rw [hch.storage, hch.state]
  rcases eq_or_ne j i with rfl | hji
  · simpa using hx
  · simpa [hji] using hagree j hj

/-- STEP: one slot changes, and the counters with it. -/
theorem Counts.change (hc : Counts c m) (hch : Changed m m' i s x) (hi : i < c.bucketCount)
    (hx : x.isSome ↔ s = .occupied)
    (hsize : (elements c m).length + x.toList.length ≤ m'.size + (m.storage i).toList.length)
    (hbound : m'.size ≤ c.capacity.toNat)
    (htomb : m'.tombstones + (decide (m.state i = .tombstone)).toNat =
      m.tombstones + (decide (s = .tombstone)).toNat)
    (hload : m'.size + m'.tombstones ≤ c.bucketCount / 2 + c.bucketCount / 8) : Counts c m' := by
  have hlen := hch.length hi
  have htally := hch.tombs hi
  have hold := hc.tombstones
  exact ⟨hch.agree hc.agree hx, by omega, hbound, by omega, hload⟩

end OneSlot

/-- A tombstone slot is counted. -/
theorem Counts.tombstone_pos (hc : Counts c m) {i : ℕ} (hi : i < c.bucketCount)
    (hstate : m.state i = .tombstone) : 0 < m.tombstones := by
  rw [hc.tombstones, Nat.pos_iff_ne_zero]
  intro hzero
  have hfalse := tally_eq_zero.mp hzero i hi
  simp [hstate] at hfalse

/-- A rebuild keeps the counts, and takes the tombstones away. -/
theorem Counts.rebuilt (hc : Counts c m) (hr : Rebuilt c m m') : Counts c m' := by
  have hsize : m'.size = m.size := hr.same.size
  have hzero : m'.tombstones = 0 := hr.same.tombstones
  have hload := hc.load
  refine ⟨hr.stored, ?_, ?_, ?_, by omega⟩
  · rw [hsize, hr.elements.length_eq]
    exact hc.size
  · rw [hsize]
    exact hc.bounded
  · rw [hzero, eq_comm, tally_eq_zero]
    intro i hi
    simpa using hr.clean i hi

/-! ### Insertions -/

/-- The table of a configuration whose double capacity does not wrap, with element moves that cannot
    throw. -/
structure Cfg.Reclaims (c : Cfg K V w) : Prop where
  sized : c.Sized
  nothrow : c.rebuildCannotThrow = true

section Insert
variable (hreclaims : c.Reclaims) {key : K} {value : Arg V} {i j : ℕ}
include hreclaims

/-- An element is added at a slot without one, while the tombstones are few. -/
theorem Counts.place (hc : Counts c m) (hroom : m.size < c.capacity.toNat) (hi : i < c.bucketCount)
    (hfree : m.state i ≠ .occupied) (hfew : m.tombstones ≤ c.bucketCount / 8) {e : K × V}
    (hch : Changed m m' i .occupied (some e)) (hsize : m'.size = m.size + 1)
    (htomb : m'.tombstones = if m.state i = .tombstone then m.tombstones - 1 else m.tombstones) :
    Counts c m' := by
  have hdouble := hreclaims.sized.double
  have hload := hc.load
  have hlen := hc.size
  refine hc.change hch hi (by simp) ?_ (by omega) ?_ ?_
  · simp only [Option.toList_some, List.length_singleton]
    omega
  · cases hstate : m.state i with
    | tombstone =>
      have hpos := hc.tombstone_pos hi hstate
      simp [hstate] at htomb ⊢
      omega
    | empty => simp [hstate, htomb]
    | occupied => exact absurd hstate hfree
  · rw [htomb]
    split <;> omega

theorem constructAt_counts (hc : Counts c m) (hroom : m.size < c.capacity.toNat)
    (hi : i < c.bucketCount) (hfree : m.state i ≠ .occupied)
    (hop : constructAt c m i key value = some (m', j)) : Counts c m' := by
  unfold constructAt at hop
  split at hop
  · obtain ⟨v, -, hop⟩ := Option.bind_eq_some_iff.mp hop
    obtain ⟨m₁, hrehash, hop⟩ := Option.bind_eq_some_iff.mp hop
    obtain ⟨index, hlocate, hop⟩ := Option.bind_eq_some_iff.mp hop
    obtain ⟨m₂, hrehash', hr⟩ := rehashInPlace_rebuilt hc.agree (by omega)
    rw [hrehash] at hrehash'
    cases hrehash'
    have hc₁ := hc.rebuilt hr
    have hsize : m₁.size = m.size := hr.same.size
    have hzero : m₁.tombstones = 0 := hr.same.tombstones
    have hdouble := hreclaims.sized.double
    have hlen := hc₁.size
    split at hop
    · next hindex =>
      cases hop
      have hch : Changed m₁ { (m₁.construct j (key, v)).setState j .occupied with
          size := m₁.size + 1 } j .occupied (some (key, v)) :=
        ⟨fun _ => state_setState, rfl, rfl, rfl⟩
      refine hc₁.change hch hindex (by simp) ?_ ?_ ?_ ?_
      · change _ ≤ m₁.size + 1 + _
        simp only [Option.toList_some, List.length_singleton]
        omega
      · change m₁.size + 1 ≤ _
        omega
      · change m₁.tombstones + _ = _
        simp [hr.clean j hindex]
      · change m₁.size + 1 + m₁.tombstones ≤ _
        omega
    · cases hop
  · next hfew =>
    rw [hreclaims.nothrow] at hfew
    obtain ⟨m₁, hplace, heq⟩ := Option.map_eq_some_iff.mp hop
    cases heq
    rw [placeAt, if_pos hi] at hplace
    obtain ⟨v, -, rfl⟩ := Option.map_eq_some_iff.mp hplace
    exact hc.place hreclaims hroom hi hfree (by simpa using hfew) ⟨fun _ => state_setState, rfl, rfl, rfl⟩
      rfl rfl

theorem tryEmplace_counts (hc : Counts c m) {b : Bool}
    (hop : tryEmplace c m key value = some (m', b)) : Counts c m' := by
  unfold tryEmplace at hop
  split at hop
  · cases hop
    exact hc
  · next index hlocate =>
    split at hop
    · cases hop
      exact hc
    · next hfree =>
      split at hop
      · cases hop
        exact hc
      · next hroom =>
        obtain ⟨⟨m₁, j⟩, hconstruct, heq⟩ := Option.map_eq_some_iff.mp hop
        cases heq
        exact constructAt_counts hreclaims hc (Nat.not_le.mp hroom) (locate_lt hlocate) hfree hconstruct

theorem emplaceSlot_counts (hc : Counts c m) (hop : emplaceSlot c m key value = some (m', j)) :
    Counts c m' := by
  unfold emplaceSlot at hop
  split at hop
  · cases hop
    exact hc
  · split at hop
    · next hroom =>
      obtain ⟨index, hlocate, hop⟩ := Option.bind_eq_some_iff.mp hop
      split at hop
      · cases hop
      · next hfree => exact constructAt_counts hreclaims hc hroom (locate_lt hlocate) hfree hop
    · cases hop

omit hreclaims in
/-- A write keeps the slot and its key. -/
theorem assignAt_counts (hc : Counts c m) (hop : assignAt m i value = some m') : Counts c m' := by
  obtain ⟨e, he, hrest⟩ := Option.bind_eq_some_iff.mp hop
  obtain ⟨v, -, rfl⟩ := Option.map_eq_some_iff.mp hrest
  have hsome : ∀ k, (Function.update m.storage i (some (e.1, v)) k).isSome = (m.storage k).isSome := by
    intro k
    rcases eq_or_ne k i with rfl | hk
    · simp [he]
    · simp [hk]
  refine ⟨?_, ?_, hc.bounded, hc.tombstones, hc.load⟩
  · intro k hk
    rw [storage_construct, hsome]
    exact hc.agree k hk
  · rw [elements, storage_construct, ← tally_isSome]
    simp only [hsome]
    rw [tally_isSome]
    exact hc.size

theorem insertOrAssignImpl_counts (hc : Counts c m) {r : Option ℕ}
    (hop : insertOrAssignImpl c m key value = some (m', r)) : Counts c m' := by
  unfold insertOrAssignImpl at hop
  split at hop
  · obtain ⟨m₁, hassign, heq⟩ := Option.map_eq_some_iff.mp hop
    cases heq
    exact assignAt_counts hc hassign
  · next hfind =>
    split at hop
    · cases hop
      exact hc
    · next hroom =>
      split at hop
      · cases hop
        exact hc
      · next index hlocate =>
        obtain ⟨⟨m₁, j⟩, hconstruct, heq⟩ := Option.map_eq_some_iff.mp hop
        cases heq
        obtain ⟨hlt, hfree⟩ := locate_of_not_found hfind hlocate
        exact constructAt_counts hreclaims hc (Nat.not_le.mp hroom) hlt hfree hconstruct

theorem emplaceAll_counts (hc : Counts c m) {es : List (K × V)}
    (hop : emplaceAll c m es = some m') : Counts c m' := by
  induction es generalizing m with
  | nil =>
    cases hop
    exact hc
  | cons e es ih =>
    obtain ⟨⟨m₁, j⟩, hslot, hrest⟩ := Option.bind_eq_some_iff.mp hop
    exact ih (emplaceSlot_counts hreclaims hc hslot) hrest

end Insert

/-! ### Removals -/

/-- An erase takes no empty slot: an element becomes a tombstone. -/
theorem Counts.erased (hc : Counts c m) {i : ℕ} (hi : i < c.bucketCount)
    (hocc : m.state i = .occupied) : Counts c (destroyAt m i .tombstone) := by
  obtain ⟨e, he⟩ := Option.isSome_iff_exists.mp ((hc.agree i hi).mpr hocc)
  have hpos : 0 < (elements c m).length := List.length_pos_of_mem (mem_contents.mpr ⟨i, hi, he⟩)
  have hlen := hc.size
  have hbound := hc.bounded
  have hload := hc.load
  have hch : Changed m (destroyAt m i .tombstone) i .tombstone none :=
    ⟨fun _ => state_setState, rfl, rfl, rfl⟩
  have hsize : (destroyAt m i .tombstone).size = m.size - 1 := rfl
  have htomb : (destroyAt m i .tombstone).tombstones = m.tombstones + 1 := rfl
  refine hc.change hch hi (by simp) ?_ (by omega) ?_ (by omega)
  · simp only [he, Option.toList_none, Option.toList_some, List.length_nil, List.length_singleton]
    omega
  · simp [htomb, hocc]

theorem eraseKey_counts (hc : Counts c m) (key : K) : Counts c (eraseKey c m key).1 := by
  unfold eraseKey
  split
  · exact hc
  · next i hfind =>
    obtain ⟨hi, e, he, -⟩ := find_some hfind
    exact hc.erased hi ((hc.agree i hi).mp (by simp [he]))

theorem eraseAt_counts (hc : Counts c m) {i next : ℕ} (hop : eraseAt c m i = some (m', next)) :
    Counts c m' := by
  unfold eraseAt at hop
  split at hop
  · next hpos =>
    cases hop
    exact hc.erased hpos.1 hpos.2
  · cases hop

theorem eraseIfLoop_counts (pred : K × V → Bool) (hc : Counts c m) {fuel index erased n : ℕ}
    (hop : eraseIfLoop c pred fuel m index erased = some (m', n)) : Counts c m' := by
  induction fuel generalizing m index erased with
  | zero =>
    rw [eraseIfLoop] at hop
    split at hop <;> cases hop
    exact hc
  | succ fuel ih =>
    rw [eraseIfLoop] at hop
    split at hop
    · cases hop
      exact hc
    · obtain ⟨e, -, hop⟩ := Option.bind_eq_some_iff.mp hop
      split at hop
      · obtain ⟨⟨m₁, next⟩, herase, hop⟩ := Option.bind_eq_some_iff.mp hop
        exact ih (eraseAt_counts hc herase) hop
      · exact ih hc hop

/-- RUN: `clear` empties the slots one by one; the counter waits for the end. -/
theorem clearLoop_counts {left i : ℕ} (hagree : SlotsAgree c m)
    (hlen : (elements c m).length ≤ m.size) (hdone : ∀ j < i, m.state j = .empty)
    (hn : i + left ≤ c.bucketCount) : SlotsAgree c (clearLoop left i m) ∧
      (elements c (clearLoop left i m)).length ≤ (clearLoop left i m).size ∧
      (clearLoop left i m).size ≤ m.size ∧ ∀ j < i + left, (clearLoop left i m).state j = .empty := by
  induction left generalizing i m with
  | zero => exact ⟨hagree, hlen, Nat.le_refl _, hdone⟩
  | succ left ih =>
    have hi : i < c.bucketCount := by omega
    have hshift : i + (left + 1) = i + 1 + left := by omega
    have hnext : ∀ {x : Map K V w}, (∀ j, x.state j = if j = i then .empty else m.state j) →
        ∀ j < i + 1, x.state j = .empty := by
      intro x hx j hj
      rw [hx]
      split
      · rfl
      · exact hdone j (by omega)
    rw [clearLoop, hshift]
    split
    · next hocc =>
      obtain ⟨e, he⟩ := Option.isSome_iff_exists.mp ((hagree i hi).mpr hocc)
      have hch : Changed m (destroyAt m i .empty) i .empty none := ⟨fun _ => state_setState, rfl, rfl, rfl⟩
      have hlength := hch.length hi
      have hsize : (destroyAt m i .empty).size = m.size - 1 := rfl
      rw [he] at hlength
      simp only [Option.toList_none, Option.toList_some, List.length_nil, List.length_singleton] at hlength
      obtain ⟨hagree', hlen', hle, hdone'⟩ := ih (hch.agree hagree (by simp)) (by omega)
        (hnext hch.state) (by omega)
      exact ⟨hagree', hlen', by omega, hdone'⟩
    · next hfree =>
      have hnone : m.storage i = none := by simpa using mt (hagree i hi).mp hfree
      have hch : Changed m (m.setState i .empty) i .empty none := by
        refine ⟨fun _ => state_setState, ?_, rfl, rfl⟩
        rw [← hnone, Function.update_eq_self]
        rfl
      exact ih (hch.agree hagree (by simp)) hlen (hnext hch.state) (by omega)

theorem clear_counts (hsized : c.Sized) (hc : Counts c m) : Counts c (clear c m) := by
  obtain ⟨hagree, hlen, hle, hdone⟩ := clearLoop_counts hc.agree hc.size (i := 0) (by simp)
    (Nat.le_of_eq (Nat.zero_add c.bucketCount))
  rw [Nat.zero_add] at hdone
  have hbound := hc.bounded
  have hdouble := hsized.double
  refine ⟨hagree, hlen, Nat.le_trans hle hbound, ?_, ?_⟩
  · change 0 = _
    rw [eq_comm, tally_eq_zero]
    intro i hi
    have hstate : (clear c m).state i = .empty := hdone i hi
    simp [hstate]
  · change (clearLoop c.bucketCount 0 m).size + 0 ≤ _
    omega

/-! ### Two tables -/

theorem Counts.congr (hc : Counts c m) (hsize : m'.size = m.size) (htomb : m'.tombstones = m.tombstones)
    (hslot : ∀ i < c.bucketCount, slot m' i = slot m i) : Counts c m' := by
  have hstate : ∀ i < c.bucketCount, m'.state i = m.state i := fun i hi => congrArg Prod.fst (hslot i hi)
  have hstorage : ∀ i < c.bucketCount, m'.storage i = m.storage i :=
    fun i hi => congrArg Prod.snd (hslot i hi)
  have helements : elements c m' = elements c m := contents_congr hstorage
  refine ⟨?_, ?_, ?_, ?_, ?_⟩
  · intro i hi
    rw [hstate i hi, hstorage i hi]
    exact hc.agree i hi
  · rw [helements, hsize]
    exact hc.size
  · rw [hsize]
    exact hc.bounded
  · rw [htomb, hc.tombstones]
    refine tally_congr ?_
    intro i hi
    rw [hstate i hi]
  · rw [hsize, htomb]
    exact hc.load

theorem swapContents_counts {other' : Map K V w} (hm : Counts c m) (ho : Counts c other)
    (hop : swapContents c m other = some (m', other')) : Counts c m' ∧ Counts c other' := by
  obtain ⟨m₁, other₁, hloop, hsame, hsame', hnew, hnew'⟩ := swapLoop_spec
    { m with hasher := other.hasher, keyEqual := other.keyEqual }
    { other with hasher := m.hasher, keyEqual := m.keyEqual }
    (fun j _ hj => hm.agree j (Nat.zero_add c.bucketCount ▸ hj))
    (fun j _ hj => ho.agree j (Nat.zero_add c.bucketCount ▸ hj))
  rw [swapContents, hloop] at hop
  cases hop
  constructor
  · refine ho.congr hsame'.size hsame'.tombstones ?_
    intro i hi
    exact (hnew i).trans (if_pos (by omega))
  · refine hm.congr hsame.size hsame.tombstones ?_
    intro i hi
    exact (hnew' i).trans (if_pos (by omega))

/-- The counts are kept by every operation. -/
theorem counts_kept (hreclaims : c.Reclaims) : Kept c (Counts c) where
  tryEmplace hc hop := tryEmplace_counts hreclaims hc hop
  emplaceSlot hc hop := emplaceSlot_counts hreclaims hc hop
  insertOrAssign hc hop := insertOrAssignImpl_counts hreclaims hc hop
  assignAt hc hop := assignAt_counts hc hop
  eraseKey key hc := eraseKey_counts hc key
  eraseAt hc hop := eraseAt_counts hc hop
  eraseIf hc hop := eraseIfLoop_counts _ hc hop
  clear hc := clear_counts hreclaims.sized hc
  swap hm ho hop := swapContents_counts hm ho hop
  copyConstruct {m other} _ hop :=
    emplaceAll_counts hreclaims (blank_emptyWith c other.hasher other.keyEqual).counts hop
  copyAssign {m other m'} hm _ hop := by
    have hclear := clear_counts hreclaims.sized hm
    have hstart : Counts c { clear c m with hasher := other.hasher, keyEqual := other.keyEqual } :=
      ⟨hclear.agree, hclear.size, hclear.bounded, hclear.tombstones, hclear.load⟩
    exact emplaceAll_counts hreclaims hstart hop

end Metl.StaticUnorderedMap
