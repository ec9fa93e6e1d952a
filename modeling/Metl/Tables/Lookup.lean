import Metl.Tables.StaticUnorderedMap
import Metl.Schemes.Probing

/-! The invariant of a table between two calls, and what the two probe loops find.

        home(k)                          slot of k
        [ occupied ] [ tombstone ] … [   k   ]        no empty slot in between

    A lookup stops at the first empty slot, so a stored key is found exactly because no slot from its
    home bucket to its own is empty. -/

namespace Metl.StaticUnorderedMap
open Metl.Schemes Metl.Tables Function

variable {K V : Type} {w : ℕ} {c : Cfg K V w} {m : Map K V w}

/-! ### The table -/

/-- A power of two of buckets, and more than the elements ever need. -/
structure Cfg.Sized (c : Cfg K V w) : Prop where
  pow : ∃ p, c.bucketCount = 2 ^ p
  double : c.capacity.toNat * 2 ≤ c.bucketCount

theorem Cfg.sized (c : Cfg K V w) (hwrap : c.capacity.toNat * 2 < 2 ^ w) : c.Sized := by
  obtain ⟨p, hp, hle⟩ := computeBucketCount_spec c.buckets_pos
  exact ⟨⟨p, hp⟩, Nat.le_trans (hle hwrap) (Nat.le_of_eq hp.symm)⟩

theorem Cfg.bucketCount_pos (c : Cfg K V w) : 0 < c.bucketCount := c.buckets_pos

theorem Cfg.Sized.capacity_lt (hs : c.Sized) : c.capacity.toNat < c.bucketCount := by
  have hdouble := hs.double
  have hpos := c.bucketCount_pos
  omega

theorem Cfg.mask (c : Cfg K V w) (x : ℕ) : x &&& (c.bucketCount - 1) = x % c.bucketCount := by
  obtain ⟨p, hp, -⟩ := computeBucketCount_spec c.buckets_pos
  rw [Cfg.bucketCount, hp, Nat.and_two_pow_sub_one_eq_mod]

theorem Cfg.probe (c : Cfg K V w) (start j : ℕ) :
    (start + j) &&& (c.bucketCount - 1) = bucket c.bucketCount start j := c.mask _

theorem Cfg.bucketIndex_lt (c : Cfg K V w) (m : Map K V w) (key : K) :
    bucketIndex c m key < c.bucketCount := by
  rw [bucketIndex, c.mask]
  exact Nat.mod_lt _ c.bucketCount_pos

/-- `KeyEqual` is an equivalence, and equal keys hash alike. -/
structure Lawful (c : Cfg K V w) (hasher : K → BitVec w) (keyEqual : K → K → Bool) : Prop where
  equiv : Equivalence fun a b => keyEqual a b = true
  hash : ∀ a b, keyEqual a b = true →
    hashKey c.constants c.wide hasher a = hashKey c.constants c.wide hasher b

variable {a b key : K} {i : ℕ} {e : K × V}

theorem Lawful.home (hl : Lawful c m.hasher m.keyEqual) (hab : m.keyEqual a b = true) :
    bucketIndex c m a = bucketIndex c m b := by
  rw [bucketIndex, bucketIndex, hl.hash a b hab]

theorem Lawful.apart_symm (hl : Lawful c m.hasher m.keyEqual) (hab : m.keyEqual a b = false) :
    m.keyEqual b a = false := by
  rw [← Bool.not_eq_true] at hab ⊢
  exact fun hba => hab (hl.equiv.symm hba)

/-! ### Slots -/

section Slots
variable {i j : ℕ} {e : K × V} {s : SlotState}

theorem state_occupied_iff : m.state i = .occupied ↔ m.occupied i = true := by
  cases ho : m.occupied i <;> cases ht : m.tombstone i <;> simp [Map.state, ho, ht]

theorem state_tombstone_iff : m.state i = .tombstone ↔ m.occupied i = false ∧ m.tombstone i = true := by
  cases ho : m.occupied i <;> cases ht : m.tombstone i <;> simp [Map.state, ho, ht]

theorem state_empty_iff : m.state i = .empty ↔ m.occupied i = false ∧ m.tombstone i = false := by
  cases ho : m.occupied i <;> cases ht : m.tombstone i <;> simp [Map.state, ho, ht]

theorem state_setState : (m.setState i s).state j = if j = i then s else m.state j := by
  rcases eq_or_ne j i with rfl | hji
  · cases s <;> simp [Map.state, Map.setState]
  · simp [Map.state, Map.setState, hji]

@[simp] theorem state_setState_self : (m.setState i s).state i = s := by
  simp [state_setState]

@[simp] theorem state_construct : (m.construct i e).state j = m.state j := rfl

@[simp] theorem state_destroy : (m.destroy i).state j = m.state j := rfl

@[simp] theorem storage_setState : (m.setState i s).storage = m.storage := rfl

@[simp] theorem storage_construct : (m.construct i e).storage = update m.storage i (some e) := rfl

@[simp] theorem storage_destroy : (m.destroy i).storage = update m.storage i none := rfl

theorem keyEqualAt_iff {key : K} :
    m.keyEqualAt i key = true ↔ ∃ e, m.storage i = some e ∧ m.keyEqual e.1 key = true := by
  unfold Map.keyEqualAt
  cases m.storage i <;> simp

end Slots

/-! ### The invariant -/

/-- The elements of a map, by slot. -/
def elements (c : Cfg K V w) (m : Map K V w) : List (K × V) := contents c.bucketCount m.storage

/-- The keys of two elements differ. -/
def Apart (m : Map K V w) (a b : K × V) : Prop := m.keyEqual a.1 b.1 = false

structure Inv (c : Cfg K V w) (m : Map K V w) : Prop where
  lawful : Lawful c m.hasher m.keyEqual
  stored : ∀ i < c.bucketCount, (m.storage i).isSome ↔ m.state i = .occupied
  reached : ∀ i < c.bucketCount, ∀ e, m.storage i = some e →
    Reached c.bucketCount (bucketIndex c m e.1) i fun j => m.state j ≠ .empty
  distinct : (elements c m).Pairwise (Apart m)
  size : m.size = (elements c m).length
  bounded : m.size ≤ c.capacity.toNat
  tombstones : m.tombstones = tally c.bucketCount fun i => decide (m.state i = .tombstone)

/-- What is left of the invariant while `clear` walks the slots and has emptied those below `z`: an
    element may have emptied slots before it. The tombstone counter waits for the end of the walk. -/
structure Swept (c : Cfg K V w) (m : Map K V w) (z : ℕ) : Prop where
  lawful : Lawful c m.hasher m.keyEqual
  stored : ∀ i < c.bucketCount, (m.storage i).isSome ↔ m.state i = .occupied
  reached : ∀ i < c.bucketCount, ∀ e, m.storage i = some e →
    Reached c.bucketCount (bucketIndex c m e.1) i fun j => m.state j ≠ .empty ∨ j < z
  emptied : ∀ j < z, j < c.bucketCount → m.state j = .empty
  distinct : (elements c m).Pairwise (Apart m)
  size : m.size = (elements c m).length
  bounded : m.size ≤ c.capacity.toNat

/-- Before the walk nothing is emptied. -/
theorem inv_iff_swept : Inv c m ↔ Swept c m 0 ∧
    m.tombstones = tally c.bucketCount fun i => decide (m.state i = .tombstone) := by
  constructor
  · intro hi
    refine ⟨⟨hi.lawful, hi.stored, ?_, by simp, hi.distinct, hi.size, hi.bounded⟩, hi.tombstones⟩
    intro i hlt e he
    refine (hi.reached i hlt e he).mono ?_
    intro j _ hj
    exact Or.inl hj
  · rintro ⟨hw, htomb⟩
    refine ⟨hw.lawful, hw.stored, ?_, hw.distinct, hw.size, hw.bounded, htomb⟩
    intro i hlt e he
    refine (hw.reached i hlt e he).mono ?_
    rintro j - (hj | hj)
    · exact hj
    · omega

/-- No stored key is equal to `key`. -/
def Absent (c : Cfg K V w) (m : Map K V w) (key : K) : Prop :=
  ∀ e ∈ elements c m, m.keyEqual e.1 key = false

theorem Inv.storage_none (hi : Inv c m) (hlt : i < c.bucketCount) (hne : m.state i ≠ .occupied) :
    m.storage i = none := by
  have hnot := fun hsome => hne ((hi.stored i hlt).mp hsome)
  simpa using hnot

theorem Inv.storage_some (hi : Inv c m) (hlt : i < c.bucketCount) (hocc : m.state i = .occupied) :
    ∃ e, m.storage i = some e :=
  Option.isSome_iff_exists.mp ((hi.stored i hlt).mpr hocc)

theorem Absent.keyEqualAt (ha : Absent c m key) (hlt : i < c.bucketCount) :
    m.keyEqualAt i key = false := by
  rw [← Bool.not_eq_true, keyEqualAt_iff]
  rintro ⟨e, he, heq⟩
  have hfalse := ha e (mem_contents.mpr ⟨i, hlt, he⟩)
  simp [heq] at hfalse

/-- Every slot is empty and both counters are zero. -/
structure Blank (c : Cfg K V w) (m : Map K V w) : Prop where
  state : ∀ i < c.bucketCount, m.state i = .empty
  storage : ∀ i < c.bucketCount, m.storage i = none
  size : m.size = 0
  tombstones : m.tombstones = 0

theorem Blank.nil (hb : Blank c m) : elements c m = [] := contents_eq_nil hb.storage

theorem Blank.inv (hb : Blank c m) (hl : Lawful c m.hasher m.keyEqual) : Inv c m := by
  have hnil := hb.nil
  refine ⟨hl, ?_, ?_, ?_, ?_, ?_, ?_⟩
  · intro i hi
    simp [hb.state i hi, hb.storage i hi]
  · intro i hi e he
    simp [hb.storage i hi] at he
  · rw [hnil]
    exact List.Pairwise.nil
  · rw [hnil, hb.size]
    rfl
  · rw [hb.size]
    exact Nat.zero_le _
  · rw [hb.tombstones, eq_comm, tally_eq_zero]
    intro i hi
    simp [hb.state i hi]

theorem blank_emptyWith (c : Cfg K V w) (hasher : K → BitVec w) (keyEqual : K → K → Bool) :
    Blank c (emptyWith hasher keyEqual) :=
  ⟨fun _ _ => rfl, fun _ _ => rfl, rfl, rfl⟩

/-! ### What the probe loops find -/

section Probes
variable {key : K} {start : ℕ}

variable {left probe d : ℕ}

theorem findLoop_some {i : ℕ} (hfind : findLoop c m key start left probe = some i) :
    i < c.bucketCount ∧ m.keyEqualAt i key = true := by
  induction left generalizing probe with
  | zero => simp [findLoop] at hfind
  | succ left ih =>
    simp only [findLoop, c.probe] at hfind
    split at hfind
    · cases hfind
    · split at hfind
      · rename_i hhit
        cases hfind
        exact ⟨bucket_lt c.bucketCount_pos _ _, hhit.2⟩
      · exact ih hfind

/-- A slot with an equal key, and no empty slot before it, ends the search. -/
theorem findLoop_hit (hle : probe ≤ d) (hlt : d < probe + left)
    (hbefore : ∀ j < d, m.state (bucket c.bucketCount start j) ≠ .empty)
    (hocc : m.state (bucket c.bucketCount start d) = .occupied)
    (hkey : m.keyEqualAt (bucket c.bucketCount start d) key = true) :
    findLoop c m key start left probe ≠ none := by
  induction left generalizing probe with
  | zero => omega
  | succ left ih =>
    simp only [findLoop, c.probe]
    rcases Nat.eq_or_lt_of_le hle with rfl | hprobe
    · simp [hocc, hkey]
    · rw [if_neg (hbefore probe hprobe)]
      split
      · simp
      · exact ih hprobe (by omega)

/-- Once a tombstone is noted, an absent key goes there. -/
theorem locateLoop_noted (ha : Absent c m key) (left probe t : ℕ) :
    locateLoop c m key start left probe (some t) = some t := by
  induction left generalizing probe with
  | zero => rfl
  | succ left ih =>
    have hkey := ha.keyEqualAt (bucket_lt c.bucketCount_pos start probe)
    simp only [locateLoop, c.probe]
    split
    · rfl
    · exact ih _
    · simp [hkey, ih]

/-- An absent key goes to the first slot that is not occupied, if there is one. -/
theorem locateLoop_absent (ha : Absent c m key) (start : ℕ)
    (hbefore : ∀ j < probe, m.state (bucket c.bucketCount start j) = .occupied)
    (hn : probe + left ≤ c.bucketCount) : (locateLoop c m key start left probe none = none ∧
        ∀ j < probe + left, m.state (bucket c.bucketCount start j) = .occupied) ∨
      ∃ i < c.bucketCount, locateLoop c m key start left probe none = some i ∧
        m.state i ≠ .occupied ∧ Reached c.bucketCount start i fun j => m.state j = .occupied := by
  induction left generalizing probe with
  | zero => exact Or.inl ⟨rfl, hbefore⟩
  | succ left ih =>
    have hprobe := bucket_lt c.bucketCount_pos start probe
    have hhere : Reached c.bucketCount start (bucket c.bucketCount start probe)
        fun j => m.state j = .occupied := ⟨probe, by omega, rfl, hbefore⟩
    simp only [locateLoop, c.probe]
    cases hstate : m.state (bucket c.bucketCount start probe) with
    | empty => exact Or.inr ⟨_, hprobe, rfl, by simp [hstate], hhere⟩
    | tombstone =>
      refine Or.inr ⟨_, hprobe, ?_, by simp [hstate], hhere⟩
      exact locateLoop_noted ha _ _ _
    | occupied =>
      simp only [ha.keyEqualAt hprobe, Bool.false_eq_true, if_false]
      rw [show probe + (left + 1) = probe + 1 + left by omega] at hn ⊢
      refine ih ?_ hn
      intro j hj
      rcases Nat.lt_succ_iff_lt_or_eq.mp hj with hj | rfl
      · exact hbefore j hj
      · exact hstate

/-- A key that is there is located at an occupied slot. -/
theorem locateLoop_hit {noted : Option ℕ} (hle : probe ≤ d) (hlt : d < probe + left)
    (hbefore : ∀ j < d, m.state (bucket c.bucketCount start j) ≠ .empty)
    (hocc : m.state (bucket c.bucketCount start d) = .occupied)
    (hkey : m.keyEqualAt (bucket c.bucketCount start d) key = true) :
    ∃ i, locateLoop c m key start left probe noted = some i ∧ m.state i = .occupied := by
  induction left generalizing probe noted with
  | zero => omega
  | succ left ih =>
    simp only [locateLoop, c.probe]
    rcases Nat.eq_or_lt_of_le hle with rfl | hprobe
    · simp [hocc, hkey]
    · cases hstate : m.state (bucket c.bucketCount start probe) with
      | empty => exact absurd hstate (hbefore probe hprobe)
      | tombstone => exact ih hprobe (by omega)
      | occupied =>
        dsimp only
        split
        · exact ⟨_, rfl, hstate⟩
        · exact ih hprobe (by omega)

end Probes

/-! ### `find_existing_index` and `locate_insert_index` -/

theorem find_some (hfind : findExistingIndex c m key = some i) :
    i < c.bucketCount ∧ ∃ e, m.storage i = some e ∧ m.keyEqual e.1 key = true := by
  unfold findExistingIndex at hfind
  split at hfind
  · cases hfind
  · obtain ⟨hlt, hkey⟩ := findLoop_some hfind
    exact ⟨hlt, keyEqualAt_iff.mp hkey⟩

section

variable (hi : Inv c m)
include hi

/-- A table without capacity is empty. -/
theorem Inv.absent_of_zero (hzero : c.capacity.toNat = 0) (key : K) : Absent c m key := by
  have hlen : (elements c m).length = 0 := by
    have hsize := hi.size
    have hbound := hi.bounded
    omega
  intro e he
  rw [List.length_eq_zero_iff.mp hlen] at he
  cases he

/-- A stored key is within reach of any key equal to it. -/
theorem Inv.reach_equal (he : e ∈ elements c m) (hkey : m.keyEqual e.1 key = true) : ∃ d < c.bucketCount,
      (∀ j < d, m.state (bucket c.bucketCount (bucketIndex c m key) j) ≠ .empty) ∧
      m.state (bucket c.bucketCount (bucketIndex c m key) d) = .occupied ∧
      m.keyEqualAt (bucket c.bucketCount (bucketIndex c m key) d) key = true := by
  obtain ⟨i, hlt, hsome⟩ := mem_contents.mp he
  obtain ⟨d, hd, rfl, hbefore⟩ := hi.reached i hlt e hsome
  rw [hi.lawful.home hkey] at hsome hbefore hlt
  refine ⟨d, hd, hbefore, (hi.stored _ hlt).mp ?_, keyEqualAt_iff.mpr ⟨e, hsome, hkey⟩⟩
  rw [hsome]
  rfl

theorem Inv.find_none (hfind : findExistingIndex c m key = none) : Absent c m key := by
  unfold findExistingIndex at hfind
  split at hfind
  · rename_i hzero
    exact hi.absent_of_zero hzero key
  · intro e he
    rw [← Bool.not_eq_true]
    intro hkey
    obtain ⟨d, hd, hbefore, hocc, hhit⟩ := hi.reach_equal he hkey
    exact findLoop_hit (Nat.zero_le d) (by omega) hbefore hocc hhit hfind

/-- An absent key is located at a free slot within reach; only a full table has none. -/
theorem Inv.locate_cases (ha : Absent c m key) :
    (locateInsertIndex c m key = none ∧ (c.capacity.toNat ≠ 0 → c.bucketCount ≤ m.size)) ∨
      ∃ i < c.bucketCount, locateInsertIndex c m key = some i ∧ m.state i ≠ .occupied ∧
        Reached c.bucketCount (bucketIndex c m key) i fun j => m.state j = .occupied := by
  unfold locateInsertIndex
  split
  · rename_i hzero
    exact Or.inl ⟨rfl, fun hne => absurd hzero hne⟩
  · rcases locateLoop_absent ha (bucketIndex c m key) (by simp)
        (Nat.le_of_eq (Nat.zero_add c.bucketCount)) with ⟨hnone, hall⟩ | hsome
    · refine Or.inl ⟨hnone, fun _ => ?_⟩
      by_contra hlt
      rw [hi.size, Nat.not_le] at hlt
      obtain ⟨i, hibound, hempty⟩ := exists_none hlt
      obtain ⟨d, hd, rfl⟩ := exists_bucket (bucketIndex c m key) hibound
      have hsome := (hi.stored _ hibound).mpr (hall d (by omega))
      simp [hempty] at hsome
    · exact Or.inr hsome

/-- A key that is absent, with room for it, is located at a free slot within reach. -/
theorem Inv.locate_absent (ha : Absent c m key) (hcap : c.capacity.toNat ≠ 0)
    (hroom : m.size < c.bucketCount) :
    ∃ i < c.bucketCount, locateInsertIndex c m key = some i ∧ m.state i ≠ .occupied ∧
      Reached c.bucketCount (bucketIndex c m key) i fun j => m.state j = .occupied := by
  rcases hi.locate_cases ha with ⟨-, hfull⟩ | hsome
  · have hle := hfull hcap
    omega
  · exact hsome

theorem Inv.locate_present (he : e ∈ elements c m) (hkey : m.keyEqual e.1 key = true) :
    ∃ i, locateInsertIndex c m key = some i ∧ m.state i = .occupied := by
  have hzero : ¬c.capacity.toNat = 0 := by
    intro hzero
    have hfalse := hi.absent_of_zero hzero key e he
    simp [hkey] at hfalse
  obtain ⟨d, hd, hbefore, hocc, hhit⟩ := hi.reach_equal he hkey
  rw [locateInsertIndex, if_neg hzero]
  exact locateLoop_hit (Nat.zero_le d) (by omega) hbefore hocc hhit

end

end Metl.StaticUnorderedMap
