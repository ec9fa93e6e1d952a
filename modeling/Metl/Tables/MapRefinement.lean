import Metl.Schemes.FiniteMap
import Metl.Tables.Traversal

/-! Each operation of the map, against the same operation of a bounded finite map.

    The finite map is the specification: it has entries, at most `Capacity` of them and no two with
    equal keys, and no slots, tombstones or rebuilds. -/

namespace Metl.StaticUnorderedMap
open Metl.Schemes Metl.Tables

variable {K V : Type} {w cap : ℕ}

/-! ### What the operations are for -/

namespace Spec

/-- True exactly if the key is absent and there is room. -/
def tryEmplace (μ : FiniteMap K V cap) (key : K) (v : V) : FiniteMap K V cap × Bool :=
  match μ.add key v with
  | some μ' => (μ', true)
  | none => (μ, false)

/-- The entry there is, or the new one; it has to fit. -/
def emplace (μ : FiniteMap K V cap) (key : K) (v : V) : Option (FiniteMap K V cap × (K × V)) :=
  match μ.entry key with
  | some e => some (μ, e)
  | none => (μ.add key v).map fun μ' => (μ', (key, v))

def tryInsertOrAssign (μ : FiniteMap K V cap) (key : K) (v : V) : FiniteMap K V cap × Bool :=
  match μ.entry key with
  | some _ => (μ.assign key v, true)
  | none => tryEmplace μ key v

def insertOrAssign (μ : FiniteMap K V cap) (key : K) (v : V) : Option (FiniteMap K V cap × (K × V)) :=
  match μ.entry key with
  | some e => some (μ.assign key v, (e.1, v))
  | none => (μ.add key v).map fun μ' => (μ', (key, v))

def eraseKey (μ : FiniteMap K V cap) (key : K) : FiniteMap K V cap × Bool :=
  (μ.erase key, (μ.entry key).isSome)

end Spec

variable {c : Cfg K V w} {m m' other : Map K V w} {μ μ' ν : FiniteMap K V c.capacity.toNat}

/-- The map holds the entries of `μ`, in some order of slots. -/
structure Represents (c : Cfg K V w) (m : Map K V w) (μ : FiniteMap K V c.capacity.toNat) :
    Prop where
  inv : Inv c m
  equal : m.keyEqual = μ.equal
  entries : (elements c m).Perm μ.entries

/-! ### Lookup -/

section Lookup
variable {key : K}

/-- Two elements with keys equal to one key are the same element. -/
theorem Inv.unique (hinv : Inv c m) {a b : K × V} (ha : a ∈ elements c m) (hb : b ∈ elements c m)
    (hak : m.keyEqual a.1 key = true) (hbk : m.keyEqual b.1 key = true) : a = b := by
  by_contra hne
  have hsymm : Std.Symm (Apart m) := ⟨fun _ _ => hinv.lawful.apart_symm⟩
  have hapart : m.keyEqual a.1 b.1 = false := hinv.distinct.forall ha hb hne
  rw [hinv.lawful.equiv.trans hak (hinv.lawful.equiv.symm hbk)] at hapart
  cases hapart

section

variable (hr : Represents c m μ)
include hr

theorem Represents.entry (key : K) : μ.entry key = (elements c m).find? fun e => m.keyEqual e.1 key := by
  rw [FiniteMap.entry, ← hr.equal]
  symm
  refine find?_perm hr.entries ?_
  intro a ha b hb hak hbk
  exact hr.inv.unique ha hb hak hbk

theorem Represents.absent : μ.entry key = none ↔ Absent c m key := by
  rw [hr.entry, List.find?_eq_none]
  simp [Absent]

theorem Represents.entry_of_storage {i : ℕ} {e : K × V} (hi : i < c.bucketCount)
    (he : m.storage i = some e) (hkey : m.keyEqual e.1 key = true) : μ.entry key = some e := by
  have hmem : e ∈ elements c m := mem_contents.mpr ⟨i, hi, he⟩
  cases hentry : μ.entry key with
  | none =>
    have hfalse := hr.absent.mp hentry e hmem
    rw [hkey] at hfalse
    cases hfalse
  | some a =>
    rw [hr.entry] at hentry
    have hak : m.keyEqual a.1 key = true := by simpa using List.find?_some hentry
    rw [hr.inv.unique (List.mem_of_find?_eq_some hentry) hmem hak hkey]

/-- `find_existing_index` finds the slot of the entry, if there is one. -/
theorem Represents.search (key : K) : (findExistingIndex c m key = none ∧ μ.entry key = none) ∨
      ∃ i < c.bucketCount, ∃ e, findExistingIndex c m key = some i ∧ m.storage i = some e ∧
        m.keyEqual e.1 key = true ∧ μ.entry key = some e := by
  cases hfind : findExistingIndex c m key with
  | none => exact Or.inl ⟨rfl, hr.absent.mpr (hr.inv.find_none hfind)⟩
  | some i =>
    obtain ⟨hi, e, he, hkey⟩ := find_some hfind
    exact Or.inr ⟨i, hi, e, rfl, he, hkey, hr.entry_of_storage hi he hkey⟩

theorem Represents.size : m.size = μ.entries.length := by
  rw [hr.inv.size, hr.entries.length_eq]

end

end Lookup

/-! ### One entry -/

section Entry
variable {key : K} {v : V} {i : ℕ} {e : K × V}

section

variable (hr : Represents c m μ)
include hr

theorem Represents.inserted (hins : Inserted c m m' i (key, v)) (hadd : μ.add key v = some μ') :
    Represents c m' μ' := by
  obtain ⟨-, hequal, hentries⟩ := FiniteMap.add_eq_some.mp hadd
  refine ⟨hins.inv, ?_, ?_⟩
  · rw [hins.keyEqual, hr.equal, hequal]
  · rw [hentries]
    exact (hins.elements.trans (hr.entries.cons _)).trans (List.perm_append_singleton _ _).symm

/-- The other elements have keys apart from every key equal to that of `e`. -/
theorem Represents.others_apart (hi : i < c.bucketCount) (he : m.storage i = some e)
    (hkey : m.keyEqual e.1 key = true) : ∀ a ∈ others c m i, μ.equal a.1 key = false := by
  intro a ha
  obtain ⟨-, -, hapart⟩ := hr.inv.split hi he
  rw [← hr.equal, ← Bool.not_eq_true]
  intro hak
  have hequiv := hr.inv.lawful.equiv
  have hfalse := hapart a ha
  rw [hequiv.trans hkey (hequiv.symm hak)] at hfalse
  cases hfalse

theorem Represents.erased (hi : i < c.bucketCount) (he : m.storage i = some e)
    (hkey : m.keyEqual e.1 key = true) : Represents c (destroyAt m i .tombstone) (μ.erase key) := by
  obtain ⟨hinv, hperm⟩ := hr.inv.erased hi he
  obtain ⟨hsplit, -, -⟩ := hr.inv.split hi he
  refine ⟨hinv, hr.equal, hperm.trans ?_⟩
  have hothers : (others c m i).filter (fun a => !μ.equal a.1 key) = others c m i := by
    rw [List.filter_eq_self]
    intro a ha
    simp [hr.others_apart hi he hkey a ha]
  have hfilter := (hsplit.symm.trans hr.entries).filter fun a => !μ.equal a.1 key
  rw [hr.equal] at hkey
  rwa [List.filter_cons_of_neg (by simp [hkey]), hothers] at hfilter

theorem Represents.assigned (hi : i < c.bucketCount) (he : m.storage i = some e)
    (hkey : m.keyEqual e.1 key = true) (v : V) :
    Represents c (m.construct i (e.1, v)) (μ.assign key v) := by
  obtain ⟨hinv, hperm⟩ := hr.inv.assigned hi he v
  obtain ⟨hsplit, -, -⟩ := hr.inv.split hi he
  refine ⟨hinv, hr.equal, hperm.trans ?_⟩
  have hothers : (others c m i).map (fun a => if μ.equal a.1 key then (a.1, v) else a) =
      others c m i := by
    rw [List.map_congr_left (g := id), List.map_id]
    intro a ha
    simp [hr.others_apart hi he hkey a ha]
  have hmap := (hsplit.symm.trans hr.entries).map fun a => if μ.equal a.1 key then (a.1, v) else a
  rw [hr.equal] at hkey
  rwa [List.map_cons, if_pos hkey, hothers] at hmap

end

end Entry

/-! ### The operations of one map -/

section Operations
variable {key : K} {v : V}

/-- There is room for an absent key exactly if the finite map has room. -/
theorem Represents.add (hr : Represents c m μ) (hentry : μ.entry key = none)
    (hroom : m.size < c.capacity.toNat) (v : V) : ∃ μ', μ.add key v = some μ' := by
  rw [hr.size] at hroom
  unfold FiniteMap.add
  rw [dif_pos ⟨hentry, hroom⟩]
  exact ⟨_, rfl⟩

theorem Represents.add_full (hr : Represents c m μ) (hfull : c.capacity.toNat ≤ m.size) (key : K)
    (v : V) : μ.add key v = none := by
  rw [hr.size] at hfull
  unfold FiniteMap.add
  rw [dif_neg]
  rintro ⟨-, hroom⟩
  omega

theorem Represents.tryEmplace (hs : c.Sized) (hr : Represents c m μ) (key : K) {value : Arg V}
    (hread : m.read value = some v) : ∃ m', tryEmplace c m key value =
      some (m', (Spec.tryEmplace μ key v).2) ∧ Represents c m' (Spec.tryEmplace μ key v).1 := by
  unfold StaticUnorderedMap.tryEmplace
  cases hentry : μ.entry key with
  | some e =>
    -- the key is there: the probe loop ends at its slot
    have hadd : μ.add key v = none := by simp [FiniteMap.add, hentry]
    rw [hr.entry] at hentry
    have hkey : m.keyEqual e.1 key = true := by simpa using List.find?_some hentry
    obtain ⟨i, hlocate, hocc⟩ := hr.inv.locate_present (List.mem_of_find?_eq_some hentry) hkey
    rw [hlocate, Spec.tryEmplace, hadd]
    exact ⟨m, if_pos hocc, hr⟩
  | none =>
    have habsent := hr.absent.mp hentry
    by_cases hroom : m.size < c.capacity.toNat
    · obtain ⟨μ', hadd⟩ := hr.add hentry hroom v
      obtain ⟨i, hi, hlocate, hfree, hreach⟩ :=
        hr.inv.locate_absent habsent (by omega) (Nat.lt_trans hroom hs.capacity_lt)
      obtain ⟨m', j, hconstruct, hins⟩ := constructAt_spec hr.inv hread habsent hroom hi hfree hreach
      rw [hlocate, Spec.tryEmplace, hadd]
      refine ⟨m', ?_, hr.inserted hins hadd⟩
      simp only [if_neg hfree, if_neg (Nat.not_le.mpr hroom), hconstruct, Option.map_some]
    · have hfull : c.capacity.toNat ≤ m.size := by omega
      rw [Spec.tryEmplace, hr.add_full hfull]
      refine ⟨m, ?_, hr⟩
      cases locateInsertIndex c m key with
      | none => rfl
      | some i => simp [hfull]

/-- The slot `emplace` and `operator[]` end at. -/
theorem Represents.emplaceSlot (hs : c.Sized) (hr : Represents c m μ) (key : K) (value : Arg V)
    (hread : m.read value = some v) : (emplaceSlot c m key value = none ∧ Spec.emplace μ key v = none) ∨
      ∃ m' i e μ', emplaceSlot c m key value = some (m', i) ∧ m'.storage i = some e ∧
        Spec.emplace μ key v = some (μ', e) ∧ Represents c m' μ' := by
  rcases hr.search key with ⟨hfind, hentry⟩ | ⟨i, hi, e, hfind, he, -, hentry⟩
  · by_cases hroom : m.size < c.capacity.toNat
    · obtain ⟨m', i, hemplace, hins⟩ := emplaceSlot_absent hs hr.inv value hread hfind hroom
      obtain ⟨μ', hadd⟩ := hr.add hentry hroom v
      refine Or.inr ⟨m', i, (key, v), μ', hemplace, hins.storage, ?_, hr.inserted hins hadd⟩
      rw [Spec.emplace, hentry, hadd]
      rfl
    · left
      constructor
      · rw [StaticUnorderedMap.emplaceSlot, hfind]
        exact if_neg hroom
      · rw [Spec.emplace, hentry, hr.add_full (by omega)]
        rfl
  · refine Or.inr ⟨m, i, e, μ, ?_, he, ?_, hr⟩
    · rw [StaticUnorderedMap.emplaceSlot, hfind]
    · rw [Spec.emplace, hentry]

/-- The slot an insertion or assignment ends at, `npos` exactly if a new key does not fit. -/
theorem Represents.insertOrAssignImpl (hs : c.Sized) (hr : Represents c m μ) (key : K)
    {value : Arg V} (hread : m.read value = some v) :
    (insertOrAssignImpl c m key value = some (m, none) ∧
        Spec.tryInsertOrAssign μ key v = (μ, false) ∧ Spec.insertOrAssign μ key v = none) ∨
      ∃ m' i e μ', insertOrAssignImpl c m key value = some (m', some i) ∧ i < c.bucketCount ∧
        m'.storage i = some e ∧ Spec.tryInsertOrAssign μ key v = (μ', true) ∧
        Spec.insertOrAssign μ key v = some (μ', e) ∧ Represents c m' μ' := by
  rcases hr.search key with ⟨hfind, hentry⟩ | ⟨i, hi, e, hfind, he, hkey, hentry⟩
  · by_cases hroom : m.size < c.capacity.toNat
    · have habsent := hr.absent.mp hentry
      obtain ⟨μ', hadd⟩ := hr.add hentry hroom v
      obtain ⟨i, hi, hlocate, hfree, hreach⟩ :=
        hr.inv.locate_absent habsent (by omega) (Nat.lt_trans hroom hs.capacity_lt)
      obtain ⟨m', j, hconstruct, hins⟩ := constructAt_spec hr.inv hread habsent hroom hi hfree hreach
      refine Or.inr ⟨m', j, (key, v), μ', ?_, hins.lt, hins.storage, ?_, ?_, hr.inserted hins hadd⟩
      · simp only [StaticUnorderedMap.insertOrAssignImpl, hfind, hlocate, hconstruct,
          if_neg (Nat.not_le.mpr hroom), Option.map_some]
      · simp only [Spec.tryInsertOrAssign, Spec.tryEmplace, hentry, hadd]
      · simp only [Spec.insertOrAssign, hentry, hadd, Option.map_some]
    · have hfull := hr.add_full (Nat.not_lt.mp hroom) key v
      left
      refine ⟨?_, ?_, ?_⟩
      · simp only [StaticUnorderedMap.insertOrAssignImpl, hfind, if_pos (Nat.not_lt.mp hroom)]
      · simp only [Spec.tryInsertOrAssign, Spec.tryEmplace, hentry, hfull]
      · simp only [Spec.insertOrAssign, hentry, hfull, Option.map_none]
  · refine Or.inr ⟨m.construct i (e.1, v), i, (e.1, v), μ.assign key v, ?_, hi, ?_, ?_, ?_,
      hr.assigned hi he hkey v⟩
    · simp only [StaticUnorderedMap.insertOrAssignImpl, hfind, assignAt, he, hread,
        Option.bind_some, Option.map_some]
    · simp
    · simp only [Spec.tryInsertOrAssign, hentry]
    · simp only [Spec.insertOrAssign, hentry]

theorem Represents.eraseKey (hr : Represents c m μ) (key : K) :
    (eraseKey c m key).2 = (Spec.eraseKey μ key).2 ∧
      Represents c (StaticUnorderedMap.eraseKey c m key).1 (Spec.eraseKey μ key).1 := by
  unfold StaticUnorderedMap.eraseKey Spec.eraseKey
  rcases hr.search key with ⟨hfind, hentry⟩ | ⟨i, hi, e, hfind, he, hkey, hentry⟩
  · rw [hfind, hentry]
    refine ⟨rfl, hr.inv, hr.equal, ?_⟩
    have hall : μ.entries.filter (fun e => !μ.equal e.1 key) = μ.entries := by
      rw [List.filter_eq_self]
      intro a ha
      simpa using List.find?_eq_none.mp hentry a ha
    exact hr.entries.trans (List.Perm.of_eq hall.symm)
  · rw [hfind, hentry]
    exact ⟨rfl, hr.erased hi he hkey⟩

theorem Represents.eraseIf (hr : Represents c m μ) (pred : K × V → Bool) :
    ∃ m', eraseIf c m pred = some (m', (μ.entries.filter pred).length) ∧
      Represents c m' (μ.filter fun e => !pred e) := by
  obtain ⟨m', herase, hinv, hequal, helements⟩ := eraseIf_spec hr.inv pred
  refine ⟨m', ?_, hinv, hequal.trans hr.equal, ?_⟩
  · rw [herase, (hr.entries.filter pred).length_eq]
  · rw [helements]
    exact hr.entries.filter _

theorem Represents.clear (hr : Represents c m μ) :
    Represents c (clear c m) (FiniteMap.empty μ.equal) := by
  obtain ⟨hblank, hhasher, hequal⟩ := clear_spec hr.inv
  refine ⟨hblank.inv ?_, hequal.trans hr.equal, ?_⟩
  · rw [hhasher, hequal]
    exact hr.inv.lawful
  · rw [hblank.nil]
    exact List.Perm.refl _

theorem represents_emptyWith {hasher : K → BitVec w} {keyEqual : K → K → Bool}
    (hl : Lawful c hasher keyEqual) :
    Represents c (emptyWith hasher keyEqual) (FiniteMap.empty keyEqual) := by
  have hblank := blank_emptyWith (V := V) c hasher keyEqual
  refine ⟨hblank.inv hl, rfl, ?_⟩
  rw [hblank.nil]
  exact List.Perm.refl _

end Operations

end Metl.StaticUnorderedMap
