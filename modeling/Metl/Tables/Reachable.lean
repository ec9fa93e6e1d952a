import Metl.Tables.BoundedMap

/-! The invariant holds at every capacity, also where the doubled capacity wraps and the table is too
    small: an insertion that finds no slot is refused, and nothing else changes. -/

namespace Metl.StaticUnorderedMap
open Metl.Schemes Metl.Tables

variable {ι K V : Type} [DecidableEq ι] {w : ℕ} {c : Cfg K V w} {m m' : Map K V w}

/-! ### Insertions -/

section Insert
variable {key : K} {value : Arg V} {i j : ℕ}

section

variable (hinv : Inv c m)
include hinv

theorem constructAt_some (ha : Absent c m key) (hroom : m.size < c.capacity.toNat)
    (hi : i < c.bucketCount) (hfree : m.state i ≠ .occupied)
    (hreach : Reached c.bucketCount (bucketIndex c m key) i fun j => m.state j = .occupied)
    (hconstruct : constructAt c m i key value = some (m', j)) : Inv c m' := by
  cases hread : m.read value with
  | none =>
    unfold constructAt at hconstruct
    split at hconstruct
    · simp [hread] at hconstruct
    · simp [placeAt, hi, hread] at hconstruct
  | some v =>
    obtain ⟨m₁, j₁, hsome, hins⟩ := constructAt_spec hinv hread ha hroom hi hfree hreach
    rw [hsome] at hconstruct
    cases hconstruct
    exact hins.inv

theorem tryEmplace_inv {b : Bool} (hop : tryEmplace c m key value = some (m', b)) : Inv c m' := by
  unfold tryEmplace at hop
  cases hfind : findExistingIndex c m key with
  | some existing =>
    obtain ⟨hlt, e, he, hkey⟩ := find_some hfind
    obtain ⟨i, hlocate, hocc⟩ := hinv.locate_present (mem_contents.mpr ⟨existing, hlt, he⟩) hkey
    simp only [hlocate, if_pos hocc] at hop
    cases hop
    exact hinv
  | none =>
    have ha := hinv.find_none hfind
    rcases hinv.locate_cases ha with ⟨hlocate, -⟩ | ⟨i, hi, hlocate, hfree, hreach⟩
    · rw [hlocate] at hop
      cases hop
      exact hinv
    · simp only [hlocate, if_neg hfree] at hop
      split at hop
      · cases hop
        exact hinv
      · rename_i hroom
        obtain ⟨⟨m₁, j⟩, hconstruct, heq⟩ := Option.map_eq_some_iff.mp hop
        cases heq
        exact constructAt_some hinv ha (Nat.not_le.mp hroom) hi hfree hreach hconstruct

theorem emplaceSlot_inv (hop : emplaceSlot c m key value = some (m', j)) : Inv c m' := by
  unfold emplaceSlot at hop
  cases hfind : findExistingIndex c m key with
  | some existing =>
    rw [hfind] at hop
    cases hop
    exact hinv
  | none =>
    rw [hfind] at hop
    dsimp only at hop
    split at hop
    · rename_i hroom
      have ha := hinv.find_none hfind
      rcases hinv.locate_cases ha with ⟨hlocate, -⟩ | ⟨i, hi, hlocate, hfree, hreach⟩
      · simp [hlocate] at hop
      · simp only [hlocate, Option.bind_some, if_neg hfree] at hop
        exact constructAt_some hinv ha hroom hi hfree hreach hop
    · cases hop

/-- A write into the table keeps its key; a write outside of it is no concern of the table. -/
theorem assignAt_inv (hop : assignAt m i value = some m') : Inv c m' := by
  obtain ⟨e, he, hrest⟩ := Option.bind_eq_some_iff.mp hop
  obtain ⟨v, -, rfl⟩ := Option.map_eq_some_iff.mp hrest
  by_cases hi : i < c.bucketCount
  · exact (hinv.assigned hi he v).1
  · have hsame : SameTable m (m.construct i (e.1, v)) := ⟨rfl, rfl, rfl, rfl⟩
    refine (hinv.congr hsame ?_).1
    intro j hj
    have hne : j ≠ i := by omega
    simp [slot, hne]

theorem insertOrAssignImpl_inv {r : Option ℕ} (hop : insertOrAssignImpl c m key value = some (m', r)) :
    Inv c m' := by
  unfold insertOrAssignImpl at hop
  cases hfind : findExistingIndex c m key with
  | some existing =>
    rw [hfind] at hop
    obtain ⟨m₁, hassign, heq⟩ := Option.map_eq_some_iff.mp hop
    cases heq
    exact assignAt_inv hinv hassign
  | none =>
    rw [hfind] at hop
    dsimp only at hop
    split at hop
    · cases hop
      exact hinv
    · rename_i hroom
      have ha := hinv.find_none hfind
      rcases hinv.locate_cases ha with ⟨hlocate, -⟩ | ⟨i, hi, hlocate, hfree, hreach⟩
      · rw [hlocate] at hop
        cases hop
        exact hinv
      · rw [hlocate] at hop
        obtain ⟨⟨m₁, j⟩, hconstruct, heq⟩ := Option.map_eq_some_iff.mp hop
        cases heq
        exact constructAt_some hinv ha (Nat.not_le.mp hroom) hi hfree hreach hconstruct

theorem emplaceAll_inv {es : List (K × V)} (hop : emplaceAll c m es = some m') : Inv c m' := by
  induction es generalizing m with
  | nil =>
    cases hop
    exact hinv
  | cons e es ih =>
    obtain ⟨⟨m₁, j⟩, hslot, hrest⟩ := Option.bind_eq_some_iff.mp hop
    exact ih (emplaceSlot_inv hinv hslot) hrest

end

end Insert

/-! ### Removals and copies -/

theorem eraseKey_inv (hinv : Inv c m) (key : K) : Inv c (eraseKey c m key).1 := by
  unfold eraseKey
  cases hfind : findExistingIndex c m key with
  | none => exact hinv
  | some i =>
    obtain ⟨hi, e, he, -⟩ := find_some hfind
    exact (hinv.erased hi he).1

theorem eraseAt_inv (hinv : Inv c m) {i next : ℕ} (hop : eraseAt c m i = some (m', next)) : Inv c m' := by
  unfold eraseAt at hop
  split at hop
  · rename_i hpos
    obtain ⟨e, he⟩ := hinv.storage_some hpos.1 hpos.2
    cases hop
    exact (hinv.erased hpos.1 he).1
  · cases hop

theorem clear_inv (hinv : Inv c m) : Inv c (clear c m) := by
  obtain ⟨hblank, hhasher, hequal⟩ := clear_spec hinv
  refine hblank.inv ?_
  rw [hhasher, hequal]
  exact hinv.lawful

theorem copyConstruct_inv (hinv : Inv c m) (hop : copyConstruct c m = some m') : Inv c m' :=
  emplaceAll_inv ((blank_emptyWith c m.hasher m.keyEqual).inv hinv.lawful) hop

theorem copyAssign_inv {other : Map K V w} (hm : Inv c m) (hinv : Inv c other)
    (hop : copyAssign c m other = some m') : Inv c m' := by
  obtain ⟨hblank, -, -⟩ := clear_spec hm
  have hstart : Blank c { clear c m with hasher := other.hasher, keyEqual := other.keyEqual } :=
    ⟨hblank.state, hblank.storage, hblank.size, hblank.tombstones⟩
  exact emplaceAll_inv (hstart.inv hinv.lawful) hop

/-! ### Every call -/

/-- Every operation keeps `P`: what the operation is given satisfies it, so does what it leaves. -/
structure Kept (c : Cfg K V w) (P : Map K V w → Prop) : Prop where
  tryEmplace : ∀ {m m' key value b}, P m → tryEmplace c m key value = some (m', b) → P m'
  emplaceSlot : ∀ {m m' key value j}, P m → emplaceSlot c m key value = some (m', j) → P m'
  insertOrAssign : ∀ {m m' key value r}, P m →
    insertOrAssignImpl c m key value = some (m', r) → P m'
  assignAt : ∀ {m m' i value}, P m → assignAt m i value = some m' → P m'
  eraseKey : ∀ {m} key, P m → P (eraseKey c m key).1
  eraseAt : ∀ {m m' i next}, P m → eraseAt c m i = some (m', next) → P m'
  eraseIf : ∀ {m m' pred n}, P m → eraseIf c m pred = some (m', n) → P m'
  clear : ∀ {m}, P m → P (clear c m)
  swap : ∀ {m other m' other'}, P m → P other → swapContents c m other = some (m', other') →
    P m' ∧ P other'
  copyConstruct : ∀ {m other}, P other → copyConstruct c other = some m → P m
  copyAssign : ∀ {m other m'}, P m → P other → copyAssign c m other = some m' → P m'

section Family
variable {P : Map K V w → Prop} {s s' : ι → Map K V w} (hs : ∀ i, P (s i))
include hs

theorem kept_update (i : ι) (hm : P m) (k : ι) : P (Function.update s i m k) := by
  rcases eq_or_ne k i with rfl | hk
  · simpa using hm
  · simpa [hk] using hs k

theorem kept_update₂ (i j : ι) (hm : P m) (hm' : P m') (k : ι) : P (update₂ s i j (m, m') k) :=
  kept_update (kept_update hs j hm') i hm k

/-- STEP: every call keeps what every operation keeps, of every map. -/
theorem Kept.step (hkept : Kept c P) {op : Op ι K V (Arg V) ℕ} {out : Out K V}
    (hstep : step c s op = some (s', out)) : ∀ i, P (s' i) := by
  cases op with
  | tryEmplace i key value =>
    obtain ⟨⟨m, b⟩, hop, heq⟩ := Option.map_eq_some_iff.mp hstep
    cases heq
    exact kept_update hs i (hkept.tryEmplace (hs i) hop)
  | emplace i key value =>
    obtain ⟨⟨m, e⟩, hop, heq⟩ := Option.map_eq_some_iff.mp hstep
    cases heq
    obtain ⟨⟨m₁, j⟩, hslot, hrest⟩ := Option.bind_eq_some_iff.mp hop
    obtain ⟨e', -, heq⟩ := Option.map_eq_some_iff.mp hrest
    cases heq
    exact kept_update hs i (hkept.emplaceSlot (hs i) hslot)
  | tryInsertOrAssign i key value =>
    obtain ⟨⟨m, b⟩, hop, heq⟩ := Option.map_eq_some_iff.mp hstep
    cases heq
    obtain ⟨⟨m₁, r⟩, himpl, heq⟩ := Option.map_eq_some_iff.mp hop
    cases heq
    exact kept_update hs i (hkept.insertOrAssign (hs i) himpl)
  | insertOrAssign i key value =>
    obtain ⟨⟨m, e⟩, hop, heq⟩ := Option.map_eq_some_iff.mp hstep
    cases heq
    obtain ⟨⟨m₁, r⟩, himpl, hrest⟩ := Option.bind_eq_some_iff.mp hop
    obtain ⟨j, -, hrest⟩ := Option.bind_eq_some_iff.mp hrest
    split at hrest
    · obtain ⟨e', -, heq⟩ := Option.map_eq_some_iff.mp hrest
      cases heq
      exact kept_update hs i (hkept.insertOrAssign (hs i) himpl)
    · cases hrest
  | subscript i key =>
    obtain ⟨⟨m, v⟩, hop, heq⟩ := Option.map_eq_some_iff.mp hstep
    cases heq
    obtain ⟨⟨m₁, j⟩, hslot, hrest⟩ := Option.bind_eq_some_iff.mp hop
    obtain ⟨e', -, heq⟩ := Option.map_eq_some_iff.mp hrest
    cases heq
    exact kept_update hs i (hkept.emplaceSlot (hs i) hslot)
  | write i pos value =>
    obtain ⟨m, hop, heq⟩ := Option.map_eq_some_iff.mp hstep
    cases heq
    exact kept_update hs i (hkept.assignAt (hs i) hop)
  | eraseKey i key =>
    cases hstep
    exact kept_update hs i (hkept.eraseKey key (hs i))
  | eraseAt i pos =>
    obtain ⟨⟨m, next⟩, hop, heq⟩ := Option.map_eq_some_iff.mp hstep
    cases heq
    exact kept_update hs i (hkept.eraseAt (hs i) hop)
  | eraseIf i pred =>
    obtain ⟨⟨m, n⟩, hop, heq⟩ := Option.map_eq_some_iff.mp hstep
    cases heq
    exact kept_update hs i (hkept.eraseIf (hs i) hop)
  | clear i =>
    cases hstep
    exact kept_update hs i (hkept.clear (hs i))
  | swap i j =>
    rw [StaticUnorderedMap.step] at hstep
    split at hstep
    · cases hstep
      exact hs
    · obtain ⟨⟨m, m'⟩, hop, heq⟩ := Option.map_eq_some_iff.mp hstep
      cases heq
      obtain ⟨hm, hm'⟩ := hkept.swap (hs i) (hs j) hop
      exact kept_update₂ hs i j hm hm'
  | copyConstruct i j =>
    rw [StaticUnorderedMap.step] at hstep
    split at hstep
    · cases hstep
    · obtain ⟨m, hop, heq⟩ := Option.map_eq_some_iff.mp hstep
      cases heq
      exact kept_update hs i (hkept.copyConstruct (hs j) hop)
  | copyAssign i j =>
    rw [StaticUnorderedMap.step] at hstep
    split at hstep
    · cases hstep
      exact hs
    · obtain ⟨m, hop, heq⟩ := Option.map_eq_some_iff.mp hstep
      cases heq
      exact kept_update hs i (hkept.copyAssign (hs i) (hs j) hop)
  | moveConstruct i j =>
    rw [StaticUnorderedMap.step] at hstep
    split at hstep
    · cases hstep
    · obtain ⟨⟨m, m'⟩, hop, heq⟩ := Option.map_eq_some_iff.mp hstep
      cases heq
      obtain ⟨m₁, hcopy, heq⟩ := Option.map_eq_some_iff.mp hop
      cases heq
      exact kept_update₂ hs i j (hkept.copyConstruct (hs j) hcopy) (hkept.clear (hs j))
  | moveAssign i j =>
    rw [StaticUnorderedMap.step] at hstep
    split at hstep
    · cases hstep
      exact hs
    · obtain ⟨⟨m, m'⟩, hop, heq⟩ := Option.map_eq_some_iff.mp hstep
      cases heq
      obtain ⟨m₁, hcopy, heq⟩ := Option.map_eq_some_iff.mp hop
      cases heq
      exact kept_update₂ hs i j (hkept.copyAssign (hs i) (hs j) hcopy) (hkept.clear (hs j))

end Family

/-- RUN: and so does every run of calls. -/
theorem Kept.run {P : Map K V w → Prop} (hkept : Kept c P) {s s' : ι → Map K V w}
    (hs : ∀ i, P (s i)) {ops : List (Op ι K V (Arg V) ℕ)}
    {history : List (Op ι K V V K × Out K V)} (hrun : runCalls c s ops = some (s', history)) :
    ∀ i, P (s' i) := by
  induction ops generalizing s history with
  | nil =>
    cases hrun
    exact hs
  | cons op ops ih =>
    obtain ⟨call, -, hrun⟩ := Option.bind_eq_some_iff.mp hrun
    obtain ⟨⟨s₁, out⟩, hstep, hrun⟩ := Option.bind_eq_some_iff.mp hrun
    obtain ⟨⟨s₂, history'⟩, hrest, heq⟩ := Option.map_eq_some_iff.mp hrun
    cases heq
    exact ih (hkept.step hs hstep) hrest

/-- The invariant is kept. -/
theorem inv_kept : Kept c (Inv c) where
  tryEmplace hinv hop := tryEmplace_inv hinv hop
  emplaceSlot := emplaceSlot_inv
  insertOrAssign hinv hop := insertOrAssignImpl_inv hinv hop
  assignAt := assignAt_inv
  eraseKey key hinv := eraseKey_inv hinv key
  eraseAt hinv hop := eraseAt_inv hinv hop
  eraseIf {m m' pred n} hinv hop := by
    obtain ⟨m₁, herase, hinv₁, -, -⟩ := eraseIf_spec hinv pred
    rw [herase] at hop
    cases hop
    exact hinv₁
  clear := clear_inv
  swap {m other m' other'} hm ho hop := by
    obtain ⟨m₁, other₁, hswap, ⟨hm₁, -, -⟩, ho₁, -, -⟩ := swapContents_spec hm ho
    rw [hswap] at hop
    cases hop
    exact ⟨hm₁, ho₁⟩
  copyConstruct := copyConstruct_inv
  copyAssign := copyAssign_inv

end Metl.StaticUnorderedMap
