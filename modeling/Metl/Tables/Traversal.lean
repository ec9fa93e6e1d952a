import Metl.Tables.Updates

/-! The operations that walk the whole table: iteration, `erase_if`, `clear`, `swap` and the copies. -/

namespace Metl.StaticUnorderedMap
open Metl.Schemes Metl.Tables Function

variable {K V : Type} {w : ℕ} {c : Cfg K V w} {m m' other : Map K V w}

/-! ### Iteration -/

theorem scanBits_spec (bits : ℕ → Bool) (left i : ℕ) :
    i ≤ scanBits bits left i ∧ scanBits bits left i ≤ i + left ∧
      (∀ j, i ≤ j → j < scanBits bits left i → bits j = false) ∧
      (scanBits bits left i < i + left → bits (scanBits bits left i) = true) := by
  induction left generalizing i with
  | zero =>
    refine ⟨Nat.le_refl i, Nat.le_refl i, ?_, fun hlt => absurd hlt (Nat.lt_irrefl i)⟩
    intro j hle hlt
    exact absurd hlt (Nat.not_lt.mpr hle)
  | succ left ih =>
    obtain ⟨hle, hbound, hbefore, hset⟩ := ih (i + 1)
    rw [scanBits]
    cases hbit : bits i with
    | true =>
      refine ⟨Nat.le_refl i, Nat.le_add_right i _, ?_, fun _ => hbit⟩
      intro j hj hlt
      exact absurd hlt (Nat.not_lt.mpr hj)
    | false =>
      simp only [Bool.false_eq_true, if_false]
      refine ⟨by omega, by omega, ?_, fun hlt => hset (by omega)⟩
      intro j hj hlt
      rcases Nat.eq_or_lt_of_le hj with rfl | hlt'
      · exact hbit
      · exact hbefore j hlt' hlt

variable {start fuel index i left : ℕ}

/-- Where an iterator built at `start` stands: the next element, or the end. -/
theorem Inv.skip (hinv : Inv c m) (hstart : start ≤ c.bucketCount) :
    start ≤ skipToOccupied c m start ∧ skipToOccupied c m start ≤ c.bucketCount ∧
      (∀ j, start ≤ j → j < skipToOccupied c m start → m.storage j = none) ∧
      (skipToOccupied c m start < c.bucketCount → m.state (skipToOccupied c m start) = .occupied) := by
  unfold skipToOccupied
  split
  · refine ⟨hstart, Nat.le_refl _, ?_, fun hlt => absurd hlt (Nat.lt_irrefl _)⟩
    intro j hle hlt
    omega
  · obtain ⟨hle, hbound, hbefore, hset⟩ := scanBits_spec m.occupied (c.bucketCount - start) start
    refine ⟨hle, by omega, ?_, fun hlt => state_occupied_iff.mpr (hset (by omega))⟩
    intro j hj hlt
    refine hinv.storage_none (by omega) ?_
    rw [Ne, state_occupied_iff, hbefore j hj hlt]
    simp

theorem Inv.contentsFrom_skip (hinv : Inv c m) (hstart : start ≤ c.bucketCount) :
    contentsFrom c.bucketCount start m.storage =
      contentsFrom c.bucketCount (skipToOccupied c m start) m.storage := by
  obtain ⟨hle, hbound, hnone, -⟩ := hinv.skip hstart
  exact Schemes.contentsFrom_skip hle hbound hnone

/-- A traversal from an element on visits what the slots from there on hold. -/
theorem visitLoop_spec (hinv : Inv c m) (hle : index ≤ c.bucketCount)
    (hfuel : c.bucketCount - index ≤ fuel) : (visitLoop c m fuel index).filterMap m.storage =
      contentsFrom c.bucketCount index m.storage := by
  induction fuel generalizing index with
  | zero =>
    have hend : index = c.bucketCount := by omega
    simp [visitLoop, hend]
  | succ fuel ih =>
    rw [visitLoop]
    split
    · rename_i hend
      simp [hend]
    · obtain ⟨hnext, hbound, -, -⟩ := hinv.skip (by omega : index + 1 ≤ c.bucketCount)
      rw [List.filterMap_cons, ih hbound (by omega), ← hinv.contentsFrom_skip (by omega),
        contentsFrom_step (by omega : index < c.bucketCount)]
      cases m.storage index <;> rfl

/-- Iteration yields every element once. -/
theorem items_eq (hinv : Inv c m) : items c m = elements c m := by
  obtain ⟨-, hbound, -, -⟩ := hinv.skip (Nat.zero_le c.bucketCount)
  rw [items, visitLoop_spec hinv hbound (Nat.sub_le _ _),
    ← hinv.contentsFrom_skip (Nat.zero_le _), contentsFrom_zero]
  rfl

/-! ### `erase_if` -/

/-- RUN: from an iterator at `index`, the loop drops what satisfies `pred` there and beyond. -/
theorem eraseIfLoop_spec (pred : K × V → Bool) (erased : ℕ) (hinv : Inv c m)
    (hle : index ≤ c.bucketCount) (hocc : index < c.bucketCount → m.state index = .occupied)
    (hfuel : c.bucketCount - index ≤ fuel) :
    ∃ m', eraseIfLoop c pred fuel m index erased = some (m', erased +
        ((contentsFrom c.bucketCount index m.storage).filter pred).length) ∧
      Inv c m' ∧ m'.keyEqual = m.keyEqual ∧ ∀ j < c.bucketCount, m'.storage j =
        if j < index then m.storage j else (m.storage j).filter fun e => !pred e := by
  induction fuel generalizing m index erased with
  | zero =>
    have hend : index = c.bucketCount := by omega
    refine ⟨m, ?_, hinv, rfl, ?_⟩
    · simp [eraseIfLoop, hend]
    · intro j hj
      rw [if_pos (by omega)]
  | succ fuel ih =>
    rw [eraseIfLoop]
    split
    · rename_i hend
      refine ⟨m, by simp [hend], hinv, rfl, ?_⟩
      intro j hj
      rw [if_pos (by omega)]
    · rename_i hend
      have hlt : index < c.bucketCount := by omega
      have hsucc : index + 1 ≤ c.bucketCount := hlt
      obtain ⟨e, he⟩ := hinv.storage_some hlt (hocc hlt)
      have hhere := contentsFrom_step hlt m.storage
      rw [he, Option.bind_some]
      split
      · rename_i hpred
        obtain ⟨hinv₁, -⟩ := hinv.erased hlt he
        obtain ⟨hnext, hbound, hnone, hocc₁⟩ := hinv₁.skip hsucc
        obtain ⟨m', hloop, hinv', hequal, hstorage⟩ := ih (erased + 1) hinv₁ hbound hocc₁ (by omega)
        have hstorage₁ : (destroyAt m index .tombstone).storage = update m.storage index none := rfl
        rw [eraseAt, if_pos ⟨hlt, hocc hlt⟩, Option.bind_some]
        refine ⟨m', ?_, hinv', hequal, ?_⟩
        · have hrest : contentsFrom c.bucketCount (index + 1) m.storage =
              contentsFrom c.bucketCount (index + 1) (destroyAt m index .tombstone).storage := by
            refine contentsFrom_congr ?_
            intro j hj _
            rw [hstorage₁, update_of_ne (by omega)]
          rw [hloop, hhere, he, hrest, hinv₁.contentsFrom_skip hsucc]
          simp [hpred]
          omega
        · intro j hj
          rw [hstorage j hj, hstorage₁]
          rcases eq_or_ne j index with rfl | hji
          · rw [if_pos (by omega), if_neg (by omega), he, update_self]
            simp [Option.filter_some, hpred]
          · rw [update_of_ne hji]
            by_cases hpast : j < index
            · rw [if_pos (by omega), if_pos hpast]
            · rw [if_neg hpast]
              split
              · rename_i hgap
                have hempty := hnone j (by omega) hgap
                rw [hstorage₁, update_of_ne hji] at hempty
                rw [hempty]
                rfl
              · rfl
      · rename_i hpred
        obtain ⟨hnext, hbound, hnone, hocc₁⟩ := hinv.skip hsucc
        obtain ⟨m', hloop, hinv', hequal, hstorage⟩ := ih erased hinv hbound hocc₁ (by omega)
        refine ⟨m', ?_, hinv', hequal, ?_⟩
        · rw [hloop, hhere, he, hinv.contentsFrom_skip hsucc]
          simp [hpred]
        · intro j hj
          rw [hstorage j hj]
          rcases eq_or_ne j index with rfl | hji
          · rw [if_pos (by omega), if_neg (by omega), he]
            simp [Option.filter_some, hpred]
          · by_cases hpast : j < index
            · rw [if_pos (by omega), if_pos hpast]
            · rw [if_neg hpast]
              split
              · rename_i hgap
                rw [hnone j (by omega) hgap]
                rfl
              · rfl

/-- `erase_if` drops exactly what satisfies the predicate, and counts it. -/
theorem eraseIf_spec (hinv : Inv c m) (pred : K × V → Bool) :
    ∃ m', eraseIf c m pred = some (m', ((elements c m).filter pred).length) ∧ Inv c m' ∧
      m'.keyEqual = m.keyEqual ∧ elements c m' = (elements c m).filter fun e => !pred e := by
  obtain ⟨-, hbound, hnone, hocc⟩ := hinv.skip (Nat.zero_le c.bucketCount)
  obtain ⟨m', hloop, hinv', hequal, hstorage⟩ := eraseIfLoop_spec pred 0 hinv hbound hocc (Nat.sub_le _ _)
  refine ⟨m', ?_, hinv', hequal, ?_⟩
  · rw [eraseIf, hloop, ← hinv.contentsFrom_skip (Nat.zero_le _), contentsFrom_zero, Nat.zero_add]
    rfl
  · rw [elements, elements, ← contents_filter]
    refine contents_congr ?_
    intro j hj
    rw [hstorage j hj]
    split
    · rename_i hgap
      rw [hnone j (Nat.zero_le j) hgap]
      rfl
    · rfl

/-! ### `clear` -/

/-- RUN: `clear` has emptied the slots below `i`, and `size_` counts the elements that are left. -/
structure Clearing (c : Cfg K V w) (m : Map K V w) (i : ℕ) : Prop where
  stored : ∀ j < c.bucketCount, (m.storage j).isSome ↔ m.state j = .occupied
  size : m.size = (elements c m).length
  done : ∀ j < i, m.state j = .empty

theorem Clearing.step (hc : Clearing c m i) (hi : i < c.bucketCount) :
    Clearing c (if m.state i = .occupied then destroyAt m i .empty else m.setState i .empty) (i + 1) := by
  have hdone : ∀ j < i + 1, (m.setState i .empty).state j = .empty := by
    intro j hj
    rw [state_setState]
    split
    · rfl
    · exact hc.done j (by omega)
  split
  · rename_i hocc
    obtain ⟨e, he⟩ := Option.isSome_iff_exists.mp ((hc.stored i hi).mpr hocc)
    have hlen := (contents_take hi he).length_eq
    have hsize : m.size = (contents c.bucketCount m.storage).length := hc.size
    rw [List.length_cons, ← hsize] at hlen
    refine ⟨?_, ?_, hdone⟩
    · intro j hj
      have hstate : (destroyAt m i .empty).state j = if j = i then .empty else m.state j := state_setState
      rw [hstate]
      by_cases hji : j = i
      · simp [destroyAt, hji]
      · simp [destroyAt, hji, hc.stored j hj]
    · change m.size - 1 = _
      rw [hlen]
      rfl
  · rename_i hfree
    refine ⟨?_, hc.size, hdone⟩
    intro j hj
    rw [state_setState]
    by_cases hji : j = i
    · have hnot := mt (hc.stored i hi).mp hfree
      simpa [hji] using hnot
    · simp [hji, hc.stored j hj]

theorem clearLoop_spec (hc : Clearing c m i) (hn : i + left ≤ c.bucketCount) :
    Clearing c (clearLoop left i m) (i + left) ∧ (clearLoop left i m).hasher = m.hasher ∧
      (clearLoop left i m).keyEqual = m.keyEqual := by
  induction left generalizing i m with
  | zero => exact ⟨hc, rfl, rfl⟩
  | succ left ih =>
    obtain ⟨hc', hhasher, hequal⟩ := ih (hc.step (by omega)) (by omega)
    rw [clearLoop, show i + (left + 1) = i + 1 + left by omega]
    refine ⟨hc', hhasher.trans ?_, hequal.trans ?_⟩ <;> split <;> rfl

theorem clear_spec (hinv : Inv c m) : Blank c (clear c m) ∧ (clear c m).hasher = m.hasher ∧
    (clear c m).keyEqual = m.keyEqual := by
  have hstart : Clearing c m 0 := ⟨hinv.stored, hinv.size, by simp⟩
  obtain ⟨hc, hhasher, hequal⟩ := clearLoop_spec hstart (Nat.le_of_eq (Nat.zero_add c.bucketCount))
  rw [Nat.zero_add] at hc
  have hnone : ∀ i < c.bucketCount, (clearLoop c.bucketCount 0 m).storage i = none := by
    intro i hi
    have hnot := mt (hc.stored i hi).mp (by simp [hc.done i hi])
    simpa using hnot
  refine ⟨⟨hc.done, hnone, ?_, rfl⟩, hhasher, hequal⟩
  change (clearLoop c.bucketCount 0 m).size = 0
  rw [hc.size, elements, contents_eq_nil hnone]
  rfl

/-! ### `swap` -/

/-- STEP: one slot of the two tables is exchanged. -/
theorem swapSlot_spec (hm : (m.storage i).isSome ↔ m.state i = .occupied)
    (ho : (other.storage i).isSome ↔ other.state i = .occupied) :
    ∃ m' other', swapSlot i m other = some (m', other') ∧
      Changed m m' i (other.state i) (other.storage i) ∧
      Changed other other' i (m.state i) (m.storage i) ∧ SameTable m m' ∧ SameTable other other' := by
  have hnone : ∀ {x : Map K V w}, ((x.storage i).isSome ↔ x.state i = .occupied) →
      x.state i ≠ .occupied → x.storage i = none := by
    intro x hx hne
    simpa using mt hx.mp hne
  have hkeep : ∀ {x : Map K V w} {s : SlotState}, x.state i = s →
      ∀ j, x.state j = if j = i then s else x.state j := by
    rintro x s rfl j
    split <;> simp_all
  have hidem : ∀ {x : Map K V w}, x.storage i = none → x.storage = update x.storage i none := by
    intro x hx
    rw [← hx, update_eq_self]
  unfold swapSlot
  by_cases hocc : m.state i = .occupied <;> by_cases hocc' : other.state i = .occupied
  · obtain ⟨e, he⟩ := Option.isSome_iff_exists.mp (hm.mpr hocc)
    obtain ⟨e', he'⟩ := Option.isSome_iff_exists.mp (ho.mpr hocc')
    rw [if_pos ⟨hocc, hocc'⟩, he, he', hocc, hocc']
    exact ⟨_, _, rfl, ⟨hkeep hocc, rfl, rfl, rfl⟩, ⟨hkeep hocc', rfl, rfl, rfl⟩,
      ⟨rfl, rfl, rfl, rfl⟩, ⟨rfl, rfl, rfl, rfl⟩⟩
  · obtain ⟨e, he⟩ := Option.isSome_iff_exists.mp (hm.mpr hocc)
    rw [if_neg (fun h => hocc' h.2), if_pos hocc, he, hnone ho hocc', hocc]
    exact ⟨_, _, rfl, ⟨fun _ => state_setState, rfl, rfl, rfl⟩,
      ⟨fun _ => state_setState, rfl, rfl, rfl⟩, ⟨rfl, rfl, rfl, rfl⟩, ⟨rfl, rfl, rfl, rfl⟩⟩
  · obtain ⟨e', he'⟩ := Option.isSome_iff_exists.mp (ho.mpr hocc')
    rw [if_neg (fun h => hocc h.1), if_neg hocc, if_pos hocc', he', hnone hm hocc, hocc']
    exact ⟨_, _, rfl, ⟨fun _ => state_setState, rfl, rfl, rfl⟩,
      ⟨fun _ => state_setState, rfl, rfl, rfl⟩, ⟨rfl, rfl, rfl, rfl⟩, ⟨rfl, rfl, rfl, rfl⟩⟩
  · have hkept := hidem (hnone hm hocc)
    have hkept' := hidem (hnone ho hocc')
    rw [if_neg (fun h => hocc h.1), if_neg hocc, if_neg hocc', hnone hm hocc, hnone ho hocc']
    exact ⟨_, _, rfl, ⟨fun _ => state_setState, hkept, rfl, rfl⟩,
      ⟨fun _ => state_setState, hkept', rfl, rfl⟩, ⟨rfl, rfl, rfl, rfl⟩, ⟨rfl, rfl, rfl, rfl⟩⟩

/-- A slot's state and what it holds. -/
def slot (m : Map K V w) (i : ℕ) : SlotState × Option (K × V) := (m.state i, m.storage i)

theorem Changed.slot {s : SlotState} {x : Option (K × V)} (hch : Changed m m' i s x) (j : ℕ) :
    slot m' j = if j = i then (s, x) else slot m j := by
  simp only [StaticUnorderedMap.slot, hch.state, hch.storage]
  by_cases hji : j = i <;> simp [hji]

/-- RUN: the slots from `i` on are exchanged, the others are as they were. -/
theorem swapLoop_spec (m other : Map K V w)
    (hm : ∀ j, i ≤ j → j < i + left → ((m.storage j).isSome ↔ m.state j = .occupied))
    (ho : ∀ j, i ≤ j → j < i + left → ((other.storage j).isSome ↔ other.state j = .occupied)) :
    ∃ m' other', swapLoop left i m other = some (m', other') ∧ SameTable m m' ∧ SameTable other other' ∧
      (∀ j, slot m' j = if i ≤ j ∧ j < i + left then slot other j else slot m j) ∧
      ∀ j, slot other' j = if i ≤ j ∧ j < i + left then slot m j else slot other j := by
  induction left generalizing i m other with
  | zero =>
    refine ⟨m, other, rfl, SameTable.rfl, SameTable.rfl, ?_, ?_⟩ <;> intro j <;> rw [if_neg (by omega)]
  | succ left ih =>
    obtain ⟨m₁, other₁, hslot, hch, hch', hsame, hsame'⟩ :=
      swapSlot_spec (hm i (Nat.le_refl i) (by omega)) (ho i (Nat.le_refl i) (by omega))
    have hstored : ∀ {x x₁ : Map K V w} {s : SlotState} {y : Option (K × V)}, Changed x x₁ i s y →
        (∀ j, i ≤ j → j < i + (left + 1) → ((x.storage j).isSome ↔ x.state j = .occupied)) →
        ∀ j, i + 1 ≤ j → j < i + 1 + left → ((x₁.storage j).isSome ↔ x₁.state j = .occupied) := by
      intro x x₁ s y hx hxs j hle hlt
      rw [hx.state, hx.storage, if_neg (by omega), update_of_ne (by omega)]
      exact hxs j (by omega) (by omega)
    obtain ⟨m', other', hloop, hsame₁, hsame₁', hnew, hnew'⟩ :=
      ih m₁ other₁ (hstored hch hm) (hstored hch' ho)
    have hside : ∀ {x y x₁ y₁ x' : Map K V w}, Changed x x₁ i (y.state i) (y.storage i) →
        Changed y y₁ i (x.state i) (x.storage i) →
        (∀ j, slot x' j = if i + 1 ≤ j ∧ j < i + 1 + left then slot y₁ j else slot x₁ j) →
        ∀ j, slot x' j = if i ≤ j ∧ j < i + (left + 1) then slot y j else slot x j := by
      intro x y x₁ y₁ x' hx hy hrest j
      rw [hrest, hx.slot, hy.slot]
      rcases eq_or_ne j i with rfl | hji
      · rw [if_neg (by omega), if_pos rfl, if_pos (by omega)]
        rfl
      · rw [if_neg hji, if_neg hji]
        congr 1
        rw [eq_iff_iff]
        omega
    refine ⟨m', other', ?_, hsame.trans hsame₁, hsame'.trans hsame₁', hside hch hch' hnew,
      hside hch' hch hnew'⟩
    rw [swapLoop, hslot, Option.bind_some]
    exact hloop

/-- Two tables with the same slots, functors and counters. -/
theorem Inv.congr (hinv : Inv c m) (hsame : SameTable m m')
    (hslot : ∀ i < c.bucketCount, slot m' i = slot m i) : Inv c m' ∧ elements c m' = elements c m := by
  have hstate : ∀ i < c.bucketCount, m'.state i = m.state i := by
    intro i hi
    exact congrArg Prod.fst (hslot i hi)
  have hstorage : ∀ i < c.bucketCount, m'.storage i = m.storage i := by
    intro i hi
    exact congrArg Prod.snd (hslot i hi)
  have helements : elements c m' = elements c m := contents_congr hstorage
  have hapart : Apart m' = Apart m := by
    funext a b
    rw [Apart, Apart, hsame.keyEqual]
  refine ⟨⟨?_, ?_, ?_, ?_, ?_, ?_, ?_⟩, helements⟩
  · rw [hsame.hasher, hsame.keyEqual]
    exact hinv.lawful
  · intro i hi
    rw [hstate i hi, hstorage i hi]
    exact hinv.stored i hi
  · intro i hi e he
    rw [hstorage i hi] at he
    rw [hsame.home]
    refine (hinv.reached i hi e he).mono ?_
    intro j hj hne
    rwa [hstate j hj]
  · rw [helements, hapart]
    exact hinv.distinct
  · rw [helements, hsame.size]
    exact hinv.size
  · rw [hsame.size]
    exact hinv.bounded
  · rw [hsame.tombstones, hinv.tombstones]
    refine tally_congr ?_
    intro i hi
    rw [hstate i hi]

/-- `swap` exchanges the two tables. -/
theorem swapContents_spec (hm : Inv c m) (ho : Inv c other) :
    ∃ m' other', swapContents c m other = some (m', other') ∧
      (Inv c m' ∧ elements c m' = elements c other ∧ m'.keyEqual = other.keyEqual) ∧
      Inv c other' ∧ elements c other' = elements c m ∧ other'.keyEqual = m.keyEqual := by
  obtain ⟨m₁, other₁, hloop, hsame, hsame', hnew, hnew'⟩ := swapLoop_spec
    { m with hasher := other.hasher, keyEqual := other.keyEqual }
    { other with hasher := m.hasher, keyEqual := m.keyEqual }
    (fun j _ hj => hm.stored j (Nat.zero_add c.bucketCount ▸ hj))
    (fun j _ hj => ho.stored j (Nat.zero_add c.bucketCount ▸ hj))
  have hmine : SameTable other { m₁ with size := other₁.size, tombstones := other₁.tombstones } :=
    ⟨hsame.hasher, hsame.keyEqual, hsame'.size, hsame'.tombstones⟩
  have htheirs : SameTable m { other₁ with size := m₁.size, tombstones := m₁.tombstones } :=
    ⟨hsame'.hasher, hsame'.keyEqual, hsame.size, hsame.tombstones⟩
  obtain ⟨hinv, helements⟩ := ho.congr hmine fun i hi => (hnew i).trans (if_pos (by omega))
  obtain ⟨hinv', helements'⟩ := hm.congr htheirs fun i hi => (hnew' i).trans (if_pos (by omega))
  refine ⟨_, _, ?_, ⟨hinv, helements, hsame.keyEqual⟩, hinv', helements', hsame'.keyEqual⟩
  rw [swapContents, hloop]
  rfl

/-! ### Copies -/

/-- RUN: elements with keys apart from each other and from those already there are all added. -/
theorem emplaceAll_spec (hs : c.Sized) (hinv : Inv c m) (es : List (K × V))
    (hdistinct : (es ++ elements c m).Pairwise (Apart m))
    (hroom : es.length + m.size ≤ c.capacity.toNat) :
    ∃ m', emplaceAll c m es = some m' ∧ Inv c m' ∧ (elements c m').Perm (es ++ elements c m) ∧
      m'.keyEqual = m.keyEqual := by
  induction es generalizing m with
  | nil => exact ⟨m, rfl, hinv, List.Perm.refl _, rfl⟩
  | cons e es ih =>
    rw [List.length_cons] at hroom
    obtain ⟨hhead, htail⟩ := List.pairwise_cons.mp hdistinct
    have hmissing : findExistingIndex c m e.1 = none := by
      cases hfind : findExistingIndex c m e.1 with
      | none => rfl
      | some i =>
        obtain ⟨hi, a, ha, hequal⟩ := find_some hfind
        have hmem : a ∈ es ++ elements c m := List.mem_append_right _ (mem_contents.mpr ⟨i, hi, ha⟩)
        have hapart := hinv.lawful.apart_symm (hhead a hmem)
        rw [hequal] at hapart
        cases hapart
    obtain ⟨m₁, i, hemplace, hins⟩ := emplaceSlot_absent hs hinv (.value e.2) rfl hmissing (by omega)
    have hapart : Apart m₁ = Apart m := by
      funext a b
      rw [Apart, Apart, hins.keyEqual]
    have hmove : (es ++ elements c m₁).Perm (e :: (es ++ elements c m)) :=
      (hins.elements.append_left es).trans List.perm_middle
    have hsize₁ : m₁.size = m.size + 1 := by
      rw [hins.inv.size, hins.elements.length_eq, List.length_cons, hinv.size]
    obtain ⟨m', hloop, hinv', hperm, hequal⟩ := ih hins.inv (by
        rw [hapart]
        exact (hmove.pairwise_iff fun {a b} => hinv.lawful.apart_symm).mpr hdistinct) (by omega)
    refine ⟨m', ?_, hinv', hperm.trans hmove, hequal.trans hins.keyEqual⟩
    rw [emplaceAll, hemplace, Option.bind_some]
    exact hloop

/-- Filling a blank table that has the functors of `other` copies `other`. -/
theorem emplaceAll_copy (hs : c.Sized) (hinv : Inv c other) (hblank : Blank c m)
    (hhasher : m.hasher = other.hasher) (hequal : m.keyEqual = other.keyEqual) :
    ∃ m', emplaceAll c m (items c other) = some m' ∧ Inv c m' ∧
      (elements c m').Perm (elements c other) ∧ m'.keyEqual = other.keyEqual := by
  have hlawful : Lawful c m.hasher m.keyEqual := by
    rw [hhasher, hequal]
    exact hinv.lawful
  have hapart : Apart m = Apart other := by
    funext a b
    rw [Apart, Apart, hequal]
  have hsize := hinv.size
  have hbound := hinv.bounded
  obtain ⟨m', hloop, hinv', hperm, hequal'⟩ := emplaceAll_spec hs (hblank.inv hlawful) (elements c other)
    (by
      rw [hblank.nil, List.append_nil, hapart]
      exact hinv.distinct)
    (by
      rw [hblank.size]
      omega)
  rw [hblank.nil, List.append_nil] at hperm
  rw [items_eq hinv]
  exact ⟨m', hloop, hinv', hperm, hequal'.trans hequal⟩

theorem copyConstruct_spec (hs : c.Sized) (hinv : Inv c other) :
    ∃ m', copyConstruct c other = some m' ∧ Inv c m' ∧
      (elements c m').Perm (elements c other) ∧ m'.keyEqual = other.keyEqual :=
  emplaceAll_copy hs hinv (blank_emptyWith c _ _) rfl rfl

theorem copyAssign_spec (hs : c.Sized) (hm : Inv c m) (hinv : Inv c other) :
    ∃ m', copyAssign c m other = some m' ∧ Inv c m' ∧
      (elements c m').Perm (elements c other) ∧ m'.keyEqual = other.keyEqual := by
  obtain ⟨hblank, -, -⟩ := clear_spec hm
  exact emplaceAll_copy hs hinv ⟨hblank.state, hblank.storage, hblank.size, hblank.tombstones⟩ rfl rfl

end Metl.StaticUnorderedMap
