import Metl.Schemes.Run
import Metl.Tables.Reachable

/-! Removal whose element destructors call back into the table.

        clear()   walk 0 ─► walk 1 ─► … ─► walk bucket_count
                              └─ ~T() ─┬─ find(k), contains(k)
                                       └─ erase(k) ─ ~T() ─ …

    `destroy_at` takes the slot out of the table and then runs the destructor. `erase` leaves a
    tombstone there, but `clear` leaves an empty slot, and the probe runs of elements it has not come
    to yet may lead through it.

    A `static_unordered_set` is the table whose elements have no mapped value (`V = Unit`): its
    `find_existing_index`, `erase`, `clear` and `destroy_at` are those of the map. -/

namespace Metl.StaticUnorderedMap
open Metl.Schemes Metl.Tables Function

variable {ι K V : Type} [DecidableEq ι] {w : ℕ}

/-! ### The machine -/

/-- What the call stack holds, innermost first. -/
inductive Frame (K V : Type) where
  /-- `clear` is about to look at slot `i`. -/
  | walk (i : ℕ)
  /-- The destructor of `e` runs; `e` has left the table. -/
  | dtor (e : K × V)

/-- A removal in progress on the map `target`. Ghost fields: the elements it had when the removal
    began, and those whose destructor has begun since. -/
structure Removal (ι K V : Type) where
  target : ι
  stack : List (Frame K V)
  before : List (K × V)
  begun : List (K × V)

structure World (ι K V : Type) (w : ℕ) where
  maps : ι → Map K V w
  removal : Option (Removal ι K V)

inductive Act (ι K V : Type) where
  /-- A call with no removal in progress; its destructors do not call back. -/
  | call (op : Op ι K V (Arg V) ℕ)
  | eraseKey (i : ι) (key : K)
  | eraseAt (i : ι) (pos : ℕ)
  | clear (i : ι)
  /-- The running destructor calls `erase(key)`. -/
  | nested (key : K)
  /-- The destructor returns, or `clear` goes on. -/
  | resume

variable (c : Cfg K V w)

/-- The first half of `destroy_at`: the slot leaves the table and the destructor begins. -/
def beginDestroy (t : World ι K V w) (r : Removal ι K V) (index : ℕ) (next : SlotState) :
    Option (World ι K V w) :=
  ((t.maps r.target).storage index).map fun e =>
    { maps := update t.maps r.target (destroyAt (t.maps r.target) index next)
      removal := some { r with stack := .dtor e :: r.stack, begun := e :: r.begun } }

/-- `erase(key)` on the map of the removal; nothing happens if the key is not found. -/
def beginErase (t : World ι K V w) (r : Removal ι K V) (key : K) : Option (World ι K V w) :=
  match findExistingIndex c (t.maps r.target) key with
  | none => some t
  | some index => beginDestroy t r index .tombstone

/-- A removal begins on map `i`. -/
def newRemoval (t : World ι K V w) (i : ι) (stack : List (Frame K V)) : Removal ι K V where
  target := i
  stack := stack
  before := elements c (t.maps i)
  begun := []

/-- The innermost call returns to the rest of the stack. -/
def Removal.back (r : Removal ι K V) (rest : List (Frame K V)) : Option (Removal ι K V) :=
  if rest.isEmpty then none else some { r with stack := rest }

/-- One round of the loop of `clear`, or its end. -/
def walkStep (t : World ι K V w) (r : Removal ι K V) (i : ℕ) (rest : List (Frame K V)) :
    Option (World ι K V w) :=
  let m := t.maps r.target
  if i < c.bucketCount then
    let r := { r with stack := .walk (i + 1) :: rest }
    if m.state i = .occupied then beginDestroy t r i .empty
    else some { maps := update t.maps r.target (m.setState i .empty), removal := some r }
  else
    some
      { maps := update t.maps r.target { m with tombstones := 0 }, removal := r.back rest }

def removalStep (t : World ι K V w) (a : Act ι K V) : Option (World ι K V w) :=
  match t.removal, a with
  | none, .call op => (step c t.maps op).map fun r => { maps := r.1, removal := none }
  | none, .eraseKey i key => beginErase c t (newRemoval c t i []) key
  | none, .eraseAt i pos =>
    if pos < c.bucketCount ∧ (t.maps i).state pos = .occupied then
      beginDestroy t (newRemoval c t i []) pos .tombstone
    else none
  | none, .clear i => some { t with removal := some (newRemoval c t i [.walk 0]) }
  | some r, .nested key =>
    match r.stack with
    | .dtor _ :: _ => beginErase c t r key
    | _ => none
  | some r, .resume =>
    match r.stack with
    | .dtor _ :: rest => some { t with removal := r.back rest }
    | .walk i :: rest => walkStep c t r i rest
    | [] => none
  | _, _ => none

/-! ### The invariant -/

variable {c : Cfg K V w} {m : Map K V w} {t t' : World ι K V w} {r : Removal ι K V}

/-- How many slots the `clear` on the stack has emptied, if there is one. -/
def walkAt : List (Frame K V) → Option ℕ
  | [] => none
  | .walk i :: _ => some i
  | .dtor _ :: rest => walkAt rest

/-- A `clear` is the outermost call if it is on the stack at all. -/
def Outermost (n : ℕ) : List (Frame K V) → Prop
  | [] => True
  | .walk i :: rest => rest = [] ∧ i ≤ n
  | .dtor _ :: rest => Outermost n rest

/-- A removal `r` in progress on one of the maps `s`. -/
structure Removing (c : Cfg K V w) (s : ι → Map K V w) (r : Removal ι K V) : Prop where
  swept : Swept c (s r.target) ((walkAt r.stack).getD 0)
  tombstones : walkAt r.stack = none → (s r.target).tombstones =
    tally c.bucketCount fun i => decide ((s r.target).state i = .tombstone)
  outermost : Outermost c.bucketCount r.stack
  account : (elements c (s r.target) ++ r.begun).Perm r.before
  rest : ∀ i, i ≠ r.target → Inv c (s i)

def WorldInv (c : Cfg K V w) (t : World ι K V w) : Prop :=
  match t.removal with
  | none => ∀ i, Inv c (t.maps i)
  | some r => r.stack ≠ [] ∧ Removing c t.maps r

/-! ### One slot of the table -/

section Slot
variable {z i : ℕ} {e : K × V}

theorem destroyAt_changed (s : SlotState) : Changed m (destroyAt m i s) i s none :=
  ⟨fun _ => state_setState, rfl, rfl, rfl⟩

/-- An element leaves; its slot is empty only if the walk is there. -/
theorem Swept.destroyed (hw : Swept c m z) (hi : i < c.bucketCount) (he : m.storage i = some e)
    {s : SlotState} {z' : ℕ} (hs : s = .tombstone ∧ z' = z ∨ s = .empty ∧ z = i ∧ z' = i + 1) :
    Swept c (destroyAt m i s) z' ∧ (elements c m).Perm (e :: elements c (destroyAt m i s)) := by
  have hch := destroyAt_changed (m := m) (i := i) s
  obtain ⟨hperm, hpair, -⟩ := hw.lawful.split hw.distinct hi he
  have hlen := hperm.length_eq
  rw [List.length_cons, ← hw.size] at hlen
  have hocc : m.state i = .occupied := (hw.stored i hi).mp (by simp [he])
  have hsize : (destroyAt m i s).size = m.size - 1 := rfl
  have hbound := hw.bounded
  refine ⟨?_, hperm.trans ((hch.perm hi).cons e).symm⟩
  refine hw.change hch hi (by omega) ?_ ?_ ?_ (by simp) hpair (by simp [hsize, hlen]) (by omega)
  · rintro rfl
    rcases hs with ⟨h, -⟩ | ⟨-, -, rfl⟩
    · cases h
    · omega
  · intro j hj hjn
    rw [hch.state]
    rcases hs with ⟨rfl, rfl⟩ | ⟨rfl, rfl, rfl⟩
    · have hne : j ≠ i := by
        rintro rfl
        simp [hw.emptied j hj hjn] at hocc
      rw [if_neg hne]
      exact hw.emptied j hj hjn
    · by_cases hji : j = z
      · rw [if_pos hji]
      · rw [if_neg hji]
        exact hw.emptied j (by omega) hjn
  · rcases hs with ⟨rfl, -⟩ | ⟨rfl, -, -⟩ <;> simp

/-- The walk passes a slot without an element. -/
theorem Swept.passed (hw : Swept c m i) (hi : i < c.bucketCount) (hfree : m.state i ≠ .occupied) :
    Swept c (m.setState i .empty) (i + 1) ∧ elements c (m.setState i .empty) = elements c m := by
  have hnone : m.storage i = none := by simpa using mt (hw.stored i hi).mp hfree
  have hothers : others c m i = elements c m := by
    rw [others, elements, ← hnone, update_eq_self]
  have hch : Changed m (m.setState i .empty) i .empty none := by
    refine ⟨fun _ => state_setState, ?_, rfl, rfl⟩
    rw [← hnone, update_eq_self, storage_setState]
  refine ⟨?_, rfl⟩
  refine hw.change hch hi (Nat.le_succ i) (fun _ => Nat.lt_succ_self i) ?_ (by simp) (by simp) ?_ ?_
    hw.bounded
  · intro j hj hjn
    rw [hch.state]
    by_cases hji : j = i
    · rw [if_pos hji]
    · rw [if_neg hji]
      exact hw.emptied j (by omega) hjn
  · rw [hothers]
    exact hw.distinct
  · rw [hothers]
    exact hw.size

/-- Behind the walk nothing is left. -/
theorem Swept.blank (hw : Swept c m c.bucketCount) : Blank c { m with tombstones := 0 } := by
  have hempty : ∀ i < c.bucketCount, m.state i = .empty := fun i hi => hw.emptied i hi hi
  have hnone : ∀ i < c.bucketCount, m.storage i = none := by
    intro i hi
    simpa using mt (hw.stored i hi).mp (by simp [hempty i hi])
  refine ⟨hempty, hnone, ?_, rfl⟩
  change m.size = 0
  rw [hw.size, elements, contents_eq_nil hnone]
  rfl

end Slot

/-! ### Every step -/

variable {i : ℕ} {s : SlotState} {stack rest : List (Frame K V)} {e : K × V}

theorem removing_destroy (hr : Removing c t.maps r) (hi : i < c.bucketCount)
    (hocc : (t.maps r.target).state i = .occupied) (hs : s = .tombstone ∧ stack = r.stack ∨
      s = .empty ∧ walkAt r.stack = some i ∧ stack = [.walk (i + 1)]) :
    ∃ t', beginDestroy t { r with stack := stack } i s = some t' ∧ WorldInv c t' := by
  obtain ⟨e, he⟩ := Option.isSome_iff_exists.mp ((hr.swept.stored i hi).mpr hocc)
  have hslot : s = .tombstone ∧ (walkAt stack).getD 0 = (walkAt r.stack).getD 0 ∨
      s = .empty ∧ (walkAt r.stack).getD 0 = i ∧ (walkAt stack).getD 0 = i + 1 := by
    rcases hs with ⟨rfl, rfl⟩ | ⟨rfl, hwalk, rfl⟩
    · exact Or.inl ⟨rfl, rfl⟩
    · exact Or.inr ⟨rfl, by rw [hwalk]; rfl, rfl⟩
  obtain ⟨hswept, hperm⟩ := hr.swept.destroyed hi he hslot
  refine ⟨_, by rw [beginDestroy, he]; rfl, ?_⟩
  refine ⟨by simp, ⟨?_, ?_, ?_, ?_, ?_⟩⟩
  · simpa [walkAt] using hswept
  · intro hwalk
    rcases hs with ⟨rfl, rfl⟩ | ⟨-, -, rfl⟩
    · have hold := hr.tombstones hwalk
      have htally := (destroyAt_changed (m := t.maps r.target) (i := i) .tombstone).tombs (c := c) hi
      have hcount : (destroyAt (t.maps r.target) i .tombstone).tombstones =
        (t.maps r.target).tombstones + 1 := rfl
      simp only [hocc, reduceCtorEq, decide_false, decide_true, Bool.toNat_false,
        Bool.toNat_true] at htally
      simp only [update_self]
      omega
    · cases hwalk
  · rcases hs with ⟨-, rfl⟩ | ⟨-, -, rfl⟩
    · exact hr.outermost
    · exact ⟨rfl, hi⟩
  · have hmove : (elements c (destroyAt (t.maps r.target) i s) ++ e :: r.begun).Perm
        (e :: elements c (destroyAt (t.maps r.target) i s) ++ r.begun) := List.perm_middle
    simpa using (hmove.trans (hperm.symm.append_right r.begun)).trans hr.account
  · intro j hj
    simpa [hj] using hr.rest j hj

theorem beginErase_inv (hr : Removing c t.maps r) (hinv : WorldInv c t) (key : K) :
    ∃ t', beginErase c t r key = some t' ∧ WorldInv c t' := by
  unfold beginErase
  cases hfind : findExistingIndex c (t.maps r.target) key with
  | none => exact ⟨t, rfl, hinv⟩
  | some i =>
    obtain ⟨hi, e, he, -⟩ := find_some hfind
    have hocc := (hr.swept.stored i hi).mp (by simp [he])
    exact removing_destroy hr hi hocc (Or.inl ⟨rfl, rfl⟩)

/-- The innermost call returns: the removal goes on, or every map is whole again. -/
theorem back_inv (hr : Removing c t.maps r) (hwalk : walkAt rest = walkAt r.stack)
    (houter : Outermost c.bucketCount rest) : WorldInv c { t with removal := r.back rest } := by
  unfold WorldInv Removal.back
  cases rest with
  | nil =>
    have hwhole : Inv c (t.maps r.target) := by
      have hswept := hr.swept
      rw [← hwalk] at hswept
      exact inv_iff_swept.mpr ⟨hswept, hr.tombstones hwalk.symm⟩
    intro i
    by_cases hi : i = r.target
    · rw [hi]
      exact hwhole
    · exact hr.rest i hi
  | cons frame rest =>
    refine ⟨by simp, ?_, ?_, houter, hr.account, hr.rest⟩
    · rw [hwalk]
      exact hr.swept
    · rw [hwalk]
      exact hr.tombstones

omit [DecidableEq ι] in
/-- A removal begins on a whole map. -/
theorem removing_new (hinv : ∀ i, Inv c (t.maps i)) (i : ι) (hstack : stack = [] ∨ stack = [.walk 0]) :
    Removing c t.maps (newRemoval c t i stack) := by
  obtain ⟨hswept, htomb⟩ := inv_iff_swept.mp (hinv i)
  have haccount : (elements c (t.maps i) ++ []).Perm (elements c (t.maps i)) := by
    rw [List.append_nil]
  rcases hstack with rfl | rfl
  · exact ⟨hswept, fun _ => htomb, trivial, haccount, fun j _ => hinv j⟩
  · exact ⟨hswept, nofun, ⟨rfl, Nat.zero_le _⟩, haccount, fun j _ => hinv j⟩

/-- One round of `clear`. -/
theorem walkStep_inv (hr : Removing c t.maps r) (hstack : r.stack = [.walk i]) :
    ∃ t', walkStep c t r i [] = some t' ∧ WorldInv c t' := by
  have hwalk : walkAt r.stack = some i := by rw [hstack]; rfl
  have hswept := hr.swept
  rw [hwalk, Option.getD_some] at hswept
  unfold walkStep
  dsimp only
  split
  · rename_i hi
    split
    · rename_i hocc
      exact removing_destroy hr hi hocc (Or.inr ⟨rfl, hwalk, rfl⟩)
    · rename_i hfree
      obtain ⟨hpassed, helements⟩ := hswept.passed hi hfree
      refine ⟨_, rfl, by simp, ?_, nofun, ⟨rfl, hi⟩, ?_, ?_⟩
      · simpa [walkAt] using hpassed
      · simpa [helements] using hr.account
      · intro j hj
        simpa [hj] using hr.rest j hj
  · rename_i hi
    have houter := hr.outermost
    rw [hstack] at houter
    have hend : i = c.bucketCount := Nat.le_antisymm houter.2 (Nat.not_lt.mp hi)
    rw [hend] at hswept
    refine ⟨_, rfl, ?_⟩
    intro j
    rcases eq_or_ne j r.target with rfl | hj
    · simpa using hswept.blank.inv hswept.lawful
    · simpa [hj] using hr.rest j hj

/-- A removal that is in progress can go on, whatever its destructors call. -/
theorem removal_progress (hinv : WorldInv c t) (hjob : t.removal = some r) :
    (∃ t', removalStep c t .resume = some t' ∧ WorldInv c t') ∧
      ∀ e rest, r.stack = .dtor e :: rest → ∀ key,
        ∃ t', removalStep c t (.nested key) = some t' ∧ WorldInv c t' := by
  have hinv' := hinv
  unfold WorldInv at hinv'
  rw [hjob] at hinv'
  obtain ⟨hne, hr⟩ := hinv'
  refine ⟨?_, ?_⟩
  · simp only [removalStep, hjob]
    cases hstack : r.stack with
    | nil => exact absurd hstack hne
    | cons frame rest =>
      have houter := hr.outermost
      rw [hstack] at houter
      cases frame with
      | walk i =>
        obtain ⟨rfl, -⟩ := houter
        exact walkStep_inv hr hstack
      | dtor e => exact ⟨_, rfl, back_inv hr (by rw [hstack]; rfl) houter⟩
  · intro e rest hstack key
    simp only [removalStep, hjob, hstack]
    exact beginErase_inv hr hinv key

/-- STEP: every action keeps the invariant. -/
theorem removalStep_inv {a : Act ι K V} (hinv : WorldInv c t) (hstep : removalStep c t a = some t') :
    WorldInv c t' := by
  cases hjob : t.removal with
  | some r =>
    obtain ⟨⟨t₁, hresume, hinv₁⟩, hnested⟩ := removal_progress hinv hjob
    cases a with
    | resume =>
      rw [hresume] at hstep
      cases hstep
      exact hinv₁
    | nested key =>
      cases hstack : r.stack with
      | nil => simp [removalStep, hjob, hstack] at hstep
      | cons frame rest =>
        cases frame with
        | walk i => simp [removalStep, hjob, hstack] at hstep
        | dtor e =>
          obtain ⟨t₂, hsome, hinv₂⟩ := hnested e rest hstack key
          rw [hsome] at hstep
          cases hstep
          exact hinv₂
    | _ => simp [removalStep, hjob] at hstep
  | none =>
    have hwhole : ∀ i, Inv c (t.maps i) := by
      unfold WorldInv at hinv
      rwa [hjob] at hinv
    cases a with
    | call op =>
      simp only [removalStep, hjob] at hstep
      obtain ⟨⟨s, out⟩, hop, rfl⟩ := Option.map_eq_some_iff.mp hstep
      exact inv_kept.step hwhole hop
    | eraseKey i key =>
      simp only [removalStep, hjob] at hstep
      obtain ⟨t₁, hsome, hinv₁⟩ := beginErase_inv (removing_new hwhole i (Or.inl rfl)) hinv key
      rw [hsome] at hstep
      cases hstep
      exact hinv₁
    | eraseAt i pos =>
      simp only [removalStep, hjob] at hstep
      split at hstep
      · rename_i hpos
        obtain ⟨t₁, hsome, hinv₁⟩ := removing_destroy (removing_new hwhole i (Or.inl rfl)) hpos.1
          hpos.2 (Or.inl ⟨rfl, rfl⟩)
        have heq : beginDestroy t (newRemoval c t i []) pos .tombstone = some t₁ := hsome
        rw [heq] at hstep
        cases hstep
        exact hinv₁
      · cases hstep
    | clear i =>
      simp only [removalStep, hjob] at hstep
      cases hstep
      exact ⟨by simp [newRemoval], removing_new hwhole i (Or.inr rfl)⟩
    | _ => simp [removalStep, hjob] at hstep

/-! ### What a lookup finds during a removal -/

/-- An element with this key is in the table and its destructor has not begun. -/
def Stored (c : Cfg K V w) (m : Map K V w) (key : K) : Prop :=
  ∃ e ∈ elements c m, m.keyEqual e.1 key = true

/-- `contains`, `find` and `erase` see the key exactly if it is there. -/
structure Exact (c : Cfg K V w) (m : Map K V w) (key : K) : Prop where
  contains : contains c m key = true ↔ Stored c m key
  find : ∀ v, find c m key = some v ↔ ∃ e ∈ elements c m, m.keyEqual e.1 key = true ∧ e.2 = v
  erase : (eraseKey c m key).2 = true ↔ Stored c m key

/-- The probe run from the key's home bucket to its slot passes a slot that `clear` has emptied. -/
def Cut (c : Cfg K V w) (m : Map K V w) (emptied : ℕ) (key : K) : Prop :=
  ∃ d < c.bucketCount, m.keyEqualAt (bucket c.bucketCount (bucketIndex c m key) d) key = true ∧
    ∃ j < d, bucket c.bucketCount (bucketIndex c m key) j < emptied

/-- An empty slot before any equal key ends the search. -/
theorem findLoop_cut {key : K} {start left probe j : ℕ} (hle : probe ≤ j)
    (hempty : m.state (bucket c.bucketCount start j) = .empty)
    (hnone : ∀ k < j, m.keyEqualAt (bucket c.bucketCount start k) key = false) :
    findLoop c m key start left probe = none := by
  induction left generalizing probe with
  | zero => rfl
  | succ left ih =>
    simp only [findLoop, c.probe]
    rcases Nat.eq_or_lt_of_le hle with rfl | hlt
    · rw [if_pos hempty]
    · simp only [hnone probe hlt, Bool.false_eq_true, and_false, if_false, ih hlt, ite_self]

section Exact
variable {z : ℕ} {key : K}

/-- The elements with keys equal to one key are in one slot. -/
theorem Swept.slot_unique (hw : Swept c m z) {i j : ℕ} (hi : i < c.bucketCount)
    (hj : j < c.bucketCount) (hik : m.keyEqualAt i key = true) (hjk : m.keyEqualAt j key = true) :
    i = j := by
  obtain ⟨a, ha, hak⟩ := keyEqualAt_iff.mp hik
  obtain ⟨b, hb, hbk⟩ := keyEqualAt_iff.mp hjk
  by_contra hne
  obtain ⟨-, -, hapart⟩ := hw.lawful.split hw.distinct hi ha
  have hmem : b ∈ others c m i := mem_contents.mpr ⟨j, hj, by simpa [Ne.symm hne] using hb⟩
  have hfalse := hapart b hmem
  rw [hw.lawful.equiv.trans hak (hw.lawful.equiv.symm hbk)] at hfalse
  cases hfalse

/-- A search that an emptied slot cuts finds nothing. -/
theorem Swept.find_cut (hw : Swept c m z) (hcut : Cut c m z key) : findExistingIndex c m key = none := by
  obtain ⟨d, hd, hkey, j, hj, hz⟩ := hcut
  have hlt := bucket_lt c.bucketCount_pos (bucketIndex c m key)
  unfold findExistingIndex
  split
  · rfl
  · refine findLoop_cut (Nat.zero_le j) (hw.emptied _ hz (hlt j)) ?_
    intro k hk
    rw [← Bool.not_eq_true]
    intro hkk
    have hkd := bucket_inj (by omega) hd (hw.slot_unique (hlt k) (hlt d) hkk hkey)
    omega

/-- A search that no emptied slot cuts reaches the element. -/
theorem Swept.find_stored (hw : Swept c m z) (hcut : ¬Cut c m z key) {e : K × V}
    (he : e ∈ elements c m) (hek : m.keyEqual e.1 key = true) :
    ∃ i, findExistingIndex c m key = some i ∧ m.storage i = some e := by
  obtain ⟨i, hlt, hsome⟩ := mem_contents.mp he
  obtain ⟨d, hd, rfl, hbefore⟩ := hw.reached i hlt e hsome
  rw [hw.lawful.home hek] at hsome hbefore hlt
  have hkey := keyEqualAt_iff.mpr ⟨e, hsome, hek⟩
  have hocc := (hw.stored _ hlt).mp (by simp [hsome])
  have hcap : ¬c.capacity.toNat = 0 := by
    intro hzero
    have hsize := hw.size
    have hbound := hw.bounded
    have hpos := List.length_pos_of_mem he
    omega
  have hopen : ∀ j < d, m.state (bucket c.bucketCount (bucketIndex c m key) j) ≠ .empty := by
    intro j hj
    rcases hbefore j hj with hne | hz
    · exact hne
    · exact absurd ⟨d, hd, hkey, j, hj, hz⟩ hcut
  have hsearch : findExistingIndex c m key ≠ none := by
    rw [findExistingIndex, if_neg hcap]
    exact findLoop_hit (Nat.zero_le d) (by omega) hopen hocc hkey
  obtain ⟨i, hi⟩ := Option.ne_none_iff_exists'.mp hsearch
  obtain ⟨hlt', e', he', hek'⟩ := find_some hi
  have hsame := hw.slot_unique hlt' hlt (keyEqualAt_iff.mpr ⟨e', he', hek'⟩) hkey
  rw [← hsame] at hsome
  exact ⟨i, hi, hsome⟩

/-- A lookup is exact if and only if no emptied slot cuts the probe run of its key. -/
theorem Swept.exact_iff (hw : Swept c m z) (key : K) : Exact c m key ↔ ¬Cut c m z key := by
  constructor
  · rintro hexact hcut
    have hnone := hw.find_cut hcut
    obtain ⟨d, hd, hkey, -⟩ := hcut
    obtain ⟨e, he, hek⟩ := keyEqualAt_iff.mp hkey
    have hlt := bucket_lt c.bucketCount_pos (bucketIndex c m key) d
    have hfound := hexact.contains.mpr ⟨e, mem_contents.mpr ⟨_, hlt, he⟩, hek⟩
    simp [StaticUnorderedMap.contains, StaticUnorderedMap.find, hnone] at hfound
  · intro hcut
    -- the search ends at the element with this key, or there is none
    cases hfind : findExistingIndex c m key with
    | none =>
      have hnone : ∀ e ∈ elements c m, ¬m.keyEqual e.1 key = true := by
        intro e he hek
        obtain ⟨i, hi, -⟩ := hw.find_stored hcut he hek
        rw [hfind] at hi
        cases hi
      have hstored : ¬Stored c m key := by
        rintro ⟨e, he, hek⟩
        exact hnone e he hek
      refine ⟨?_, ?_, ?_⟩
      · simp [StaticUnorderedMap.contains, StaticUnorderedMap.find, hfind, hstored]
      · intro v
        simp only [StaticUnorderedMap.find, hfind, Option.bind_none, reduceCtorEq, false_iff]
        rintro ⟨e, he, hek, -⟩
        exact hnone e he hek
      · simp [eraseKey, hfind, hstored]
    | some i =>
      obtain ⟨hi, e, he, hek⟩ := find_some hfind
      have hmem : e ∈ elements c m := mem_contents.mpr ⟨i, hi, he⟩
      have hstored : Stored c m key := ⟨e, hmem, hek⟩
      refine ⟨?_, ?_, ?_⟩
      · simp [StaticUnorderedMap.contains, StaticUnorderedMap.find, hfind, he, hstored]
      · intro v
        simp only [StaticUnorderedMap.find, hfind, he, Option.bind_some, Option.map_some,
          Option.some.injEq]
        constructor
        · rintro rfl
          exact ⟨e, hmem, hek, rfl⟩
        · rintro ⟨e', he', hek', rfl⟩
          obtain ⟨i', hi', hsome⟩ := hw.find_stored hcut he' hek'
          rw [hfind] at hi'
          cases hi'
          rw [he] at hsome
          cases hsome
          rfl
      · simp [eraseKey, hfind, hstored]

end Exact

/-! ### What holds at every control transfer -/

/-- How many steps a removal can still take that are not failed searches of its destructors. -/
def effort (c : Cfg K V w) (t : World ι K V w) : ℕ :=
  match t.removal with
  | none => 0
  | some r => 2 * (t.maps r.target).size + r.stack.length +
      (c.bucketCount - (walkAt r.stack).getD c.bucketCount)

/-- What a caller may rely on while `r` is in progress. -/
structure Contract (c : Cfg K V w) (t : World ι K V w) (r : Removal ι K V) : Prop where
  /-- Every element is still in the table, or its destructor has begun once. -/
  once : (elements c (t.maps r.target) ++ r.begun).Perm r.before
  /-- A re-entrant lookup or erase is exact where no slot emptied by `clear` cuts its search. -/
  exact : ∀ key, Exact c (t.maps r.target) key ↔
    ¬Cut c (t.maps r.target) ((walkAt r.stack).getD 0) key
  /-- A re-entrant erase that returns true takes out one element, with that key, and begins its
      destructor; one that returns false does nothing. -/
  nested : ∀ e rest, r.stack = .dtor e :: rest → ∀ key, ∃ t',
    removalStep c t (.nested key) = some t' ∧
    t'.maps = update t.maps r.target (eraseKey c (t.maps r.target) key).1 ∧
    (((eraseKey c (t.maps r.target) key).2 = false ∧ t' = t) ∨
      ((eraseKey c (t.maps r.target) key).2 = true ∧ effort c t' < effort c t ∧
        ∃ x, (t.maps r.target).keyEqual x.1 key = true ∧
          (elements c (t.maps r.target)).Perm (x :: elements c (t'.maps r.target)) ∧
          t'.removal = some { r with stack := .dtor x :: r.stack, begun := x :: r.begun }))
  /-- The removal returns, after finitely many steps. -/
  returns : ∃ t', removalStep c t .resume = some t' ∧ effort c t' < effort c t
  /-- When `clear` returns, every element has been destroyed and the table is as a new one. -/
  cleared : r.stack = [.walk c.bucketCount] → r.begun.Perm r.before ∧
    ∃ t', removalStep c t .resume = some t' ∧ t'.removal = none ∧
      Blank c (t'.maps r.target) ∧
      (t'.maps r.target).hasher = (t.maps r.target).hasher ∧
      (t'.maps r.target).keyEqual = (t.maps r.target).keyEqual ∧
      Represents c (t'.maps r.target) (FiniteMap.empty (t.maps r.target).keyEqual)

omit [DecidableEq ι] in
theorem effort_some (hjob : t.removal = some r) : effort c t = 2 * (t.maps r.target).size +
    r.stack.length + (c.bucketCount - (walkAt r.stack).getD c.bucketCount) := by
  rw [effort, hjob]

/-- An element leaves the table, which pays for two steps, and one frame is pushed. -/
theorem effort_destroy {z : ℕ} (hw : Swept c (t.maps r.target) z) (hi : i < c.bucketCount)
    (he : (t.maps r.target).storage i = some e) : ∃ t', beginDestroy t r i s = some t' ∧
      effort c t' + 1 = 2 * (t.maps r.target).size + r.stack.length +
        (c.bucketCount - (walkAt r.stack).getD c.bucketCount) := by
  refine ⟨_, by rw [beginDestroy, he]; rfl, ?_⟩
  have hmem : e ∈ elements c (t.maps r.target) := mem_contents.mpr ⟨i, hi, he⟩
  have hpos := List.length_pos_of_mem hmem
  rw [← hw.size] at hpos
  have hsize : (destroyAt (t.maps r.target) i s).size = (t.maps r.target).size - 1 := rfl
  simp only [effort, update_self, walkAt, hsize, List.length_cons]
  omega

omit [DecidableEq ι] in
/-- A return takes one frame off the stack. -/
theorem effort_back (hjob : t.removal = some r) (hstack : r.stack = .dtor e :: rest) :
    effort c { t with removal := r.back rest } < effort c t := by
  rw [effort_some hjob, hstack]
  cases rest with
  | nil =>
    simp only [effort, Removal.back, List.isEmpty_nil, if_true, List.length_cons]
    omega
  | cons frame rest =>
    simp only [effort, Removal.back, List.isEmpty_cons, Bool.false_eq_true, if_false, walkAt,
      List.length_cons]
    omega

/-- STEP: a removal in progress goes on, and comes nearer to its end. -/
theorem resume_effort (hinv : WorldInv c t) (hjob : t.removal = some r) :
    ∃ t', removalStep c t .resume = some t' ∧ effort c t' < effort c t := by
  have hr := hinv
  unfold WorldInv at hr
  rw [hjob] at hr
  obtain ⟨hne, hr⟩ := hr
  simp only [removalStep, hjob]
  cases hstack : r.stack with
  | nil => exact absurd hstack hne
  | cons frame rest =>
    have houter := hr.outermost
    rw [hstack] at houter
    cases frame with
    | dtor e => exact ⟨_, rfl, effort_back hjob hstack⟩
    | walk i =>
      obtain ⟨rfl, hle⟩ := houter
      have heffort := effort_some (c := c) hjob
      simp only [hstack, walkAt, Option.getD_some, List.length_cons, List.length_nil] at heffort
      simp only [walkStep]
      split
      · rename_i hi
        split
        · rename_i hocc
          obtain ⟨e, he⟩ := Option.isSome_iff_exists.mp ((hr.swept.stored i hi).mpr hocc)
          obtain ⟨t', hbegin, hafter⟩ := effort_destroy (r := { r with stack := [.walk (i + 1)] })
            (s := .empty) hr.swept hi he
          simp only [walkAt, Option.getD_some, List.length_cons, List.length_nil] at hafter
          exact ⟨t', hbegin, by omega⟩
        · refine ⟨_, rfl, ?_⟩
          have hsize : ((t.maps r.target).setState i .empty).size = (t.maps r.target).size := rfl
          rw [heffort]
          simp only [effort, update_self, hsize, walkAt, Option.getD_some,
            List.length_cons, List.length_nil]
          omega
      · refine ⟨_, rfl, ?_⟩
        rw [heffort]
        simp only [effort, Removal.back, List.isEmpty_nil, if_true]
        omega

/-- What the invariant says while a removal runs. -/
theorem contract_of_inv (hinv : WorldInv c t) (hjob : t.removal = some r) : Contract c t r := by
  have hr := hinv
  unfold WorldInv at hr
  rw [hjob] at hr
  have hswept := hr.2.swept
  have haccount := hr.2.account
  refine ⟨haccount, hswept.exact_iff, ?nested, resume_effort hinv hjob, ?cleared⟩
  case nested =>
    intro e rest hstack key
    simp only [removalStep, hjob, hstack, beginErase, eraseKey]
    cases hfind : findExistingIndex c (t.maps r.target) key with
    | none => exact ⟨t, rfl, by simp, Or.inl ⟨rfl, rfl⟩⟩
    | some i =>
      obtain ⟨hi, x, hx, hxk⟩ := find_some hfind
      obtain ⟨t', hbegin, hafter⟩ := effort_destroy (s := .tombstone) hswept hi hx
      rw [← effort_some hjob] at hafter
      obtain ⟨-, hperm⟩ := hswept.destroyed hi hx (s := .tombstone) (Or.inl ⟨rfl, rfl⟩)
      have heq := hbegin
      simp only [beginDestroy, hx, Option.map_some, Option.some.injEq] at heq
      subst heq
      exact ⟨_, hbegin, rfl, Or.inr ⟨rfl, by omega, x, hxk, by simpa using hperm, by rw [hstack]⟩⟩
  case cleared =>
    intro hstack
    rw [hstack] at hswept
    have hblank : Blank c { t.maps r.target with tombstones := 0 } := hswept.blank
    have hnil : elements c (t.maps r.target) = [] := hblank.nil
    rw [hnil, List.nil_append] at haccount
    refine ⟨haccount, _, by simp only [removalStep, hjob, hstack, walkStep, lt_irrefl, if_false]; rfl,
      rfl, ?_⟩
    simp only [update_self]
    refine ⟨hblank, trivial, trivial, hblank.inv hswept.lawful, rfl, ?_⟩
    rw [hblank.nil]
    exact List.Perm.refl _

/-- CORRECT: in every run, whatever the destructors call, every element is destroyed once and
    `clear` leaves a new table; a re-entrant lookup is exact unless `clear` has emptied a slot that
    the probe run of its key passes. -/
theorem removal_exact (c : Cfg K V w) (hasher : ι → K → BitVec w) (keyEqual : ι → K → K → Bool)
    (hlawful : ∀ i, Lawful c (hasher i) (keyEqual i)) (acts : List (Act ι K V))
    (t : World ι K V w)
    (hrun : run (removalStep c) ⟨fun i => emptyWith (hasher i) (keyEqual i), none⟩ acts = some t) :
    (t.removal = none → ∀ i key, Exact c (t.maps i) key) ∧
      ∀ r, t.removal = some r → Contract c t r := by
  have hinv : WorldInv c t := by
    refine run_inv (I := WorldInv c) (fun _ _ _ => removalStep_inv) acts _ t ?_ hrun
    exact fun i => (represents_emptyWith (hlawful i)).inv
  refine ⟨?_, ?_⟩
  · intro hidle i key
    unfold WorldInv at hinv
    rw [hidle] at hinv
    refine ((inv_iff_swept.mp (hinv i)).1.exact_iff key).mpr ?_
    rintro ⟨d, -, -, j, -, hz⟩
    omega
  · exact fun r hjob => contract_of_inv hinv hjob

/-- A map whose keys all collide, with one removal begun on it. -/
def removalActs (begin : Act Unit ℕ ℕ) (rest : List (Act Unit ℕ ℕ)) : List (Act Unit ℕ ℕ) :=
  [.call (.tryEmplace () 1 (.value 10)), .call (.tryEmplace () 2 (.value 20)), begin] ++ rest

def removalRun (begin : Act Unit ℕ ℕ) (rest : List (Act Unit ℕ ℕ)) : Option (World Unit ℕ ℕ 64) :=
  run (removalStep sampleCfg) ⟨fun _ => emptyWith (fun _ => 7#64) fun a b => a == b, none⟩
    (removalActs begin rest)

/-- The destructor of the element with key 1 erases the one with key 2. -/
theorem removal_exact_nested_erase : ∃ t r,
    removalRun (.eraseKey () 1) [.nested 2] = some t ∧ t.removal = some r ∧
      r.begun = [(2, 20), (1, 10)] ∧ Contract sampleCfg t r := by
  have hbegun : ((removalRun (.eraseKey () 1) [.nested 2]).bind World.removal).map Removal.begun =
      some [(2, 20), (1, 10)] := by
    decide +kernel
  obtain ⟨r, hr, hbegun⟩ := Option.map_eq_some_iff.mp hbegun
  obtain ⟨t, hrun, hjob⟩ := Option.bind_eq_some_iff.mp hr
  have hcontract := (removal_exact sampleCfg (fun _ : Unit => fun _ => 7#64)
    (fun _ => fun a b => a == b) (fun _ => sampleCfg_lawful) _ t hrun).2 r hjob
  exact ⟨t, r, hrun, hjob, hbegun, hcontract⟩

/-- `clear` is in the destructor of the element with key 1, whose slot it has emptied. The element
    with key 2 is still there, in the next slot, but no search finds it. -/
theorem clear_hides_stored_key :
    (removalRun (.clear ()) (List.replicate 5 .resume)).map (fun t =>
        (t.removal.map Removal.begun, elements sampleCfg (t.maps ()),
          contains sampleCfg (t.maps ()) 2, find sampleCfg (t.maps ()) 2,
          (eraseKey sampleCfg (t.maps ()) 2).2)) =
      some (some [(1, 10)], [(2, 20)], false, none, false) := by
  decide +kernel

end Metl.StaticUnorderedMap
