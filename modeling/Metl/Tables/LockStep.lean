import Metl.Tables.StaticUnorderedSet

/-! `static_unordered_set` and `static_unordered_map` run in lock-step.

        map      empty   (k, v)   tombstone   (k', v')        size 2, 1 tombstone
                   │       │          │           │
        set      empty     k      tombstone       k'          size 2, 1 tombstone

    The set that stands beside a map has the map's keys and forgets its values. Every operation of the
    map, followed by forgetting, is the operation of the set: the probe loops read states and keys only,
    and the rebuild carries the values along without looking at them. -/

namespace Metl.StaticUnorderedSet

open Metl.Tables Function
open Metl.StaticUnorderedMap (SlotState scanBits Map Arg)

/-! ### Two partial computations, one the image of the other -/

section Images
variable {α β γ δ : Type} {f : β → α} {g : δ → γ}

theorem ite_image {p q : Prop} [Decidable p] [Decidable q] {x x' : Option α} {y y' : Option β}
    (hpq : p ↔ q) (h : x = y.map f) (h' : x' = y'.map f) :
    (if p then x else x') = (if q then y else y').map f := by
  by_cases hq : q
  · rw [if_pos hq, if_pos (hpq.mpr hq), h]
  · rw [if_neg hq, if_neg (fun hp => hq (hpq.mp hp)), h']

theorem bind_image {x : Option α} {y : Option β} {k : α → Option γ} {l : β → Option δ}
    (h : x = y.map f) (hk : ∀ b, k (f b) = (l b).map g) : x.bind k = (y.bind l).map g := by
  subst h
  cases y with
  | none => rfl
  | some b => exact hk b

theorem map_image {x : Option α} {y : Option β} {k : α → γ} {l : β → δ} (h : x = y.map f)
    (hk : ∀ b, k (f b) = g (l b)) : x.map k = (y.map l).map g := by
  subst h
  cases y with
  | none => rfl
  | some b => exact congrArg some (hk b)

theorem eq_image {x y : Option α} (h : x = y) : x = y.map id := by rw [h, Option.map_id_fun, id]

end Images

variable {K V : Type} {w : ℕ} (c : Cfg K w) (init : V)

/-- A map with the template arguments of the set, and moves that throw exactly if the set's do. -/
def Cfg.withMapped (c : Cfg K w) (init : V) : StaticUnorderedMap.Cfg K V w where
  capacity := c.capacity
  constants := c.constants
  wide := c.wide
  rebuildCannotThrow := c.rebuildCannotThrow
  mappedInit := init
  buckets_pos := c.buckets_pos

/-- The set beside a map: the same slots and counts, and the keys without their values. -/
def keysOf (m : Map K V w) : KeySet K w where
  storage := fun i => (m.storage i).map Prod.fst
  occupied := m.occupied
  tombstone := m.tombstone
  size := m.size
  tombstones := m.tombstones
  hasher := m.hasher
  keyEqual := m.keyEqual

variable {m other : Map K V w} {key : K} {i index : ℕ} {e : K × V} {next : SlotState}

/-! ### Slots -/

theorem keys_update (storage : ℕ → Option (K × V)) (o : Option (K × V)) :
    (fun i => (update storage index o i).map Prod.fst) =
      update (fun i => (storage i).map Prod.fst) index (o.map Prod.fst) := by
  funext i
  rcases eq_or_ne i index with rfl | hi
  · simp
  · simp [hi]

theorem keysOf_construct : keysOf (m.construct index e) = (keysOf m).construct index e.1 := by
  simp only [keysOf, Map.construct, KeySet.construct, keys_update, Option.map_some]

theorem keysOf_destroy : keysOf (m.destroy index) = (keysOf m).destroy index := by
  simp only [keysOf, Map.destroy, KeySet.destroy, keys_update, Option.map_none]

theorem keysOf_setState : keysOf (m.setState index next) = (keysOf m).setState index next := rfl

theorem keysOf_state : (keysOf m).state index = m.state index := rfl

theorem keysOf_keyEqualAt : (keysOf m).keyEqualAt index key = m.keyEqualAt index key := by
  cases h : m.storage index <;> simp [KeySet.keyEqualAt, Map.keyEqualAt, keysOf, h]

theorem keysOf_destroyAt :
    keysOf (StaticUnorderedMap.destroyAt m index next) = destroyAt (keysOf m) index next := by
  simp only [StaticUnorderedMap.destroyAt, destroyAt, keysOf, Map.destroy, KeySet.destroy,
    Map.setState, KeySet.setState, keys_update, Option.map_none]

/-! ### Lookup -/

theorem findLoop_keysOf (start left probe : ℕ) : findLoop c (keysOf m) key start left probe =
      StaticUnorderedMap.findLoop (c.withMapped init) m key start left probe := by
  induction left generalizing probe with
  | zero => rfl
  | succ left ih =>
    rw [findLoop, StaticUnorderedMap.findLoop]
    simp only [keysOf_state, keysOf_keyEqualAt, ih]
    rfl

theorem findExistingIndex_keysOf : findExistingIndex c (keysOf m) key =
      StaticUnorderedMap.findExistingIndex (c.withMapped init) m key := by
  unfold findExistingIndex StaticUnorderedMap.findExistingIndex
  rw [findLoop_keysOf c init]
  rfl

theorem locateLoop_keysOf (start left probe : ℕ) (first : Option ℕ) :
    locateLoop c (keysOf m) key start left probe first =
      StaticUnorderedMap.locateLoop (c.withMapped init) m key start left probe first := by
  induction left generalizing probe first with
  | zero => rfl
  | succ left ih =>
    rw [locateLoop, StaticUnorderedMap.locateLoop]
    simp only [keysOf_state, keysOf_keyEqualAt, ih]
    rfl

theorem locateInsertIndex_keysOf : locateInsertIndex c (keysOf m) key =
      StaticUnorderedMap.locateInsertIndex (c.withMapped init) m key := by
  unfold locateInsertIndex StaticUnorderedMap.locateInsertIndex
  rw [locateLoop_keysOf c init]
  rfl

/-! ### The rebuild -/

theorem skipOccupied_keysOf (fuel target : ℕ) : skipOccupied c (keysOf m) fuel target =
      StaticUnorderedMap.skipOccupied (c.withMapped init) m fuel target := by
  induction fuel generalizing target with
  | zero => rfl
  | succ fuel ih =>
    rw [skipOccupied, StaticUnorderedMap.skipOccupied]
    simp only [keysOf_state, ih]
    rfl

theorem settleLoop_keysOf (fuel : ℕ) : settleLoop c fuel (keysOf m) e.1 =
      (StaticUnorderedMap.settleLoop (c.withMapped init) fuel m e).map keysOf := by
  induction fuel generalizing m e with
  | zero => rfl
  | succ fuel ih =>
    rw [settleLoop, StaticUnorderedMap.settleLoop]
    refine bind_image (eq_image (skipOccupied_keysOf c init _ _)) fun target => ite_image Iff.rfl ?_ ?_
    · simp only [id, Option.map_some, keysOf, Map.construct, KeySet.construct, keys_update]
    · -- the displaced element goes on to the next round
      refine bind_image rfl fun displaced => ?_
      rw [← ih]
      simp only [id, keysOf, Map.construct, KeySet.construct, keys_update, Option.map_some]

theorem placeLoop_keysOf (m : Map K V w) (left i : ℕ) : placeLoop c left i (keysOf m) =
      (StaticUnorderedMap.placeLoop (c.withMapped init) left i m).map keysOf := by
  induction left generalizing i m with
  | zero => rfl
  | succ left ih =>
    rw [placeLoop, StaticUnorderedMap.placeLoop]
    refine ite_image Iff.rfl (bind_image rfl fun carry => ?_) (ih m (i + 1))
    refine bind_image ?_ fun m' => ih m' (i + 1)
    rw [← settleLoop_keysOf c init]
    simp only [keysOf, Map.destroy, KeySet.destroy, keys_update, Option.map_none]
    rfl

theorem rehashInPlace_keysOf : rehashInPlace c (keysOf m) =
      (StaticUnorderedMap.rehashInPlace (c.withMapped init) m).map keysOf :=
  ite_image Iff.rfl rfl (placeLoop_keysOf c init (StaticUnorderedMap.markUnplaced m) _ _)

/-! ### One element -/

/-- What a call leaves and returns, with the values forgotten. -/
def forget {α : Type} (r : Map K V w × α) : KeySet K w × α := (keysOf r.1, r.2)

theorem placeAt_keysOf (v : V) : placeAt c (keysOf m) index key =
      (StaticUnorderedMap.placeAt (c.withMapped init) m index key (.value v)).map keysOf := by
  refine ite_image Iff.rfl ?_ rfl
  simp only [Map.read, Option.map_some, keysOf, Map.construct, KeySet.construct, Map.setState,
    KeySet.setState, keys_update]
  rfl

theorem constructAt_keysOf (v : V) : constructAt c (keysOf m) index key =
      (StaticUnorderedMap.constructAt (c.withMapped init) m index key (.value v)).map forget := by
  refine ite_image Iff.rfl ?_ (map_image (placeAt_keysOf c init v) fun m' => rfl)
  -- the value is read before the rebuild, and only the map has one
  change _ = Option.map forget (Option.bind (some v) _)
  rw [Option.bind_some]
  refine bind_image (rehashInPlace_keysOf c init) fun m' => ?_
  refine bind_image (eq_image (locateInsertIndex_keysOf c init)) fun index => ?_
  refine ite_image Iff.rfl ?_ rfl
  simp only [id, Option.map_some, forget, keysOf, Map.construct, KeySet.construct, Map.setState,
    KeySet.setState, keys_update]

theorem tryEmplace_keysOf (v : V) : tryEmplace c (keysOf m) key =
      (StaticUnorderedMap.tryEmplace (c.withMapped init) m key (.value v)).map forget := by
  unfold tryEmplace StaticUnorderedMap.tryEmplace
  rw [locateInsertIndex_keysOf c init]
  cases StaticUnorderedMap.locateInsertIndex (c.withMapped init) m key with
  | none => rfl
  | some index =>
    refine ite_image Iff.rfl rfl (ite_image Iff.rfl rfl ?_)
    exact map_image (constructAt_keysOf c init v) fun r => rfl

theorem emplaceSlot_keysOf (v : V) : emplaceSlot c (keysOf m) key =
      (StaticUnorderedMap.emplaceSlot (c.withMapped init) m key (.value v)).map forget := by
  unfold emplaceSlot StaticUnorderedMap.emplaceSlot
  rw [findExistingIndex_keysOf c init]
  cases StaticUnorderedMap.findExistingIndex (c.withMapped init) m key with
  | some existing => rfl
  | none =>
    refine ite_image Iff.rfl ?_ rfl
    refine bind_image (eq_image (locateInsertIndex_keysOf c init)) fun index => ?_
    exact ite_image Iff.rfl rfl (constructAt_keysOf c init v)

theorem emplace_keysOf (v : V) : emplace c (keysOf m) key =
      (StaticUnorderedMap.emplace (c.withMapped init) m key (.value v)).map
        fun r => (keysOf r.1, r.2.1) := by
  refine bind_image (emplaceSlot_keysOf c init v) fun r => ?_
  exact map_image (f := Prod.fst) rfl fun e => rfl

theorem eraseKey_keysOf :
    eraseKey c (keysOf m) key = forget (StaticUnorderedMap.eraseKey (c.withMapped init) m key) := by
  unfold eraseKey StaticUnorderedMap.eraseKey
  rw [findExistingIndex_keysOf c init]
  cases StaticUnorderedMap.findExistingIndex (c.withMapped init) m key with
  | none => rfl
  | some index =>
    change (destroyAt (keysOf m) index .tombstone, true) = _
    rw [← keysOf_destroyAt]
    rfl

/-! ### Iteration -/

theorem visitLoop_keysOf (fuel index : ℕ) : visitLoop c (keysOf m) fuel index =
      StaticUnorderedMap.visitLoop (c.withMapped init) m fuel index := by
  induction fuel generalizing index with
  | zero => rfl
  | succ fuel ih =>
    rw [visitLoop, StaticUnorderedMap.visitLoop, ih]
    rfl

/-- The keys come in the order of the map's elements. -/
theorem items_keysOf :
    items c (keysOf m) = (StaticUnorderedMap.items (c.withMapped init) m).map Prod.fst := by
  unfold items StaticUnorderedMap.items
  rw [visitLoop_keysOf c init, List.map_filterMap]
  rfl

theorem eraseAt_keysOf : eraseAt c (keysOf m) index =
      (StaticUnorderedMap.eraseAt (c.withMapped init) m index).map forget := by
  refine ite_image Iff.rfl ?_ rfl
  change some (destroyAt (keysOf m) index .tombstone,
    skipToOccupied c (destroyAt (keysOf m) index .tombstone) (index + 1)) = _
  rw [← keysOf_destroyAt]
  rfl

theorem eraseIfLoop_keysOf (pred : K → Bool) (fuel index erased : ℕ) :
    eraseIfLoop c pred fuel (keysOf m) index erased =
      (StaticUnorderedMap.eraseIfLoop (c.withMapped init) (fun e => pred e.1) fuel m index erased).map
        forget := by
  induction fuel generalizing m index erased with
  | zero => exact ite_image Iff.rfl rfl rfl
  | succ fuel ih =>
    rw [eraseIfLoop, StaticUnorderedMap.eraseIfLoop]
    refine ite_image Iff.rfl rfl (bind_image rfl fun e => ite_image Iff.rfl ?_ (ih _ _))
    exact bind_image (eraseAt_keysOf c init) fun r => ih r.2 _

theorem eraseIf_keysOf (pred : K → Bool) : eraseIf c (keysOf m) pred =
      (StaticUnorderedMap.eraseIf (c.withMapped init) m fun e => pred e.1).map forget :=
  eraseIfLoop_keysOf c init pred _ _ _

/-! ### Whole tables -/

theorem clearLoop_keysOf (left i : ℕ) :
    clearLoop left i (keysOf m) = keysOf (StaticUnorderedMap.clearLoop left i m) := by
  induction left generalizing i m with
  | zero => rfl
  | succ left ih =>
    rw [clearLoop, StaticUnorderedMap.clearLoop, ← ih]
    by_cases hocc : m.state i = .occupied
    · rw [if_pos hocc, if_pos (show (keysOf m).state i = .occupied from hocc), keysOf_destroyAt]
    · rw [if_neg hocc, if_neg (show (keysOf m).state i ≠ .occupied from hocc)]
      rfl

theorem clear_keysOf : clear c (keysOf m) = keysOf (StaticUnorderedMap.clear (c.withMapped init) m) := by
  unfold clear
  rw [clearLoop_keysOf]
  rfl

/-- Two tables with the values forgotten. -/
def forgetBoth (r : Map K V w × Map K V w) : KeySet K w × KeySet K w := (keysOf r.1, keysOf r.2)

theorem swapSlot_keysOf :
    swapSlot i (keysOf m) (keysOf other) = (StaticUnorderedMap.swapSlot i m other).map forgetBoth := by
  refine ite_image Iff.rfl (bind_image rfl fun e => map_image (f := Prod.fst) rfl fun e' => ?_)
    (ite_image Iff.rfl (map_image (f := Prod.fst) rfl fun e => ?_)
      (ite_image Iff.rfl (map_image (f := Prod.fst) rfl fun e => ?_) rfl))
  · simp only [forgetBoth, keysOf_construct]
  · simp only [forgetBoth, keysOf_destroy, keysOf_setState, keysOf_construct, keysOf_state]
  · simp only [forgetBoth, keysOf_destroy, keysOf_setState, keysOf_construct, keysOf_state]

theorem swapLoop_keysOf (m other : Map K V w) (left i : ℕ) : swapLoop left i (keysOf m) (keysOf other) =
      (StaticUnorderedMap.swapLoop left i m other).map forgetBoth := by
  induction left generalizing i m other with
  | zero => rfl
  | succ left ih =>
    exact bind_image swapSlot_keysOf fun r => ih r.1 r.2 (i + 1)

theorem swapContents_keysOf : swapContents c (keysOf m) (keysOf other) =
      (StaticUnorderedMap.swapContents (c.withMapped init) m other).map forgetBoth :=
  map_image (f := forgetBoth) (swapLoop_keysOf
    { m with hasher := other.hasher, keyEqual := other.keyEqual }
    { other with hasher := m.hasher, keyEqual := m.keyEqual } _ _) fun _ => rfl

theorem emplaceAll_keysOf (m : Map K V w) (es : List (K × V)) :
    emplaceAll c (keysOf m) (es.map Prod.fst) =
      (StaticUnorderedMap.emplaceAll (c.withMapped init) m es).map keysOf := by
  induction es generalizing m with
  | nil => rfl
  | cons e es ih => exact bind_image (emplaceSlot_keysOf c init e.2) fun r => ih r.1

theorem copyConstruct_keysOf : copyConstruct c (keysOf other) =
      (StaticUnorderedMap.copyConstruct (c.withMapped init) other).map keysOf := by
  unfold copyConstruct
  rw [items_keysOf c init]
  exact emplaceAll_keysOf c init (StaticUnorderedMap.emptyWith other.hasher other.keyEqual) _

theorem copyAssign_keysOf : copyAssign c (keysOf m) (keysOf other) =
      (StaticUnorderedMap.copyAssign (c.withMapped init) m other).map keysOf := by
  unfold copyAssign
  rw [items_keysOf c init, clear_keysOf c init]
  exact emplaceAll_keysOf c init { StaticUnorderedMap.clear (c.withMapped init) m with
    hasher := other.hasher, keyEqual := other.keyEqual } _

theorem moveConstruct_keysOf : moveConstruct c (keysOf other) =
      (StaticUnorderedMap.moveConstruct (c.withMapped init) other).map forgetBoth :=
  map_image (copyConstruct_keysOf c init) fun _ => by rw [clear_keysOf c init]; rfl

theorem moveAssign_keysOf : moveAssign c (keysOf m) (keysOf other) =
      (StaticUnorderedMap.moveAssign (c.withMapped init) m other).map forgetBoth :=
  map_image (copyAssign_keysOf c init) fun _ => by rw [clear_keysOf c init]; rfl

/-! ### Calls in parallel -/

/-- A call on the tables named by `ι`, on sets and on maps alike; the value is for the map. -/
inductive Op (ι K V : Type) where
  | tryEmplace (i : ι) (key : K) (value : V)
  | emplace (i : ι) (key : K) (value : V)
  | eraseKey (i : ι) (key : K)
  | eraseAt (i : ι) (slot : ℕ)
  | eraseIf (i : ι) (pred : K → Bool)
  | clear (i : ι)
  | swap (i j : ι)
  | copyConstruct (i j : ι)
  | copyAssign (i j : ι)
  | moveConstruct (i j : ι)
  | moveAssign (i j : ι)

/-- What a call returns: a reference is reported as the key it designates, an iterator as its slot. -/
inductive Out (K : Type) where
  | done
  | flag (b : Bool)
  | key (k : K)
  | slot (n : ℕ)
  | count (n : ℕ)
  deriving DecidableEq

variable {ι : Type} [DecidableEq ι]

/-- Put back the two tables a call changed. -/
def putBoth {σ : Type} (s : ι → σ) (i j : ι) (r : σ × σ) : ι → σ :=
  update (update s j r.2) i r.1

def stepSets (c : Cfg K w) (s : ι → KeySet K w) : Op ι K V → Option ((ι → KeySet K w) × Out K)
  | .tryEmplace i key _ =>
    (tryEmplace c (s i) key).map fun r => (update s i r.1, .flag r.2)
  | .emplace i key _ => (emplace c (s i) key).map fun r => (update s i r.1, .key r.2)
  | .eraseKey i key =>
    let r := eraseKey c (s i) key
    some (update s i r.1, .flag r.2)
  | .eraseAt i slot => (eraseAt c (s i) slot).map fun r => (update s i r.1, .slot r.2)
  | .eraseIf i pred => (eraseIf c (s i) pred).map fun r => (update s i r.1, .count r.2)
  | .clear i => some (update s i (clear c (s i)), .done)
  | .swap i j =>
    if i = j then some (s, .done)
    else (swapContents c (s i) (s j)).map fun r => (putBoth s i j r, .done)
  | .copyConstruct i j =>
    if i = j then none
    else (copyConstruct c (s j)).map fun t => (update s i t, .done)
  | .copyAssign i j =>
    if i = j then some (s, .done)
    else (copyAssign c (s i) (s j)).map fun t => (update s i t, .done)
  | .moveConstruct i j =>
    if i = j then none
    else (moveConstruct c (s j)).map fun r => (putBoth s i j r, .done)
  | .moveAssign i j =>
    if i = j then some (s, .done)
    else (moveAssign c (s i) (s j)).map fun r => (putBoth s i j r, .done)

def stepMaps (c : StaticUnorderedMap.Cfg K V w) (s : ι → Map K V w) :
    Op ι K V → Option ((ι → Map K V w) × Out K)
  | .tryEmplace i key value =>
    (StaticUnorderedMap.tryEmplace c (s i) key (.value value)).map fun r =>
      (update s i r.1, .flag r.2)
  | .emplace i key value =>
    (StaticUnorderedMap.emplace c (s i) key (.value value)).map fun r =>
      (update s i r.1, .key r.2.1)
  | .eraseKey i key =>
    let r := StaticUnorderedMap.eraseKey c (s i) key
    some (update s i r.1, .flag r.2)
  | .eraseAt i slot =>
    (StaticUnorderedMap.eraseAt c (s i) slot).map fun r => (update s i r.1, .slot r.2)
  | .eraseIf i pred =>
    (StaticUnorderedMap.eraseIf c (s i) fun e => pred e.1).map fun r =>
      (update s i r.1, .count r.2)
  | .clear i => some (update s i (StaticUnorderedMap.clear c (s i)), .done)
  | .swap i j =>
    if i = j then some (s, .done)
    else (StaticUnorderedMap.swapContents c (s i) (s j)).map fun r => (putBoth s i j r, .done)
  | .copyConstruct i j =>
    if i = j then none
    else (StaticUnorderedMap.copyConstruct c (s j)).map fun t => (update s i t, .done)
  | .copyAssign i j =>
    if i = j then some (s, .done)
    else (StaticUnorderedMap.copyAssign c (s i) (s j)).map fun t => (update s i t, .done)
  | .moveConstruct i j =>
    if i = j then none
    else (StaticUnorderedMap.moveConstruct c (s j)).map fun r => (putBoth s i j r, .done)
  | .moveAssign i j =>
    if i = j then some (s, .done)
    else (StaticUnorderedMap.moveAssign c (s i) (s j)).map fun r => (putBoth s i j r, .done)

/-- Run the calls: the final tables, and what every call returned. -/
def runCalls {σ O X : Type} (step : σ → O → Option (σ × X)) : σ → List O → Option (σ × List X)
  | s, [] => some (s, [])
  | s, o :: os => (step s o).bind fun r => (runCalls step r.1 os).map fun q => (q.1, r.2 :: q.2)

/-- All tables with the values forgotten, and what was returned. -/
def forgetAll {X : Type} (r : (ι → Map K V w) × X) : (ι → KeySet K w) × X :=
  (fun i => keysOf (r.1 i), r.2)

section

variable (s : ι → Map K V w)
include s

theorem forgetAll_update {X : Type} (i : ι) (m : Map K V w) (x : X) : forgetAll (update s i m, x) =
      (update (fun i => keysOf (s i)) i (keysOf m), x) := by
  refine Prod.ext (funext fun j => ?_) rfl
  rcases eq_or_ne j i with rfl | hj
  · simp [forgetAll]
  · simp [forgetAll, hj]

theorem forgetAll_both {X : Type} (i j : ι) (r : Map K V w × Map K V w) (x : X) :
    forgetAll (putBoth s i j r, x) = (putBoth (fun i => keysOf (s i)) i j (forgetBoth r), x) := by
  have hother : (fun k => keysOf (update s j r.2 k)) = update (fun k => keysOf (s k)) j (keysOf r.2) :=
    congrArg Prod.fst (forgetAll_update s j r.2 x)
  rw [putBoth, forgetAll_update, hother]
  rfl

/-- STEP: a call on the sets is the call on the maps, with the values forgotten. -/
theorem stepSets_forgetAll (op : Op ι K V) :
    stepSets c (fun i => keysOf (s i)) op = (stepMaps (c.withMapped init) s op).map forgetAll := by
  cases op with
  | tryEmplace i key value =>
    exact map_image (tryEmplace_keysOf c init value) fun r => (forgetAll_update ..).symm
  | emplace i key value =>
    exact map_image (emplace_keysOf c init value) fun r => (forgetAll_update ..).symm
  | eraseKey i key =>
    rw [stepSets, eraseKey_keysOf c init]
    exact congrArg some (forgetAll_update ..).symm
  | eraseAt i slot => exact map_image (eraseAt_keysOf c init) fun r => (forgetAll_update ..).symm
  | eraseIf i pred => exact map_image (eraseIf_keysOf c init pred) fun r => (forgetAll_update ..).symm
  | clear i =>
    rw [stepSets, clear_keysOf c init]
    exact congrArg some (forgetAll_update ..).symm
  | swap i j =>
    refine ite_image Iff.rfl rfl (map_image (swapContents_keysOf c init) fun r => ?_)
    exact (forgetAll_both ..).symm
  | copyConstruct i j =>
    refine ite_image Iff.rfl rfl (map_image (copyConstruct_keysOf c init) fun r => ?_)
    exact (forgetAll_update ..).symm
  | copyAssign i j =>
    refine ite_image Iff.rfl rfl (map_image (copyAssign_keysOf c init) fun r => ?_)
    exact (forgetAll_update ..).symm
  | moveConstruct i j =>
    refine ite_image Iff.rfl rfl (map_image (moveConstruct_keysOf c init) fun r => ?_)
    exact (forgetAll_both ..).symm
  | moveAssign i j =>
    refine ite_image Iff.rfl rfl (map_image (moveAssign_keysOf c init) fun r => ?_)
    exact (forgetAll_both ..).symm

/-- RUN: and so is every run of calls. -/
theorem runCalls_forgetAll (ops : List (Op ι K V)) : runCalls (stepSets c) (fun i => keysOf (s i)) ops =
      (runCalls (stepMaps (c.withMapped init)) s ops).map forgetAll := by
  induction ops generalizing s with
  | nil => rfl
  | cons op ops ih =>
    refine bind_image (stepSets_forgetAll c init s op) fun r => ?_
    exact map_image (ih r.1) fun q => rfl

end

/-- The two tables look the same, apart from the values. -/
structure InStep (c : Cfg K w) (init : V) (s : KeySet K w) (m : Map K V w) : Prop where
  occupied : ∀ i, s.state i = .occupied ↔ m.state i = .occupied
  tombstone : ∀ i, s.state i = .tombstone ↔ m.state i = .tombstone
  keys : ∀ i, s.storage i = (m.storage i).map Prod.fst
  size : s.size = m.size
  tombstones : s.tombstones = m.tombstones
  found : ∀ key, findExistingIndex c s key =
    StaticUnorderedMap.findExistingIndex (c.withMapped init) m key
  contains : ∀ key, contains c s key = StaticUnorderedMap.contains (c.withMapped init) m key
  full : full c s = StaticUnorderedMap.full (c.withMapped init) m
  order : items c s = (StaticUnorderedMap.items (c.withMapped init) m).map Prod.fst

omit [DecidableEq ι] in
theorem inStep_keysOf (m : Map K V w) : InStep c init (keysOf m) m where
  occupied := fun _ => Iff.rfl
  tombstone := fun _ => Iff.rfl
  keys := fun _ => rfl
  size := rfl
  tombstones := rfl
  found := fun _ => findExistingIndex_keysOf c init
  contains := fun key => by
    unfold contains StaticUnorderedMap.contains find StaticUnorderedMap.find
    rw [findExistingIndex_keysOf c init]
    cases StaticUnorderedMap.findExistingIndex (c.withMapped init) m key with
    | none => rfl
    | some index => simp [keysOf]
  full := rfl
  order := items_keysOf c init

/-- CORRECT: the same calls on sets and on maps that start empty return the same, and leave the tables in
    step; or they fail on both. -/
theorem sets_and_maps_in_lock_step (c : Cfg K w) (init : V) (hasher : ι → K → BitVec w)
    (keyEqual : ι → K → K → Bool) (ops : List (Op ι K V)) :
    (runCalls (stepSets c) (fun i => emptyWith (hasher i) (keyEqual i)) ops = none ∧
      runCalls (stepMaps (c.withMapped init))
        (fun i => StaticUnorderedMap.emptyWith (hasher i) (keyEqual i)) ops = none) ∨
    ∃ sets maps outs,
      runCalls (stepSets c) (fun i => emptyWith (hasher i) (keyEqual i)) ops = some (sets, outs) ∧
      runCalls (stepMaps (c.withMapped init))
        (fun i => StaticUnorderedMap.emptyWith (hasher i) (keyEqual i)) ops = some (maps, outs) ∧
      ∀ i, InStep c init (sets i) (maps i) := by
  have hrun := runCalls_forgetAll c init
    (fun i => StaticUnorderedMap.emptyWith (hasher i) (keyEqual i)) ops
  cases hmaps : runCalls (stepMaps (c.withMapped init))
      (fun i => StaticUnorderedMap.emptyWith (hasher i) (keyEqual i)) ops with
  | none =>
    rw [hmaps] at hrun
    exact Or.inl ⟨hrun, rfl⟩
  | some r =>
    rw [hmaps] at hrun
    exact Or.inr ⟨_, r.1, r.2, hrun, rfl, fun i => inStep_keysOf c init (r.1 i)⟩

/-- Three keys at most, in eight buckets, for a 64-bit `std::size_t`. -/
def smallCfg : Cfg ℕ 64 where
  capacity := 3#64
  constants := splitmix64
  wide := none
  rebuildCannotThrow := true
  buckets_pos := (by decide : 0 < 8)

-- keys that all collide: the second insertion of 4 finds two tombstones and rebuilds the table
example : (runCalls (stepSets smallCfg) (fun _ : Unit => emptyWith (fun _ => 0#64) (· == ·))
    [.emplace () 1 (), .emplace () 2 (), .emplace () 3 (), .tryEmplace () 4 (), .eraseKey () 1,
      .eraseKey () 2, .tryEmplace () 4 ()]).map (fun r => (r.2, items smallCfg (r.1 ()))) =
    some ([.key 1, .key 2, .key 3, .flag false, .flag true, .flag true, .flag true], [3, 4]) := by
  decide +kernel

end Metl.StaticUnorderedSet
