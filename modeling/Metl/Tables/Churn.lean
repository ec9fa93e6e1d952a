import Metl.Tables.Accounting

/-! Churn never fills a table with tombstones, of maps and of sets.

        insert, erase, insert, erase, …      size + tombstones <= B/2 + B/8      >= 3B/8 slots empty

    So a search meets an empty slot after at most 5B/8 others, and the rebuild always ends. A set is
    the image of a map under forgetting the values, so what holds of every map holds of every set. -/

namespace Metl.StaticUnorderedMap
open Metl.Schemes Metl.Tables

variable {ι K V : Type} [DecidableEq ι] {w : ℕ} {c : Cfg K V w} {m m' : Map K V w}

/-- A search in a table of `n` buckets that looked at the slots `looked`: it ended at a slot that stops
    it, well before it had been through the table (of two slots it may see both). -/
structure StopsEarly (n : ℕ) (stop : ℕ → Bool) (looked : List ℕ) : Prop where
  stopped : ∃ i, looked.getLast? = some i ∧ stop i = true
  few : looked.length ≤ 5 * n / 8 + 1
  within : 2 < n → looked.length < n

/-- What a table's counters and slots say, between two calls. -/
structure Accounted (c : Cfg K V w) (m : Map K V w) : Prop where
  counter : m.tombstones = tally c.bucketCount fun i => decide (m.state i = .tombstone)
  load : m.size + m.tombstones ≤ c.bucketCount / 2 + c.bucketCount / 8
  room : 3 * c.bucketCount ≤ 8 * tally c.bucketCount fun i => decide (m.state i = .empty)
  searches : ∀ key, StopsEarly c.bucketCount (stops m key) (probed c m key)
  /-- a rebuild ends, without a tombstone and with the same elements; the search after it ends too -/
  rebuilds : ∃ m', rehashInPlace c m = some m' ∧ m'.tombstones = 0 ∧
    (∀ i < c.bucketCount, m'.state i ≠ .tombstone) ∧ (elements c m').Perm (elements c m) ∧
    m'.size = m.size ∧ ∀ key, StopsEarly c.bucketCount (stops m' key) (probed c m' key)

/-- Occupied slots, tombstones and empty slots are all there is. -/
theorem Counts.tallies (hc : Counts c m) : (elements c m).length + m.tombstones +
      tally c.bucketCount (fun i => decide (m.state i = .empty)) = c.bucketCount := by
  rw [hc.tombstones, elements, ← tally_isSome]
  refine tally_three ?_
  intro i hi
  have hagree := hc.agree i hi
  cases hstate : m.state i <;> cases hsome : m.storage i <;> simp_all

theorem Counts.room (hc : Counts c m) : c.bucketCount ≤ c.bucketCount / 2 + c.bucketCount / 8 +
      tally c.bucketCount fun i => decide (m.state i = .empty) := by
  have htallies := hc.tallies
  have hload := hc.load
  have hlen := hc.size
  omega

theorem Counts.searches (hc : Counts c m) (key : K) :
    StopsEarly c.bucketCount (stops m key) (probed c m key) := by
  have hroom := hc.room
  have hpos := c.bucketCount_pos
  have hbusy : tally c.bucketCount (fun i => !stops m key i) +
      tally c.bucketCount (fun i => decide (m.state i = .empty)) ≤ c.bucketCount := by
    have hsplit : tally c.bucketCount (fun i => !decide (m.state i = .empty)) +
        tally c.bucketCount (fun i => decide (m.state i = .empty)) +
        tally c.bucketCount (fun _ => false) = c.bucketCount := by
      refine tally_three ?_
      intro i _
      cases decide (m.state i = .empty) <;> rfl
    have hmono : tally c.bucketCount (fun i => !stops m key i) ≤
        tally c.bucketCount (fun i => !decide (m.state i = .empty)) := by
      refine tally_mono ?_
      intro i _ hi
      cases hempty : decide (m.state i = .empty) <;> simp_all [stops]
    omega
  have hlen : (probed c m key).length ≤ c.bucketCount / 2 + c.bucketCount / 8 + 1 := by
    have hle : (probed c m key).length ≤ tally c.bucketCount (fun i => !stops m key i) + 1 :=
      length_probes_le (Nat.le_of_eq (Nat.zero_add c.bucketCount))
    omega
  refine ⟨?_, by omega, by omega⟩
  -- some slot is empty, and the probes meet every slot
  have hsome : 0 < tally c.bucketCount fun i => decide (m.state i = .empty) := by omega
  obtain ⟨i, hi, hempty⟩ := tally_pos.mp hsome
  obtain ⟨d, hd, rfl⟩ := exists_bucket (bucketIndex c m key) hi
  refine getLast_probes (Nat.zero_le d) (by omega) ?_
  rw [stops, hempty, Bool.true_or]

theorem Counts.accounted (hc : Counts c m) (hcap : c.capacity.toNat ≠ 0) : Accounted c m := by
  obtain ⟨m', hrehash, hr⟩ := rehashInPlace_rebuilt hc.agree hcap
  have hroom := hc.room
  exact ⟨hc.tombstones, hc.load, by omega, hc.searches, m', hrehash, hr.same.tombstones, hr.clean,
    hr.elements, hr.same.size, (hc.rebuilt hr).searches⟩

end Metl.StaticUnorderedMap

namespace Metl.StaticUnorderedSet
open Metl.Schemes Metl.Tables
open Metl.StaticUnorderedMap (SlotState Map Arg StopsEarly Kept Counts)

variable {ι K V : Type} [DecidableEq ι] {w : ℕ} {c : Cfg K w} {s : KeySet K w}

/-! ### The same of sets -/

/-- The keys of a set, by slot. -/
def elements (c : Cfg K w) (s : KeySet K w) : List K := contents c.bucketCount s.storage

/-- The slots at which the probe loops of a set stop: empty ones and that of the key. -/
def stops (s : KeySet K w) (key : K) (index : ℕ) : Bool :=
  decide (s.state index = .empty) || (decide (s.state index = .occupied) && s.keyEqualAt index key)

/-- The slots they look at, in order. -/
def probed (c : Cfg K w) (s : KeySet K w) (key : K) : List ℕ :=
  probes c.bucketCount (bucketIndex c s key) (stops s key) c.bucketCount 0

structure Accounted (c : Cfg K w) (s : KeySet K w) : Prop where
  counter : s.tombstones = tally c.bucketCount fun i => decide (s.state i = .tombstone)
  load : s.size + s.tombstones ≤ c.bucketCount / 2 + c.bucketCount / 8
  room : 3 * c.bucketCount ≤ 8 * tally c.bucketCount fun i => decide (s.state i = .empty)
  searches : ∀ key, StopsEarly c.bucketCount (stops s key) (probed c s key)
  rebuilds : ∃ s', rehashInPlace c s = some s' ∧ s'.tombstones = 0 ∧
    (∀ i < c.bucketCount, s'.state i ≠ .tombstone) ∧ (elements c s').Perm (elements c s) ∧
    s'.size = s.size ∧ ∀ key, StopsEarly c.bucketCount (stops s' key) (probed c s' key)

theorem stops_keysOf (m : Map K V w) (key : K) :
    stops (keysOf m) key = StaticUnorderedMap.stops m key := by
  funext i
  rw [stops, StaticUnorderedMap.stops, StaticUnorderedMap.hits, keysOf_keyEqualAt]
  rfl

theorem probed_keysOf (init : V) (m : Map K V w) (key : K) :
    probed c (keysOf m) key = StaticUnorderedMap.probed (c.withMapped init) m key := by
  rw [probed, stops_keysOf]
  rfl

theorem elements_keysOf (init : V) (m : Map K V w) :
    elements c (keysOf m) = (StaticUnorderedMap.elements (c.withMapped init) m).map Prod.fst :=
  contents_map _ _ _

theorem accounted_keysOf (init : V) {m : Map K V w}
    (h : StaticUnorderedMap.Accounted (c.withMapped init) m) : Accounted c (keysOf m) := by
  obtain ⟨m', hrehash, hzero, hclean, hperm, hsize, hsearch⟩ := h.rebuilds
  refine ⟨h.counter, h.load, h.room, ?_, keysOf m', ?_, hzero, hclean, ?_, hsize, ?_⟩
  · intro key
    rw [stops_keysOf, probed_keysOf init]
    exact h.searches key
  · rw [rehashInPlace_keysOf c init, hrehash]
    rfl
  · rw [elements_keysOf init, elements_keysOf init]
    exact hperm.map Prod.fst
  · intro key
    rw [stops_keysOf, probed_keysOf init]
    exact hsearch key

/-- A call in parallel, as a call on the maps. -/
def Op.onMaps : Op ι K V → StaticUnorderedMap.Op ι K V (Arg V) ℕ
  | .tryEmplace i key value => .tryEmplace i key (.value value)
  | .emplace i key value => .emplace i key (.value value)
  | .eraseKey i key => .eraseKey i key
  | .eraseAt i slot => .eraseAt i slot
  | .eraseIf i pred => .eraseIf i fun e => pred e.1
  | .clear i => .clear i
  | .swap i j => .swap i j
  | .copyConstruct i j => .copyConstruct i j
  | .copyAssign i j => .copyAssign i j
  | .moveConstruct i j => .moveConstruct i j
  | .moveAssign i j => .moveAssign i j

theorem stepMaps_onMaps (cm : StaticUnorderedMap.Cfg K V w) (s : ι → Map K V w) (op : Op ι K V) :
    (stepMaps cm s op).map Prod.fst = (StaticUnorderedMap.step cm s op.onMaps).map Prod.fst := by
  cases op with
  | eraseKey i key | clear i => rfl
  | swap i j | copyConstruct i j | copyAssign i j | moveConstruct i j | moveAssign i j =>
    simp only [stepMaps, StaticUnorderedMap.step, Op.onMaps]
    split
    · rfl
    · rw [Option.map_map, Option.map_map]
      rfl
  | _ =>
    simp only [stepMaps, StaticUnorderedMap.step, Op.onMaps]
    rw [Option.map_map, Option.map_map]
    rfl

/-- RUN: what every operation of the map keeps, every run of calls in parallel keeps. -/
theorem runCalls_kept {cm : StaticUnorderedMap.Cfg K V w} {P : Map K V w → Prop} (hkept : Kept cm P)
    {maps maps' : ι → Map K V w} (hs : ∀ i, P (maps i)) {ops : List (Op ι K V)} {outs : List (Out K)}
    (hrun : runCalls (stepMaps cm) maps ops = some (maps', outs)) : ∀ i, P (maps' i) := by
  induction ops generalizing maps outs with
  | nil =>
    cases hrun
    exact hs
  | cons op ops ih =>
    obtain ⟨⟨maps₁, out⟩, hstep, hrun⟩ := Option.bind_eq_some_iff.mp hrun
    obtain ⟨⟨maps₂, outs'⟩, hrest, heq⟩ := Option.map_eq_some_iff.mp hrun
    cases heq
    have hfst := stepMaps_onMaps cm maps op
    rw [hstep] at hfst
    obtain ⟨⟨maps₃, out'⟩, hstep', heq⟩ := Option.map_eq_some_iff.mp hfst.symm
    cases heq
    exact ih (hkept.step hs hstep') hrest

/-- Every set that a run of calls leaves is the image of a map that the same run leaves, and has what
    all the operations of the map keep. -/
theorem reachable_set (c : Cfg K w) {P : Map K Unit w → Prop} (hkept : Kept (c.withMapped ()) P)
    (hasher : ι → K → BitVec w) (keyEqual : ι → K → K → Bool)
    (hstart : ∀ i, P (StaticUnorderedMap.emptyWith (hasher i) (keyEqual i)))
    {ops : List (Op ι K Unit)} {sets : ι → KeySet K w} {outs : List (Out K)}
    (hrun : runCalls (stepSets c) (fun i => emptyWith (hasher i) (keyEqual i)) ops = some (sets, outs))
    (i : ι) : ∃ m, P m ∧ sets i = keysOf m := by
  have hforget := runCalls_forgetAll c ()
    (fun i => StaticUnorderedMap.emptyWith (hasher i) (keyEqual i)) ops
  change runCalls (stepSets c) (fun i => emptyWith (hasher i) (keyEqual i)) ops = _ at hforget
  rw [hrun] at hforget
  obtain ⟨⟨maps, outs'⟩, hmaps, heq⟩ := Option.map_eq_some_iff.mp hforget.symm
  cases heq
  exact ⟨maps i, runCalls_kept hkept hstart hmaps i, rfl⟩

/-- CORRECT: however long maps and sets are churned, between any two calls the tombstones are counted
    and few, so every search stops early and every rebuild ends. The capacity is one whose double does
    not wrap, and element moves do not throw; the functors are arbitrary. -/
theorem tombstones_stay_few {ι K V : Type} [DecidableEq ι] {w : ℕ} (capacity : BitVec w)
    (hcap : 1 ≤ capacity.toNat) (hwrap : capacity.toNat * 2 < 2 ^ w)
    (hasher : ι → K → BitVec w) (keyEqual : ι → K → K → Bool) :
    (∀ c : StaticUnorderedMap.Cfg K V w, c.capacity = capacity → c.rebuildCannotThrow = true →
      ∀ ops maps history, StaticUnorderedMap.runCalls c
        (fun i => StaticUnorderedMap.emptyWith (hasher i) (keyEqual i)) ops = some (maps, history) →
        ∀ i, StaticUnorderedMap.Accounted c (maps i)) ∧
    (∀ c : Cfg K w, c.capacity = capacity → c.rebuildCannotThrow = true →
      ∀ (ops : List (Op ι K Unit)) sets outs, runCalls (stepSets c)
        (fun i => emptyWith (hasher i) (keyEqual i)) ops = some (sets, outs) →
        ∀ i, Accounted c (sets i)) := by
  constructor
  · rintro c rfl hmoves ops maps history hrun i
    have hkept := StaticUnorderedMap.counts_kept ⟨c.sized hwrap, hmoves⟩
    have hstart := fun i => (StaticUnorderedMap.blank_emptyWith c (hasher i) (keyEqual i)).counts
    exact (hkept.run hstart hrun i).accounted (by omega)
  · rintro c rfl hmoves ops sets outs hrun i
    have hkept := StaticUnorderedMap.counts_kept
      (c := c.withMapped ()) ⟨StaticUnorderedMap.Cfg.sized (c.withMapped ()) hwrap, hmoves⟩
    have hstart := fun i =>
      (StaticUnorderedMap.blank_emptyWith (c.withMapped ()) (hasher i) (keyEqual i)).counts
    obtain ⟨m, hm, hset⟩ := reachable_set c hkept hasher keyEqual hstart hrun i
    rw [hset]
    exact accounted_keysOf () (hm.accounted (show c.capacity.toNat ≠ 0 by omega))

/-- A map and a set with colliding keys: the last insertion finds two tombstones in eight slots and
    rebuilds the table. -/
theorem tombstones_stay_few_sample :
    (∃ maps history, StaticUnorderedMap.runCalls StaticUnorderedMap.sampleCfg
        (fun _ : Bool => StaticUnorderedMap.emptyWith (fun _ => 7#64) fun a b => a == b)
        StaticUnorderedMap.sampleOps = some (maps, history) ∧
      ∀ i, StaticUnorderedMap.Accounted StaticUnorderedMap.sampleCfg (maps i)) ∧
    ∃ sets outs, runCalls (stepSets smallCfg)
        (fun _ : Bool => emptyWith (fun _ => 7#64) fun a b => a == b)
        [.emplace true 1 (), .emplace true 2 (), .eraseKey true 1, .eraseKey true 2,
          .tryEmplace true 4 ()] = some (sets, outs) ∧
      ∀ i, Accounted smallCfg (sets i) := by
  obtain ⟨hmaps, hsets⟩ := tombstones_stay_few (V := ℕ) 3#64 (by decide) (by decide)
    (fun _ : Bool => fun _ : ℕ => 7#64) (fun _ => fun a b => a == b)
  have hrun : ((StaticUnorderedMap.runCalls StaticUnorderedMap.sampleCfg
      (fun _ : Bool => StaticUnorderedMap.emptyWith (fun _ => 7#64) fun a b => a == b)
      StaticUnorderedMap.sampleOps).map fun _ => ()) = some () := by
    decide +kernel
  have hrun' : ((runCalls (stepSets smallCfg)
      (fun _ : Bool => emptyWith (fun _ => 7#64) fun a b => a == b)
      [.emplace true 1 (), .emplace true 2 (), .eraseKey true 1, .eraseKey true 2,
        .tryEmplace true 4 ()]).map fun _ => ()) = some () := by
    decide +kernel
  obtain ⟨⟨maps, history⟩, hsome, -⟩ := Option.map_eq_some_iff.mp hrun
  obtain ⟨⟨sets, outs⟩, hsome', -⟩ := Option.map_eq_some_iff.mp hrun'
  exact ⟨⟨maps, history, hsome, hmaps _ rfl rfl _ _ _ hsome⟩,
    sets, outs, hsome', hsets _ rfl rfl _ _ _ hsome'⟩

/-- A capacity of `2^31 + 2` for a 32-bit `std::size_t`: the double wraps to 4. -/
def crampedCfg : StaticUnorderedMap.Cfg ℕ ℕ 32 where
  capacity := 0x80000002#32
  constants := fmix32
  wide := none
  rebuildCannotThrow := true
  mappedInit := 0
  buckets_pos := by decide

/-- Four keys fill a table of four buckets that promises more than `2^31`: no slot is empty, and a
    search for a fifth goes through all of them and is stopped by none. -/
theorem cramped_table_fills_up :
    crampedCfg.bucketCount = 4 ∧
    (StaticUnorderedMap.runCalls crampedCfg
      (fun _ : Unit => StaticUnorderedMap.emptyWith (fun _ => 0#32) fun a b => a == b)
      [.tryEmplace () 1 (.value 0), .tryEmplace () 2 (.value 0), .tryEmplace () 3 (.value 0),
        .tryEmplace () 4 (.value 0)]).map (fun r =>
          ((r.1 ()).size + (r.1 ()).tombstones,
            tally 4 (fun i => decide ((r.1 ()).state i = .empty)),
            StaticUnorderedMap.probed crampedCfg (r.1 ()) 5,
            (StaticUnorderedMap.probed crampedCfg (r.1 ()) 5).map
              (StaticUnorderedMap.stops (r.1 ()) 5))) =
      some (4, 0, [0, 1, 2, 3], [false, false, false, false]) ∧ ¬4 ≤ 4 / 2 + 4 / 8 := by
  refine ⟨by decide, by decide +kernel, by decide⟩

end Metl.StaticUnorderedSet
