import Metl.Tables.MapRefinement

/-! Any number of maps, any sequence of calls on them: each behaves as a bounded finite map.

        calls on the tables      s₀ ──op──► s₁ ──op──► s₂ …         slots, tombstones, rebuilds
                                 │          │          │
        calls on finite maps     σ₀ ──op──► σ₁ ──op──► σ₂ …         entries

    A call on the tables may pass a reference into a table; the same call on the finite maps passes
    what the reference designates when the call is made. -/

namespace Metl.StaticUnorderedMap
open Metl.Schemes Metl.Tables Function

/-! ### Calls -/

/-- A call on the maps named by `ι`. `A` is the type of value arguments and `P` that of positions. -/
inductive Op (ι K V A P : Type) where
  | tryEmplace (i : ι) (key : K) (value : A)
  | emplace (i : ι) (key : K) (value : A)
  | tryInsertOrAssign (i : ι) (key : K) (value : A)
  | insertOrAssign (i : ι) (key : K) (value : A)
  | subscript (i : ι) (key : K)
  /-- The caller writes through a reference to a mapped value. -/
  | write (i : ι) (pos : P) (value : A)
  | eraseKey (i : ι) (key : K)
  | eraseAt (i : ι) (pos : P)
  | eraseIf (i : ι) (pred : K × V → Bool)
  | clear (i : ι)
  | swap (i j : ι)
  | copyConstruct (i j : ι)
  | copyAssign (i j : ι)
  | moveConstruct (i j : ι)
  | moveAssign (i j : ι)

/-- What a call returns; a reference is reported as what it designates. -/
inductive Out (K V : Type) where
  | done
  | flag (b : Bool)
  | entry (e : K × V)
  | value (v : V)
  | count (n : ℕ)
  deriving DecidableEq

variable {ι K V : Type} [DecidableEq ι] {w cap : ℕ}

/-- Put back the one or two objects a call changed. -/
def update₂ {σ : Type} (s : ι → σ) (i j : ι) (r : σ × σ) : ι → σ :=
  update (update s j r.2) i r.1

/-- One call on the tables. A map is never constructed from itself. -/
def step (c : Cfg K V w) (s : ι → Map K V w) : Op ι K V (Arg V) ℕ → Option ((ι → Map K V w) × Out K V)
  | .tryEmplace i key value =>
    (tryEmplace c (s i) key value).map fun r => (update s i r.1, .flag r.2)
  | .emplace i key value =>
    (emplace c (s i) key value).map fun r => (update s i r.1, .entry r.2)
  | .tryInsertOrAssign i key value =>
    (tryInsertOrAssign c (s i) key value).map fun r => (update s i r.1, .flag r.2)
  | .insertOrAssign i key value =>
    (insertOrAssign c (s i) key value).map fun r => (update s i r.1, .entry r.2)
  | .subscript i key =>
    (subscript c (s i) key).map fun r => (update s i r.1, .value r.2)
  | .write i pos value =>
    (assignAt (s i) pos value).map fun m => (update s i m, .done)
  | .eraseKey i key =>
    let r := eraseKey c (s i) key
    some (update s i r.1, .flag r.2)
  | .eraseAt i pos => (eraseAt c (s i) pos).map fun r => (update s i r.1, .done)
  | .eraseIf i pred =>
    (eraseIf c (s i) pred).map fun r => (update s i r.1, .count r.2)
  | .clear i => some (update s i (clear c (s i)), .done)
  | .swap i j =>
    if i = j then some (s, .done)
    else (swapContents c (s i) (s j)).map fun r => (update₂ s i j r, .done)
  | .copyConstruct i j =>
    if i = j then none
    else (copyConstruct c (s j)).map fun m => (update s i m, .done)
  | .copyAssign i j =>
    if i = j then some (s, .done)
    else (copyAssign c (s i) (s j)).map fun m => (update s i m, .done)
  | .moveConstruct i j =>
    if i = j then none
    else (moveConstruct c (s j)).map fun r => (update₂ s i j r, .done)
  | .moveAssign i j =>
    if i = j then some (s, .done)
    else (moveAssign c (s i) (s j)).map fun r => (update₂ s i j r, .done)

/-- The same call on finite maps, as its documentation has it. -/
def specStep (init : V) (σ : ι → FiniteMap K V cap) :
    Op ι K V V K → Option ((ι → FiniteMap K V cap) × Out K V)
  | .tryEmplace i key v =>
    let r := Spec.tryEmplace (σ i) key v
    some (update σ i r.1, .flag r.2)
  | .emplace i key v =>
    (Spec.emplace (σ i) key v).map fun r => (update σ i r.1, .entry r.2)
  | .tryInsertOrAssign i key v =>
    let r := Spec.tryInsertOrAssign (σ i) key v
    some (update σ i r.1, .flag r.2)
  | .insertOrAssign i key v =>
    (Spec.insertOrAssign (σ i) key v).map fun r => (update σ i r.1, .entry r.2)
  | .subscript i key =>
    (Spec.emplace (σ i) key init).map fun r => (update σ i r.1, .value r.2.2)
  | .write i key v => some (update σ i ((σ i).assign key v), .done)
  | .eraseKey i key =>
    let r := Spec.eraseKey (σ i) key
    some (update σ i r.1, .flag r.2)
  | .eraseAt i key => some (update σ i ((σ i).erase key), .done)
  | .eraseIf i pred =>
    some (update σ i ((σ i).filter fun e => !pred e), .count ((σ i).entries.filter pred).length)
  | .clear i => some (update σ i (FiniteMap.empty (σ i).equal), .done)
  | .swap i j => some (update₂ σ i j (σ j, σ i), .done)
  | .copyConstruct i j => if i = j then none else some (update σ i (σ j), .done)
  | .copyAssign i j => some (update σ i (σ j), .done)
  | .moveConstruct i j =>
    if i = j then none else some (update₂ σ i j (σ j, FiniteMap.empty (σ j).equal), .done)
  | .moveAssign i j =>
    if i = j then some (σ, .done)
    else some (update₂ σ i j (σ j, FiniteMap.empty (σ j).equal), .done)

/-- The key a position designates: that of the element in the slot, if there is one. -/
def designated (c : Cfg K V w) (m : Map K V w) (pos : ℕ) : Option K :=
  if pos < c.bucketCount then (m.storage pos).map Prod.fst else none

/-- A call with its references read; `none` if one of them designates nothing. -/
def resolve (c : Cfg K V w) (s : ι → Map K V w) : Op ι K V (Arg V) ℕ → Option (Op ι K V V K)
  | .tryEmplace i key value => ((s i).read value).map fun v => .tryEmplace i key v
  | .emplace i key value => ((s i).read value).map fun v => .emplace i key v
  | .tryInsertOrAssign i key value => ((s i).read value).map fun v => .tryInsertOrAssign i key v
  | .insertOrAssign i key value => ((s i).read value).map fun v => .insertOrAssign i key v
  | .subscript i key => some (.subscript i key)
  | .write i pos value =>
    (designated c (s i) pos).bind fun key => ((s i).read value).map fun v => .write i key v
  | .eraseKey i key => some (.eraseKey i key)
  | .eraseAt i pos => (designated c (s i) pos).map fun key => .eraseAt i key
  | .eraseIf i pred => some (.eraseIf i pred)
  | .clear i => some (.clear i)
  | .swap i j => some (.swap i j)
  | .copyConstruct i j => some (.copyConstruct i j)
  | .copyAssign i j => some (.copyAssign i j)
  | .moveConstruct i j => some (.moveConstruct i j)
  | .moveAssign i j => some (.moveAssign i j)

/-- Run the calls, with every reference valid when it is passed: the final maps, and the history of
    calls as the caller means them with what they returned. -/
def runCalls (c : Cfg K V w) : (ι → Map K V w) → List (Op ι K V (Arg V) ℕ) →
    Option ((ι → Map K V w) × List (Op ι K V V K × Out K V))
  | s, [] => some (s, [])
  | s, op :: ops =>
    (resolve c s op).bind fun call => (step c s op).bind fun r =>
      (runCalls c r.1 ops).map fun t => (t.1, (call, r.2) :: t.2)

/-- A history that finite maps can have, and where it ends. -/
inductive Behaves (init : V) :
    (ι → FiniteMap K V cap) → List (Op ι K V V K × Out K V) → (ι → FiniteMap K V cap) → Prop
  | nil (σ : ι → FiniteMap K V cap) : Behaves init σ [] σ
  | cons {σ σ' σ'' : ι → FiniteMap K V cap} {call : Op ι K V V K} {out : Out K V}
      {history : List (Op ι K V V K × Out K V)} (hstep : specStep init σ call = some (σ', out))
      (hrest : Behaves init σ' history σ'') : Behaves init σ ((call, out) :: history) σ''

/-! ### One call -/

variable {c : Cfg K V w} {s s' : ι → Map K V w} {σ : ι → FiniteMap K V c.capacity.toNat}

/-- Both sides refuse the call, or both return the same and still correspond. -/
def Agree (c : Cfg K V w) (r : Option ((ι → Map K V w) × Out K V))
    (ρ : Option ((ι → FiniteMap K V c.capacity.toNat) × Out K V)) : Prop :=
  (r = none ∧ ρ = none) ∨ ∃ s' σ' out, r = some (s', out) ∧ ρ = some (σ', out) ∧
    ∀ i, Represents c (s' i) (σ' i)

section Update
variable (hr : ∀ i, Represents c (s i) (σ i))
include hr

variable {m m' : Map K V w} {μ μ' : FiniteMap K V c.capacity.toNat}

theorem represents_update (i : ι) (hm : Represents c m μ) (k : ι) :
    Represents c (update s i m k) (update σ i μ k) := by
  rcases eq_or_ne k i with rfl | hk
  · simpa using hm
  · simpa [hk] using hr k

theorem represents_update₂ (i j : ι) (hm : Represents c m μ) (hm' : Represents c m' μ') (k : ι) :
    Represents c (update₂ s i j (m, m') k) (update₂ σ i j (μ, μ') k) :=
  represents_update (represents_update hr j hm') i hm k

theorem agree_update (i : ι) (hm : Represents c m μ) (out : Out K V) :
    Agree c (some (update s i m, out)) (some (update σ i μ, out)) :=
  Or.inr ⟨_, _, _, rfl, rfl, represents_update hr i hm⟩

theorem agree_update₂ (i j : ι) (hm : Represents c m μ) (hm' : Represents c m' μ') (out : Out K V) :
    Agree c (some (update₂ s i j (m, m'), out)) (some (update₂ σ i j (μ, μ'), out)) :=
  Or.inr ⟨_, _, _, rfl, rfl, represents_update₂ hr i j hm hm'⟩

omit [DecidableEq ι] in
theorem agree_self (out : Out K V) : Agree c (some (s, out)) (some (σ, out)) :=
  Or.inr ⟨_, _, _, rfl, rfl, hr⟩

end Update

variable {m : Map K V w}

theorem designated_some {pos : ℕ} {key : K} (h : designated c m pos = some key) :
    pos < c.bucketCount ∧ ∃ e, m.storage pos = some e ∧ e.1 = key := by
  unfold designated at h
  split at h
  · rename_i hpos
    obtain ⟨e, he, hkey⟩ := Option.map_eq_some_iff.mp h
    exact ⟨hpos, e, he, hkey⟩
  · cases h

/-- A copy of a map represents what the map does. -/
theorem Represents.copy {other : Map K V w} {ν : FiniteMap K V c.capacity.toNat}
    (hr : Represents c other ν) (hinv : Inv c m) (hperm : (elements c m).Perm (elements c other))
    (hequal : m.keyEqual = other.keyEqual) : Represents c m ν :=
  ⟨hinv, hequal.trans hr.equal, hperm.trans hr.entries⟩

/-- STEP: a call on the tables does what the same call on the finite maps does. -/
theorem step_agrees (hs : c.Sized) (hr : ∀ i, Represents c (s i) (σ i))
    {op : Op ι K V (Arg V) ℕ} {call : Op ι K V V K} (hcall : resolve c s op = some call) :
    Agree c (step c s op) (specStep c.mappedInit σ call) := by
  cases op with
  | tryEmplace i key value =>
    obtain ⟨v, hread, rfl⟩ := Option.map_eq_some_iff.mp hcall
    obtain ⟨m', hop, hm'⟩ := (hr i).tryEmplace hs key hread
    simp only [step, specStep, hop, Option.map_some]
    exact agree_update hr i hm' _
  | emplace i key value =>
    obtain ⟨v, hread, rfl⟩ := Option.map_eq_some_iff.mp hcall
    simp only [step, specStep, emplace]
    rcases (hr i).emplaceSlot hs key value hread with
      ⟨hop, hspec⟩ | ⟨m', j, e, μ', hop, he, hspec, hm'⟩
    · simp only [hop, hspec]
      exact Or.inl ⟨rfl, rfl⟩
    · simp only [hop, hspec, he, Option.bind_some, Option.map_some]
      exact agree_update hr i hm' _
  | tryInsertOrAssign i key value =>
    obtain ⟨v, hread, rfl⟩ := Option.map_eq_some_iff.mp hcall
    simp only [step, specStep, tryInsertOrAssign]
    rcases (hr i).insertOrAssignImpl hs key hread with
      ⟨hop, htry, -⟩ | ⟨m', j, e, μ', hop, -, -, htry, -, hm'⟩
    · simp only [hop, htry, Option.map_some]
      exact agree_update hr i (hr i) _
    · simp only [hop, htry, Option.map_some]
      exact agree_update hr i hm' _
  | insertOrAssign i key value =>
    obtain ⟨v, hread, rfl⟩ := Option.map_eq_some_iff.mp hcall
    simp only [step, specStep, insertOrAssign]
    rcases (hr i).insertOrAssignImpl hs key hread with
      ⟨hop, -, hspec⟩ | ⟨m', j, e, μ', hop, hj, he, -, hspec, hm'⟩
    · simp only [hop, hspec, Option.bind_some]
      exact Or.inl ⟨rfl, rfl⟩
    · simp only [hop, hspec, he, if_pos hj, Option.bind_some, Option.map_some]
      exact agree_update hr i hm' _
  | subscript i key =>
    cases hcall
    simp only [step, specStep, subscript]
    rcases (hr i).emplaceSlot hs key (.value c.mappedInit) rfl with
      ⟨hop, hspec⟩ | ⟨m', j, e, μ', hop, he, hspec, hm'⟩
    · simp only [hop, hspec]
      exact Or.inl ⟨rfl, rfl⟩
    · simp only [hop, hspec, he, Option.bind_some, Option.map_some]
      exact agree_update hr i hm' _
  | write i pos value =>
    obtain ⟨key, hkey, hrest⟩ := Option.bind_eq_some_iff.mp hcall
    obtain ⟨v, hread, rfl⟩ := Option.map_eq_some_iff.mp hrest
    obtain ⟨hpos, e, he, rfl⟩ := designated_some hkey
    simp only [step, specStep, assignAt, he, hread, Option.bind_some, Option.map_some]
    exact agree_update hr i ((hr i).assigned hpos he ((hr i).inv.lawful.equiv.refl _) v) _
  | eraseKey i key =>
    cases hcall
    obtain ⟨hflag, hm'⟩ := (hr i).eraseKey key
    simp only [step, specStep, hflag]
    exact agree_update hr i hm' _
  | eraseAt i pos =>
    obtain ⟨key, hkey, rfl⟩ := Option.map_eq_some_iff.mp hcall
    obtain ⟨hpos, e, he, rfl⟩ := designated_some hkey
    have hocc : (s i).state pos = .occupied := ((hr i).inv.stored pos hpos).mp (by simp [he])
    simp only [step, specStep, eraseAt, if_pos (And.intro hpos hocc), Option.map_some]
    exact agree_update hr i ((hr i).erased hpos he ((hr i).inv.lawful.equiv.refl _)) _
  | eraseIf i pred =>
    cases hcall
    obtain ⟨m', hop, hm'⟩ := (hr i).eraseIf pred
    simp only [step, specStep, hop, Option.map_some]
    exact agree_update hr i hm' _
  | clear i =>
    cases hcall
    exact agree_update hr i (hr i).clear _
  | swap i j =>
    cases hcall
    simp only [step, specStep]
    rcases eq_or_ne i j with rfl | hij
    · have hself : update₂ σ i i (σ i, σ i) = σ := by simp [update₂]
      rw [if_pos rfl, hself]
      exact agree_self hr _
    · obtain ⟨m', other', hop, ⟨hinv, helements, hequal⟩, hinv', helements', hequal'⟩ :=
        swapContents_spec (hr i).inv (hr j).inv
      simp only [if_neg hij, hop, Option.map_some]
      exact agree_update₂ hr i j ((hr j).copy hinv (List.Perm.of_eq helements) hequal)
        ((hr i).copy hinv' (List.Perm.of_eq helements') hequal') _
  | copyConstruct i j =>
    cases hcall
    simp only [step, specStep]
    by_cases hij : i = j
    · simp only [if_pos hij]
      exact Or.inl ⟨rfl, rfl⟩
    · obtain ⟨m', hop, hinv, hperm, hequal⟩ := copyConstruct_spec hs (hr j).inv
      simp only [if_neg hij, hop, Option.map_some]
      exact agree_update hr i ((hr j).copy hinv hperm hequal) _
  | copyAssign i j =>
    cases hcall
    simp only [step, specStep]
    rcases eq_or_ne i j with rfl | hij
    · rw [if_pos rfl, update_eq_self]
      exact agree_self hr _
    · obtain ⟨m', hop, hinv, hperm, hequal⟩ := copyAssign_spec hs (hr i).inv (hr j).inv
      simp only [if_neg hij, hop, Option.map_some]
      exact agree_update hr i ((hr j).copy hinv hperm hequal) _
  | moveConstruct i j =>
    cases hcall
    simp only [step, specStep]
    by_cases hij : i = j
    · simp only [if_pos hij]
      exact Or.inl ⟨rfl, rfl⟩
    · obtain ⟨m', hop, hinv, hperm, hequal⟩ := copyConstruct_spec hs (hr j).inv
      simp only [if_neg hij, moveConstruct, hop, Option.map_some]
      exact agree_update₂ hr i j ((hr j).copy hinv hperm hequal) (hr j).clear _
  | moveAssign i j =>
    cases hcall
    simp only [step, specStep]
    by_cases hij : i = j
    · simp only [if_pos hij]
      exact agree_self hr _
    · obtain ⟨m', hop, hinv, hperm, hequal⟩ := copyAssign_spec hs (hr i).inv (hr j).inv
      simp only [if_neg hij, moveAssign, hop, Option.map_some]
      exact agree_update₂ hr i j ((hr j).copy hinv hperm hequal) (hr j).clear _

/-! ### Every run -/

/-- RUN: the tables and the finite maps have the same history, and correspond where it ends. -/
theorem runCalls_behaves (hs : c.Sized) {ops : List (Op ι K V (Arg V) ℕ)}
    {history : List (Op ι K V V K × Out K V)} (hr : ∀ i, Represents c (s i) (σ i))
    (hrun : runCalls c s ops = some (s', history)) :
    ∃ σ', Behaves c.mappedInit σ history σ' ∧ ∀ i, Represents c (s' i) (σ' i) := by
  induction ops generalizing s σ history with
  | nil =>
    cases hrun
    exact ⟨σ, Behaves.nil σ, hr⟩
  | cons op ops ih =>
    obtain ⟨call, hcall, hrest⟩ := Option.bind_eq_some_iff.mp hrun
    obtain ⟨⟨s₁, out⟩, hstep, hrest⟩ := Option.bind_eq_some_iff.mp hrest
    obtain ⟨⟨s₂, rest⟩, hrun', heq⟩ := Option.map_eq_some_iff.mp hrest
    cases heq
    rcases step_agrees hs hr hcall with ⟨hnone, -⟩ | ⟨t, σ₁, out', hsome, hspec, hr₁⟩
    · rw [hnone] at hstep
      cases hstep
    · rw [hsome] at hstep
      cases hstep
      obtain ⟨σ', hbehaves, hr'⟩ := ih hr₁ hrun'
      exact ⟨σ', Behaves.cons hspec hbehaves, hr'⟩

/-- Everything the caller can see of a map is what the finite map has. -/
structure Observed (c : Cfg K V w) (m : Map K V w) (μ : FiniteMap K V c.capacity.toNat) : Prop where
  find : ∀ key, find c m key = μ.lookup key
  contains : ∀ key, contains c m key = (μ.lookup key).isSome
  size : m.size = μ.entries.length
  full : full c m = (μ.entries.length == c.capacity.toNat)
  items : (items c m).Perm μ.entries

theorem Represents.observed {μ : FiniteMap K V c.capacity.toNat} (hr : Represents c m μ) :
    Observed c m μ := by
  have hfind : ∀ key, find c m key = μ.lookup key := by
    intro key
    rcases hr.search key with ⟨hfind, hentry⟩ | ⟨i, -, e, hfind, he, -, hentry⟩
    · simp [StaticUnorderedMap.find, FiniteMap.lookup, hfind, hentry]
    · simp [StaticUnorderedMap.find, FiniteMap.lookup, hfind, hentry, he]
  refine ⟨hfind, ?_, hr.size, ?_, ?_⟩
  · intro key
    rw [StaticUnorderedMap.contains, hfind]
  · rw [StaticUnorderedMap.full, hr.size]
  · rw [items_eq hr.inv]
    exact hr.entries

/-- CORRECT: maps that start empty behave, in every run, as finite partial functions with at most
    `Capacity` keys, and refuse a further call only where those do. -/
theorem bounded_finite_map (c : Cfg K V w) (hwrap : c.capacity.toNat * 2 < 2 ^ w)
    (hasher : ι → K → BitVec w) (keyEqual : ι → K → K → Bool)
    (hlawful : ∀ i, Lawful c (hasher i) (keyEqual i)) (ops : List (Op ι K V (Arg V) ℕ))
    (s : ι → Map K V w) (history : List (Op ι K V V K × Out K V))
    (hrun : runCalls c (fun i => emptyWith (hasher i) (keyEqual i)) ops = some (s, history)) :
    ∃ σ : ι → FiniteMap K V c.capacity.toNat,
      Behaves c.mappedInit (fun i => FiniteMap.empty (keyEqual i)) history σ ∧
      (∀ i, Observed c (s i) (σ i)) ∧
      ∀ op call, resolve c s op = some call →
        ((step c s op).isSome ↔ (specStep c.mappedInit σ call).isSome) := by
  have hs := c.sized hwrap
  obtain ⟨σ, hbehaves, hr⟩ :=
    runCalls_behaves hs (fun i => represents_emptyWith (hlawful i)) hrun
  refine ⟨σ, hbehaves, fun i => (hr i).observed, ?_⟩
  intro op call hcall
  rcases step_agrees hs hr hcall with ⟨hnone, hnone'⟩ | ⟨s', σ', out, hsome, hsome', -⟩
  · simp [hnone, hnone']
  · simp [hsome, hsome']

/-- Three elements at most, in eight buckets, for a 64-bit `std::size_t`. -/
def sampleCfg : Cfg ℕ ℕ 64 where
  capacity := 3#64
  constants := splitmix64
  wide := none
  rebuildCannotThrow := true
  mappedInit := 0
  buckets_pos := by decide

/-- Two maps whose keys all collide. The fourth key finds two tombstones, so it is placed after a
    rebuild, with a value read from the slot the rebuild moves. -/
def sampleOps : List (Op Bool ℕ ℕ (Arg ℕ) ℕ) :=
  [.tryEmplace true 1 (.value 10), .emplace true 2 (.value 20), .insertOrAssign true 3 (.value 30),
    .tryEmplace true 4 (.value 40), .eraseKey true 1, .eraseKey true 2, .eraseKey true 2,
    .tryEmplace true 4 (.slot 6), .subscript true 5, .tryInsertOrAssign true 6 (.value 60),
    .tryInsertOrAssign true 4 (.value 44), .copyConstruct false true, .swap true false,
    .eraseIf true fun e => e.2 < 10, .moveAssign true false, .clear true]

/-- Equality of what `f` makes of two keys. -/
theorem equivalence_beq {α β : Type} [DecidableEq β] (f : α → β) :
    Equivalence fun a b => (f a == f b) = true := by
  refine ⟨fun _ => beq_self_eq_true _, ?_, ?_⟩
  · intro a b h
    exact beq_iff_eq.mpr (beq_iff_eq.mp h).symm
  · intro a b d h h'
    exact beq_iff_eq.mpr ((beq_iff_eq.mp h).trans (beq_iff_eq.mp h'))

theorem sampleCfg_lawful : Lawful sampleCfg (fun _ : ℕ => 7#64) (fun a b => a == b) where
  equiv := equivalence_beq id
  hash := fun _ _ _ => rfl

theorem bounded_finite_map_sampleOps : ∃ s history,
    runCalls sampleCfg (fun _ : Bool => emptyWith (fun _ => 7#64) fun a b => a == b) sampleOps =
      some (s, history) ∧
    history.map Prod.snd = [.flag true, .entry (2, 20), .entry (3, 30), .flag false, .flag true,
      .flag true, .flag false, .flag true, .value 0, .flag false, .flag true, .done, .done,
      .count 1, .done, .done] ∧
    ∃ σ : Bool → FiniteMap ℕ ℕ sampleCfg.capacity.toNat,
      Behaves sampleCfg.mappedInit (fun _ => FiniteMap.empty fun a b => a == b) history σ ∧
      ∀ i, Observed sampleCfg (s i) (σ i) := by
  have houts : (runCalls sampleCfg (fun _ : Bool => emptyWith (fun _ => 7#64) fun a b => a == b)
      sampleOps).map (fun r => r.2.map Prod.snd) = some [.flag true, .entry (2, 20), .entry (3, 30),
        .flag false, .flag true, .flag true, .flag false, .flag true, .value 0, .flag false,
        .flag true, .done, .done, .count 1, .done, .done] := by
    decide +kernel
  obtain ⟨⟨s, history⟩, hrun, houts⟩ := Option.map_eq_some_iff.mp houts
  obtain ⟨σ, hbehaves, hobserved, -⟩ := bounded_finite_map sampleCfg (by decide)
    (fun _ : Bool => fun _ => 7#64) (fun _ => fun a b => a == b) (fun _ => sampleCfg_lawful)
    sampleOps s history hrun
  exact ⟨s, history, hrun, houts, σ, hbehaves, hobserved⟩

/-! ### Where the table is not what the template arguments promise -/

/-- A capacity of `2^31` for a 32-bit `std::size_t`. -/
def wrappedCfg : Cfg ℕ ℕ 32 where
  capacity := 0x80000000#32
  constants := fmix32
  wide := none
  rebuildCannotThrow := true
  mappedInit := 0
  buckets_pos := by decide

/-- 64-bit keys hashed by `std::hash` where `std::size_t` has 32 bits. -/
def foldedCfg : Cfg (BitVec 64) ℕ 32 where
  capacity := 4#32
  constants := fmix32
  wide := some ⟨BitVec.toNat, 2⟩
  rebuildCannotThrow := true
  mappedInit := 0
  buckets_pos := by decide

/-- `std::hash<std::uint64_t>` as a cast to a 32-bit `std::size_t`. -/
def lowWord (key : BitVec 64) : BitVec 32 := key.setWidth 32

/-- The doubled capacity wraps to a table of one bucket, which refuses the second key of `2^31`. And
    `hash_key` does not ask `std::hash` about a wide key, so two keys that are equal and that
    `std::hash` gives equal hashes are stored as two entries. -/
theorem wrapped_or_folded_tables :
    (wrappedCfg.bucketCount = 1 ∧
      (runCalls wrappedCfg (fun _ : Unit => emptyWith (fun _ => 0#32) fun a b => a == b)
        [.tryEmplace () 0 (.value 5), .tryEmplace () 1 (.value 6)]).map
          (fun r => (r.2.map Prod.snd, (r.1 ()).size)) =
        some ([.flag true, .flag false], 1)) ∧
    ((Equivalence fun a b => (lowWord a == lowWord b) = true) ∧
      (∀ a b, (lowWord a == lowWord b) = true → lowWord a = lowWord b) ∧
      (lowWord 0#64 == lowWord 0x100000000#64) = true ∧
      (runCalls foldedCfg (fun _ : Unit => emptyWith lowWord fun a b => lowWord a == lowWord b)
        [.tryEmplace () 0#64 (.value 5), .tryEmplace () 0x100000000#64 (.value 6)]).map
          (fun r => (r.2.map Prod.snd, (r.1 ()).size)) =
        some ([.flag true, .flag true], 2)) := by
  refine ⟨⟨by decide, by decide +kernel⟩, equivalence_beq lowWord, ?_, by decide, by decide +kernel⟩
  intro a b h
  exact beq_iff_eq.mp h

end Metl.StaticUnorderedMap
