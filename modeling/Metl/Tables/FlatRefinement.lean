import Metl.Tables.FlatContents
import Metl.Tables.FlatTransfers

/-! Flat maps and sets are sorted bounded maps.

        calls on the arrays          w₀ ──call──▶ w₁ ──call──▶ w₂ …        searches, shifts, moves
                                     │            │            │
        calls on finite maps         M₀ ──call──▶ M₁ ──call──▶ M₂ …        entries

    A call on the arrays may refer into a container; the same call on the finite maps passes what the
    reference designates when the call is made. Positions are ranks: an iterator to a key tells how many
    keys come before it. -/

namespace Metl.FlatMap

open Metl.Schemes Metl.Schemes.Storage Metl.Schemes.Prog Function

variable {C K V : Type} [DecidableEq C] {cap : ℕ}

/-! ### Calls on finite maps -/

/-- What the containers stand for: each a comparator and a finite map. -/
structure Maps (C K V : Type) (cap : ℕ) where
  less : C → K → K → Bool
  map : C → FiniteMap K V cap

namespace Maps

def start (less : C → K → K → Bool) : Maps C K V cap :=
  ⟨less, fun c => FiniteMap.empty (equivalent (less c))⟩

def put (M : Maps C K V cap) (c : C) (μ : FiniteMap K V cap) : Maps C K V cap :=
  { M with map := update M.map c μ }

/-- A new entry: its key is absent and there is room. -/
def insert (M : Maps C K V cap) (c : C) (key : K) (value : V) : Option (Maps C K V cap) :=
  ((M.map c).add key value).map (M.put c)

def assign (M : Maps C K V cap) (c : C) (key : K) (value : V) : Maps C K V cap :=
  M.put c ((M.map c).assign key value)

def erase (M : Maps C K V cap) (c : C) (key : K) : Maps C K V cap := M.put c ((M.map c).erase key)

/-- The position of a key. -/
def rank (M : Maps C K V cap) (c : C) (key : K) : ℕ := FlatMap.rank (M.less c) (M.map c) key

def swap (M : Maps C K V cap) (c d : C) : Maps C K V cap :=
  ⟨exchanged M.less c d, exchanged M.map c d⟩

def copy (M : Maps C K V cap) (c d : C) : Maps C K V cap :=
  ⟨update M.less c (M.less d), update M.map c (M.map d)⟩

/-- The source is left empty, with what is left of its comparator. -/
def move (leftCompare : (K → K → Bool) → K → K → Bool) (M : Maps C K V cap) (c d : C) : Maps C K V cap :=
  if c = d then M
  else
    ⟨update (update M.less c (M.less d)) d (leftCompare (M.less d)), update (update M.map c (M.map d)) d
        (FiniteMap.empty (equivalent (leftCompare (M.less d))))⟩

end Maps

/-- A call on finite maps; none if its preconditions do not hold. -/
def act (leftCompare : (K → K → Bool) → K → K → Bool) (M : Maps C K V cap) :
    Request C K V K V K → Option (Maps C K V cap × Answer K V)
  | .tryEmplace c key value =>
    match M.insert c key value with
    | some M' => some (M', .flag true)
    | none => some (M, .flag false)
  | .emplace c key value =>
    (M.insert c key value).map fun M' => (M', .item (M.rank c key) key value)
  | .tryInsertOrAssign c key value =>
    match (M.map c).entry key with
    | some _ => some (M.assign c key value, .flag true)
    | none =>
      match M.insert c key value with
      | some M' => some (M', .flag true)
      | none => some (M, .flag false)
  | .insertOrAssign c key value =>
    match (M.map c).entry key with
    | some e => some (M.assign c key value, .item (M.rank c key) e.1 value)
    | none => (M.insert c key value).map fun M' => (M', .item (M.rank c key) key value)
  | .eraseKey c key =>
    match (M.map c).entry key with
    | some _ => some (M.erase c key, .flag true)
    | none => some (M, .flag false)
  | .eraseAt c key => some (M.erase c key, .position (M.rank c key))
  | .eraseIf c pred =>
    some (M.put c ((M.map c).filter fun e => !pred e.1 e.2),
      .count ((M.map c).entries.countP fun e => pred e.1 e.2))
  | .clear c => some (M.put c (FiniteMap.empty (equivalent (M.less c))), .done)
  | .swap c d => some (M.swap c d, .done)
  | .copyConstruct c d | .copyAssign c d => some (M.copy c d, .done)
  | .moveConstruct c d | .moveAssign c d => some (M.move leftCompare c d, .done)

/-- A call with its references read; none if one of them designates nothing. A container is not
    constructed from itself. -/
def resolve (σ : C → List (Entry K V)) : Ask C K V → Option (Request C K V K V K)
  | .tryEmplace c key value => (key.resolve Entry.key σ).bind fun k =>
    (value.resolve Entry.value σ).map fun v => .tryEmplace c k v
  | .emplace c key value => (key.resolve Entry.key σ).bind fun k =>
    (value.resolve Entry.value σ).map fun v => .emplace c k v
  | .tryInsertOrAssign c key value => (key.resolve Entry.key σ).bind fun k =>
    (value.resolve Entry.value σ).map fun v => .tryInsertOrAssign c k v
  | .insertOrAssign c key value => (key.resolve Entry.key σ).bind fun k =>
    (value.resolve Entry.value σ).map fun v => .insertOrAssign c k v
  | .eraseKey c key => (key.resolve Entry.key σ).map fun k => .eraseKey c k
  | .eraseAt c pos => ((σ c)[pos]?).map fun e => .eraseAt c e.key
  | .eraseIf c pred => some (.eraseIf c pred)
  | .clear c => some (.clear c)
  | .swap c d => some (.swap c d)
  | .copyConstruct c d => if c = d then none else some (.copyConstruct c d)
  | .copyAssign c d => some (.copyAssign c d)
  | .moveConstruct c d => if c = d then none else some (.moveConstruct c d)
  | .moveAssign c d => some (.moveAssign c d)

/-! ### Arrays and maps together -/

/-- Every container holds the increasing list of the entries of its map. -/
structure Keeps (M : Maps C K V cap) (σ : C → List (Entry K V)) (w : World C K V) : Prop where
  rep : Rep cap σ M.less w
  stands : ∀ c, Stands (M.less c) (σ c) (M.map c)

/-- The key is in the map, and its entry is at `index`. -/
structure Present (M : Maps C K V cap) (σ : C → List (Entry K V)) (c : C) (key : K) (index : ℕ)
    (a : Entry K V) : Prop where
  splits : Splits (M.less c) (σ c) key index
  found : (σ c)[index]? = some a
  same : equivalent (M.less c) a.key key = true
  entry : (M.map c).entry key = some a.pair

variable {T : Traits} {M : Maps C K V cap} {σ : C → List (Entry K V)} {w w' : World C K V} {c d : C}
  {index : ℕ} {a e : Entry K V} {key : Arg C K} {value : Arg C V} {k : K} {v : V} {S : Prop}
  {l : List (Entry K V)} {μ : FiniteMap K V cap}

section Keeps
omit [DecidableEq C]

theorem Keeps.sorted (h : Keeps M σ w) (x : C) : SortedBy (M.less x) (σ x) := (h.stands x).sorted

end Keeps

/-- One container has changed, and its map with it. -/
theorem Keeps.put (h : Keeps M σ w) (hrep : Rep cap (update σ c l) M.less w')
    (hl : Stands (M.less c) l μ) : Keeps (M.put c μ) (update σ c l) w' where
  rep := hrep
  stands := fun x => by
    rcases eq_or_ne x c with rfl | hx
    · simpa [Maps.put] using hl
    · simpa [Maps.put, hx] using h.stands x

/-! ### Searches -/

variable {Q : Unit → World C K V → Prop} {call : Request C K V K V K}

theorem ends_assignFrom (h : Keeps M σ w) (hp : Present M σ c k index a)
    (hv : value.resolve Entry.value σ = some v)
    (hret : ∀ w', Keeps (M.assign c k v) (update σ c ((σ c).set index { a with value := v })) w' →
      Q () w') : (assignFrom T c index value).EndsOr S w Q fun _ => True := by
  refine EndsOr.weaken (ends_bind (ends_argRead h.rep hv ?_))
  refine (ends_assignValue h.rep hp.found).mono (fun _ w₁ h₁ => hret w₁ ?_) fun _ _ => trivial
  exact h.put h₁ ((h.stands c).assign (h.rep.order c) hp.found hp.same v)

/-- Returned as the finite maps say, or stopped where they refuse. -/
def Agrees (leftCompare : (K → K → Bool) → K → K → Bool) (M : Maps C K V cap)
    (call : Request C K V K V K) (m : Prog (World C K V) (Answer K V)) (w : World C K V) : Prop :=
  m.EndsOr (act leftCompare M call = none) w
    (fun ans w' => ∃ M' σ', act leftCompare M call = some (M', ans) ∧ Keeps M' σ' w') fun _ => True

variable {P : Params K} {left : (K → K → Bool) → K → K → Bool}

section Insertions
variable (h : Keeps M σ w) (hkey : key.resolve Entry.key σ = some k)
  (hv : value.resolve Entry.value σ = some v)
include h hkey hv

end Insertions

omit [DecidableEq C] in
/-- An element is present under its own key. -/
theorem Keeps.present (h : Keeps M σ w) (he : (σ c)[index]? = some e) : Present M σ c e.key index e := by
  have hlt := h.rep.order c
  have hself : equivalent (M.less c) e.key e.key = true := equivalent_iff.mpr ⟨hlt.irrefl _, hlt.irrefl _⟩
  obtain ⟨hlen, -⟩ := List.getElem?_eq_some_iff.mp he
  refine ⟨⟨Nat.le_of_lt hlen, fun n a ha => ?_⟩, he, hself, (h.stands c).entry_of_equivalent hlt he hself⟩
  constructor
  · intro hbefore
    by_contra hge
    rcases Nat.eq_or_lt_of_le (Nat.le_of_not_lt hge) with rfl | hgt
    · rw [he, Option.some.injEq] at ha
      rw [ha, hlt.irrefl] at hbefore
      cases hbefore
    · rw [hlt.asymm _ _ ((h.sorted c).increasing hgt he ha)] at hbefore
      cases hbefore
  · intro hn
    exact (h.sorted c).increasing hn ha he

/-- The lookup returns `a` and changes nothing, whatever the calls of user code do; it throws only where
    exceptions are enabled. -/
def Yields {α : Type} (T : Traits) (m : Prog (World C K V) α) (w : World C K V) (a : α) : Prop :=
  ∀ script, m.Ends (withScript w script) (fun b w' => b = a ∧ ∀ x, entries w' x = entries w x)
    fun _ => T.noExceptions = false

/-- What a program sees of the containers is what the finite maps have. -/
structure Observed (T : Traits) (M : Maps C K V cap) (w : World C K V) : Prop where
  alive : ∀ c n, (w.cell (c, n)).isSome = true ↔ n < w.regs.size c
  increasing : ∀ c, SortedBy (M.less c) (entries w c)
  contents : ∀ c, ((entries w c).map Entry.pair).Perm (M.map c).entries
  equal : ∀ c, (M.map c).equal = equivalent (M.less c)
  size : ∀ c, w.regs.size c = (M.map c).entries.length
  find : ∀ c key, Yields T (find T c key) w (((M.map c).entry key).map fun _ => M.rank c key)
  ranked : ∀ c key e, (M.map c).entry key = some e →
    ((entries w c)[M.rank c key]?).map Entry.pair = some e
  contains : ∀ c key, Yields T (contains T c key) w ((M.map c).entry key).isSome
  lowerBound : ∀ c key, Yields T (lowerBoundIndex T c key) w
    ((entries w c).findIdx fun e => !M.less c e.key key)
  upperBound : ∀ c key, Yields T (upperBoundIndex T c key) w
    ((entries w c).findIdx fun e => M.less c key e.key)
  equalRange : ∀ c key, Yields T (equalRange T c key) w
    ((entries w c).findIdx fun e => !M.less c e.key key,
      (entries w c).findIdx fun e => M.less c key e.key)

section Lookups
omit [DecidableEq C]

theorem Keeps.lists (h : Keeps M σ w) (x : C) : entries w x = σ x := entries_eq h.rep.has x

theorem Keeps.scripted (h : Keeps M σ w) (script : List (Call K V)) :
    Keeps M σ (withScript w script) := ⟨h.rep.withScript script, h.stands⟩

variable {lt : K → K → Bool}

theorem Splits.findIdx (hs : Splits lt l k index) : l.findIdx (fun e => !lt e.key k) = index := by
  have hsplit : SplitsAt (fun e : Entry K V => lt e.key k) l index := ⟨hs.bound, hs.before⟩
  exact hsplit.findIdx

theorem findIdx_upper (hs : SplitsAt (fun e : Entry K V => !lt k e.key) l index) :
    l.findIdx (fun e => lt k e.key) = index := by
  have hfind := hs.findIdx
  simpa using hfind

/-- A lookup that reads only yields what its rule says. -/
theorem Keeps.yields {α : Type} {m : Prog (World C K V) α} {b : α} (h : Keeps M σ w)
    (hm : ∀ w₁, Keeps M σ w₁ → m.Ends w₁ (fun r w' => r = b ∧ Rep cap σ M.less w')
      fun _ => T.noExceptions = false) : Yields T m w b := by
  intro script
  refine (hm _ (h.scripted script)).mono (fun r w' => ?_) fun _ h' => h'
  rintro ⟨rfl, h'⟩
  refine ⟨rfl, fun x => ?_⟩
  rw [h.lists, entries_eq h'.has]

theorem Keeps.find (h : Keeps M σ w) (c : C) (k : K) : (find T c k).Ends w
      (fun r w' => r = (((M.map c).entry k).map fun _ => M.rank c k) ∧ Rep cap σ M.less w')
      fun _ => T.noExceptions = false := by
  have hlt := h.rep.order c
  refine ends_bind (ends_locate h.rep.has rfl (h.sorted c) hlt (fun w₁ found hfound h₁ => ?_)
    fun _ hno _ => hno)
  have hrank : M.rank c k = found.1 := (h.stands c).rank hfound.splits
  refine ends_pure ⟨?_, h₁, h.rep.room, h.rep.order⟩
  rcases hfound.entry hlt (h.stands c) with ⟨hpresent, a, -, -, hentry⟩ | ⟨hpresent, hentry⟩
  · rw [hpresent, hentry, hrank]
    rfl
  · rw [hpresent, hentry]
    rfl

theorem Keeps.ranked (h : Keeps M σ w) {p : K × V} (hp : (M.map c).entry k = some p) :
    ((σ c)[M.rank c k]?).map Entry.pair = some p := by
  have hlt := h.rep.order c
  have hstands := h.stands c
  -- the entry stands somewhere, and its position is the rank of an equivalent key
  obtain ⟨a, ha, rfl⟩ := List.mem_map.mp (hstands.entries.mem_iff.mpr (List.mem_of_find?_eq_some hp))
  obtain ⟨n, hn⟩ := List.mem_iff_getElem?.mp ha
  have hak : equivalent (M.less c) a.key k = true := by
    have := List.find?_some hp
    rwa [hstands.equal] at this
  obtain ⟨hak₁, hak₂⟩ := equivalent_iff.mp hak
  have hsplits : Splits (M.less c) (σ c) k n := by
    obtain ⟨hbound, hbefore⟩ := (h.present hn).splits
    refine ⟨hbound, fun m b hb => ?_⟩
    rw [← hbefore m b hb]
    constructor
    · intro hbk
      by_contra hba
      rw [hlt.trans _ _ _ (Bool.not_eq_true _ ▸ hba) hak₁] at hbk
      cases hbk
    · intro hba
      by_contra hbk
      rw [hlt.trans _ _ _ (Bool.not_eq_true _ ▸ hbk) hak₂] at hba
      cases hba
  rw [Maps.rank, hstands.rank hsplits, hn]
  rfl

theorem Keeps.observed (h : Keeps M σ w) : Observed T M w where
  alive := fun c n => by
    obtain ⟨script, hw⟩ := h.rep.has
    have hshape := congrArg Option.isSome (hw.shape (c, n))
    rw [Option.isSome_map] at hshape
    rw [hshape, hw.regs_eq]
    exact alive_iff (σ c) n
  increasing := fun c => by
    rw [h.lists]
    exact h.sorted c
  contents := fun c => by
    rw [h.lists]
    exact (h.stands c).entries
  equal := fun c => (h.stands c).equal
  size := fun c => by
    obtain ⟨script, hw⟩ := h.rep.has
    rw [hw.regs_eq, ← (h.stands c).length]
    rfl
  find := fun c key => h.yields fun w₁ h₁ => h₁.find c key
  ranked := fun c key e he => by
    rw [h.lists]
    exact h.ranked he
  contains := fun c key => h.yields fun w₁ h₁ => by
    refine ends_bind ((h₁.find c key).mono (fun r w' => ?_) fun _ h' => h')
    rintro ⟨rfl, h'⟩
    exact ends_pure ⟨Option.isSome_map .., h'⟩
  lowerBound := fun c key => h.yields fun w₁ h₁ => by
    rw [h.lists]
    exact ends_lowerBoundIndex h₁.rep (h.sorted c) (fun w' index hs h' => ⟨hs.findIdx.symm, h'⟩)
      fun _ hno => hno
  upperBound := fun c key => h.yields fun w₁ h₁ => by
    rw [h.lists]
    exact ends_upperBoundIndex h₁.rep (h.sorted c)
      (fun w' index hs h' => ⟨(findIdx_upper hs).symm, h'⟩) fun _ hno => hno
  equalRange := fun c key => h.yields fun w₁ h₁ => by
    rw [h.lists]
    refine ends_equalRange h₁.rep (h.sorted c) (fun w' lo hi hlo hhi h' => ⟨?_, h'⟩) fun _ hno => hno
    rw [hlo.findIdx, findIdx_upper hhi]

end Lookups

/-! ### Every run -/

/-- A call that returns does what it does on the finite maps, and one that answers `false` changes
    nothing; it stops only if the finite maps refuse it. -/
def Fulfils (P : Params K) (M : Maps C K V P.capacity) (call : Request C K V K V K)
    (w : World C K V) : Outcome (World C K V) (Answer K V) → Prop
  | .ret ans w' => ∃ M', act P.leftCompare M call = some (M', ans) ∧ Observed P.traits M' w' ∧
    (ans = .flag false → ∀ c, entries w' c = entries w c)
  | .thrown _ => True
  | .stopped => act P.leftCompare M call = none
  | .undefined => False

section Runs
variable {M : Maps C K V P.capacity} (hleft : ∀ lt, StrictWeak lt → StrictWeak (P.leftCompare lt))

include hleft

end Runs

/-- Three elements at most, which can be moved but not assigned. -/
def sampleParams : Params ℕ := ⟨{ throwingTraits with assignable := false }, 3, id⟩

end Metl.FlatMap
