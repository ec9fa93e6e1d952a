import Metl.Pools.HandlePool
import Metl.Schemes.Reuse

/-! Stale handles of `metl::handle_pool`.

    The history of a pool is the list of its issues: the handles it returned, with what was built for
    them. The generation of a slot is, before it wraps, twice the number of issues of that slot, less
    one while an object lives there; so a retained handle fits its slot again only after `2 ^ (g - 1)`
    further issues of that very slot. -/

namespace Metl.HandlePool
open Metl.Schemes Function

/-- A pool with its history. Ghosts: the issues so far, the issue whose object lives in a slot, and
    when each slot became free, slots never used counting as freed at construction in index order. -/
structure Hist (T : Type*) (g : ℕ) where
  pool : Pool T g
  issues : List (Handle g × T)
  owner : ℕ → Option ℕ
  freedAt : ℕ → ℕ
  clock : ℕ

/-- Calls; `tryEmplace none` is a call whose constructor throws. -/
inductive Op (T : Type*) (g : ℕ) where
  | tryEmplace (x : Option T)
  | get (h : Handle g)
  | contains (h : Handle g)
  | destroy (h : Handle g)
  | clear

inductive Res (T : Type*) (g : ℕ) where
  | handle (h : Handle g)
  | thrown
  | slot (found : Option (Slot T))
  | answer (b : Bool)
  | done

variable {T : Type*} (c : Cfg)

def Hist.init : Hist T c.g := ⟨HandlePool.init c, [], fun _ => none, id, c.capacity⟩

def tryEmplace (s : Hist T c.g) (x : Option T) : Option (Hist T c.g × Res T c.g) :=
  (claim c s.pool).map fun (slot, p) =>
    match slot, x with
    | none, _ => ({ s with pool := p }, .handle .null)
    | some i, none => ({ s with pool := unwind c p i }, .thrown)
    | some i, some x =>
      let p := construct c p i x
      ({ s with pool := p, issues := s.issues ++ [(issued c p i, x)],
                owner := update s.owner i (some s.issues.length) }, .handle (issued c p i))

/-- `release()`, with a destructor that makes no calls. -/
def release (s : Hist T c.g) (i : ℕ) : Option (Hist T c.g) :=
  (startRelease c s.pool i).map fun p =>
    { s with pool := appendFree c p i, owner := update s.owner i none,
             freedAt := update s.freedAt i s.clock, clock := s.clock + 1 }

def destroy (s : Hist T c.g) (h : Handle c.g) : Option (Hist T c.g × Res T c.g) :=
  if c.capacity ≤ liveIndex c s.pool h then some (s, .answer false)
  else (release c s (liveIndex c s.pool h)).map fun s' => (s', .answer true)

/-- The loop of `clear()` over the slots `is`. -/
def clearSlots : List ℕ → Hist T c.g → Option (Hist T c.g)
  | [], s => some s
  | i :: is, s =>
    if odd (s.pool.generation i) then (release c s i).bind (clearSlots is) else clearSlots is s

def call (s : Hist T c.g) : Op T c.g → Option (Hist T c.g × Res T c.g)
  | .tryEmplace x => tryEmplace c s x
  | .get h => some (s, .slot (get c s.pool h))
  | .contains h => some (s, .answer (contains c s.pool h))
  | .destroy h => destroy c s h
  | .clear => (clearSlots c (List.range c.capacity) s).map fun s' => (s', .done)

def next (s : Hist T c.g) (op : Op T c.g) : Option (Hist T c.g) := (call c s op).map Prod.fst

/-! ### Counting the issues of a slot -/

/-- The slots of the issues. -/
def slots {g : ℕ} (issues : List (Handle g × T)) : List ℕ := issues.map fun e => e.1.index.toNat

/-- How often slot `i` was issued. -/
def issueCount {g : ℕ} (issues : List (Handle g × T)) (i : ℕ) : ℕ := (slots issues).count i

/-- Between two calls a slot is free or holds the object of an issue. -/
def phaseOf (owner : ℕ → Option ℕ) (i : ℕ) : Phase := if (owner i).isSome then .live else .free

theorem phaseOf_update (owner : ℕ → Option ℕ) (i : ℕ) (o : Option ℕ) : phaseOf (update owner i o) =
      update (phaseOf owner) i (if o.isSome then .live else .free) := by
  funext j
  unfold phaseOf
  by_cases hji : j = i
  · simp [hji]
  · simp [hji]

theorem phaseOf_inUse (owner : ℕ → Option ℕ) (i : ℕ) : (phaseOf owner i).inUse = (owner i).isSome := by
  unfold phaseOf
  cases owner i <;> rfl

/-- The generation counts the issues of a slot; an object belongs to the last issue of its slot. -/
structure History (p : Pool T c.g) (issues : List (Handle c.g × T)) (owner : ℕ → Option ℕ) : Prop where
  generation : ∀ i < c.capacity,
    p.generation i = word c.g (2 * issueCount issues i - (owner i).isSome.toNat)
  issue : ∀ n h x, issues[n]? = some (h, x) → h.index.toNat < c.capacity ∧
    h.generation = word c.g (2 * issueCount (issues.take (n + 1)) h.index.toNat - 1)
  owner : ∀ i n, owner i = some n → ∃ h x, issues[n]? = some (h, x) ∧ h.index.toNat = i ∧
    p.storage i = .object x ∧ issueCount (issues.drop (n + 1)) i = 0

variable {c} {p p' : Pool T c.g} {issues : List (Handle c.g × T)} {owner : ℕ → Option ℕ} {i n : ℕ}

theorem issueCount_append (l l' : List (Handle c.g × T)) (i : ℕ) :
    issueCount (l ++ l') i = issueCount l i + issueCount l' i := by
  rw [issueCount, slots, List.map_append, List.count_append]
  rfl

theorem issueCount_singleton (h : Handle c.g) (x : T) (i : ℕ) :
    issueCount [(h, x)] i = if h.index.toNat = i then 1 else 0 := by
  simp [issueCount, slots, List.count_singleton]

variable {h : Handle c.g} {x : T} {freedAt : ℕ → ℕ} {clock : ℕ}

theorem issueCount_pos (hn : issues[n]? = some (h, x)) :
    0 < issueCount (issues.take (n + 1)) h.index.toNat := by
  refine List.count_pos_iff.mpr (List.mem_map.mpr ⟨(h, x), ?_, rfl⟩)
  rw [List.take_add_one, hn]
  simp

/-- The issues of a slot up to issue `n`, and those after it. -/
theorem issueCount_split (issues : List (Handle c.g × T)) (n i : ℕ) :
    issueCount issues i = issueCount (issues.take n) i + issueCount (issues.drop n) i := by
  rw [← issueCount_append, List.take_append_drop]

/-! ### What each call does to the history -/

/-- The word of a slot's index in a handle names the slot. -/
theorem issued_index (hi : i < c.capacity) : (issued c p i).index.toNat = i := by
  rw [issued, BitVec.toNat_ofNat]
  exact cast_index hi.le

/-- A new issue of a free slot. -/
theorem History.emplace (hh : History c p issues owner) (hi : i < c.capacity) (hfree : owner i = none)
    (hgen : p'.generation = update p.generation i (p.generation i + 1))
    (hobj : p'.storage = update p.storage i (.object x)) :
    History c p' (issues ++ [(issued c p' i, x)]) (update owner i (some issues.length)) := by
  have hidx : (issued c p' i).index.toNat = i := issued_index hi
  have hone : ∀ j, issueCount [(issued c p' i, x)] j = if i = j then 1 else 0 := fun j => by
    rw [issueCount_singleton, hidx]
  have hnew : p'.generation i = word c.g (2 * (issueCount issues i + 1) - 1) := by
    rw [hgen, update_self, hh.generation i hi, hfree]
    exact word_add c.g _ 1
  refine ⟨fun j hj => ?_, fun n h y hn => ?_, fun j n hn => ?_⟩
  · rcases eq_or_ne j i with rfl | hji
    · rw [issueCount_append, hone, if_pos rfl, update_self, hnew]
      rfl
    · rw [issueCount_append, hone, if_neg (Ne.symm hji), update_of_ne hji, hgen, update_of_ne hji]
      exact hh.generation j hj
  · rcases Nat.lt_or_ge n issues.length with hlt | hge
    · rw [List.getElem?_append_left hlt] at hn
      rw [List.take_append_of_le_length hlt]
      exact hh.issue n h y hn
    · -- the issue is the new one
      rw [List.getElem?_append_right hge, List.getElem?_singleton] at hn
      split at hn
      · next hz =>
        obtain ⟨rfl, rfl⟩ := Prod.mk.inj (Option.some.inj hn)
        rw [List.take_of_length_le (by simp; omega), hidx, issueCount_append, hone, if_pos rfl]
        exact ⟨hi, hnew⟩
      · cases hn
  · rcases eq_or_ne j i with rfl | hji
    · rw [update_self] at hn
      obtain rfl := Option.some.inj hn
      refine ⟨_, x, by simp, hidx, by rw [hobj, update_self], ?_⟩
      rw [List.drop_eq_nil_of_le (by simp)]
      rfl
    · rw [update_of_ne hji] at hn
      obtain ⟨h, y, hget, hslot, hstored, hlast⟩ := hh.owner j n hn
      have hlt : n < issues.length := (List.getElem?_eq_some_iff.mp hget).1
      refine ⟨h, y, by rw [List.getElem?_append_left hlt]; exact hget, hslot, ?_, ?_⟩
      · rw [hobj, update_of_ne hji, hstored]
      · rw [List.drop_append_of_le_length hlt, issueCount_append, hlast, hone, if_neg (Ne.symm hji)]

/-- The object in a slot dies. -/
theorem History.release (hh : History c p issues owner) (hi : i < c.capacity) (hlive : owner i = some n)
    (hgen : p'.generation = update p.generation i (p.generation i + 1))
    (hobj : ∀ j, j ≠ i → (owner j).isSome → p'.storage j = p.storage j) :
    History c p' issues (update owner i none) := by
  refine ⟨fun j hj => ?_, hh.issue, fun j m hm => ?_⟩
  · rcases eq_or_ne j i with rfl | hji
    · obtain ⟨h, x, hget, rfl, -, -⟩ := hh.owner _ _ hlive
      have hpos := issueCount_pos hget
      have hsplit := issueCount_split issues (n + 1) h.index.toNat
      rw [hgen, update_self, update_self, hh.generation _ hj, hlive]
      show word c.g (2 * issueCount issues h.index.toNat - 1) + word c.g 1 = _
      rw [word_add]
      congr 1
      simp only [Option.isSome_none, Bool.toNat_false]
      omega
    · rw [hgen, update_of_ne hji, update_of_ne hji]
      exact hh.generation j hj
  · have hji : j ≠ i := by
      rintro rfl
      simp at hm
    rw [update_of_ne hji] at hm
    obtain ⟨h, y, hget, hslot, hstored, hlast⟩ := hh.owner j m hm
    exact ⟨h, y, hget, hslot, by rw [hobj j hji (by rw [hm]; rfl), hstored], hlast⟩

/-! ### What each call does to the pool -/

section Calls
variable {free : List ℕ} {ph : ℕ → Phase}

/-- A claim steps over the first free slot. -/
theorem claim_cons (hr : Rep c p (i :: free) ph) :
    ∃ next ≤ c.capacity, p.storage i = .link next ∧ (c.capacity ≤ next ↔ free = []) ∧
      claim c p = some (some i, { p.setGeneration i (p.generation i + 1) with
        freeHead := next, size := p.size + 1 }) := by
  obtain ⟨hhead, hlt⟩ := hr.freeHead_cons
  obtain ⟨-, next, hnext, hrest⟩ := hr.chain
  have hlink : p.storage i = .link next := by
    rw [Pool.link] at hnext
    split at hnext
    · next n hn => rw [hn, Option.some.inj hnext]
    · cases hnext
  have hclaim : claim c p = some (some i, { p.setGeneration i (p.generation i + 1) with
      freeHead := next, size := p.size + 1 }) := by
    rw [claim, if_neg (by omega), hhead, hnext]
    rfl
  cases free with
  | nil =>
    obtain rfl : next = c.capacity := hrest
    exact ⟨_, Nat.le_refl _, hlink, by simp, hclaim⟩
  | cons j free =>
    obtain rfl : next = j := hrest.1
    have hj : next < c.capacity := ((hr.census.mem next).mp (by simp)).1
    exact ⟨next, hj.le, hlink, by simp [hj], hclaim⟩

/-- A throwing constructor puts everything back, the slot to the front where it was. -/
theorem unwind_claim (hr : Rep c p (i :: free) ph) (h : claim c p = some (some i, p')) :
    unwind c p' i = p := by
  obtain ⟨next, hle, hlink, hend, hclaim⟩ := claim_cons hr
  rw [hclaim] at h
  obtain rfl := (Prod.mk.inj (Option.some.inj h)).2
  have htail : (if c.capacity ≤ next then i else p.freeTail) = p.freeTail := by
    split
    · next hge => exact (hr.tail i (by simp [hend.mp hge])).symm
    · rfl
  rw [unwind_eq]
  cases p with
  | mk storage generation freeHead freeTail size =>
    have hhead : freeHead = i := hr.freeHead_cons.1
    simp only [Pool.setGeneration, Pool.mk.injEq, update_self, update_idem,
      BitVec.add_sub_cancel, update_eq_self, Nat.add_sub_cancel, cast_index hle, true_and, and_true]
    exact ⟨update_eq_self_iff.mpr hlink.symm, hhead.symm, htail⟩

theorem appendFree_generation : (appendFree c p i).generation = p.generation := by
  unfold appendFree Pool.setLink
  dsimp only
  split <;> rfl

/-- Appending a slot touches the bytes of free slots only. -/
theorem appendFree_storage {j : ℕ} (hr : Rep c p free ph) (hi : ph i = .dying) (hji : j ≠ i)
    (hj : ph j ≠ .free) : (appendFree c p i).storage j = p.storage j := by
  have hlt := hr.census.bound i (by rw [hi]; decide)
  rcases List.eq_nil_or_concat' free with rfl | ⟨l, t, rfl⟩
  · rw [appendFree_nil hr.freeHead_nil]
    exact update_of_ne hji ..
  · have hjt : j ≠ p.freeTail := by
      rw [hr.tail t (by simp)]
      rintro rfl
      exact hr.census.notMem hj (by simp)
    rw [appendFree_cons (hr.freeHead_lt (by simp)) hlt]
    simp only [update_of_ne hjt, update_of_ne hji]

end Calls

/-! ### Runs -/

/-- The free list, the history and the order in which slots come back, all in step. -/
structure Inv (d : ℕ) (s : Hist T c.g) (free : List ℕ) : Prop where
  rep : Rep c s.pool free (phaseOf s.owner)
  history : History c s.pool s.issues s.owner
  spread : Spread d (slots s.issues) free
  oldest : free.Pairwise fun i j => s.freedAt i < s.freedAt j
  recent : ∀ i < c.capacity, s.freedAt i < s.clock

variable {d : ℕ} {s s' : Hist T c.g} {free : List ℕ}

theorem inv_init : Inv d (Hist.init c : Hist T c.g) (List.range c.capacity) where
  rep := rep_init
  history := ⟨fun _ _ => rfl, by simp [Hist.init], by simp [Hist.init]⟩
  spread := Spread.nil
  oldest := List.pairwise_lt_range
  recent := fun _ hi => hi

theorem Inv.mem (hi : Inv d s free) (i : ℕ) : i ∈ free ↔ i < c.capacity ∧ s.owner i = none := by
  rw [hi.rep.census.mem i, phaseOf]
  cases s.owner i <;> simp

theorem Inv.owner_lt (hi : Inv d s free) (hn : s.owner i = some n) : i < c.capacity := by
  refine hi.rep.census.bound i ?_
  simp [phaseOf, hn]

theorem Inv.odd_generation (hi : Inv d s free) (hlt : i < c.capacity) :
    odd (s.pool.generation i) = (s.owner i).isSome := by
  rw [hi.rep.parity i hlt, phaseOf_inUse]

/-- Free slots and objects add up to the capacity. -/
theorem Inv.free_length (hi : Inv d s free) : free.length + s.pool.size = c.capacity := by
  have hperm : free.Perm ((List.range c.capacity).filter fun i => !(phaseOf s.owner i).inUse) := by
    refine (List.perm_ext_iff_of_nodup hi.rep.census.nodup (List.nodup_range.filter _)).mpr fun i => ?_
    rw [hi.mem i, List.mem_filter, List.mem_range, phaseOf_inUse]
    simp
  have hsplit := List.length_eq_length_filter_add (l := List.range c.capacity)
    fun i => (phaseOf s.owner i).inUse
  rw [List.length_range] at hsplit
  rw [hperm.length_eq, hi.rep.census.count, useCount]
  omega

theorem tryEmplace_full (hi : Inv d s []) (x : Option T) :
    tryEmplace c s x = some (s, .handle .null) := by
  rw [tryEmplace, rep_claim_full hi.rep]
  rfl

/-- A throwing constructor leaves the pool as it was. -/
theorem tryEmplace_throw (hi : Inv d s (i :: free)) : tryEmplace c s none = some (s, .thrown) := by
  obtain ⟨p, hp, -⟩ := rep_claim hi.rep
  rw [tryEmplace, hp]
  simp only [Option.map_some, unwind_claim hi.rep hp]

/-- STEP: an object is built in the slot that has been free the longest. -/
theorem inv_tryEmplace (hi : Inv d s (i :: free)) (x : T) :
    ∃ s', tryEmplace c s (some x) = some (s', .handle (issued c s'.pool i)) ∧ Inv d s' free ∧
      s'.issues = s.issues ++ [(issued c s'.pool i, x)] := by
  obtain ⟨next, -, -, -, hclaim⟩ := claim_cons hi.rep
  obtain ⟨p, hp, hrep⟩ := rep_claim hi.rep
  obtain hpool := (Prod.mk.inj (Option.some.inj (hp.symm.trans hclaim))).2
  obtain ⟨hlt, hfree⟩ := (hi.mem i).mp (List.mem_cons_self ..)
  have hbuilt := rep_construct x hrep (update_self ..)
  rw [update_idem] at hbuilt
  refine ⟨{ s with
      pool := construct c p i x, issues := s.issues ++ [(issued c (construct c p i x) i, x)],
      owner := update s.owner i (some s.issues.length) }, by rw [tryEmplace, hp]; rfl,
    ⟨?_, ?_, ?_, (List.pairwise_cons.mp hi.oldest).2, hi.recent⟩, rfl⟩
  · rw [phaseOf_update]
    exact hbuilt
  · exact hi.history.emplace hlt hfree (by rw [hpool]; rfl) (by rw [hpool]; rfl)
  · have htake := hi.spread.take (List.nodup_cons.mp hi.rep.census.nodup).1
    simp only [slots, List.map_append, List.map_cons, List.map_nil, issued_index hlt]
    exact htake

/-- A slot freed now is the last to be reused. -/
theorem oldest_append (h : free.Pairwise fun j k => freedAt j < freedAt k) (hnot : i ∉ free)
    (hrecent : ∀ j ∈ free, freedAt j < clock) : (free ++ [i]).Pairwise fun j k =>
      update freedAt i clock j < update freedAt i clock k := by
  have hne : ∀ j ∈ free, j ≠ i := fun j hj hji => hnot (hji ▸ hj)
  rw [List.pairwise_append]
  refine ⟨h.imp_of_mem fun hj hk hjk => ?_, List.pairwise_singleton .., fun j hj k hk => ?_⟩
  · rwa [update_of_ne (hne _ hj), update_of_ne (hne _ hk)]
  · rw [List.mem_singleton.mp hk, update_of_ne (hne j hj), update_self]
    exact hrecent j hj

theorem recent_update (h : ∀ j < c.capacity, freedAt j < clock) :
    ∀ j < c.capacity, update freedAt i clock j < clock + 1 := by
  intro j hj
  by_cases hji : j = i
  · rw [hji, update_self]
    exact Nat.lt_succ_self _
  · rw [update_of_ne hji]
    exact Nat.lt_succ_of_lt (h j hj)

/-- STEP: a release puts the slot behind all that are free. -/
theorem inv_release (hi : Inv d s free) (hd : d ≤ free.length) (hlive : s.owner i = some n) :
    ∃ s', release c s i = some s' ∧ Inv d s' (free ++ [i]) := by
  have hlt := hi.owner_lt hlive
  have hph : phaseOf s.owner i = .live := by rw [phaseOf, hlive]; rfl
  obtain ⟨p, hp, hrep⟩ := rep_startRelease hi.rep hph
  have hself : update (phaseOf s.owner) i .dying i = .dying := update_self ..
  have hback := rep_appendFree hrep hself
  rw [update_idem] at hback
  have hstart : p = { s.pool.setGeneration i (s.pool.generation i + 1) with
      size := s.pool.size - 1 } := by
    obtain ⟨x, hx⟩ := hi.rep.object i (.inl hph)
    rw [startRelease, hx] at hp
    exact (Option.some.inj hp).symm
  refine ⟨{ s with
      pool := appendFree c p i, owner := update s.owner i none,
      freedAt := update s.freedAt i s.clock, clock := s.clock + 1 },
    by rw [release, hp]; rfl, ⟨?_, ?_, hi.spread.give hd, ?_, ?_⟩⟩
  · rw [phaseOf_update]
    exact hback
  · refine hi.history.release hlt hlive ?_ fun j hji hj => ?_
    · rw [appendFree_generation, hstart]
      rfl
    · rw [appendFree_storage hrep hself hji ?_, hstart]
      · rfl
      · rw [update_of_ne hji, phaseOf, if_pos hj]
        decide
  · refine oldest_append hi.oldest (fun hmem => ?_) fun j hj => hi.recent j ((hi.mem j).mp hj).1
    rw [hi.mem i, hlive] at hmem
    cases hmem.2
  · exact recent_update hi.recent

theorem inv_clearSlots (is : List ℕ) (hi : Inv d s free) (hd : d ≤ free.length)
    (hlt : ∀ i ∈ is, i < c.capacity) : ∃ s' free', clearSlots c is s = some s' ∧ Inv d s' free' := by
  induction is generalizing s free with
  | nil => exact ⟨s, free, rfl, hi⟩
  | cons i is ih =>
    obtain ⟨hi0, hrest⟩ := List.forall_mem_cons.mp hlt
    rw [clearSlots, hi.odd_generation hi0]
    cases hown : s.owner i with
    | none => exact ih hi hd hrest
    | some n =>
      obtain ⟨s₁, hs₁, hi₁⟩ := inv_release hi hd hown
      simp only [Option.isSome_some, if_true, hs₁, Option.bind_some]
      exact ih hi₁ (by simp; omega) hrest

/-! ### Stale handles -/

theorem liveIndex_of_contains (hc : contains c p h = true) : liveIndex c p h = h.index.toNat := by
  obtain ⟨hlt, hodd, hgen⟩ := (contains_iff h).mp hc
  rw [liveIndex, if_pos hodd, if_neg (by simp [hgen, hlt])]

theorem liveIndex_lt : liveIndex c p h < c.capacity ↔ contains c p h = true := by
  rw [contains, decide_eq_true_iff]

/-- A handle that does not resolve changes nothing. -/
theorem destroy_stale (hc : contains c s.pool h = false) : destroy c s h = some (s, .answer false) := by
  have hge : ¬ liveIndex c s.pool h < c.capacity := by rw [liveIndex_lt, hc]; exact Bool.false_ne_true
  rw [destroy, if_pos (Nat.le_of_not_lt hge)]

theorem inv_destroy (hi : Inv d s free) (hd : d ≤ free.length) (hc : contains c s.pool h = true) :
    ∃ s' free', destroy c s h = some (s', .answer true) ∧ Inv d s' free' := by
  obtain ⟨hlt, hodd, hgen⟩ := (contains_iff h).mp hc
  rw [← hgen, hi.odd_generation hlt] at hodd
  obtain ⟨n, hn⟩ := Option.isSome_iff_exists.mp hodd
  obtain ⟨s', hs', hi'⟩ := inv_release hi hd hn
  refine ⟨s', _, ?_, hi'⟩
  rw [destroy, if_neg (Nat.not_le.mpr (liveIndex_lt.mpr hc)), liveIndex_of_contains hc, hs']
  rfl

/-- STEP: every call returns and keeps the invariant. -/
theorem inv_next (hi : Inv d s free) (hd : d ≤ free.length) (op : Op T c.g) :
    ∃ s' free', next c s op = some s' ∧ Inv d s' free' := by
  cases op with
  | tryEmplace x =>
    cases free with
    | nil => exact ⟨s, [], by rw [next, call, tryEmplace_full hi]; rfl, hi⟩
    | cons i free =>
      cases x with
      | none => exact ⟨s, i :: free, by rw [next, call, tryEmplace_throw hi]; rfl, hi⟩
      | some x =>
        obtain ⟨s', hs', hi', -⟩ := inv_tryEmplace hi x
        exact ⟨s', free, by rw [next, call, hs']; rfl, hi'⟩
  | get h => exact ⟨s, free, rfl, hi⟩
  | contains h => exact ⟨s, free, rfl, hi⟩
  | destroy h =>
    cases hc : contains c s.pool h with
    | false => exact ⟨s, free, by rw [next, call, destroy_stale hc]; rfl, hi⟩
    | true =>
      obtain ⟨s', free', hs', hi'⟩ := inv_destroy hi hd hc
      exact ⟨s', free', by rw [next, call, hs']; rfl, hi'⟩
  | clear =>
    obtain ⟨s', free', hs', hi'⟩ := inv_clearSlots (List.range c.capacity) hi hd (by simp)
    exact ⟨s', free', by rw [next, call, hs']; rfl, hi'⟩

/-- RUN: every sequence of calls returns. -/
theorem inv_run (ops : List (Op T c.g)) (hi : Inv 0 s free) :
    ∃ s', run (next c) s ops = some s' ∧ ∃ free', Inv 0 s' free' := by
  refine run_total (t := ()) (fun _ _ => ()) (fun s _ => ∃ free, Inv 0 s free) (fun _ => True)
    (fun s _ op h _ => ?_) ⟨free, hi⟩ fun _ _ => trivial
  obtain ⟨free, hi⟩ := h
  obtain ⟨s', free', hs', hi'⟩ := inv_next hi (Nat.zero_le _) op
  exact ⟨s', hs', free', hi'⟩

/-- An issue of slot `i` at or before `m` when the slot was not issued after `m`. -/
theorem issue_le {m : ℕ} (hlast : issueCount (issues.drop (m + 1)) i = 0)
    (hn : issues[n]? = some (h, x)) (hslot : h.index.toNat = i) : n ≤ m := by
  by_contra hlt
  have hmem : (h, x) ∈ issues.drop (m + 1) := by
    refine List.mem_iff_getElem?.mpr ⟨n - (m + 1), ?_⟩
    rw [List.getElem?_drop, show m + 1 + (n - (m + 1)) = n by omega, hn]
  exact List.count_eq_zero.mp hlast (List.mem_map.mpr ⟨_, hmem, hslot⟩)

theorem History.odd_issue (hh : History c p issues owner) (hn : issues[n]? = some (h, x)) :
    odd h.generation = true := by
  have hpos := issueCount_pos hn
  rw [(hh.issue n h x hn).2, odd_word c.g_pos, decide_eq_true_iff]
  omega

/-- The object a handle was issued for is alive: the handle resolves. -/
theorem Inv.contains_of_owner (hi : Inv d s free) (hn : s.issues[n]? = some (h, x))
    (hown : s.owner h.index.toNat = some n) : contains c s.pool h = true := by
  obtain ⟨hlt, hgen⟩ := hi.history.issue n h x hn
  obtain ⟨-, -, -, -, -, hlast⟩ := hi.history.owner _ n hown
  refine (contains_iff h).mpr ⟨hlt, hi.history.odd_issue hn, ?_⟩
  rw [hgen, hi.history.generation _ hlt, hown, issueCount_split _ (n + 1), hlast]
  rfl

/-- A handle whose slot was issued fewer than `2 ^ (g - 1)` further times resolves to its own object
    only. -/
theorem Inv.owner_of_contains (hi : Inv d s free) (hn : s.issues[n]? = some (h, x))
    (hfew : issueCount (s.issues.drop (n + 1)) h.index.toNat < 2 ^ (c.g - 1))
    (hc : contains c s.pool h = true) : s.owner h.index.toNat = some n := by
  obtain ⟨hlt, hodd, hgen⟩ := (contains_iff h).mp hc
  rw [← hgen, hi.odd_generation hlt] at hodd
  obtain ⟨m, hm⟩ := Option.isSome_iff_exists.mp hodd
  obtain ⟨hm', y, hget, hslot, -, hlast⟩ := hi.history.owner _ m hm
  have hpos := issueCount_pos hn
  have hpow : 2 * 2 ^ (c.g - 1) = 2 ^ c.g := by
    rw [← Nat.pow_succ', Nat.succ_eq_add_one, Nat.sub_add_cancel c.g_pos]
  -- the generations agree, so no issue of the slot lies between
  rw [(hi.history.issue n h x hn).2, hi.history.generation _ hlt, hm, issueCount_split _ (n + 1)] at hgen
  have hsame := word_inj (by simp; omega) (by simp; omega) hgen.symm
  simp only [Option.isSome_some, Bool.toNat_true] at hsame
  have hnm : n ≤ m := issue_le hlast hn rfl
  have hmn : m ≤ n := issue_le (by omega) hget hslot
  rw [hm, Nat.le_antisymm hmn hnm]

/-- `get()` on a handle that resolves. -/
theorem get_of_contains (hc : contains c p h = true) : get c p h = some (p.storage h.index.toNat) := by
  rw [get, if_pos (liveIndex_lt.mpr hc), liveIndex_of_contains hc]

theorem get_stale (hc : contains c p h = false) : get c p h = none := by
  rw [get, if_neg]
  rw [liveIndex_lt, hc]
  exact Bool.false_ne_true

variable (c)

/-- How handle `h`, issued for `x` by issue `n`, is answered: by its own object, as long as that lives. -/
structure Answered (s : Hist T c.g) (n : ℕ) (h : Handle c.g) (x : T) : Prop where
  contains : contains c s.pool h = true ↔ s.owner h.index.toNat = some n
  get_ne : get c s.pool h ≠ none ↔ s.owner h.index.toNat = some n
  get : s.owner h.index.toNat = some n → get c s.pool h = some (.object x)
  destroy : (∃ s', destroy c s h = some (s', .answer true)) ↔ s.owner h.index.toNat = some n

variable {c}

theorem Inv.answered (hi : Inv 0 s free) (hn : s.issues[n]? = some (h, x))
    (hfew : issueCount (s.issues.drop (n + 1)) h.index.toNat < 2 ^ (c.g - 1)) : Answered c s n h x := by
  have hiff : HandlePool.contains c s.pool h = true ↔ s.owner h.index.toNat = some n :=
    ⟨hi.owner_of_contains hn hfew, hi.contains_of_owner hn⟩
  refine ⟨hiff, ?_, fun hown => ?_, ?_⟩
  · rw [← hiff]
    cases hc : HandlePool.contains c s.pool h with
    | false => simp [get_stale hc]
    | true => simp [get_of_contains hc]
  · obtain ⟨_, y, hget, -, hstored, -⟩ := hi.history.owner _ n hown
    obtain ⟨-, rfl⟩ := Prod.mk.inj (Option.some.inj (hn.symm.trans hget))
    rw [get_of_contains (hiff.mpr hown), hstored]
  · rw [← hiff]
    cases hc : HandlePool.contains c s.pool h with
    | false => simp [destroy_stale hc]
    | true =>
      obtain ⟨s', -, hs', -⟩ := inv_destroy hi (Nat.zero_le _) hc
      exact ⟨fun _ => rfl, fun _ => ⟨s', hs'⟩⟩

/-- Calls in a run in which at most `most` objects are ever alive. -/
def boundedNext (c : Cfg) (most : ℕ) (s : Hist T c.g) (op : Op T c.g) : Option (Hist T c.g) :=
  (next c s op).filter fun s' => decide (s'.pool.size ≤ most)

/-- RUN: with at most `most` objects alive, the free list never gets short. -/
theorem inv_boundedRun {most : ℕ} {ops : List (Op T c.g)}
    (h : run (boundedNext c most) (Hist.init c) ops = some s) :
    ∃ free, Inv (c.capacity - most) s free ∧ s.pool.size ≤ most := by
  refine run_inv (I := fun s => ∃ free, Inv (c.capacity - most) s free ∧ s.pool.size ≤ most) ?_ ops
    (Hist.init c) s ⟨_, inv_init, Nat.zero_le _⟩ h
  rintro s op s' ⟨free, hi, hsize⟩ hstep
  obtain ⟨hs', hbound⟩ := Option.filter_eq_some_iff.mp hstep
  have hlen := hi.free_length
  obtain ⟨s₁, free₁, hs₁, hi₁⟩ := inv_next hi (by omega) op
  obtain rfl := Option.some.inj (hs₁.symm.trans hs')
  exact ⟨free₁, hi₁, of_decide_eq_true hbound⟩

/-- The next slot is the one that has been free the longest. -/
theorem Inv.tryEmplace_oldest (hi : Inv d s free) (x : T) :
    ∃ s' h, tryEmplace c s (some x) = some (s', .handle h) ∧ (h = .null ∨
      s.owner h.index.toNat = none ∧ ∀ j < c.capacity, s.owner j = none → j ≠ h.index.toNat →
        s.freedAt h.index.toNat < s.freedAt j) := by
  cases free with
  | nil => exact ⟨s, _, tryEmplace_full hi _, .inl rfl⟩
  | cons i free =>
    obtain ⟨hlt, hfree⟩ := (hi.mem i).mp (List.mem_cons_self ..)
    obtain ⟨s', hs', -⟩ := inv_tryEmplace hi x
    refine ⟨s', _, hs', .inr ?_⟩
    rw [issued_index hlt]
    refine ⟨hfree, fun j hj hjfree hne => ?_⟩
    have hmem : j ∈ free := ((List.mem_cons.mp ((hi.mem j).mpr ⟨hj, hjfree⟩)).resolve_left hne)
    exact (List.pairwise_cons.mp hi.oldest).1 j hmem

/-- A stale handle that resolves has seen its slot through all generations. -/
theorem Inv.alias_count (hi : Inv d s free) (hn : s.issues[n]? = some (h, x))
    (hdead : s.owner h.index.toNat ≠ some n) (hc : contains c s.pool h = true) :
    (d + 1) * 2 ^ (c.g - 1) ≤ s.issues.length - (n + 1) := by
  have hmany : 2 ^ (c.g - 1) ≤ issueCount (s.issues.drop (n + 1)) h.index.toNat := by
    by_contra hfew
    exact hdead (hi.owner_of_contains hn (Nat.lt_of_not_le hfew) hc)
  have hsplit : slots s.issues =
      slots (s.issues.take n) ++ h.index.toNat :: slots (s.issues.drop (n + 1)) := by
    obtain ⟨hlt, hget⟩ := List.getElem?_eq_some_iff.mp hn
    conv_lhs => rw [← List.take_append_drop n s.issues, List.drop_eq_getElem_cons hlt, hget]
    simp [slots]
  calc (d + 1) * 2 ^ (c.g - 1) ≤ (d + 1) * issueCount (s.issues.drop (n + 1)) h.index.toNat :=
        Nat.mul_le_mul_left _ hmany
    _ = issueCount (s.issues.drop (n + 1)) h.index.toNat * (d + 1) := Nat.mul_comm ..
    _ ≤ (slots (s.issues.drop (n + 1))).length := hi.spread.count hsplit
    _ = s.issues.length - (n + 1) := by simp [slots]

/-- CORRECT: with at most `most` objects alive, issues of one slot lie far apart, and a handle to a
    destroyed object does not resolve again for long. -/
theorem reuse_spread (c : Cfg) (most : ℕ) (ops : List (Op T c.g)) (s : Hist T c.g)
    (h : run (boundedNext c most) (Hist.init c) ops = some s) :
    (∀ x, ∃ s' h, tryEmplace c s (some x) = some (s', .handle h) ∧ (h = .null ∨
      s.owner h.index.toNat = none ∧ ∀ j < c.capacity, s.owner j = none → j ≠ h.index.toNat →
        s.freedAt h.index.toNat < s.freedAt j)) ∧
    (∀ l a b i, slots s.issues = l ++ i :: (a ++ i :: b) → c.capacity - most ≤ a.length) ∧
    ∀ n h x, s.issues[n]? = some (h, x) → s.owner h.index.toNat ≠ some n →
      contains c s.pool h = true →
      (c.capacity - most + 1) * 2 ^ (c.g - 1) ≤ s.issues.length - (n + 1) := by
  obtain ⟨free, hi, -⟩ := inv_boundedRun h
  exact ⟨hi.tryEmplace_oldest, hi.spread.apart, fun n h x hn hdead hc => hi.alias_count hn hdead hc⟩

/-- Two slots and a one-bit generation: the smallest pool in which a generation comes round. -/
def wrapCfg : Cfg := ⟨2, 1, by decide, by decide⟩

/-- One object at a time, until slot 0 is used again. -/
def wrapRun : List (Op ℕ 1) :=
  [.tryEmplace (some 7), .destroy ⟨0, 1⟩, .tryEmplace (some 8), .destroy ⟨1, 1⟩, .tryEmplace (some 9)]

/-- The bound is met: the first handle aliases the third object. -/
theorem reuse_spread_wrapRun : ∃ s, run (boundedNext wrapCfg 1) (Hist.init wrapCfg) wrapRun = some s ∧
    s.owner 0 = some 2 ∧ contains wrapCfg s.pool ⟨0, 1⟩ = true ∧
    (2 - 1 + 1) * 2 ^ (1 - 1) ≤ s.issues.length - (0 + 1) ∧ s.issues.length = 3 :=
  ⟨_, rfl, rfl, rfl,
    (reuse_spread wrapCfg 1 wrapRun _ rfl).2.2 0 ⟨0, 1⟩ 7 rfl (by decide) rfl, rfl⟩

end Metl.HandlePool
