import Metl.Pools.PoolBytes

/-! Which slots of `metl::object_pool` hold objects, and which addresses name them.

    Between two calls a slot is live, on the stack of freed ones, or was never used, and the addresses
    the pool knows are the first bytes of its live slots.

        0       1       2       3       4
        │ live  │ freed │ live  │ freed │ never used …      unused_ = 4
                  └─────────────▶ 0

    The phases of the typed pool carry the invariant: with no callback running there are only two of
    them, and the objects sit where the phase is `live`. -/

namespace Metl.PoolBytes
open Metl.Schemes Function
open Metl.ObjectPool (linkBits slotPtr indexOf)

variable {T : Type*} {c : Layout T}

/-- The live slots in index order. -/
def Pool.liveSlots (s : Pool c) : List ℕ := (List.range c.capacity).filter fun i => s.live i

/-- `object` is the address at which the living object `k` starts; it sits in slot `i`. -/
def Starts (v : World c) (object : BitVec c.w) (i k : ℕ) : Prop :=
  i < c.capacity ∧ v.holds i = some k ∧ object = slotPtr c.toCfg i

/-- An object that stays keeps its value. -/
def Kept (v v' : World c) : Prop :=
  ∀ j k, v.holds j = some k → v'.holds j = some k → v'.pool.object j = v.pool.object j

/-- What holds of a pool between two calls. The slots are split in three; following the links from
    `free_head_` visits the freed ones and stops, so no stored link lost an index or the end. -/
structure Sound (v : World c) : Prop where
  slots : ∃ freed : List ℕ,
    Chain (fun i => some (v.pool.link i).toNat) (· + 1) 0 v.pool.freeHead.toNat freed ∧
    (v.pool.liveSlots ++ (freed ++
      List.range' v.pool.unused.toNat (c.capacity - v.pool.unused.toNat))).Perm
        (List.range c.capacity)
  unused_le : v.pool.unused.toNat ≤ c.capacity
  used : ∀ i, v.used i = true ↔ i < v.pool.unused.toNat
  narrow : ∀ i < c.capacity, (BitVec.ofNat (linkBits c.capacity) (i + 1)).toNat = i + 1
  size : v.pool.size = v.pool.liveSlots.length
  objects : ∀ i, (v.holds i).isSome = true ↔ i ∈ v.pool.liveSlots
  ledger : Ledger v.holds v.built v.gone

/-- What a call answers and does. -/
def Serves (v : World c) : Call c → Answer c → World c → Prop
  | .tryEmplace made, a, v' =>
    (a = .pointer none ↔ v.pool.liveSlots.length = c.capacity) ∧ (a = .pointer none → v' = v) ∧
    Kept v v' ∧ v'.gone = v.gone ∧
    (a ≠ .pointer none → match made with
      | .object x => ∃ i < c.capacity, i ∉ v.pool.liveSlots ∧
          a = .pointer (some (slotPtr c.toCfg i)) ∧ v'.built = v.built + 1 ∧
          v'.holds = update v.holds i (some v.built) ∧ v'.pool.object i = x
      | .throws _ => a = .thrown ∧ v'.built = v.built ∧ v'.holds = v.holds)
  | .destroy object _, a, v' =>
    (a = .flag true ∧ Kept v v' ∧ v'.built = v.built ∧ ∃ i k, Starts v object i k ∧
      v'.holds = update v.holds i none ∧ v'.gone = v.gone ++ [k]) ∨
    (a = .flag false ∧ v' = v ∧ ∀ i k, ¬Starts v object i k)
  | .contains object, a, v' =>
    v' = v ∧ ((a = .flag true ∧ ∃ i k, Starts v object i k) ∨
      (a = .flag false ∧ ∀ i k, ¬Starts v object i k))
  | .clear _, a, v' =>
    a = .done ∧ v'.built = v.built ∧ (∀ i, v'.holds i = none) ∧
    v'.gone = v.gone ++ (List.range c.capacity).filterMap v.holds ∧
    v'.gone.Perm (List.range v'.built)
  | .assign object x, a, v' =>
    a = .done ∧ v'.built = v.built ∧ v'.holds = v.holds ∧ v'.gone = v.gone ∧
    ∀ i k, v.holds i = some k →
      v'.pool.object i = if object = slotPtr c.toCfg i then x else v.pool.object i

/-! ### The invariant -/

/-- The typed pool behind the bytes, the free slots in the order they will be taken, the phases. -/
structure Inv (v : World c) (p : ObjectPool.Pool T) (free : List ℕ) (ph : ℕ → Phase) : Prop where
  mirrors : Mirrors v.pool p
  rep : ObjectPool.Rep c.toCfg p free ph
  calm : ∀ i, ph i = .free ∨ ph i = .live
  objects : ∀ i, (v.holds i).isSome = true ↔ ph i = .live
  used : ∀ i, v.used i = true ↔ i < p.unused
  ledger : Ledger v.holds v.built v.gone

/-- Some typed pool stands behind the bytes. -/
def Good (v : World c) : Prop := ∃ p free ph, Inv v p free ph

variable {v v' : World c} {p : ObjectPool.Pool T} {free : List ℕ} {ph : ℕ → Phase} {i k : ℕ}

theorem good_new (c : Layout T) (garbage : ℕ → UInt8) : Good (World.new c garbage) :=
  ⟨_, _, _, mirrors_new garbage, ObjectPool.rep_init, fun _ => .inl rfl, by simp [World.new],
    by simp [World.new, ObjectPool.init], Ledger.init⟩

namespace Inv

section

variable (h : Inv v p free ph)
include h

theorem bound (hi : ph i = .live) : i < c.capacity :=
  h.rep.census.bound i (by rw [hi]; decide)

theorem live_iff (hi : i < c.capacity) : v.pool.live i = true ↔ ph i = .live := by
  rw [h.mirrors.live, h.rep.live i hi]
  rcases h.calm i with hph | hph <;> simp [hph, Phase.inUse]

theorem mem_liveSlots : i ∈ v.pool.liveSlots ↔ ph i = .live := by
  rw [Pool.liveSlots, List.mem_filter, List.mem_range]
  constructor
  · rintro ⟨hi, hlive⟩
    exact (h.live_iff hi).mp hlive
  · intro hph
    exact ⟨h.bound hph, (h.live_iff (h.bound hph)).mpr hph⟩

/-- The live slots and the free ones are all the slots. -/
theorem perm : (v.pool.liveSlots ++ free).Perm (List.range c.capacity) := by
  have hnodup : (v.pool.liveSlots ++ free).Nodup := by
    refine List.nodup_append.mpr ⟨List.nodup_range.filter _, h.rep.census.nodup, ?_⟩
    rintro i hlive j hfree rfl
    have hph := ((h.rep.census.mem i).mp hfree).2
    rw [h.mem_liveSlots.mp hlive] at hph
    cases hph
  refine (List.perm_ext_iff_of_nodup hnodup List.nodup_range).mpr ?_
  intro i
  rw [List.mem_append, h.mem_liveSlots, h.rep.census.mem, List.mem_range]
  constructor
  · rintro (hph | ⟨hi, -⟩)
    · exact h.bound hph
    · exact hi
  · intro hi
    rcases h.calm i with hph | hph
    · exact .inr ⟨hi, hph⟩
    · exact .inl hph

/-- The pool is full when no slot is free. -/
theorem full_iff : v.pool.liveSlots.length = c.capacity ↔ free = [] := by
  have hlen := h.perm.length_eq
  rw [List.length_append, List.length_range] at hlen
  rw [← List.length_eq_zero_iff]
  omega

/-- The typed pool's stack of freed slots stands in the bytes. -/
theorem sound : Sound v where
  slots := by
    obtain ⟨l, hchain, hfree⟩ := h.rep.freed
    have hperm := h.perm
    rw [hfree, ← h.mirrors.unused] at hperm
    rw [← h.mirrors.freeHead] at hchain
    exact ⟨l, hchain.mono fun j _ n hn => congrArg some (h.mirrors.link hn), hperm⟩
  unused_le := h.mirrors.unused ▸ h.rep.unused_le
  used := h.mirrors.unused ▸ h.used
  narrow := fun i hi => (BitVec.toNat_ofNat ..).trans (ObjectPool.cast_link c.capacity_lt hi)
  size := by
    rw [h.mirrors.size, h.rep.census.count, useCount, Pool.liveSlots]
    congr 1
    refine List.filter_congr fun i hi => ?_
    rw [h.mirrors.live, h.rep.live i (List.mem_range.mp hi)]
  objects := fun i => (h.objects i).trans h.mem_liveSlots.symm
  ledger := h.ledger

/-- `contains()` knows exactly the addresses at which living objects start. -/
theorem contains_iff (object : BitVec c.w) :
    v.pool.contains object = true ↔ ∃ i k, Starts v object i k := by
  rw [Pool.contains, Bool.and_eq_true, decide_eq_true_iff]
  constructor
  · rintro ⟨hlt, hlive⟩
    obtain ⟨k, hk⟩ := Option.isSome_iff_exists.mp ((h.objects _).mpr ((h.live_iff hlt).mp hlive))
    exact ⟨_, k, hlt, hk, (ObjectPool.slotPtr_indexOf c.toCfg hlt).symm⟩
  · rintro ⟨i, k, hlt, hk, rfl⟩
    rw [ObjectPool.indexOf_slotPtr c.toCfg hlt]
    exact ⟨hlt, (h.live_iff hlt).mpr ((h.objects i).mp (by rw [hk]; rfl))⟩

theorem empty (hi : ph i ≠ .live) : v.holds i = none := by
  rw [← Option.not_isSome_iff_eq_none, h.objects]
  exact hi

/-! ### The calls -/

/-- One slot goes to the other phase and its object comes or goes with it. -/
theorem objects_update {x : Phase} {o : Option ℕ} (hx : o.isSome = true ↔ x = .live) (j : ℕ) :
    (update v.holds i o j).isSome = true ↔ update ph i x j = .live := by
  rcases eq_or_ne j i with rfl | hji
  · rw [update_self, update_self, hx]
  · rw [update_of_ne hji, update_of_ne hji, h.objects]

theorem calm_update {x : Phase} (hx : x = .free ∨ x = .live) (j : ℕ) :
    update ph i x j = .free ∨ update ph i x j = .live := by
  rcases eq_or_ne j i with rfl | hji
  · rw [update_self]
    exact hx
  · rw [update_of_ne hji]
    exact h.calm j

end

/-- `try_emplace()` takes the first free slot. -/
theorem claim (h : Inv v p (i :: free) ph) : ∃ s p', v.pool.claim = (some i, s) ∧
    s.storage = v.pool.storage ∧ Mirrors s p' ∧ ObjectPool.Rep c.toCfg p' free (update ph i .building) ∧
    ∀ j, update v.used i true j = true ↔ j < p'.unused := by
  obtain ⟨p', hclaim, hrep⟩ := ObjectPool.rep_claim c.capacity_lt h.rep
  obtain ⟨s, hs, hstorage, hmirrors⟩ := h.mirrors.claim hclaim
  refine ⟨s, p', hs, hstorage, hmirrors, hrep, ?_⟩
  intro j
  rw [ObjectPool.unused_claim c.capacity_lt h.rep hclaim j, ← h.used j]
  rcases eq_or_ne j i with rfl | hji
  · simp
  · simp [hji]

end Inv

/-- The bytes of one slot changed, and no object was or is there throughout. -/
theorem Touches.kept (h : Touches i v.pool v'.pool) (hi : v.holds i = none ∨ v'.holds i = none) :
    Kept v v' := by
  intro j k hj hj'
  refine h.object ?_
  rintro rfl
  rcases hi with hi | hi
  · rw [hi] at hj
    cases hj
  · rw [hi] at hj'
    cases hj'

theorem tryEmplace_full (h : Inv v p [] ph) (made : Made c) : tryEmplace v made = (v, .pointer none) := by
  obtain ⟨s, hs, -⟩ := h.mirrors.claim (ObjectPool.rep_claim_full h.rep)
  rw [tryEmplace, hs]

/-- STEP: a constructor that returns makes its object in a slot that was not live. -/
theorem tryEmplace_object (h : Inv v p (i :: free) ph) (x : T) :
    ∃ v', tryEmplace v (.object x) = (v', .pointer (some (slotPtr c.toCfg i))) ∧ Good v' ∧
      Kept v v' ∧ v'.gone = v.gone ∧ v'.built = v.built + 1 ∧
      v'.holds = update v.holds i (some v.built) ∧ v'.pool.object i = x := by
  obtain ⟨s, p', hs, hstorage, hmirrors, hrep, hused⟩ := h.claim
  have hfree : ph i = .free := ((h.rep.census.mem i).mp (List.mem_cons_self ..)).2
  have hempty : v.holds i = none := h.empty (by rw [hfree]; decide)
  have hrep' := ObjectPool.rep_construct (i := i) x hrep (by rw [update_self]; rfl)
  rw [update_idem] at hrep'
  have htouches : Touches i v.pool (s.write i x) := by
    intro k hk
    rw [touches_write x k hk, hstorage]
  rw [tryEmplace, hs]
  refine ⟨_, rfl, ⟨_, _, _, hmirrors.write x, hrep', h.calm_update (.inr rfl),
    h.objects_update (by simp), hused, h.ledger.build hempty⟩, htouches.kept (.inl hempty), rfl, rfl,
    rfl, ?_⟩
  exact c.object.load_store

/-- STEP: the slot of a constructor that throws goes back, whatever it wrote. -/
theorem tryEmplace_throws (h : Inv v p (i :: free) ph) (left : Fin c.object.size → UInt8) :
    ∃ v', tryEmplace v (.throws left) = (v', .thrown) ∧ Good v' ∧ Kept v v' ∧ v'.gone = v.gone ∧
      v'.built = v.built ∧ v'.holds = v.holds := by
  obtain ⟨s, p', hs, hstorage, hmirrors, hrep, hused⟩ := h.claim
  have hfree : ph i = .free := ((h.rep.census.mem i).mp (List.mem_cons_self ..)).2
  have hempty : v.holds i = none := h.empty (by rw [hfree]; decide)
  have hrep' := ObjectPool.rep_unwind c.capacity_lt hrep (update_self ..)
  rw [update_idem, ← hfree, update_eq_self] at hrep'
  have htouches : Touches i v.pool (((s.scribble i left).resetLive i).pushFree i) := by
    intro k hk
    rw [touches_pushFree k hk, ← hstorage]
    exact touches_scribble left k hk
  rw [tryEmplace, hs]
  exact ⟨_, rfl, ⟨_, _, _, hmirrors.resetLive.pushFree left, hrep', h.calm, h.objects, hused,
    h.ledger⟩, htouches.kept (.inl hempty), rfl, rfl, rfl⟩

/-- STEP: `end_life()` ends the object of a live slot. -/
theorem endLife_object (h : Inv v p free ph) (hk : v.holds i = some k)
    (left : Fin c.object.size → UInt8) : ∃ v', endLife v i left = some v' ∧ Good v' ∧ Kept v v' ∧
      v'.built = v.built ∧ v'.holds = update v.holds i none ∧ v'.gone = v.gone ++ [k] := by
  have hlive : ph i = .live := (h.objects i).mp (by rw [hk]; rfl)
  obtain ⟨p', hstart, hrep⟩ := ObjectPool.rep_startRelease h.rep hlive
  have hp' : p' = p.resetLive i := by
    unfold ObjectPool.startRelease at hstart
    split at hstart
    · exact (Option.some.inj hstart).symm
    · cases hstart
  subst hp'
  have hrep' := ObjectPool.rep_pushFree c.capacity_lt hrep (update_self ..)
  rw [update_idem] at hrep'
  have htouches : Touches i v.pool (((v.pool.resetLive i).scribble i left).pushFree i) :=
    Touches.trans (touches_scribble left) touches_pushFree
  rw [endLife, hk]
  exact ⟨_, rfl, ⟨_, _, _, h.mirrors.resetLive.pushFree left, hrep', h.calm_update (.inl rfl),
    h.objects_update (by simp), h.used, h.ledger.destroy hk⟩,
    htouches.kept (.inr (update_self ..)), rfl, rfl, rfl⟩

theorem destroy_serves (h : Good v) (object : BitVec c.w) (left : Fin c.object.size → UInt8) :
    ∃ v' a, destroy v object left = some (v', a) ∧ Good v' ∧ Serves v (.destroy object left) a v' := by
  obtain ⟨p, free, ph, hinv⟩ := h
  rw [destroy]
  split
  · next hin =>
    obtain ⟨i, k, hstarts⟩ := (hinv.contains_iff object).mp hin
    obtain ⟨hlt, hk, rfl⟩ := hstarts
    rw [ObjectPool.indexOf_slotPtr c.toCfg hlt]
    obtain ⟨v', hv', hgood, hkept, hbuilt, hholds, hgone⟩ := endLife_object hinv hk left
    exact ⟨v', _, by rw [hv']; rfl, hgood, .inl ⟨rfl, hkept, hbuilt, i, k, ⟨hlt, hk, rfl⟩, hholds, hgone⟩⟩
  · next hout =>
    refine ⟨v, _, rfl, ⟨p, free, ph, hinv⟩, .inr ⟨rfl, rfl, ?_⟩⟩
    intro i k hstarts
    exact hout ((hinv.contains_iff object).mpr ⟨i, k, hstarts⟩)

/-- RUN: the loop of `clear()` ends the objects of the slots it passes, each of them once. -/
theorem clearLoop_objects (left : ℕ → Fin c.object.size → UInt8) {l : List ℕ} (hl : l.Nodup)
    (hlt : ∀ i ∈ l, i < c.capacity) (h : Good v) : ∃ v', clearLoop left l v = some v' ∧ Good v' ∧
      v'.built = v.built ∧ v'.gone = v.gone ++ l.filterMap v.holds ∧
      (∀ i ∈ l, v'.holds i = none) ∧ ∀ i ∉ l, v'.holds i = v.holds i := by
  induction l generalizing v with
  | nil => exact ⟨v, rfl, h, rfl, by simp, by simp, fun _ _ => rfl⟩
  | cons i l ih =>
    obtain ⟨hnot, hl⟩ := List.nodup_cons.mp hl
    have hrest : ∀ j ∈ l, j < c.capacity := fun j hj => hlt j (List.mem_cons_of_mem _ hj)
    obtain ⟨p, free, ph, hinv⟩ := h
    have hi := hinv.live_iff (hlt i (List.mem_cons_self ..))
    rw [clearLoop]
    split
    · next hlive =>
      obtain ⟨k, hk⟩ := Option.isSome_iff_exists.mp ((hinv.objects i).mpr (hi.mp hlive))
      obtain ⟨v1, hv1, hgood1, -, hbuilt1, hholds1, hgone1⟩ := endLife_object hinv hk (left i)
      obtain ⟨v', hv', hgood', hbuilt', hgone', hnone', hsame'⟩ := ih hl hrest hgood1
      -- the slots behind `i` hold what they held
      have hmap : l.filterMap v1.holds = l.filterMap v.holds := by
        refine List.filterMap_congr fun j hj => ?_
        have hji : j ≠ i := by
          rintro rfl
          exact hnot hj
        rw [hholds1, update_of_ne hji]
      refine ⟨v', by rw [hv1]; exact hv', hgood', hbuilt'.trans hbuilt1, ?_, ?_, ?_⟩
      · rw [hgone', hgone1, hmap, List.filterMap_cons, hk, List.append_assoc]
        rfl
      · intro j hj
        rcases List.mem_cons.mp hj with rfl | hj
        · rw [hsame' j hnot, hholds1, update_self]
        · exact hnone' j hj
      · intro j hj
        obtain ⟨hji, hj⟩ := not_or.mp (fun hor => hj (List.mem_cons.mpr hor))
        rw [hsame' j hj, hholds1, update_of_ne hji]
    · next hdead =>
      have hnone : v.holds i = none := hinv.empty fun hph => hdead (hi.mpr hph)
      obtain ⟨v', hv', hgood', hbuilt', hgone', hnone', hsame'⟩ := ih hl hrest ⟨p, free, ph, hinv⟩
      refine ⟨v', hv', hgood', hbuilt', ?_, ?_, ?_⟩
      · rw [hgone', List.filterMap_cons, hnone]
      · intro j hj
        rcases List.mem_cons.mp hj with rfl | hj
        · rw [hsame' j hnot, hnone]
        · exact hnone' j hj
      · intro j hj
        exact hsame' j fun hmem => hj (List.mem_cons_of_mem _ hmem)

theorem clear_serves (h : Good v) (left : ℕ → Fin c.object.size → UInt8) :
    ∃ v', clear v left = some v' ∧ Good v' ∧ Serves v (.clear left) .done v' := by
  obtain ⟨v', hv', hgood, hbuilt, hgone, hnone, hsame⟩ :=
    clearLoop_objects left List.nodup_range (fun i hi => List.mem_range.mp hi) h
  have hempty : ∀ i, v'.holds i = none := by
    intro i
    rcases Nat.lt_or_ge i c.capacity with hi | hi
    · exact hnone i (List.mem_range.mpr hi)
    · obtain ⟨p, free, ph, hinv⟩ := h
      rw [hsame i (fun hmem => absurd (List.mem_range.mp hmem) (Nat.not_lt.mpr hi))]
      exact hinv.empty fun hph => absurd (hinv.bound hph) (Nat.not_lt.mpr hi)
  obtain ⟨p', free', ph', hinv'⟩ := hgood
  exact ⟨v', hv', ⟨p', free', ph', hinv'⟩, rfl, hbuilt, hempty, hgone, hinv'.ledger.perm_range hempty⟩

/-- STEP: a write through a pointer reaches the object that starts there, if one lives there. -/
theorem assign_serves (h : Good v) (object : BitVec c.w) (x : T) :
    Good (assign v object x) ∧ Serves v (.assign object x) .done (assign v object x) := by
  obtain ⟨p, free, ph, hinv⟩ := h
  rw [assign]
  split
  · next hin =>
    obtain ⟨i, k, hlt, hk, rfl⟩ := (hinv.contains_iff object).mp hin
    rw [ObjectPool.indexOf_slotPtr c.toCfg hlt]
    have hlive : ph i = .live := (hinv.objects i).mp (by rw [hk]; rfl)
    have hrep := ObjectPool.rep_construct (i := i) x hinv.rep (by rw [hlive]; rfl)
    rw [← hlive, update_eq_self] at hrep
    refine ⟨⟨_, _, _, hinv.mirrors.write x, hrep, hinv.calm, hinv.objects, hinv.used, hinv.ledger⟩,
      rfl, rfl, rfl, rfl, ?_⟩
    intro j kj hj
    rcases eq_or_ne j i with rfl | hji
    · rw [if_pos rfl]
      exact c.object.load_store
    · have hlt' : j < c.capacity := hinv.bound ((hinv.objects j).mp (by rw [hj]; rfl))
      rw [if_neg, (touches_write x).object hji]
      intro heq
      have hidx := congrArg (indexOf c.toCfg) heq
      rw [ObjectPool.indexOf_slotPtr c.toCfg hlt, ObjectPool.indexOf_slotPtr c.toCfg hlt'] at hidx
      exact hji hidx.symm
  · next hout =>
    refine ⟨⟨p, free, ph, hinv⟩, rfl, rfl, rfl, rfl, ?_⟩
    intro j kj hj
    have hlt' : j < c.capacity := hinv.bound ((hinv.objects j).mp (by rw [hj]; rfl))
    rw [if_neg]
    intro heq
    exact hout ((hinv.contains_iff object).mpr ⟨j, kj, hlt', hj, heq⟩)

theorem tryEmplace_serves (h : Good v) (made : Made c) : ∃ v' a, tryEmplace v made = (v', a) ∧
    Good v' ∧ Serves v (.tryEmplace made) a v' := by
  obtain ⟨p, free, ph, hinv⟩ := h
  have hfull := hinv.full_iff
  cases free with
  | nil =>
    exact ⟨v, _, tryEmplace_full hinv made, ⟨p, [], ph, hinv⟩, by simp [hfull], fun _ => rfl,
      fun _ _ _ _ => rfl, rfl, fun hne => absurd rfl hne⟩
  | cons i free =>
    have hroom : v.pool.liveSlots.length ≠ c.capacity := fun heq => by simpa using hfull.mp heq
    obtain ⟨hlt, hph⟩ := (hinv.rep.census.mem i).mp (List.mem_cons_self ..)
    cases made with
    | object x =>
      obtain ⟨v', hv', hgood, hkept, hgone, hbuilt, hholds, hx⟩ := tryEmplace_object hinv x
      have hdead : i ∉ v.pool.liveSlots := by
        rw [hinv.mem_liveSlots, hph]
        decide
      exact ⟨v', _, hv', hgood, by simp [hroom], by simp, hkept, hgone,
        fun _ => ⟨i, hlt, hdead, rfl, hbuilt, hholds, hx⟩⟩
    | throws left =>
      obtain ⟨v', hv', hgood, hkept, hgone, hbuilt, hholds⟩ := tryEmplace_throws hinv left
      exact ⟨v', _, hv', hgood, by simp [hroom], by simp, hkept, hgone, fun _ => ⟨rfl, hbuilt, hholds⟩⟩

/-- STEP: every call returns, keeps the invariant and does what it is for. -/
theorem serve_serves (h : Good v) (call : Call c) :
    ∃ v' a, serve v call = some (v', a) ∧ Good v' ∧ Serves v call a v' := by
  cases call with
  | tryEmplace made =>
    obtain ⟨v', a, hv', hserves⟩ := tryEmplace_serves h made
    exact ⟨v', a, congrArg some hv', hserves⟩
  | destroy object left => exact destroy_serves h object left
  | contains object =>
    obtain ⟨p, free, ph, hinv⟩ := h
    refine ⟨v, _, rfl, ⟨p, free, ph, hinv⟩, rfl, ?_⟩
    have hiff := hinv.contains_iff object
    cases hin : v.pool.contains object with
    | true => exact .inl ⟨rfl, hiff.mp hin⟩
    | false =>
      refine .inr ⟨rfl, fun i k hstarts => ?_⟩
      rw [hiff.mpr ⟨i, k, hstarts⟩] at hin
      cases hin
  | clear left =>
    obtain ⟨v', hv', hserves⟩ := clear_serves h left
    exact ⟨v', .done, by rw [serve, hv']; rfl, hserves⟩
  | assign object x => exact ⟨_, _, rfl, assign_serves h object x⟩

/-- A program's calls, one after the other. -/
def runCalls (v : World c) (calls : List (Call c)) : Option (World c) :=
  run (fun v call => (serve v call).map Prod.fst) v calls

/-- RUN: every sequence of calls goes through. -/
theorem runCalls_good (h : Good v) (calls : List (Call c)) :
    ∃ v', runCalls v calls = some v' ∧ Good v' := by
  refine run_total (t := ()) (fun _ _ => ()) (fun v _ => Good v) (fun _ => True)
    (fun v _ call hv _ => ?_) h fun _ _ => trivial
  obtain ⟨v1, a, hserve, hgood, -⟩ := serve_serves hv call
  exact ⟨v1, by rw [hserve]; rfl, hgood⟩

/-- CORRECT: for every capacity below 2^32, every place of the storage, every content of its bytes at
    the start and every sequence of calls with any addresses, the pool's slots are split into the live,
    the freed and the never used ones, and every further call does what `Serves` says. -/
theorem pool_owns_its_slots (c : Layout T) (garbage : ℕ → UInt8) (calls : List (Call c)) :
    ∃ v, runCalls (World.new c garbage) calls = some v ∧ Sound v ∧
      ∀ call, ∃ v' a, serve v call = some (v', a) ∧ Serves v call a v' := by
  obtain ⟨v, hrun, hgood⟩ := runCalls_good (good_new c garbage) calls
  obtain ⟨p, free, ph, hinv⟩ := id hgood
  refine ⟨v, hrun, hinv.sound, ?_⟩
  intro call
  obtain ⟨v', a, hserve, -, hserves⟩ := serve_serves hgood call
  exact ⟨v', a, hserve, hserves⟩

/-- Two slots of four bytes from address 100 on; a link is the first byte. -/
def twoSlots : Layout (Fin 4 → UInt8) where
  capacity := 2
  w := 16
  base := 100
  slotSize := 4
  base_pos := by decide
  slotSize_pos := by decide
  fits := by decide
  capacity_lt := by decide
  object := Codec.bytes 4
  link := ⟨1, fun x _ => ⟨x⟩, fun m => (m 0).toBitVec, fun _ _ h => by rw [h 0 (by decide)], fun _ => rfl⟩
  object_fits := by decide
  link_fits := by decide

-- the first object goes, its slot comes back with the third one, and 106 is inside a live object
example : (runCalls (World.new twoSlots fun _ => 7) [.tryEmplace (.object fun _ => 1),
    .tryEmplace (.object fun _ => 2), .destroy 100 (fun _ => 9), .destroy 106 (fun _ => 9),
    .tryEmplace (.object fun _ => 3)]).map (fun v => (v.holds 0, v.holds 1, v.gone,
      v.pool.contains 100, v.pool.contains 106, v.pool.contains 0)) =
    some (some 2, some 1, [0], true, false, false) := by
  decide +kernel

end Metl.PoolBytes
