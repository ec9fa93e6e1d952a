import Metl.Schemes.Chain
import Metl.Schemes.Lifecycle
import Metl.Schemes.Wrap

/-! `metl::handle_pool`: slots addressed by generation-tagged handles.

    A free slot keeps the link of a FIFO free list in its own bytes, and the parity of its generation
    says whether it is in use. `try_emplace` and `destroy` are cut where the element's constructor or
    destructor runs, so that nested calls can be put in between; the plain operations are the parts
    run one after the other.

        try_emplace = claim ; constructor ; (construct | unwind)
        destroy     = liveIndex ; startRelease ; destructor ; appendFree -/

namespace Metl.HandlePool
open Metl.Schemes Function

/-- The template parameters the pool accepts; `max_capacity` is the largest 16-bit index. -/
structure Cfg where
  capacity : ℕ
  g : ℕ
  fits : capacity ≤ 65535
  g_pos : 0 < g

/-- The bytes of a slot: the link of a free slot, or an element. -/
inductive Slot (T : Type*) where
  | link (next : ℕ)
  | object (x : T)

structure Pool (T : Type*) (g : ℕ) where
  storage : ℕ → Slot T
  generation : ℕ → BitVec g
  freeHead : ℕ
  freeTail : ℕ
  size : ℕ

structure Handle (g : ℕ) where
  index : BitVec 16
  generation : BitVec g
  deriving DecidableEq

/-- The null handle, of generation 0. -/
def Handle.null {g : ℕ} : Handle g := ⟨0, 0⟩

variable {T : Type*} {g : ℕ}

/-- An odd generation marks a slot in use. -/
def odd (b : BitVec g) : Bool := (b &&& 1#g) != 0#g

/-- The link stored in a slot; the bytes of an element are not a link. -/
def Pool.link (s : Pool T g) (i : ℕ) : Option ℕ :=
  match s.storage i with
  | .link next => some next
  | .object _ => none

def Pool.setLink (s : Pool T g) (i next : ℕ) : Pool T g :=
  { s with storage := update s.storage i (.link (next % 2 ^ 16)) }

def Pool.setGeneration (s : Pool T g) (i : ℕ) (b : BitVec g) : Pool T g :=
  { s with generation := update s.generation i b }

variable (c : Cfg)

/-- `handle_pool()`: every slot linked to the next, the last one to the end. -/
def init : Pool T c.g where
  storage := fun i => .link ((i + 1) % 2 ^ 16)
  generation := fun _ => 0
  freeHead := 0
  freeTail := c.capacity - 1
  size := 0

/-- `try_emplace` up to the constructor: the slot claimed, or none when the pool is full. -/
def claim (s : Pool T c.g) : Option (Option ℕ × Pool T c.g) :=
  if c.capacity ≤ s.freeHead then some (none, s)
  else (s.link s.freeHead).map fun next =>
    (some s.freeHead, { s.setGeneration s.freeHead (s.generation s.freeHead + 1) with
      freeHead := next, size := s.size + 1 })

/-- The constructor has built `x` in slot `i`. -/
def construct (s : Pool T c.g) (i : ℕ) (x : T) : Pool T c.g :=
  { s with storage := update s.storage i (.object x) }

/-- The handle `try_emplace` returns for slot `i`. -/
def issued (s : Pool T c.g) (i : ℕ) : Handle c.g := ⟨BitVec.ofNat 16 i, s.generation i⟩

/-- `~return_on_unwind`: the constructor threw, and the slot goes back to the front. -/
def unwind (s : Pool T c.g) (i : ℕ) : Pool T c.g :=
  let s := { s.setGeneration i (s.generation i - 1) with size := s.size - 1 }
  let s := if c.capacity ≤ s.freeHead then { s with freeTail := i } else s
  { s.setLink i s.freeHead with freeHead := i }

/-- The slot a handle resolves to, or `capacity`. -/
def liveIndex (s : Pool T c.g) (h : Handle c.g) : ℕ :=
  if odd h.generation then
    if c.capacity ≤ h.index.toNat ∨ s.generation h.index.toNat ≠ h.generation then c.capacity
    else h.index.toNat
  else c.capacity

/-- `contains()`: whether a handle resolves. -/
def contains (s : Pool T c.g) (h : Handle c.g) : Bool := decide (liveIndex c s h < c.capacity)

/-- `get()`: the element a handle resolves to. -/
def get (s : Pool T c.g) (h : Handle c.g) : Option (Slot T) :=
  if liveIndex c s h < c.capacity then some (s.storage (liveIndex c s h)) else none

/-- `release()` up to the destructor, which needs an element in the slot. -/
def startRelease (s : Pool T c.g) (i : ℕ) : Option (Pool T c.g) :=
  match s.storage i with
  | .link _ => none
  | .object _ => some { s.setGeneration i (s.generation i + 1) with size := s.size - 1 }

/-- `append_free()`: the slot goes to the back of the free list. -/
def appendFree (s : Pool T c.g) (i : ℕ) : Pool T c.g :=
  let s := s.setLink i c.capacity
  let s := if c.capacity ≤ s.freeHead then { s with freeHead := i } else s.setLink s.freeTail i
  { s with freeTail := i }

/-- The parts of the pool's operations around the callbacks. -/
def ops : PoolOps (Pool T c.g) (Handle c.g) T where
  capacity := c.capacity
  init := init c
  claim := claim c
  construct := construct c
  unwind := unwind c
  slotOf := fun h => h.index.toNat
  resolves := contains c
  startRelease := startRelease c
  endRelease := appendFree c
  isLive := fun s i => odd (s.generation i)
  size := Pool.size

/-! ### Parity -/

theorem odd_iff (hg : 0 < g) (b : BitVec g) : odd b = true ↔ b.toNat % 2 = 1 := by
  have hone : 1 < 2 ^ g := Nat.one_lt_two_pow hg.ne'
  have hand : (b &&& 1#g).toNat = b.toNat % 2 := by
    rw [BitVec.toNat_and, BitVec.toNat_ofNat, Nat.mod_eq_of_lt hone, Nat.and_one_is_mod]
  rw [odd, bne_iff_ne, ne_eq, ← BitVec.toNat_inj, hand, BitVec.toNat_zero]
  omega

/-- The parity of a wrapped generation is the parity of the count. -/
theorem odd_word (hg : 0 < g) (n : ℕ) : odd (word g n) = decide (n % 2 = 1) := by
  have htwo : 2 ∣ 2 ^ g := dvd_pow_self 2 hg.ne'
  rw [Bool.eq_iff_iff, odd_iff hg, word_toNat, Nat.mod_mod_of_dvd _ htwo, decide_eq_true_iff]

theorem odd_add_one (hg : 0 < g) (b : BitVec g) : odd (b + 1) = !odd b := by
  obtain ⟨n, rfl⟩ : ∃ n, b = word g n := ⟨b.toNat, by simp [word]⟩
  have hnext : word g n + 1 = word g (n + 1) := word_add g n 1
  rw [hnext, odd_word hg, odd_word hg, Bool.eq_iff_iff]
  simp only [decide_eq_true_eq, Bool.not_eq_true', decide_eq_false_iff_not]
  omega

theorem odd_sub_one (hg : 0 < g) (b : BitVec g) : odd (b - 1) = !odd b := by
  have h := odd_add_one hg (b - 1)
  rw [BitVec.sub_add_cancel] at h
  rw [h, Bool.not_not]

/-! ### The free list and the phases -/

/-- The list from `freeHead` is `free`, `freeTail` is its last slot, and generations and bytes fit the
    phases. -/
structure Rep (s : Pool T c.g) (free : List ℕ) (ph : ℕ → Phase) : Prop where
  census : Census c.capacity s.size free ph
  chain : Chain s.link id c.capacity s.freeHead free
  tail : ∀ t, free.getLast? = some t → s.freeTail = t
  parity : ∀ i < c.capacity, odd (s.generation i) = (ph i).inUse
  object : ∀ i, ph i = .live ∨ ph i = .dying → ∃ x, s.storage i = .object x

variable {c} {s : Pool T c.g} {free : List ℕ} {ph : ℕ → Phase} {i : ℕ}

/-- An index of the pool, or its end, survives the cast to a 16-bit link. -/
theorem cast_index (hi : i ≤ c.capacity) : i % 2 ^ 16 = i := by
  have hfits := c.fits
  exact Nat.mod_eq_of_lt (by omega)

theorem rep_init : Rep c (init c : Pool T c.g) (List.range c.capacity) fun _ => .free := by
  refine ⟨⟨List.nodup_range, fun i => by simp, fun i h => absurd rfl h, ?_⟩, ?_, fun t ht => ?_,
    fun i _ => ?_, fun i h => ?_⟩
  · simp [init, useCount, Phase.inUse]
  · have hall : Chain (init c : Pool T c.g).link id c.capacity (id 0) (List.range' 0 c.capacity) :=
      Chain.range' (fun j _ hj => congrArg some (cast_index (c := c) (by omega))) (Nat.zero_add _)
    rwa [← List.range_eq_range'] at hall
  · rw [List.getLast?_range] at ht
    split at ht
    · cases ht
    · exact Option.some.inj ht
  · simp [init, odd, Phase.inUse]
  · rcases h with h | h <;> cases h

theorem Rep.freeHead_nil (hr : Rep c s [] ph) : s.freeHead = c.capacity := hr.chain

theorem Rep.freeHead_cons (hr : Rep c s (i :: free) ph) : s.freeHead = i ∧ i < c.capacity :=
  ⟨hr.chain.1, ((hr.census.mem i).mp (List.mem_cons_self ..)).1⟩

theorem Rep.freeHead_lt (hr : Rep c s free ph) (hne : free ≠ []) : s.freeHead < c.capacity := by
  cases free with
  | nil => exact absurd rfl hne
  | cons i free => obtain ⟨h1, h2⟩ := hr.freeHead_cons; omega

/-- Parity after the generation of one slot moved by one. -/
theorem parity_set {ph : ℕ → Phase} {x : Phase} {b : BitVec c.g}
    (h : ∀ j < c.capacity, odd (s.generation j) = (ph j).inUse) (hb : odd b = x.inUse) :
    ∀ j < c.capacity, odd (update s.generation i b j) = (update ph i x j).inUse :=
  flag_update h (fun j hji => by rw [update_of_ne hji]) (by rw [update_self, hb])

theorem object_set {ph : ℕ → Phase} {x : Phase} {storage storage' : ℕ → Slot T}
    (h : ∀ j, ph j = .live ∨ ph j = .dying → ∃ v, storage j = .object v)
    (hother : ∀ j, j ≠ i → (ph j = .live ∨ ph j = .dying) → storage' j = storage j)
    (hself : x = .live ∨ x = .dying → ∃ v, storage' i = .object v) :
    ∀ j, update ph i x j = .live ∨ update ph i x j = .dying → ∃ v, storage' j = .object v :=
  stored_update (P := fun bytes => ∃ v, bytes = .object v) h hother hself

theorem rep_claim_full (hr : Rep c s [] ph) : claim c s = some (none, s) := by
  rw [claim, if_pos (hr.freeHead_nil).ge]

theorem rep_claim (hr : Rep c s (i :: free) ph) :
    ∃ s', claim c s = some (some i, s') ∧ Rep c s' free (update ph i .building) := by
  obtain ⟨hhead, hlt⟩ := hr.freeHead_cons
  obtain ⟨-, n, hn, hrest⟩ := hr.chain
  have hfree := ((hr.census.mem i).mp (List.mem_cons_self ..)).2
  refine ⟨{ s.setGeneration i (s.generation i + 1) with freeHead := n, size := s.size + 1 }, ?_, ?_⟩
  · rw [claim, if_neg (by omega), hhead, hn]
    rfl
  · refine ⟨hr.census.claim, hrest, fun t ht => hr.tail t ?_, parity_set hr.parity ?_,
      object_set hr.object (fun _ _ _ => rfl) (by simp)⟩
    · cases free with
      | nil => cases ht
      | cons j free => rw [List.getLast?_cons_cons]; exact ht
    · rw [odd_add_one c.g_pos, hr.parity i hlt, hfree]
      rfl

theorem rep_construct (x : T) (hr : Rep c s free ph) (hi : ph i = .building) :
    Rep c (construct c s i x) free (update ph i .live) := by
  have hne : ph i ≠ .free := by rw [hi]; decide
  have hnot := hr.census.notMem hne
  refine ⟨hr.census.move hne (by decide) (by rw [hi]; rfl), hr.chain.congr fun j hj => ?_, hr.tail,
    ?_, object_set hr.object (fun j hji _ => update_of_ne hji ..) fun _ => ⟨x, update_self ..⟩⟩
  · have hji : j ≠ i := fun h => hnot (h ▸ hj)
    simp [Pool.link, construct, hji]
  · have hset := parity_set (i := i) (x := .live) hr.parity
      (by rw [hr.parity i (hr.census.bound i hne), hi]; rfl)
    rwa [update_eq_self] at hset

/-- The fields after an unwind: only the tail depends on whether the list was empty. -/
theorem unwind_eq (s : Pool T c.g) (i : ℕ) : unwind c s i =
    ⟨update s.storage i (.link (s.freeHead % 2 ^ 16)), update s.generation i (s.generation i - 1), i,
      if c.capacity ≤ s.freeHead then i else s.freeTail, s.size - 1⟩ := by
  unfold unwind Pool.setLink Pool.setGeneration
  dsimp only
  split <;> rfl

/-- A slot outside the free list takes a link; the list does not see it. -/
theorem link_of_ne {j n : ℕ} (hji : j ≠ i) :
    Pool.link ⟨update s.storage i (.link n), s.generation, s.freeHead, s.freeTail, s.size⟩ j =
      s.link j := by
  simp [Pool.link, hji]

theorem rep_unwind (hr : Rep c s free ph) (hi : ph i = .building) :
    Rep c (unwind c s i) (i :: free) (update ph i .free) := by
  have hne : ph i ≠ .free := by rw [hi]; decide
  have hlt := hr.census.bound i hne
  have hpos := hr.census.pos (i := i) (by rw [hi]; rfl)
  have hnot := hr.census.notMem hne
  have hhead : s.freeHead ≤ c.capacity := by
    rcases eq_or_ne free [] with rfl | hnil
    · exact hr.freeHead_nil.le
    · exact (hr.freeHead_lt hnil).le
  rw [unwind_eq, cast_index hhead]
  refine ⟨hr.census.give hne (List.Perm.refl _) ?_, hr.chain.push ?_ fun j hj => ?_, fun t ht => ?_,
    parity_set hr.parity ?_, object_set hr.object (fun j hji _ => update_of_ne hji ..) (by simp)⟩
  · rw [hi]
    exact Nat.sub_add_cancel hpos
  · simp [Pool.link]
  · exact link_of_ne (s := s) fun h => hnot (h ▸ hj)
  · cases free with
    | nil => simpa [hr.freeHead_nil] using ht
    | cons j free =>
      obtain ⟨h1, h2⟩ := hr.freeHead_cons
      rw [List.getLast?_cons_cons] at ht
      simp [h1, h2, hr.tail t ht]
  · rw [odd_sub_one c.g_pos, hr.parity i hlt, hi]
    rfl

theorem rep_startRelease (hr : Rep c s free ph) (hi : ph i = .live) :
    ∃ s', startRelease c s i = some s' ∧ Rep c s' free (update ph i .dying) := by
  have hne : ph i ≠ .free := by rw [hi]; decide
  have hlt := hr.census.bound i hne
  have hpos := hr.census.pos (i := i) (by rw [hi]; rfl)
  obtain ⟨x, hx⟩ := hr.object i (.inl hi)
  refine ⟨{ s.setGeneration i (s.generation i + 1) with size := s.size - 1 }, by rw [startRelease, hx],
    hr.census.move hne (by decide) ?_, hr.chain, hr.tail, parity_set hr.parity ?_,
    object_set hr.object (fun _ _ _ => rfl) fun _ => ⟨x, hx⟩⟩
  · rw [hi]
    exact Nat.sub_add_cancel hpos
  · rw [odd_add_one c.g_pos, hr.parity i hlt, hi]
    rfl

theorem appendFree_nil (hhead : s.freeHead = c.capacity) : appendFree c s i =
    ⟨update s.storage i (.link c.capacity), s.generation, i, i, s.size⟩ := by
  unfold appendFree Pool.setLink
  dsimp only
  rw [if_pos hhead.ge, cast_index (le_refl _)]

theorem appendFree_cons (hhead : s.freeHead < c.capacity) (hi : i < c.capacity) : appendFree c s i =
    ⟨update (update s.storage i (.link c.capacity)) s.freeTail (.link i),
      s.generation, s.freeHead, i, s.size⟩ := by
  unfold appendFree Pool.setLink
  dsimp only
  rw [if_neg (by omega), cast_index (le_refl _), cast_index hi.le]

theorem rep_appendFree (hr : Rep c s free ph) (hi : ph i = .dying) :
    Rep c (appendFree c s i) (free ++ [i]) (update ph i .free) := by
  have hne : ph i ≠ .free := by rw [hi]; decide
  have hlt := hr.census.bound i hne
  have hnot := hr.census.notMem hne
  have hcensus : Census c.capacity s.size (free ++ [i]) (update ph i .free) :=
    hr.census.give hne (List.perm_append_singleton i free) (by rw [hi]; rfl)
  have hparity : ∀ j < c.capacity, odd (s.generation j) = (update ph i .free j).inUse := by
    have hset := parity_set (i := i) (x := .free) hr.parity (by rw [hr.parity i hlt, hi]; rfl)
    rwa [update_eq_self] at hset
  rcases List.eq_nil_or_concat' free with rfl | ⟨l, t, rfl⟩
  · rw [appendFree_nil hr.freeHead_nil]
    exact ⟨hcensus, ⟨rfl, c.capacity, by simp [Pool.link], rfl⟩, fun t ht => by simpa using ht, hparity,
      object_set hr.object (fun j hji _ => update_of_ne hji ..) (by simp)⟩
  · have htail : s.freeTail = t := hr.tail t (by simp)
    have hmem : t ∈ l ++ [t] := by simp
    have hti : t ≠ i := fun h => hnot (h ▸ hmem)
    have hhead := hr.freeHead_lt (by simp)
    rw [appendFree_cons hhead hlt, htail]
    refine ⟨hcensus, hr.chain.snoc ?_ ?_ fun j hj => ?_, fun u hu => ?_, hparity,
      object_set hr.object (fun j hji hj => ?_) (by simp)⟩
    · simp [Pool.link]
    · simp [Pool.link, hti.symm]
    · have hjt : j ≠ t := (List.nodup_append.mp hr.census.nodup).2.2 j hj t (by simp)
      have hji : j ≠ i := fun h => hnot (h ▸ List.mem_append_left _ hj)
      simp [Pool.link, hjt, hji]
    · simpa using hu
    · have hjt : j ≠ t := by
        rintro rfl
        rw [((hr.census.mem j).mp hmem).2] at hj
        simp at hj
      simp [hjt, hji]

/-! ### Handles -/

/-- A handle resolves exactly when its generation is the odd generation of its slot. -/
theorem contains_iff (h : Handle c.g) : contains c s h = true ↔
    h.index.toNat < c.capacity ∧ odd h.generation = true ∧ s.generation h.index.toNat = h.generation := by
  rw [contains, decide_eq_true_iff, liveIndex]
  split
  · next hodd =>
    split
    · next hbad =>
      refine ⟨fun h => absurd h (lt_irrefl _), fun ⟨hlt, _, hgen⟩ => ?_⟩
      rcases hbad with hbad | hbad
      · omega
      · exact absurd hgen hbad
    · next hgood =>
      simp only [not_or, not_le, not_not] at hgood
      exact ⟨fun h => ⟨h, hodd, hgood.2⟩, fun h => h.1⟩
  · next hodd => exact ⟨fun h => absurd h (lt_irrefl _), fun h => absurd h.2.1 hodd⟩

/-- The pool keeps the laws of claiming and releasing. -/
theorem lawful : Lawful (ops c : PoolOps (Pool T c.g) (Handle c.g) T) (Rep c) where
  init := ⟨_, rep_init⟩
  nodup := fun hr => hr.census.nodup
  mem := fun hr => hr.census.mem
  bound := fun hr => hr.census.bound
  claim_full := rep_claim_full
  claim := rep_claim
  construct := rep_construct
  unwind := fun hr hi => ⟨_, List.Perm.refl _, rep_unwind hr hi⟩
  resolves := fun {s free ph h} hr hres => by
    obtain ⟨hlt, hodd, hgen⟩ := (contains_iff h).mp hres
    show (ph h.index.toNat).inUse = true
    rw [← hr.parity _ hlt, hgen]
    exact hodd
  startRelease := rep_startRelease
  endRelease := fun hr hi => ⟨_, List.perm_append_singleton _ _, rep_appendFree hr hi⟩
  isLive := fun hr => hr.parity
  size := fun hr => hr.census.count

end Metl.HandlePool
