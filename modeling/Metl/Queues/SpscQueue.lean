import Metl.Schemes.Wrap
import Metl.Schemes.Run
import Metl.Schemes.Fifo

/-! `metl::spsc_queue`: the single-producer, single-consumer ring.

    Every atomic load or store and every construction, move-out or destruction of an element is one
    step, and the two sides interleave arbitrarily. The cached copy of the other side's index is a
    plain member read only by its own side, so it moves with the step that reads it. Correctness
    (`corr`): the completed calls, in completion order, are a history of the sequential bounded FIFO.

        try_emplace:  start ──▶ [reload] ──▶ build ──▶ publish ──▶ returned true
                                   └──▶ returned false (full)
        try_pop:      start ──▶ [reload] ──▶ moveOut ──▶ destroy ──▶ release ──▶ returned (some x)
                                   └──▶ returned none (empty) -/

namespace Metl.SpscQueue
open Metl.Schemes Function

/-- Where the producer stands in `try_emplace(v)`; `tail` is its local copy of `tail_`. -/
inductive ProdPc (T : Type*) (w : ℕ) where
  | idle
  | start (v : T)
  | reload (v : T) (tail : BitVec w)
  | build (v : T) (tail : BitVec w)
  | publish (v : T) (tail : BitVec w)
  | returned (ok : Bool)

/-- Where the consumer stands in `try_pop`; `head` is its local copy of `head_`. -/
inductive ConsPc (T : Type*) (w : ℕ) where
  | idle
  | start
  | reload (head : BitVec w)
  | moveOut (head : BitVec w)
  | destroy (head : BitVec w) (x : T)
  | release (head : BitVec w) (x : T)
  | returned (out : Option T)

/-- The queue, both program counters, and the log of completed calls. A slot holds `some v` while an
    element lives in it. `queue` and `done` are ghosts: no step reads them. -/
structure State (T : Type*) (w : ℕ) where
  head : BitVec w
  cachedTail : BitVec w
  tail : BitVec w
  cachedHead : BitVec w
  slots : ℕ → Option T
  prod : ProdPc T w
  cons : ConsPc T w
  queue : List T
  done : List (Fifo.Call T)

variable {T : Type*} (r : Ring)

def init : State T r.w where
  head := 0
  cachedTail := 0
  tail := 0
  cachedHead := 0
  slots := fun _ => none
  prod := .idle
  cons := .idle
  queue := []
  done := []

/-- `next - cached_head_ > Capacity`, in word arithmetic. -/
def looksFull (tail cachedHead : BitVec r.w) : Bool :=
  decide (r.capacity < (tail + 1 - cachedHead).toNat)

/-- One step of `try_emplace`. -/
def produce (s : State T r.w) : Option (State T r.w) :=
  match s.prod with
  | .idle => none
  | .returned _ => none
  | .start v =>
    if looksFull r s.tail s.cachedHead then some { s with prod := .reload v s.tail }
    else some { s with prod := .build v s.tail }
  | .reload v tail =>
    if looksFull r tail s.head then
      some { s with cachedHead := s.head, prod := .returned false, done := s.done ++ [.pushFull] }
    else some { s with cachedHead := s.head, prod := .build v tail }
  | .build v tail =>
    some { s with slots := update s.slots (r.slot tail) (some v), prod := .publish v tail }
  | .publish v tail =>
    some { s with tail := tail + 1, prod := .returned true, queue := s.queue ++ [v],
                  done := s.done ++ [.pushOk v] }

/-- One step of `try_pop`. Moving out of a slot without an element is not a step at all. -/
def consume (s : State T r.w) : Option (State T r.w) :=
  match s.cons with
  | .idle => none
  | .returned _ => none
  | .start =>
    if s.head = s.cachedTail then some { s with cons := .reload s.head }
    else some { s with cons := .moveOut s.head }
  | .reload head =>
    if head = s.tail then
      some { s with cachedTail := s.tail, cons := .returned none, done := s.done ++ [.popEmpty] }
    else some { s with cachedTail := s.tail, cons := .moveOut head }
  | .moveOut head => (s.slots (r.slot head)).map fun x => { s with cons := .destroy head x }
  | .destroy head x =>
    some { s with slots := update s.slots (r.slot head) none, cons := .release head x }
  | .release head x =>
    some { s with head := head + 1, cons := .returned (some x), queue := s.queue.tail,
                  done := s.done ++ [.popOk x] }

/-- The scheduler's choices: begin a call on one side, or let a side take its next step. -/
inductive Act (T : Type*) where
  | tryPush (v : T)
  | produce
  | tryPop
  | consume

def step (s : State T r.w) : Act T → Option (State T r.w)
  | .tryPush v =>
    match s.prod with
    | .idle | .returned _ => some { s with prod := .start v }
    | _ => none
  | .produce => produce r s
  | .tryPop =>
    match s.cons with
    | .idle | .returned _ => some { s with cons := .start }
    | _ => none
  | .consume => consume r s

/-! ### The invariant

    `n` is the number of elements ever released, so the queue occupies the positions from `n` on. -/

/-- The element the producer has built and not yet published. -/
def ProdPc.built {w : ℕ} : ProdPc T w → Option T
  | .publish v _ => some v
  | _ => none

/-- The consumer has destroyed the front element and not yet released its slot. -/
def ConsPc.emptied {w : ℕ} : ConsPc T w → Bool
  | .release _ _ => true
  | _ => false

/-- The element the consumer has moved out in a call that has not returned yet. -/
def ConsPc.taken {w : ℕ} : ConsPc T w → Option T
  | .destroy _ x => some x
  | .release _ x => some x
  | _ => none

/-- The element that position `n + i` must hold. -/
def expected (queue : List T) (emptied : Bool) (built : Option T) (i : ℕ) : Option T :=
  if i < queue.length then if emptied ∧ i = 0 then none else queue[i]?
  else if i = queue.length then built else none

/-- Publishing moves the built element from past the end into the queue. -/
theorem expected_append {q : List T} {e : Bool} (he : e = true → q ≠ []) (v : T) (i : ℕ) :
    expected (q ++ [v]) e none i = expected q e (some v) i := by
  have hlen : (q ++ [v]).length = q.length + 1 := by simp
  have hfront : ¬(e = true ∧ q.length = 0) := fun h => he h.1 (List.length_eq_zero_iff.mp h.2)
  rcases Nat.lt_trichotomy i q.length with hlt | rfl | hgt
  · simp only [expected, hlen, if_pos hlt, if_pos (Nat.lt_succ_of_lt hlt), List.getElem?_append_left hlt]
  · simp only [expected, hlen, if_pos (Nat.lt_succ_self _), if_neg (Nat.lt_irrefl _), if_neg hfront,
      if_true, List.getElem?_concat_length]
  · simp only [expected, hlen, if_neg (show ¬i < q.length + 1 by omega), ite_self,
      if_neg (show ¬i < q.length by omega), if_neg (show ¬i = q.length by omega)]

/-- Releasing the front shifts every other position down by one. -/
theorem expected_tail (x : T) (q : List T) (b : Option T) (i : ℕ) :
    expected (x :: q) true b (i + 1) = expected q false b i := by
  simp [expected]

/-- What the producer's program counter promises, `m` being the number of elements ever published
    and `c` the true index its cached head stands for. -/
def ProdOk (c m : ℕ) : ProdPc T r.w → Prop
  | .reload _ tail => tail = word r.w m
  | .build _ tail => tail = word r.w m ∧ m < c + r.capacity
  | .publish _ tail => tail = word r.w m ∧ m < c + r.capacity
  | _ => True

/-- What the consumer's program counter promises, `n` being the number of elements released and `d`
    the true index its cached tail stands for. -/
def ConsOk (queue : List T) (n d : ℕ) : ConsPc T r.w → Prop
  | .reload head => head = word r.w n
  | .moveOut head => head = word r.w n ∧ n < d
  | .destroy head x => head = word r.w n ∧ n < d ∧ queue.head? = some x
  | .release head x => head = word r.w n ∧ n < d ∧ queue.head? = some x
  | _ => True

structure Inv (s : State T r.w) (n c d : ℕ) : Prop where
  head : s.head = word r.w n
  tail : s.tail = word r.w (n + s.queue.length)
  legal : Fifo.Legal r.capacity s.done s.queue
  -- the cached head lags behind the true one, and never by more than the ring can hold
  cachedHead : s.cachedHead = word r.w c
  lag : c ≤ n
  room : n + s.queue.length ≤ c + r.capacity
  -- the cached tail lags behind the true one, and never behind the head
  cachedTail : s.cachedTail = word r.w d
  ahead : n ≤ d
  behind : d ≤ n + s.queue.length
  slots : ∀ i < r.capacity,
    s.slots ((n + i) % r.capacity) = expected s.queue s.cons.emptied s.prod.built i
  prod : ProdOk r c (n + s.queue.length) s.prod
  cons : ConsOk r s.queue n d s.cons

theorem inv_init : Inv r (init r : State T r.w) 0 0 0 := by
  refine ⟨rfl, rfl, .nil, rfl, le_refl _, Nat.zero_le _, rfl, le_refl _,
    le_refl _, fun i _ => ?_, trivial, trivial⟩
  show none = expected ([] : List T) false none i
  simp [expected]

/-- The full test is exact on indices at most one ring apart. -/
theorem looksFull_iff {m c : ℕ} (hc : c ≤ m) (hm : m ≤ c + r.capacity) :
    looksFull r (word r.w m) (word r.w c) = true ↔ m = c + r.capacity := by
  have hnext : word r.w m + 1 = word r.w (m + 1) := word_add r.w m 1
  have hcap := r.two_mul_le
  have htwo := r.two_le
  rw [looksFull, decide_eq_true_iff, hnext, word_sub_toNat (by omega) (by omega)]
  omega

section Steps
variable {r} {s s' : State T r.w} {n c d : ℕ}

theorem Inv.bound (hi : Inv r s n c d) : s.queue.length ≤ r.capacity := by
  have hlag := hi.lag
  have hroom := hi.room
  omega

theorem Inv.prodAt {p : ProdPc T r.w} (hi : Inv r s n c d) (hpc : s.prod = p) :
    ProdOk r c (n + s.queue.length) p := hpc ▸ hi.prod

theorem Inv.consAt {p : ConsPc T r.w} (hi : Inv r s n c d) (hpc : s.cons = p) :
    ConsOk r s.queue n d p := hpc ▸ hi.cons

/-! ### One step of the producer -/

/-- Moving the producer's program counter alone keeps the invariant, once its promise is checked. -/
theorem Inv.setProd (hi : Inv r s n c d) (p : ProdPc T r.w) (hb : p.built = s.prod.built)
    (hp : ProdOk r c (n + s.queue.length) p) : Inv r { s with prod := p } n c d :=
  ⟨hi.head, hi.tail, hi.legal, hi.cachedHead, hi.lag, hi.room, hi.cachedTail, hi.ahead, hi.behind,
    fun i hlt => by rw [hi.slots i hlt, ← hb], hp, hi.cons⟩

variable {v x : T} {tail head : BitVec r.w}

section

variable (hi : Inv r s n c d)
include hi

theorem inv_tryPush (h : step r s (.tryPush v) = some s') : Inv r s' n c d := by
  simp only [step] at h
  split at h
  · next hpc =>
    obtain rfl := Option.some.inj h
    exact hi.setProd (.start v) (by rw [hpc]; rfl) trivial
  · next hpc =>
    obtain rfl := Option.some.inj h
    exact hi.setProd (.start v) (by rw [hpc]; rfl) trivial
  · cases h

theorem inv_prodStart (hpc : s.prod = .start v) (h : produce r s = some s') : Inv r s' n c d := by
  have hlag := hi.lag
  have hroom := hi.room
  have hfull := looksFull_iff r (m := n + s.queue.length) (c := c) (by omega) hroom
  rw [← hi.tail, ← hi.cachedHead] at hfull
  simp only [produce, hpc] at h
  split at h
  · -- the cached head says full: reload it before giving up
    obtain rfl := Option.some.inj h
    exact hi.setProd (.reload v s.tail) (by rw [hpc]; rfl) hi.tail
  · next hnot =>
    obtain rfl := Option.some.inj h
    have hne := mt hfull.mpr hnot
    exact hi.setProd (.build v s.tail) (by rw [hpc]; rfl) ⟨hi.tail, by omega⟩

/-- The reload reports full exactly when the ring is full at that step. -/
theorem reload_full (hpc : s.prod = .reload v tail) :
    looksFull r tail s.head = true ↔ s.queue.length = r.capacity := by
  have htail : tail = word r.w (n + s.queue.length) := hi.prodAt hpc
  have hb := hi.bound
  rw [htail, hi.head, looksFull_iff r (by omega) (by omega)]
  omega

theorem inv_prodReload (hpc : s.prod = .reload v tail) (h : produce r s = some s') : Inv r s' n n d := by
  have hb := hi.bound
  have hslots : ∀ i < r.capacity,
      s.slots ((n + i) % r.capacity) = expected s.queue s.cons.emptied none i := by
    intro i hlt
    rw [hi.slots i hlt, hpc]; rfl
  simp only [produce, hpc] at h
  split at h
  · next hyes =>
    obtain rfl := Option.some.inj h
    have hlen := (reload_full hi hpc).mp hyes
    exact ⟨hi.head, hi.tail, .pushFull hi.legal hlen, hi.head, le_refl _,
      Nat.add_le_add_left hb n, hi.cachedTail, hi.ahead, hi.behind, hslots, trivial, hi.cons⟩
  · next hnot =>
    obtain rfl := Option.some.inj h
    have hlt := lt_of_le_of_ne hb (mt (reload_full hi hpc).mpr hnot)
    exact ⟨hi.head, hi.tail, hi.legal, hi.head, le_refl _, Nat.add_le_add_left hb n, hi.cachedTail, hi.ahead, hi.behind,
      hslots, ⟨hi.prodAt hpc, Nat.add_lt_add_left hlt n⟩, hi.cons⟩

/-- The slot the producer builds in is the first one past the queue, and holds no element. -/
theorem build_slot (hpc : s.prod = .build v tail) :
    r.slot tail = (n + s.queue.length) % r.capacity ∧ s.slots (r.slot tail) = none := by
  obtain ⟨htail, hlt⟩ := hi.prodAt hpc
  have hlag := hi.lag
  have hslot : r.slot tail = (n + s.queue.length) % r.capacity := by rw [htail, r.slot_word]
  refine ⟨hslot, ?_⟩
  rw [hslot, hi.slots _ (by omega), hpc]
  simp [expected, ProdPc.built]

theorem inv_prodBuild (hpc : s.prod = .build v tail) (h : produce r s = some s') : Inv r s' n c d := by
  have hslot := (build_slot hi hpc).1
  obtain ⟨htail, hlen⟩ := hi.prodAt hpc
  have hlag := hi.lag
  simp only [produce, hpc] at h
  obtain rfl := Option.some.inj h
  refine ⟨hi.head, hi.tail, hi.legal, hi.cachedHead, hi.lag, hi.room, hi.cachedTail, hi.ahead, hi.behind,
    fun i hlt => ?_, ⟨htail, hlen⟩, hi.cons⟩
  show update s.slots (r.slot tail) (some v) ((n + i) % r.capacity) =
    expected s.queue s.cons.emptied (some v) i
  rw [hslot]
  by_cases hi' : i = s.queue.length
  · subst hi'
    simp [expected]
  · -- every other position keeps its slot, since the ring holds one window of positions
    have hne : (n + i) % r.capacity ≠ (n + s.queue.length) % r.capacity :=
      fun he => hi' (r.offset_inj hlt (by omega) he)
    rw [update_of_ne hne, hi.slots i hlt, hpc]
    simp [expected, hi']

/-- While the consumer holds the front element, the queue is not empty. -/
theorem front_of_emptied (he : s.cons.emptied = true) : s.queue ≠ [] := by
  cases hc : s.cons with
  | release head x =>
    obtain ⟨_, _, hq⟩ := hi.consAt hc
    rintro hnil
    rw [hnil] at hq
    cases hq
  | _ => rw [hc] at he; cases he

theorem inv_prodPublish (hpc : s.prod = .publish v tail) (h : produce r s = some s') :
    Inv r s' n c d := by
  obtain ⟨htail, hlen⟩ := hi.prodAt hpc
  have hgrow : n + (s.queue ++ [v]).length = n + s.queue.length + 1 := by simp [Nat.add_assoc]
  have hlag := hi.lag
  simp only [produce, hpc] at h
  obtain rfl := Option.some.inj h
  refine ⟨hi.head, ?_, .pushOk v hi.legal (by omega), hi.cachedHead, hlag, hgrow ▸ hlen,
    hi.cachedTail, hi.ahead, hgrow ▸ Nat.le_succ_of_le hi.behind, fun i hlt => ?_, trivial, ?_⟩
  · show tail + 1 = word r.w (n + (s.queue ++ [v]).length)
    rw [htail, hgrow]
    exact word_add r.w _ 1
  · show s.slots ((n + i) % r.capacity) = expected (s.queue ++ [v]) s.cons.emptied none i
    rw [hi.slots i hlt, hpc, expected_append (front_of_emptied hi)]
    rfl
  · have hcons := hi.cons
    show ConsOk r (s.queue ++ [v]) n d s.cons
    cases hc : s.cons with
    | destroy head x =>
      rw [hc] at hcons
      exact ⟨hcons.1, hcons.2.1, by rw [List.head?_append, hcons.2.2]; rfl⟩
    | release head x =>
      rw [hc] at hcons
      exact ⟨hcons.1, hcons.2.1, by rw [List.head?_append, hcons.2.2]; rfl⟩
    | moveOut head => rw [hc] at hcons; exact hcons
    | reload head => rw [hc] at hcons; exact hcons
    | _ => trivial

/-! ### One step of the consumer -/

/-- Moving the consumer's program counter alone keeps the invariant, once its promise is checked. -/
theorem Inv.setCons (p : ConsPc T r.w) (hb : p.emptied = s.cons.emptied) (hp : ConsOk r s.queue n d p) :
    Inv r { s with cons := p } n c d :=
  ⟨hi.head, hi.tail, hi.legal, hi.cachedHead, hi.lag, hi.room, hi.cachedTail, hi.ahead, hi.behind,
    fun i hlt => by rw [hi.slots i hlt, ← hb], hi.prod, hp⟩

theorem inv_tryPop (h : step r s .tryPop = some s') : Inv r s' n c d := by
  simp only [step] at h
  split at h
  · next hpc =>
    obtain rfl := Option.some.inj h
    exact hi.setCons .start (by rw [hpc]; rfl) trivial
  · next hpc =>
    obtain rfl := Option.some.inj h
    exact hi.setCons .start (by rw [hpc]; rfl) trivial
  · cases h

/-- The empty test against a tail index `m` the producer has reached is exact. -/
theorem head_eq_iff {m : ℕ} (hnm : n ≤ m) (hm : m ≤ n + s.queue.length) :
    word r.w n = word r.w m ↔ m = n := by
  have hb := hi.bound
  have hcap := r.lt_word
  constructor
  · intro h
    exact (word_inj hnm (by omega) h).symm
  · intro h
    rw [h]

theorem inv_consStart (hpc : s.cons = .start) (h : consume r s = some s') : Inv r s' n c d := by
  have hempty := head_eq_iff hi hi.ahead hi.behind
  rw [← hi.head, ← hi.cachedTail] at hempty
  simp only [consume, hpc] at h
  split at h
  · -- the cached tail says empty: reload it before giving up
    obtain rfl := Option.some.inj h
    exact hi.setCons (.reload s.head) (by rw [hpc]; rfl) hi.head
  · next hne =>
    obtain rfl := Option.some.inj h
    have hdn := mt hempty.mpr hne
    have hnd := hi.ahead
    exact hi.setCons (.moveOut s.head) (by rw [hpc]; rfl) ⟨hi.head, by omega⟩

/-- The reload reports empty exactly when the queue is empty at that step. -/
theorem reload_empty (hpc : s.cons = .reload head) : head = s.tail ↔ s.queue = [] := by
  have hhead : head = word r.w n := hi.consAt hpc
  rw [hhead, hi.tail, head_eq_iff hi (by omega) (le_refl _), ← List.length_eq_zero_iff]
  omega

theorem inv_consReload (hpc : s.cons = .reload head) (h : consume r s = some s') :
    Inv r s' n c (n + s.queue.length) := by
  have hslots : ∀ i < r.capacity,
      s.slots ((n + i) % r.capacity) = expected s.queue false s.prod.built i := by
    intro i hlt
    rw [hi.slots i hlt, hpc]; rfl
  simp only [consume, hpc] at h
  split at h
  · next heq =>
    obtain rfl := Option.some.inj h
    have hnil := (reload_empty hi hpc).mp heq
    have hlegal : Fifo.Legal r.capacity (s.done ++ [.popEmpty]) s.queue := by
      rw [hnil]
      exact .popEmpty (hnil ▸ hi.legal)
    exact ⟨hi.head, hi.tail, hlegal, hi.cachedHead, hi.lag, hi.room, hi.tail, Nat.le_add_right _ _,
      le_refl _, hslots, hi.prod, trivial⟩
  · next hne =>
    obtain rfl := Option.some.inj h
    have hpos := List.length_pos_iff.mpr (mt (reload_empty hi hpc).mpr hne)
    exact ⟨hi.head, hi.tail, hi.legal, hi.cachedHead, hi.lag, hi.room, hi.tail,
      Nat.le_add_right _ _, le_refl _, hslots, hi.prod, ⟨hi.consAt hpc, Nat.lt_add_of_pos_right hpos⟩⟩

/-- The consumer moves out of, and then destroys, the front element of the queue. -/
theorem front_slot (hhead : head = word r.w n) (hnd : n < d) (he : s.cons.emptied = false) :
    s.slots (r.slot head) = s.queue.head? ∧ s.queue.head?.isSome := by
  have hd := hi.behind
  obtain ⟨x, q, hq⟩ := List.exists_cons_of_ne_nil (List.length_pos_iff.mp (by omega : 0 < s.queue.length))
  have hslot := hi.slots 0 r.capacity_pos
  rw [Nat.add_zero, he, hq] at hslot
  rw [hhead, r.slot_word, hslot, hq]
  simp [expected]

theorem inv_consMoveOut (hpc : s.cons = .moveOut head) (h : consume r s = some s') : Inv r s' n c d := by
  obtain ⟨hhead, hnd⟩ := hi.consAt hpc
  have hslot := (front_slot hi hhead hnd (by rw [hpc]; rfl)).1
  simp only [consume, hpc, Option.map_eq_some_iff] at h
  obtain ⟨x, hx, rfl⟩ := h
  exact hi.setCons (.destroy head x) (by rw [hpc]; rfl) ⟨hhead, hnd, hslot ▸ hx⟩

theorem inv_consDestroy (hpc : s.cons = .destroy head x) (h : consume r s = some s') :
    Inv r s' n c d := by
  obtain ⟨hhead, hnd, hq⟩ := hi.consAt hpc
  obtain ⟨q, hcons⟩ := List.head?_eq_some_iff.mp hq
  simp only [consume, hpc] at h
  obtain rfl := Option.some.inj h
  refine ⟨hi.head, hi.tail, hi.legal, hi.cachedHead, hi.lag, hi.room, hi.cachedTail, hi.ahead,
    hi.behind, fun i hlt => ?_, hi.prod, ⟨hhead, hnd, hq⟩⟩
  show update s.slots (r.slot head) none ((n + i) % r.capacity) = expected s.queue true s.prod.built i
  rw [hhead, r.slot_word]
  rcases Nat.eq_zero_or_pos i with rfl | hpos
  · simp [expected, hcons]
  · have hne : (n + i) % r.capacity ≠ n % r.capacity := fun he =>
      absurd (r.offset_inj (j := 0) hlt r.capacity_pos (by simpa using he)) (by omega)
    rw [update_of_ne hne, hi.slots i hlt, hpc]
    simp [expected, ConsPc.emptied, hpos.ne']

/-- A ring that is full has no element waiting to be published. -/
theorem built_room (hfull : s.queue.length = r.capacity) : s.prod.built = none := by
  have hlag := hi.lag
  cases hp : s.prod with
  | publish v tail =>
    obtain ⟨_, hroom⟩ := hi.prodAt hp
    omega
  | _ => rfl

theorem inv_consRelease (hpc : s.cons = .release head x) (h : consume r s = some s') :
    Inv r s' (n + 1) c d := by
  obtain ⟨hhead, hnd, hfront⟩ := hi.consAt hpc
  obtain ⟨q, hq⟩ := List.head?_eq_some_iff.mp hfront
  have hlen : n + s.queue.length = n + 1 + q.length := by rw [hq, List.length_cons]; omega
  have hroom := hi.room
  have hbehind := hi.behind
  have hprod := hi.prod
  have htail : s.queue.tail = q := by rw [hq]; rfl
  simp only [consume, hpc, htail] at h
  obtain rfl := Option.some.inj h
  refine ⟨?_, ?_, .popOk x (hq ▸ hi.legal), hi.cachedHead, Nat.le_succ_of_le hi.lag, ?_,
    hi.cachedTail, hnd, ?_, fun i hlt => ?_, ?_, trivial⟩
  · show head + 1 = word r.w (n + 1)
    rw [hhead]
    exact word_add r.w n 1
  · show s.tail = word r.w (n + 1 + q.length)
    rw [hi.tail, hlen]
  · show n + 1 + q.length ≤ c + r.capacity
    omega
  · show d ≤ n + 1 + q.length
    omega
  · show s.slots ((n + 1 + i) % r.capacity) = expected q false s.prod.built i
    rw [← expected_tail x]
    by_cases hlast : i + 1 < r.capacity
    · have hslot := hi.slots (i + 1) hlast
      rw [hpc, hq] at hslot
      rw [Nat.add_assoc, Nat.add_comm 1 i]
      exact hslot
    · -- the last position of the new window is the slot just released
      have hslot := hi.slots 0 r.capacity_pos
      rw [hpc, hq] at hslot
      have hpos : n + 1 + i = n + 0 + r.capacity := by omega
      rw [hpos, Nat.add_mod_right, hslot]
      have hcap := built_room hi
      have hb := hi.bound
      rw [hq, List.length_cons] at hcap hb
      simp only [expected, ConsPc.emptied, List.length_cons, Nat.zero_lt_succ, if_true, and_self]
      rw [if_neg (by omega)]
      split
      · exact (hcap (by omega)).symm
      · rfl
  · show ProdOk r c (n + 1 + q.length) s.prod
    rw [← hlen]
    exact hprod

/-- STEP: every action of either side preserves the invariant. -/
theorem inv_step {a : Act T} (h : step r s a = some s') : ∃ n' c' d', Inv r s' n' c' d' := by
  cases a with
  | tryPush v => exact ⟨n, c, d, inv_tryPush hi h⟩
  | tryPop => exact ⟨n, c, d, inv_tryPop hi h⟩
  | produce =>
    cases hpc : s.prod with
    | idle => simp [step, produce, hpc] at h
    | returned ok => simp [step, produce, hpc] at h
    | start v => exact ⟨n, c, d, inv_prodStart hi hpc h⟩
    | reload v tail => exact ⟨n, n, d, inv_prodReload hi hpc h⟩
    | build v tail => exact ⟨n, c, d, inv_prodBuild hi hpc h⟩
    | publish v tail => exact ⟨n, c, d, inv_prodPublish hi hpc h⟩
  | consume =>
    cases hpc : s.cons with
    | idle => simp [step, consume, hpc] at h
    | returned out => simp [step, consume, hpc] at h
    | start => exact ⟨n, c, d, inv_consStart hi hpc h⟩
    | reload head => exact ⟨n, c, _, inv_consReload hi hpc h⟩
    | moveOut head => exact ⟨n, c, d, inv_consMoveOut hi hpc h⟩
    | destroy head x => exact ⟨n, c, d, inv_consDestroy hi hpc h⟩
    | release head x => exact ⟨n + 1, c, d, inv_consRelease hi hpc h⟩

/-- The consumer never meets a dead slot: it is about to move out of, or to destroy, the front. -/
theorem cons_slot_live (hpc : s.cons = .moveOut head ∨ ∃ x, s.cons = .destroy head x) :
    (s.slots (r.slot head)).isSome := by
  rcases hpc with hpc | ⟨x, hpc⟩
  · obtain ⟨hhead, hnd⟩ := hi.consAt hpc
    obtain ⟨hslot, hsome⟩ := front_slot hi hhead hnd (by rw [hpc]; rfl)
    rw [hslot]; exact hsome
  · obtain ⟨hhead, hnd, _⟩ := hi.consAt hpc
    obtain ⟨hslot, hsome⟩ := front_slot hi hhead hnd (by rw [hpc]; rfl)
    rw [hslot]; exact hsome

end

end Steps

/-- RUN: the invariant holds after any interleaving of the two sides. -/
theorem inv_run {acts : List (Act T)} {s : State T r.w}
    (h : run (step r) (init r) acts = some s) : ∃ n c d, Inv r s n c d :=
  run_inv (I := fun s => ∃ n c d, Inv r s n c d)
    (fun _ _ _ ⟨_, _, _, hi⟩ hs => inv_step hi hs) acts _ _ ⟨0, 0, 0, inv_init r⟩ h

theorem ring2_two_le : 2 ≤ 2 := by decide

theorem ring2_pow_two : 2 &&& (2 - 1) = 0 := by decide

/-- A ring of two slots with two-bit indices. -/
def ring2 : Ring := ⟨2, 2, ring2_two_le, ring2_pow_two, by decide⟩

/-- Three pushes, the last refused, overlapping a pop that has moved its element out. -/
def sampleRun : List (Act ℕ) :=
  [.tryPush 7, .produce, .produce, .produce, .tryPush 8, .produce, .tryPop, .consume, .produce,
    .consume, .produce, .consume, .tryPush 9, .produce, .produce]

/-- The steps that `try_emplace` has at most to take. -/
def ProdPc.left {w : ℕ} : ProdPc T w → ℕ
  | .start _ => 4
  | .reload _ _ => 3
  | .build _ _ => 2
  | .publish _ _ => 1
  | _ => 0

/-- The steps that `try_pop` has at most to take. -/
def ConsPc.left {w : ℕ} : ConsPc T w → ℕ
  | .start => 5
  | .reload _ => 4
  | .moveOut _ => 3
  | .destroy _ _ => 2
  | .release _ _ => 1
  | _ => 0

/-- CORRECT: both sides are wait-free. After any interleaving a call that has not returned can take its
    next step and is then nearer to its end, and the other side's call stays where it was. -/
theorem spsc_wait_free (acts : List (Act T)) (s : State T r.w) (h : run (step r) (init r) acts = some s) :
    (s.prod.left ≠ 0 →
      ∃ s', step r s .produce = some s' ∧ s'.prod.left < s.prod.left ∧ s'.cons = s.cons) ∧
    (s.cons.left ≠ 0 →
      ∃ s', step r s .consume = some s' ∧ s'.cons.left < s.cons.left ∧ s'.prod = s.prod) := by
  obtain ⟨n, c, d, hi⟩ := inv_run r h
  refine ⟨fun hleft => ?_, fun hleft => ?_⟩
  · rw [step, produce]
    cases hpc : s.prod with
    | idle => simp [hpc, ProdPc.left] at hleft
    | returned ok => simp [hpc, ProdPc.left] at hleft
    | start v => dsimp only; split <;> exact ⟨_, rfl, by simp [ProdPc.left]⟩
    | reload v tail => dsimp only; split <;> exact ⟨_, rfl, by simp [ProdPc.left]⟩
    | build v tail => exact ⟨_, rfl, by simp [ProdPc.left]⟩
    | publish v tail => exact ⟨_, rfl, by simp [ProdPc.left]⟩
  · rw [step, consume]
    cases hpc : s.cons with
    | moveOut head =>
      obtain ⟨x, hx⟩ := Option.isSome_iff_exists.mp (cons_slot_live hi (.inl hpc))
      simp [hx, ConsPc.left]
    | _ => simp [ConsPc.left, hpc] at hleft ⊢ <;> split <;> simp

theorem spsc_wait_free_sampleRun : ∃ s, run (step ring2) (init ring2) sampleRun = some s ∧
    ∃ s', step ring2 s .consume = some s' ∧ s'.cons.left < s.cons.left ∧ s'.prod = s.prod :=
  ⟨_, rfl, (spsc_wait_free ring2 sampleRun _ rfl).2 (Nat.succ_ne_zero 1)⟩

end Metl.SpscQueue
