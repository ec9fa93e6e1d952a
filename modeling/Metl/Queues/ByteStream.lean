import Metl.Queues.SpscByteRing

/-! `metl::spsc_byte_ring` is a byte stream.

    Position `p` of the stream lives in slot `p % capacity`. The positions from the head to the tail
    belong to the consumer and hold the stream; the positions from the tail to one lap past the head
    belong to the producer and hold what it has filled or copied so far. Each side's local copy of
    the other index only ever understates what it owns.

        0 ──── output ──── H ════ readable ════ T ──── filled, copied ────▶ H + capacity -/

namespace Metl.SpscByteRing
open Metl.Schemes Function

variable {r : Ring} {s s' : State r.w}

/-! ### The index arithmetic -/

variable {h k p q H T d N H' base count i j : ℕ} {tail : BitVec r.w}
  {stream staged bytes source : List UInt8} {pc : ProdPc r.w} {sp : Span} {b : UInt8}
  {storage : ℕ → UInt8} {ahead : ℕ → Option UInt8} {a : Act}

theorem freeTotal_word {t : ℕ} (hht : h ≤ t) (hle : t ≤ h + r.capacity) :
    freeTotal r (word r.w t) (word r.w h) = h + r.capacity - t := by
  have hlt := r.lt_word
  have hdist : word r.w t - word r.w h = word r.w (t - h) := by
    apply BitVec.eq_of_toNat_eq
    rw [word_sub_toNat hht (by omega), word_toNat, Nat.mod_eq_of_lt (by omega)]
  rw [freeTotal, hdist]
  have hsub := word_sub_toNat (w := r.w) (show t - h ≤ r.capacity by omega) (by omega)
  rw [word] at hsub
  rw [hsub]
  omega

theorem toEnd_word (n : ℕ) : toEnd r (word r.w n) = r.capacity - n % r.capacity := by
  rw [toEnd, r.slot_word]

theorem slot_add (n i : ℕ) : r.slot (word r.w n + BitVec.ofNat r.w i) = (n + i) % r.capacity := by
  rw [← r.slot_word, ← word_add]
  rfl

/-- A run that stays before the physical end needs no masking. -/
theorem run_mod {o : ℕ} (h : o % r.capacity + k < r.capacity) :
    o % r.capacity + k = (o + k) % r.capacity := by
  rw [Nat.add_mod, Nat.mod_eq_of_lt (a := k) (by omega), Nat.mod_eq_of_lt h]

/-- Within one lap of the head, distinct positions have distinct slots. -/
theorem slot_ne (hp : h ≤ p) (hpq : p < q) (hq : q < h + r.capacity) :
    p % r.capacity ≠ q % r.capacity := by
  intro heq
  have := r.slot_inj hpq.le (by omega) heq
  omega

/-! ### The invariant -/

/-- The byte the producer has put `j` positions past the tail, if any. -/
def pending {w : ℕ} (prod : ProdPc w) (staged : List UInt8) (j : ℕ) : Option UInt8 :=
  match prod with
  | .writeCopy source _ i =>
    if j < i then source[j]? else if j < source.length then none else staged[j]?
  | _ => staged[j]?

/-- The storage holds the stream from `H` on and, past its end, what the producer has put there. -/
structure Bytes (N : ℕ) (storage : ℕ → UInt8) (stream : List UInt8) (H : ℕ)
    (ahead : ℕ → Option UInt8) : Prop where
  room : stream.length ≤ H + N
  live : ∀ p b, H ≤ p → stream[p]? = some b → storage (p % N) = b
  ahead : ∀ j b, ahead j = some b →
    storage ((stream.length + j) % N) = b ∧ stream.length + j < H + N

/-- The writable span started `used` bytes before the tail `T` and fits below one lap past `H`. -/
def WritableOk (N : ℕ) (sp : Span) (staged : List UInt8) (T H : ℕ) : Prop :=
  ∃ o, o + sp.used = T ∧ sp.base = o % N ∧ sp.base + sp.size ≤ N ∧ o + sp.size ≤ H + N ∧
    (staged = [] ∨ sp.used + staged.length ≤ sp.size)

/-- The readable span started `used` bytes before the head `H` and showed the stream there. -/
def ReadableOk (N : ℕ) (sp : Span) (view stream : List UInt8) (H : ℕ) : Prop :=
  ∃ o, o + sp.used = H ∧ sp.base = o % N ∧ sp.base + sp.size ≤ N ∧ o + sp.size ≤ stream.length ∧
    view = (stream.drop o).take sp.size

def ProdOk (r : Ring) (staged : List UInt8) (T H : ℕ) : ProdPc r.w → Prop
  | .spanTail base => base = T % r.capacity
  | .spanHead base tail => base = T % r.capacity ∧ tail = word r.w T
  | .commitTail count => count ≤ staged.length
  | .commitHead count tail => tail = word r.w T ∧ count ≤ staged.length
  | .commitLoad count => count ≤ staged.length
  | .commitStore count tail => tail = word r.w T ∧ count ≤ staged.length
  | .writeHead _ tail => tail = word r.w T
  | .writeCopy source tail i =>
    tail = word r.w T ∧ i ≤ source.length ∧ T + source.length ≤ H + r.capacity
  | .aborted => False
  | _ => True

/-- A tail loaded when `d` bytes were published, and still between the head and the tail. -/
def Loaded (r : Ring) (H T d : ℕ) (tail : BitVec r.w) : Prop := tail = word r.w d ∧ H ≤ d ∧ d ≤ T

def ConsOk (r : Ring) (stream : List UInt8) (H d : ℕ) : ConsPc r.w → Prop
  | .spanTail base => base = H % r.capacity
  | .spanHead base tail => base = H % r.capacity ∧ Loaded r H stream.length d tail
  | .consumeHead _ tail => Loaded r H stream.length d tail
  | .consumeStore count head => head = word r.w H ∧ H + count ≤ stream.length
  | .readHead _ tail => Loaded r H stream.length d tail
  | .readCopy head count copied => head = word r.w H ∧ H + count ≤ stream.length ∧
    copied.length ≤ count ∧ copied <+: stream.drop H
  | _ => True

structure Inv (s : State r.w) : Prop where
  head : s.head = word r.w s.output.length
  tail : s.tail = word r.w s.stream.length
  out : s.output <+: s.stream
  bytes : Bytes r.capacity s.storage s.stream s.output.length (pending s.prod s.staged)
  writable : WritableOk r.capacity s.writable s.staged s.stream.length s.output.length
  readable : ReadableOk r.capacity s.readable s.view s.stream s.output.length
  prod : ProdOk r s.staged s.stream.length s.output.length s.prod
  cons : ConsOk r s.stream s.output.length s.tailSeen s.cons

theorem inv_init : Inv (init r) := by
  refine ⟨rfl, rfl, List.prefix_refl _, ⟨Nat.zero_le _, ?_, ?_⟩, ⟨0, rfl, ?_⟩, ⟨0, rfl, ?_⟩, trivial,
    trivial⟩
  · simp [init]
  · simp [init, pending]
  · simp [init]
  · simp [init]

/-! ### Bytes -/

section Bytes
variable {N H : ℕ} {storage : ℕ → UInt8} {stream : List UInt8} {ahead ahead' : ℕ → Option UInt8}

section

variable (hb : Bytes N storage stream H ahead)
include hb

/-- Promising less about the bytes past the tail. -/
theorem Bytes.weaken (h : ∀ j b, ahead' j = some b → ahead j = some b) :
    Bytes N storage stream H ahead' :=
  ⟨hb.room, hb.live, fun j b hj => hb.ahead j b (h j b hj)⟩

/-- Publishing moves the first promised bytes into the stream. -/
theorem Bytes.publish {bytes : List UInt8} (hroom : stream.length + bytes.length ≤ H + N)
    (hbytes : ∀ j b, bytes[j]? = some b → ahead j = some b)
    (hrest : ∀ j b, ahead' j = some b → ahead (bytes.length + j) = some b) :
    Bytes N storage (stream ++ bytes) H ahead' := by
  refine ⟨?_, ?_, ?_⟩
  · rw [List.length_append]
    exact hroom
  · intro p b hp hpb
    rcases Nat.lt_or_ge p stream.length with hlt | hge
    · rw [List.getElem?_append_left hlt] at hpb
      exact hb.live p b hp hpb
    · rw [List.getElem?_append_right hge] at hpb
      have := (hb.ahead _ b (hbytes _ b hpb)).1
      rwa [Nat.add_sub_cancel' hge] at this
  · intro j b hj
    rw [List.length_append, Nat.add_assoc]
    exact hb.ahead _ b (hrest j b hj)

/-- Releasing shrinks the live part and gives its slots to the producer. -/
theorem Bytes.release {H' : ℕ} (hle : H ≤ H') : Bytes N storage stream H' ahead := by
  have hroom := hb.room
  refine ⟨by omega, fun p b hp => hb.live p b (hle.trans hp), fun j b hj => ?_⟩
  obtain ⟨h1, h2⟩ := hb.ahead j b hj
  exact ⟨h1, by omega⟩

end

/-- Writing a byte of the producer's part disturbs neither the stream nor the other promises. -/
theorem Bytes.write (hb : Bytes r.capacity storage stream H ahead) {i : ℕ} {b : UInt8}
    (hH : H ≤ stream.length) (hi : stream.length + i < H + r.capacity)
    (hother : ∀ j c, ahead' j = some c → if j = i then c = b else ahead j = some c) :
    Bytes r.capacity (update storage ((stream.length + i) % r.capacity) b) stream H
      ahead' := by
  refine ⟨hb.room, ?_, ?_⟩
  · intro p c hp hpc
    have hlt : p < stream.length := (List.getElem?_eq_some_iff.mp hpc).1
    rw [update_of_ne (slot_ne hp (by omega) hi)]
    exact hb.live p c hp hpc
  · intro j c hj
    have hc := hother j c hj
    by_cases hji : j = i
    · rw [if_pos hji] at hc
      subst hji hc
      rw [update_self]
      exact ⟨rfl, hi⟩
    · rw [if_neg hji] at hc
      obtain ⟨h1, h2⟩ := hb.ahead j c hc
      refine ⟨?_, h2⟩
      have hne : (stream.length + j) % r.capacity ≠ (stream.length + i) % r.capacity := by
        rcases Nat.lt_or_gt_of_ne hji with hlt | hgt
        · exact slot_ne (by omega) (by omega) hi
        · exact (slot_ne (by omega) (by omega) h2).symm
      rw [update_of_ne hne]
      exact h1

end Bytes

/-! ### What survives the other side's moves -/

theorem Inv.le (hi : Inv s) : s.output.length ≤ s.stream.length := hi.out.length_le

theorem Loaded.mono {T' : ℕ} (h : Loaded r H T d tail) (hT : T ≤ T') :
    Loaded r H T' d tail := ⟨h.1, h.2.1, h.2.2.trans hT⟩

theorem ConsOk.append {pc : ConsPc r.w} (h : ConsOk r stream H d pc) (bytes : List UInt8) :
    ConsOk r (stream ++ bytes) H d pc := by
  have hlen : stream.length ≤ (stream ++ bytes).length := by simp
  cases pc with
  | spanHead base tail => exact ⟨h.1, h.2.mono hlen⟩
  | consumeHead count tail => exact Loaded.mono h hlen
  | readHead size tail => exact Loaded.mono h hlen
  | consumeStore count head => exact ⟨h.1, h.2.trans hlen⟩
  | readCopy head count copied =>
    obtain ⟨h1, h2, h3, h4⟩ := h
    refine ⟨h1, h2.trans hlen, h3, h4.trans ?_⟩
    rw [List.drop_append_of_le_length (by omega)]
    exact List.prefix_append _ _
  | _ => exact h

theorem ReadableOk.append {view : List UInt8} (h : ReadableOk N sp view stream H) (bytes : List UInt8) :
    ReadableOk N sp view (stream ++ bytes) H := by
  obtain ⟨o, h1, h2, h3, h4, rfl⟩ := h
  refine ⟨o, h1, h2, h3, by simp; omega, ?_⟩
  rw [List.drop_append_of_le_length (by omega),
    List.take_append_of_le_length (by rw [List.length_drop]; omega)]

theorem ProdOk.mono (h : ProdOk r staged T H pc) (hH : H ≤ H') : ProdOk r staged T H' pc := by
  cases pc with
  | writeCopy source tail i => exact ⟨h.1, h.2.1, by have := h.2.2; omega⟩
  | _ => exact h

theorem WritableOk.mono (h : WritableOk N sp staged T H) (hH : H ≤ H') : WritableOk N sp staged T H' := by
  obtain ⟨o, h1, h2, h3, h4, h5⟩ := h
  exact ⟨o, h1, h2, h3, by omega, h5⟩

/-! ### Producer steps -/

/-- What is filled fits the contiguous run as it is now. -/
theorem staged_le_run (h : WritableOk r.capacity sp staged T H) (hHT : H ≤ T)
    (hroom : T ≤ H + r.capacity) : staged.length ≤ writableRun r (word r.w T) (word r.w H) := by
  obtain ⟨o, rfl, hbase, hend, htop, hlen⟩ := h
  rcases hlen with rfl | hlen
  · exact Nat.zero_le _
  · rw [writableRun, freeTotal_word hHT hroom, toEnd_word]
    rcases Nat.eq_zero_or_pos staged.length with h0 | hpos
    · omega
    · -- the tail has not left the lap the span was cut from
      have hmod : (o + sp.used) % r.capacity = sp.base + sp.used := by
        rw [hbase, run_mod (by omega)]
      rw [hmod]
      omega

theorem Inv.setProd (hi : Inv s)
    (hp : ∀ j b, pending pc s.staged j = some b → pending s.prod s.staged j = some b)
    (hok : ProdOk r s.staged s.stream.length s.output.length pc) : Inv { s with prod := pc } :=
  ⟨hi.head, hi.tail, hi.out, hi.bytes.weaken hp, hi.writable, hi.readable, hok, hi.cons⟩

/-- A fresh span starts at the tail, and what was filled before still fits into it. -/
theorem WritableOk.fresh (h : WritableOk r.capacity sp staged T H) (hHT : H ≤ T)
    (hroom : T ≤ H + r.capacity) :
    WritableOk r.capacity ⟨T % r.capacity, writableRun r (word r.w T) (word r.w H), 0⟩ staged T H := by
  have hstaged := staged_le_run h hHT hroom
  have hlt := Nat.mod_lt T r.capacity_pos
  have hrun : writableRun r (word r.w T) (word r.w H) =
      min (H + r.capacity - T) (r.capacity - T % r.capacity) := by
    rw [writableRun, freeTotal_word hHT hroom, toEnd_word]
  rw [hrun] at hstaged ⊢
  exact ⟨T, rfl, rfl, by simp only; omega, by simp only; omega, .inr (by simp only; omega)⟩

theorem inv_spanHead (hi : Inv s) (hpc : s.prod = .spanHead base tail) :
    Inv { s with prod := .returned (.span (writableRun r tail s.head)),
                 writable := ⟨base, writableRun r tail s.head, 0⟩ } := by
  have hok := hi.prod
  have hb := hi.bytes
  rw [hpc] at hok hb
  obtain ⟨rfl, rfl⟩ := hok
  have hfresh := hi.writable.fresh hi.le hi.bytes.room
  rw [← hi.head] at hfresh
  exact ⟨hi.head, hi.tail, hi.out, hb, hfresh, hi.readable, trivial, hi.cons⟩

theorem WritableOk.publish (h : WritableOk N sp staged T H) (count : ℕ) :
    WritableOk N { sp with used := sp.used + count } (staged.drop count) (T + count) H := by
  obtain ⟨o, rfl, hbase, hend, htop, hlen⟩ := h
  refine ⟨o, by simp only; omega, hbase, hend, htop, ?_⟩
  rcases Nat.lt_or_ge count staged.length with hlt | hge
  · right
    rcases hlen with rfl | hlen
    · exact absurd hlt (Nat.not_lt_zero _)
    · simp only [List.length_drop]
      omega
  · exact .inl (List.drop_eq_nil_of_le hge)

/-- STEP (publish): the promised bytes become part of the stream. -/
theorem Inv.publish (hi : Inv s) {ret : ProdRet} (htail : tail = word r.w s.stream.length)
    (hlen : bytes.length = count) (hroom : s.stream.length + count ≤ s.output.length + r.capacity)
    (hbytes : ∀ j b, bytes[j]? = some b → pending s.prod s.staged j = some b)
    (hrest : ∀ j b, s.staged[count + j]? = some b → pending s.prod s.staged (count + j) = some b) :
    Inv { s.publish tail count bytes with prod := .returned ret } := by
  subst hlen
  have hlength : (s.stream ++ bytes).length = s.stream.length + bytes.length := List.length_append
  refine ⟨hi.head, ?_, hi.out.trans (List.prefix_append _ _), hi.bytes.publish hroom hbytes ?_, ?_,
    hi.readable.append bytes, trivial, hi.cons.append bytes⟩
  · rw [State.publish, hlength, htail]
    exact word_add ..
  · intro j b hj
    have hdrop : (s.staged.drop bytes.length)[j]? = some b := hj
    rw [List.getElem?_drop] at hdrop
    exact hrest j b hdrop
  · have hspan := hi.writable.publish bytes.length
    rw [← hlength] at hspan
    exact hspan

theorem inv_commitStore (hi : Inv s) (hpc : s.prod = .commitStore count tail) :
    Inv { s.publish tail count (s.staged.take count) with prod := .returned .committed } := by
  have hok := hi.prod
  rw [hpc] at hok
  obtain ⟨htail, hcount⟩ := hok
  refine hi.publish htail (by rw [List.length_take]; omega) ?_ ?_ ?_
  · obtain ⟨o, h1, -, -, h4, h5⟩ := hi.writable
    rcases h5 with h5 | h5
    · have hroom := hi.bytes.room
      rw [h5] at hcount
      simp only [List.length_nil] at hcount
      omega
    · omega
  · intro j b hj
    rw [List.getElem?_take] at hj
    rw [hpc]
    split at hj
    · exact hj
    · cases hj
  · intro j b hj
    rw [hpc]
    exact hj

theorem inv_writeHead (hi : Inv s) (hpc : s.prod = .writeHead source tail)
    (hfit : source.length ≤ freeTotal r tail s.head) :
    Inv { s with prod := .writeCopy source tail 0 } := by
  have hok := hi.prod
  rw [hpc] at hok
  have hroom := hi.bytes.room
  rw [hok, hi.head, freeTotal_word hi.le hroom] at hfit
  refine hi.setProd (fun j b hj => ?_) ⟨hok, Nat.zero_le _, by omega⟩
  rw [hpc]
  simp only [pending, Nat.not_lt_zero, if_false] at hj
  split at hj
  · cases hj
  · exact hj

/-- STEP (copy): one byte of the source lands where the consumer does not look. -/
theorem inv_writeByte (hi : Inv s) (hpc : s.prod = .writeCopy source tail i) (hb : source[i]? = some b) :
    Inv { s with storage := update s.storage (r.slot (tail + BitVec.ofNat r.w i)) b,
                 prod := .writeCopy source tail (i + 1) } := by
  have hok := hi.prod
  have hbytes := hi.bytes
  rw [hpc] at hok hbytes
  obtain ⟨rfl, hi', hfit⟩ := hok
  have hlt : i < source.length := (List.getElem?_eq_some_iff.mp hb).1
  rw [slot_add]
  refine ⟨hi.head, hi.tail, hi.out, hbytes.write hi.le (by omega) ?_, hi.writable, hi.readable,
    ⟨rfl, hlt, hfit⟩, hi.cons⟩
  intro j c hj
  simp only [pending] at hj ⊢
  rcases eq_or_ne j i with rfl | hji
  · rw [if_pos (Nat.lt_succ_self j), hb] at hj
    rw [if_pos rfl]
    exact (Option.some.inj hj).symm
  · rw [if_neg hji]
    by_cases hjlt : j < i
    · rw [if_pos (by omega)] at hj
      rw [if_pos hjlt]
      exact hj
    · rw [if_neg (by omega)] at hj
      rw [if_neg hjlt]
      exact hj

theorem inv_writeStore (hi : Inv s) (hpc : s.prod = .writeCopy source tail i)
    (hnone : source[i]? = none) :
    Inv { s.publish tail source.length source with prod := .returned (.wrote true) } := by
  have hok := hi.prod
  rw [hpc] at hok
  obtain ⟨htail, hle, hfit⟩ := hok
  obtain rfl : i = source.length := le_antisymm hle (List.getElem?_eq_none_iff.mp hnone)
  refine hi.publish htail rfl hfit (fun j b hj => ?_) (fun j b hj => ?_)
  · rw [hpc, pending, if_pos (List.getElem?_eq_some_iff.mp hj).1]
    exact hj
  · rw [hpc, pending, if_neg (by omega), if_neg (by omega)]
    exact hj

theorem inv_produce (hi : Inv s) (h : produce r s = some s') : Inv s' := by
  have hok := hi.prod
  cases hpc : s.prod <;> rw [hpc] at hok <;> simp only [produce, hpc] at h
  case idle => cases h
  case returned => cases h
  case aborted => cases h
  case spanHead base tail =>
    cases h
    exact inv_spanHead hi hpc
  case commitHead count tail =>
    have hle : count ≤ writableRun r tail s.head := by
      rw [hok.1, hi.head]
      exact hok.2.trans (staged_le_run hi.writable hi.le hi.bytes.room)
    rw [if_pos hle] at h
    cases h
    refine hi.setProd (by rw [hpc]; exact fun _ _ hj => hj) ?_
    exact hok.2
  case commitStore count tail =>
    cases h
    exact inv_commitStore hi hpc
  case writeHead source tail =>
    split at h <;> cases h
    · exact hi.setProd (by rw [hpc]; exact fun _ _ hj => hj) trivial
    · exact inv_writeHead hi hpc (by omega)
  case writeCopy source tail i =>
    split at h
    · next hb =>
      cases h
      exact inv_writeByte hi hpc hb
    · next hnone =>
      cases h
      exact inv_writeStore hi hpc hnone
  case spanBase =>
    cases h
    exact hi.setProd (by rw [hpc]; exact fun _ _ hj => hj) (by rw [hi.tail]; exact r.slot_word _)
  case spanTail base =>
    cases h
    exact hi.setProd (by rw [hpc]; exact fun _ _ hj => hj) ⟨hok, hi.tail⟩
  case commitTail count =>
    cases h
    exact hi.setProd (by rw [hpc]; exact fun _ _ hj => hj) ⟨hi.tail, hok⟩
  case commitLoad count =>
    cases h
    exact hi.setProd (by rw [hpc]; exact fun _ _ hj => hj) ⟨hi.tail, hok⟩
  case writeTail source =>
    cases h
    exact hi.setProd (by rw [hpc]; exact fun _ _ hj => hj) hi.tail

/-! ### Filling the span -/

theorem fillAt_getElem? {c : UInt8} (hj : j ≤ staged.length) (h : (fillAt staged j b)[k]? = some c) :
    if k = j then c = b else staged[k]? = some c := by
  have htake : (staged.take j).length = j := by rw [List.length_take]; omega
  rw [fillAt] at h
  rcases Nat.lt_trichotomy k j with hlt | rfl | hgt
  · rw [List.getElem?_append_left (by omega), List.getElem?_take_of_lt hlt] at h
    rw [if_neg hlt.ne]
    exact h
  · rw [List.getElem?_append_right (by omega), htake, Nat.sub_self, List.getElem?_cons_zero] at h
    rw [if_pos rfl]
    exact (Option.some.inj h).symm
  · obtain ⟨m, rfl⟩ := Nat.exists_eq_add_of_lt hgt
    rw [List.getElem?_append_right (by omega), htake, show j + m + 1 - j = m + 1 by omega,
      List.getElem?_cons_succ, List.getElem?_drop] at h
    rw [if_neg (by omega), show j + m + 1 = j + 1 + m by omega]
    exact h

theorem fillAt_length (b : UInt8) (hj : j ≤ staged.length) :
    (fillAt staged j b).length = max staged.length (j + 1) := by
  simp only [fillAt, List.length_append, List.length_take, List.length_cons, List.length_drop]
  omega

theorem pending_ready {w : ℕ} {pc : ProdPc w} (h : pc.ready = true) (staged : List UInt8) (j : ℕ) :
    pending pc staged j = staged[j]? := by
  cases pc <;> first | rfl | cases h

theorem prodOk_ready (h : pc.ready = true) (staged : List UInt8) (T H : ℕ) : ProdOk r staged T H pc := by
  cases pc <;> trivial

/-- The address of a byte in the span is the slot of its position, below one lap past the head. -/
theorem WritableOk.address (h : WritableOk r.capacity sp staged T H) (hj : sp.used + j < sp.size) :
    sp.base + sp.used + j = (T + j) % r.capacity ∧ T + j < H + r.capacity := by
  obtain ⟨o, rfl, hbase, hend, htop, -⟩ := h
  refine ⟨?_, by omega⟩
  rw [hbase] at hend ⊢
  rw [Nat.add_assoc, run_mod (by omega), Nat.add_assoc]

theorem WritableOk.fill (h : WritableOk N sp staged T H) (hj : j ≤ staged.length)
    (hsize : sp.used + j < sp.size) : WritableOk N sp (fillAt staged j b) T H := by
  obtain ⟨o, h1, h2, h3, h4, h5⟩ := h
  refine ⟨o, h1, h2, h3, h4, .inr ?_⟩
  rw [fillAt_length b hj]
  rcases h5 with rfl | h5
  · simp only [List.length_nil] at hj ⊢
    omega
  · omega

theorem inv_fill (hi : Inv s) (hready : s.prod.ready = true) (hj : j ≤ s.staged.length)
    (hsize : s.writable.used + j < s.writable.size) :
    Inv { s with storage := update s.storage (s.writable.base + s.writable.used + j) b,
                 staged := fillAt s.staged j b } := by
  obtain ⟨haddr, htop⟩ := hi.writable.address hsize
  rw [haddr]
  refine ⟨hi.head, hi.tail, hi.out, hi.bytes.write hi.le htop fun k c hk => ?_,
    hi.writable.fill hj hsize, hi.readable, prodOk_ready hready _ _ _, hi.cons⟩
  rw [pending_ready hready] at hk ⊢
  exact fillAt_getElem? hj hk

/-! ### Consumer steps -/

/-- The storage shows the stream over any live range. -/
theorem Bytes.stored_eq (hb : Bytes N storage stream H ahead) (hle : H + count ≤ stream.length) :
    ((List.range count).map fun k => storage ((H + k) % N)) = (stream.drop H).take count := by
  apply List.ext_getElem?
  intro k
  rcases Nat.lt_or_ge k count with hlt | hge
  · have hk : H + k < stream.length := by omega
    have hlive := hb.live (H + k) stream[H + k] (Nat.le_add_right _ _) (List.getElem?_eq_getElem hk)
    rw [List.getElem?_map, List.getElem?_range hlt, List.getElem?_take_of_lt hlt, List.getElem?_drop,
      List.getElem?_eq_getElem hk, Option.map_some, hlive]
  · rw [List.getElem?_eq_none (by simpa using hge), List.getElem?_take_eq_none hge]

theorem Inv.setCons (hi : Inv s) {pc : ConsPc r.w} (hok : ConsOk r s.stream s.output.length d pc) :
    Inv { s with cons := pc, tailSeen := d } :=
  ⟨hi.head, hi.tail, hi.out, hi.bytes, hi.writable, hi.readable, hi.prod, hok⟩

theorem loaded_sub (h : Loaded r H T d tail) (hroom : T ≤ H + r.capacity) :
    (tail - word r.w H).toNat = d - H := by
  obtain ⟨rfl, hlo, hhi⟩ := h
  have hlt := r.lt_word
  exact word_sub_toNat hlo (by omega)

/-- A fresh readable span starts at the head and shows the stream. -/
theorem readableOk_fresh (hb : Bytes r.capacity storage stream H ahead)
    (hl : Loaded r H stream.length d tail) :
    ReadableOk r.capacity ⟨H % r.capacity, readableRun r tail (word r.w H), 0⟩
      ((List.range (readableRun r tail (word r.w H))).map fun k => storage (H % r.capacity + k))
      stream H := by
  have hlt := Nat.mod_lt H r.capacity_pos
  have hrun : readableRun r tail (word r.w H) = min (d - H) (r.capacity - H % r.capacity) := by
    rw [readableRun, loaded_sub hl hb.room, toEnd_word]
  obtain ⟨-, hlo, hhi⟩ := hl
  have hfit : H + min (d - H) (r.capacity - H % r.capacity) ≤ stream.length := by omega
  rw [hrun]
  refine ⟨H, rfl, rfl, by simp only; omega, hfit, ?_⟩
  rw [← hb.stored_eq hfit]
  refine List.map_congr_left fun k hk => ?_
  rw [List.mem_range] at hk
  rw [run_mod (by omega)]

theorem inv_readableSpan (hi : Inv s) (hpc : s.cons = .spanHead base tail) :
    Inv { s with cons := .returned (.span (readableRun r tail s.head)),
                 readable := ⟨base, readableRun r tail s.head, 0⟩,
                 view := (List.range (readableRun r tail s.head)).map
                   fun k => s.storage (base + k) } := by
  have hok := hi.cons
  rw [hpc] at hok
  obtain ⟨rfl, hl⟩ := hok
  have hfresh := readableOk_fresh hi.bytes hl
  rw [← hi.head] at hfresh
  exact ⟨hi.head, hi.tail, hi.out, hi.bytes, hi.writable, hfresh, hi.prod, trivial⟩

/-- STEP (release): the next bytes of the stream leave. -/
theorem Inv.release (hi : Inv s) {head : BitVec r.w} {ret : ConsRet}
    (hhead : head = word r.w s.output.length) (hle : s.output.length + count ≤ s.stream.length)
    (hbytes : bytes = (s.stream.drop s.output.length).take count) :
    Inv { s.release head count bytes with cons := .returned ret } := by
  obtain ⟨rest, hrest⟩ := id hi.out
  have hdrop : s.stream.drop s.output.length = rest := by rw [← hrest, List.drop_left]
  have hlength : (s.output ++ bytes).length = s.output.length + count := by
    rw [List.length_append, hbytes, List.length_take, List.length_drop]
    omega
  have hmono : s.output.length ≤ s.output.length + count := Nat.le_add_right _ _
  refine ⟨?_, hi.tail, ?_, ?_, ?_, ?_, ?_, trivial⟩
  · rw [State.release, hlength, hhead]
    exact word_add ..
  · show s.output ++ bytes <+: s.stream
    rw [hbytes, hdrop]
    nth_rewrite 1 [← hrest]
    exact (List.prefix_append_right_inj _).mpr (List.take_prefix _ _)
  · exact hi.bytes.release (by simp only [State.release, hlength]; exact hmono)
  · exact hi.writable.mono (by simp only [State.release, hlength]; exact hmono)
  · obtain ⟨o, h1, h2, h3, h4, h5⟩ := hi.readable
    exact ⟨o, by simp only [State.release, hlength]; omega, h2, h3, h4, h5⟩
  · exact hi.prod.mono (by simp only [State.release, hlength]; exact hmono)

/-- One more byte copied extends the prefix of the stream in the destination. -/
theorem copied_next {copied : List UInt8} (hb : Bytes N storage stream H ahead)
    (hpre : copied <+: stream.drop H) (hlt : H + copied.length < stream.length) :
    copied ++ [storage ((H + copied.length) % N)] <+: stream.drop H := by
  obtain ⟨rest, hrest⟩ := hpre
  cases rest with
  | nil =>
    have hlen := congrArg List.length hrest
    rw [List.append_nil, List.length_drop] at hlen
    omega
  | cons b rest =>
    have hb' : stream[H + copied.length]? = some b := by
      rw [← List.getElem?_drop, ← hrest, List.getElem?_append_right (le_refl _), Nat.sub_self,
        List.getElem?_cons_zero]
    rw [hb.live _ b (Nat.le_add_right _ _) hb', ← hrest]
    exact ⟨rest, by simp⟩

theorem inv_consume (hi : Inv s) (h : consume r s = some s') : Inv s' := by
  have hok := hi.cons
  have hroom := hi.bytes.room
  cases hpc : s.cons <;> rw [hpc] at hok <;> simp only [consume, hpc] at h
  case idle => cases h
  case returned => cases h
  case aborted => cases h
  case spanBase =>
    cases h
    refine hi.setCons (d := s.tailSeen) ?_
    rw [hi.head]
    exact r.slot_word _
  case spanTail base =>
    cases h
    exact hi.setCons ⟨hok, hi.tail, hi.le, le_refl _⟩
  case spanHead base tail =>
    cases h
    exact inv_readableSpan hi hpc
  case consumeTail count =>
    cases h
    exact hi.setCons (d := s.stream.length) ⟨hi.tail, hi.le, le_refl _⟩
  case consumeHead count tail =>
    split at h
    · next hle =>
      cases h
      rw [hi.head, loaded_sub hok hroom] at hle
      obtain ⟨-, hlo, hhi⟩ := hok
      exact hi.setCons (d := s.tailSeen) ⟨hi.head, by omega⟩
    · cases h
      exact hi.setCons (d := s.tailSeen) trivial
  case consumeStore count head =>
    cases h
    obtain ⟨hhead, hle⟩ := hok
    have hstored : stored r s.storage head count = (s.stream.drop s.output.length).take count := by
      rw [← hi.bytes.stored_eq hle, stored, hhead]
      exact List.map_congr_left fun k _ => by rw [slot_add]
    exact hi.release hhead hle hstored
  case readTail size =>
    cases h
    exact hi.setCons (d := s.stream.length) ⟨hi.tail, hi.le, le_refl _⟩
  case readHead size tail =>
    cases h
    have hsub := loaded_sub hok hroom
    rw [← hi.head] at hsub
    obtain ⟨-, hlo, hhi⟩ := hok
    exact hi.setCons (d := s.tailSeen) ⟨hi.head, by omega, Nat.zero_le _, List.nil_prefix⟩
  case readCopy head count copied =>
    obtain ⟨hhead, hle, hcount, hpre⟩ := hok
    split at h
    · next hlt =>
      cases h
      rw [hhead, slot_add]
      refine hi.setCons (d := s.tailSeen) ⟨rfl, hle, ?_, copied_next hi.bytes hpre (by omega)⟩
      rw [List.length_append, List.length_singleton]
      exact hlt
    · next hge =>
      cases h
      obtain rfl : count = copied.length := by omega
      exact hi.release hhead hle (List.prefix_iff_eq_take.mp hpre)

/-- STEP: every action of either side keeps the invariant. -/
theorem inv_step (s : State r.w) (a : Act) (s' : State r.w) (hi : Inv s) (h : step r s a = some s') :
    Inv s' := by
  cases a <;> simp only [step] at h
  case produce => exact inv_produce hi h
  case consume => exact inv_consume hi h
  all_goals
    split at h <;> cases h
  case fill.isTrue j b hg => exact inv_fill hi hg.1 hg.2.1 hg.2.2
  case writableSpan.isTrue hg =>
    exact hi.setProd (fun j b hj => by rw [pending_ready hg]; exact hj) trivial
  case commitWrite.isTrue count hg =>
    refine hi.setProd (fun j b hj => by rw [pending_ready hg.1]; exact hj) ?_
    exact hg.2
  case tryWrite.isTrue source hg =>
    exact hi.setProd (fun j b hj => by rw [pending_ready hg]; exact hj) trivial
  all_goals exact hi.setCons (d := s.tailSeen) trivial

/-- RUN: the invariant holds after every interleaving. -/
theorem inv_run {acts : List Act} (h : run (step r) (init r) acts = some s) : Inv s :=
  run_inv inv_step acts _ _ inv_init h

/-! ### What the two sides observe -/

/-- Two bytes filled and one committed, a `try_write` over the seam while the consumer reads, and a
    `try_write` that no longer fits. -/
def sampleRun : List Act :=
  [.writableSpan, .produce, .produce, .produce, .fill 0 7, .fill 1 8, .commitWrite 1, .produce,
    .produce, .produce, .produce, .tryWrite [1, 2, 3], .produce, .read 2, .consume, .produce, .produce,
    .consume, .produce, .consume, .produce, .produce, .tryWrite [4], .produce, .produce]

end Metl.SpscByteRing
