import Metl.Arena.ArenaInvariant

/-! Every step of an arena keeps its invariant. -/

namespace Metl.ArenaAllocator
open Metl.Schemes

variable {c : Cfg} {s s' : State c.w} {b : Block c.w} {bs new rest : List (Block c.w)}
  {fs : List (Frame c.w)} {t : ℕ}

/-! ### Allocation -/

variable {a : Arena} {destroy : BitVec c.w} {r : ℕ}

theorem Laid.offset_le (h : Laid c a bs) : a.offset ≤ c.capacity := by
  rw [h.offset]
  cases bs with
  | nil => exact Nat.zero_le _
  | cons b bs => exact h.linked.1.stop_le

/-- A block goes on top. -/
theorem Laid.push (h : Laid c a bs) (hb : b.Ok c) (hprev : b.prev = top bs)
    (hbirth : nextBirth bs ≤ b.birth) :
    Laid c ⟨b.stop, storeRecord c a.storage b.stop (b.record c)⟩ (b :: bs) := by
  have hl : Linked c (b :: bs) := ⟨hb, hprev, hbirth, h.linked⟩
  refine ⟨hl, rfl, ?_⟩
  exact Stored.store [] hl (by simp [Stored]) h.stored

theorem inv_push (hi : Inv s) (hb : b.Ok c) (hprev : b.prev = top s.blocks) (hbirth : b.birth = s.clock)
    (hkind : b.kind = .raw ∨ b.kind = .building) (hstacked : Stacked (b :: s.blocks) fs)
    (hresumed : Resumed (b :: s.blocks) fs) :
    Inv { s with arena := ⟨b.stop, storeRecord c s.arena.storage b.stop (b.record c)⟩,
                 stack := fs, blocks := b :: s.blocks, clock := s.clock + 1 } := by
  refine ⟨hi.laid.push hb hprev (hbirth ▸ hi.clock), ?_, ?_, hstacked, hresumed, hi.objects.push hbirth hkind⟩
  · rw [nextBirth_cons, hbirth]
  · intro m hm
    obtain ⟨hmarked, htime⟩ := hi.marks m hm
    exact ⟨.inr ⟨by omega, hmarked⟩, Nat.le_succ_of_le htime⟩

/-- The block a request that fits is given. -/
def newBlock (s : State c.w) (p : ℕ) (bytes alignment : BitVec c.w) (kind : Kind c.w) : Block c.w :=
  ⟨s.arena.offset, s.arena.offset + p, bytes.toNat,
    s.arena.offset + (p + bytes.toNat + c.record.size), alignment.toNat, s.clock, kind⟩

/-- What becomes of a request: null and nothing changes, or a new block on top. -/
theorem request_spec {alignment : BitVec c.w} {kind : Kind c.w} (bytes : BitVec c.w) (hi : Inv s)
    (hkind : kind = .raw ∨ kind = .building) (halign : isPow2 alignment = true) :
    ∃ p, p < alignment.toNat ∧ alignment.toNat ∣ c.base + (s.arena.offset + p) ∧
      (bytes = 0 ∨ c.capacity - s.arena.offset < p + bytes.toNat + c.record.size →
        request c s bytes alignment kind = (s, none)) ∧
      (bytes ≠ 0 → p + bytes.toNat + c.record.size ≤ c.capacity - s.arena.offset →
        (newBlock s p bytes alignment kind).Ok c ∧ request c s bytes alignment kind = ({ s with
          arena := ⟨(newBlock s p bytes alignment kind).stop, storeRecord c s.arena.storage
            (newBlock s p bytes alignment kind).stop ((newBlock s p bytes alignment kind).record c)⟩,
          blocks := newBlock s p bytes alignment kind :: s.blocks,
          clock := s.clock + 1 }, some (s.arena.offset + p))) := by
  have hoff := hi.laid.offset_le
  obtain ⟨p, hlt, hdvd, hnull, hfit⟩ := allocateImpl_spec bytes 0 halign hoff
  refine ⟨p, hlt, hdvd, ?_, ?_⟩
  · intro h
    rw [request, hnull h]
  · intro hne hle
    have hpos : 0 < bytes.toNat := Nat.pos_of_ne_zero fun h => hne (BitVec.eq_of_toNat_eq (by simpa using h))
    have hrecord : (newBlock s p bytes alignment kind).record c =
        ⟨BitVec.ofNat c.w s.arena.offset, BitVec.ofNat c.w (s.arena.offset + p), 0⟩ := by
      rcases hkind with rfl | rfl <;> simp [Block.record, newBlock, Kind.destroyFn]
    refine ⟨⟨Nat.le_add_right _ _, hpos, ?_, ?_, hdvd, ?_⟩, ?_⟩
    · simp only [newBlock]
      omega
    · simp only [newBlock]
      omega
    · intro destroy hk
      rcases hkind with rfl | rfl <;> cases hk
    · rw [request, hfit hne hle, hrecord]
      rfl

/-- STEP: `try_allocate`. -/
theorem inv_tryAllocate (hi : Inv s) (hu : userRuns s.stack = true) (bytes alignment : BitVec c.w) :
    Inv (tryAllocate c s bytes alignment).1 := by
  cases halign : isPow2 alignment with
  | false =>
    have hreq : request c s bytes alignment .raw = ({ s with stopped := true }, none) := by
      simp [request, allocateImpl, halign]
    rw [tryAllocate, hreq]
    exact ⟨hi.laid, hi.clock, hi.marks, hi.stacked, hi.resumed, hi.objects⟩
  | true =>
    obtain ⟨p, -, -, hnull, hfit⟩ := request_spec bytes hi (.inl rfl) halign
    by_cases hbad : bytes = 0 ∨ c.capacity - s.arena.offset < p + bytes.toNat + c.record.size
    · rw [tryAllocate, hnull hbad]
      exact hi
    · rw [not_or, Nat.not_lt] at hbad
      obtain ⟨hok, hreq⟩ := hfit hbad.1 hbad.2
      rw [tryAllocate, hreq]
      have hquiet : ∀ x ∈ [newBlock s p bytes alignment .raw], x.Quiet := by
        simp [newBlock, Block.Quiet]
      exact inv_push hi hok hi.laid.offset rfl (.inl rfl) (hi.stacked.extend hu hquiet)
        (resumed_of_user hu)

/-- STEP: `try_emplace` up to the constructor. -/
theorem inv_tryEmplace (hi : Inv s) (hu : userRuns s.stack = true) (bytes alignment : BitVec c.w)
    (hne : destroy ≠ 0) : Inv (tryEmplace c s bytes alignment destroy).1 := by
  rw [tryEmplace]
  split
  · exact hi
  · cases halign : isPow2 alignment with
    | false =>
      have hreq : request c s bytes alignment .building = ({ s with stopped := true }, none) := by
        simp [request, allocateImpl, halign]
      rw [hreq]
      exact ⟨hi.laid, hi.clock, hi.marks, hi.stacked, hi.resumed, hi.objects⟩
    | true =>
      obtain ⟨p, -, -, hnull, hfit⟩ := request_spec bytes hi (.inr rfl) halign
      by_cases hbad : bytes = 0 ∨ c.capacity - s.arena.offset < p + bytes.toNat + c.record.size
      · rw [hnull hbad]
        exact hi
      · rw [not_or, Nat.not_lt] at hbad
        obtain ⟨hok, hreq⟩ := hfit hbad.1 hbad.2
        rw [hreq]
        refine inv_push hi hok hi.laid.offset rfl (.inr rfl) ?_ trivial
        exact ⟨[], _, _, rfl, by simp, rfl, rfl, hne, hu, hi.stacked⟩

/-! ### Constructors -/

/-- One block of its kind stands in the list. -/
theorem find_unique {p : Block c.w → Bool} (hb : b ∈ bs) (hp : p b = true)
    (huniq : ∀ x ∈ bs, p x = true → x = b) : bs.find? p = some b := by
  cases hfind : bs.find? p with
  | none => exact absurd hp (by simpa using List.find?_eq_none.mp hfind b hb)
  | some x => rw [huniq x (List.mem_of_find?_eq_some hfind) (List.find?_some hfind)]

/-- Storing what a block has become, in its own record. -/
theorem Laid.set (new : List (Block c.w)) (kind : Kind c.w) (h : Laid c a (new ++ b :: rest))
    (hkind : ∀ destroy, kind = .object destroy → destroy ≠ 0) :
    Laid c { a with storage := storeRecord c a.storage b.stop ({ b with kind := kind }.record c) }
      (new ++ { b with kind := kind } :: rest) := by
  have hl : Linked c (new ++ { b with kind := kind } :: rest) := by
    rw [← setKind_append kind h.linked]
    exact h.linked.setKind hkind
  refine ⟨hl, ?_, Stored.store new hl (fun x hx => h.stored x (List.mem_append_left _ hx)) ?_⟩
  · rw [← setKind_append kind h.linked, top_setKind]
    exact h.offset
  · exact fun x hx => h.stored x (List.mem_append_right _ (List.mem_cons_of_mem _ hx))

theorem marks_setKind (stop : ℕ) (kind : Kind c.w) (hi : Inv s) :
    ∀ m ∈ s.marks, Marked m (setKind stop kind s.blocks) ∧ m.time ≤ s.clock :=
  fun m hm => ⟨(hi.marks m hm).1.setKind, (hi.marks m hm).2⟩

/-- STEP: a constructor returns, and the destructor is registered. -/
theorem inv_finish (hi : Inv s) (hstack : s.stack = .ctor r destroy :: fs) :
    Inv (finish c s r destroy fs) := by
  have hstacked := hi.stacked
  rw [hstack] at hstacked
  obtain ⟨new, b, rest, hblocks, hquiet, hkind, rfl, hne, hu, hrest⟩ := hstacked
  have hlaid := hi.laid
  have hobjects := hi.objects
  have hclock := hi.clock
  rw [hblocks] at hlaid hobjects hclock
  have hset := setKind_append (.object destroy) hlaid.linked
  have hmem : b ∈ new ++ b :: rest := mem_middle.mpr (.inl rfl)
  have hfind : (s.blocks.find? fun x => x.stop = b.stop) = some b := by
    rw [hblocks]
    exact find_unique hmem (by simp) fun x hx heq => hlaid.linked.stop_inj hx hmem (by simpa using heq)
  have hrecord : { loadRecord c s.arena.storage b.stop with destroy := destroy } =
      { b with kind := .object destroy }.record c := by
    rw [hlaid.stored b hmem]
    simp [Block.record, hkind, Kind.destroyFn]
  have hlt : b.birth < s.clock := Nat.lt_of_lt_of_le (hlaid.linked.birth_lt b hmem) hclock
  rw [finish, hfind, hrecord]
  refine ⟨?_, by simpa using hi.clock, marks_setKind _ _ hi, ?_, resumed_of_user hu, ?_⟩
  · simp only [hblocks, hset]
    exact hlaid.set _ _ (by simpa using hne)
  · simp only [hblocks, hset]
    exact hrest.ended hu hquiet (by simp [Block.Quiet])
  · simp only [hblocks, hset]
    exact hobjects.finish hlaid.linked hkind hlt destroy

/-- STEP: a constructor throws; its block stays, without a destructor. -/
theorem inv_throw (hi : Inv s) (hstack : s.stack = .ctor r destroy :: fs) :
    Inv { s with stack := fs, blocks := setKind r .raw s.blocks } := by
  have hstacked := hi.stacked
  rw [hstack] at hstacked
  obtain ⟨new, b, rest, hblocks, hquiet, hkind, rfl, -, hu, hrest⟩ := hstacked
  have hlaid := hi.laid
  have hobjects := hi.objects
  rw [hblocks] at hlaid hobjects
  have hset := setKind_append .raw hlaid.linked
  have hrecord : { b with kind := .raw }.record c = b.record c := by
    simp [Block.record, hkind, Kind.destroyFn]
  refine ⟨⟨hi.laid.linked.setKind (by simp), by simpa using hi.laid.offset, ?_⟩, by simpa using hi.clock,
    marks_setKind _ _ hi, ?_, resumed_of_user hu, ?_⟩
  · simp only [hblocks, hset]
    intro x hx
    rcases mem_middle.mp hx with rfl | hx
    · exact (hlaid.stored b (mem_middle.mpr (.inl rfl))).trans hrecord.symm
    · exact hlaid.stored x (mem_middle.mpr (.inr hx))
  · simp only [hblocks, hset]
    exact hrest.ended hu hquiet (by simp [Block.Quiet])
  · simp only [hblocks, hset]
    exact hobjects.throw hkind

/-- STEP: the owner of a block writes into its payload. -/
theorem inv_write {i : ℕ} {v : UInt8} (hi : Inv s) (hb : b ∈ s.blocks) (hle : b.pay ≤ i)
    (hlt : i < b.pay + b.size) :
    Inv { s with arena := { s.arena with storage := Function.update s.arena.storage i v } } := by
  refine ⟨⟨hi.laid.linked, hi.laid.offset, hi.laid.stored.frame hi.laid.linked ?_⟩, hi.clock, hi.marks,
    hi.stacked, hi.resumed, hi.objects⟩
  intro x hx j hj1 hj2
  have hbok := hi.laid.linked.ok hb
  have hxok := hi.laid.linked.ok hx
  have h1 := hbok.prev_le
  have h2 := hbok.stop_eq
  have h3 := hxok.prev_le
  have hne : j ≠ i := by
    rcases hi.laid.linked.apart hb hx with rfl | hapart | hapart
    · omega
    · omega
    · omega
  exact Function.update_of_ne hne ..

theorem inv_mark (hi : Inv s) : Inv { s with marks := ⟨s.arena.offset, s.clock⟩ :: s.marks } := by
  refine ⟨hi.laid, hi.clock, ?_, hi.stacked, hi.resumed, hi.objects⟩
  intro m hm
  rcases List.mem_cons.mp hm with rfl | hm
  · rw [hi.laid.offset]
    exact ⟨marked_top hi.clock, Nat.le_refl _⟩
  · exact hi.marks m hm

/-! ### Rolling back -/

/-- A call of `rewind` to a boundary starts its loop. -/
theorem startRewind_eq (hl : Laid c s.arena s.blocks) (hb : Bound t s.blocks) :
    startRewind c s t fs = { s with stack := .loop t :: fs } := by
  rw [startRewind, if_pos]
  rw [hl.offset]
  exact hb.le_top hl.linked

/-- STEP: the user rolls back to a boundary. -/
theorem inv_startRewind (hi : Inv s) (hb : Bound t s.blocks) (hu : mayRewind s.stack = true) :
    Inv { s with stack := .loop t :: s.stack } :=
  ⟨hi.laid, hi.clock, hi.marks, ⟨hb, returns_of_mayRewind hu, hi.stacked⟩, trivial, hi.objects⟩

/-- STEP: a destructor returns, and what it allocated is rolled back first. -/
theorem inv_endDtor {prev : ℕ} {below : List (Block c.w)} (hi : Inv s)
    (hstack : s.stack = .dtor r prev t below :: fs) :
    endDtor c s = some { s with stack := .loop r :: .after prev t below :: fs } ∧
      Inv { s with stack := .loop r :: .after prev t below :: fs } := by
  have hstacked := hi.stacked
  rw [hstack] at hstacked
  obtain ⟨hover, rfl, hbound, hreturns, hrest⟩ := hstacked
  have hb : Bound (top below) s.blocks := by
    obtain ⟨new, x, older, -, heq, -⟩ := hover
    rw [heq]
    exact (bound_top below).append
  refine ⟨?_, hi.laid, hi.clock, hi.marks, ⟨hb, rfl, hover, hbound, hreturns, hrest⟩, trivial, hi.objects⟩
  rw [endDtor, hstack]
  simp only
  rw [startRewind_eq hi.laid hb]

section Walk
variable {older : List (Block c.w)}

theorem loopStep_done (hle : s.arena.offset ≤ t) : loopStep c s t fs = some { s with stack := fs } := by
  rw [loopStep, if_pos hle]

variable {a : Arena}

/-- The record a walk reads is the one of the top block. -/
theorem Laid.top_record (h : Laid c a (b :: older)) :
    a.offset = b.stop ∧ loadRecord c a.storage a.offset = b.record c := by
  have hoff : a.offset = b.stop := h.offset
  refine ⟨hoff, ?_⟩
  rw [hoff]
  exact h.stored b (List.mem_cons_self ..)

section

variable (hl : Laid c s.arena (b :: older))
include hl

/-- A block that straddles the target stops the walk. -/
theorem loopStep_straddle (hlt : t < b.stop) (hprev : b.prev < t) :
    loopStep c s t fs = some { s with stopped := true } := by
  obtain ⟨hoff, hrecord⟩ := hl.top_record
  rw [loopStep, if_neg (by omega)]
  simp only [hrecord, hl.linked.1.prev_toNat, if_pos hprev]

/-- A block whose destructor runs ends the walk. -/
theorem loopStep_dying (hle : t ≤ b.prev) (hkind : b.kind = .dying) :
    loopStep c s t fs = some { s with stack := fs } := by
  obtain ⟨hoff, hrecord⟩ := hl.top_record
  have hok := hl.linked.1
  have hlt := hok.prev_lt
  have hnull : ¬ (b.record c).destroy ≠ 0 := by
    rw [hok.destroy_iff, hkind]
    simp
  rw [loopStep, if_neg (by omega)]
  simp only [hrecord, hok.prev_toNat]
  rw [if_neg (by omega), if_neg hnull, if_pos (hok.destroying_iff.mpr hkind)]

/-- A block without an object is released. -/
theorem loopStep_raw (hle : t ≤ b.prev) (hkind : b.kind = .raw) :
    loopStep c s t fs = some (release c s b.prev (.loop t :: fs)) := by
  obtain ⟨hoff, hrecord⟩ := hl.top_record
  have hok := hl.linked.1
  have hlt := hok.prev_lt
  have hnull : ¬ (b.record c).destroy ≠ 0 := by
    rw [hok.destroy_iff, hkind]
    simp
  have hcalm : ¬ (b.record c).payloadOffset = destroying c := by
    rw [hok.destroying_iff, hkind]
    simp
  rw [loopStep, if_neg (by omega)]
  simp only [hrecord, hok.prev_toNat]
  rw [if_neg (by omega), if_neg hnull, if_neg hcalm]

end

/-- The state in which the destructor of the top block runs. -/
def destroyTop (s : State c.w) (b : Block c.w) (older : List (Block c.w)) (t : ℕ) (fs : List (Frame c.w)) :
    State c.w :=
  { s with
    arena := { s.arena with
      storage := storeRecord c s.arena.storage b.stop ({ b with kind := .dying }.record c) }
    stack := .dtor b.stop b.prev t ({ b with kind := .dying } :: older) :: fs
    blocks := { b with kind := .dying } :: older
    destroyed := s.destroyed ++ [b.birth] }

/-- An object is marked, and its destructor runs. -/
theorem loopStep_object (hl : Laid c s.arena (b :: older)) (hblocks : s.blocks = b :: older)
    (hle : t ≤ b.prev) {destroy : BitVec c.w} (hkind : b.kind = .object destroy) :
    loopStep c s t fs = some (destroyTop s b older t fs) := by
  obtain ⟨hoff, hrecord⟩ := hl.top_record
  have hok := hl.linked.1
  have hlt := hok.prev_lt
  have hsome : (b.record c).destroy ≠ 0 := hok.destroy_iff.mpr ⟨destroy, hkind⟩
  have hpay : (b.record c).payloadOffset.toNat = b.pay := hok.pay_toNat (by simp [hkind])
  have hfn : (b.record c).destroy = destroy := by simp [Block.record, hkind, Kind.destroyFn]
  -- the payload names the top block, since no other begins there
  have hfind : (s.blocks.find? fun x => decide (x.pay = b.pay ∧ x.kind = .object destroy)) = some b := by
    rw [hblocks]
    refine find_unique (List.mem_cons_self ..) (by simp [hkind]) ?_
    intro x hx hpx
    have hpx' : x.pay = b.pay := (of_decide_eq_true hpx).1
    have h1 := hok.prev_le
    have h2 := hok.stop_eq
    have h3 := hok.size_pos
    have hxok := hl.linked.ok hx
    have h4 := hxok.prev_le
    have h5 := hxok.stop_eq
    have h6 := hxok.size_pos
    rcases hl.linked.apart hx (List.mem_cons_self ..) with heq | hapart | hapart
    · exact heq
    · omega
    · omega
  have hmark : { b.record c with destroy := 0, payloadOffset := destroying c } =
      { b with kind := .dying }.record c := by
    simp [Block.record, Kind.destroyFn]
  have hset : setKind b.stop .dying s.blocks = { b with kind := .dying } :: older := by
    rw [hblocks]
    simp [setKind]
  rw [loopStep, if_neg (by omega)]
  simp only [hrecord, hok.prev_toNat, hpay, hfn] at hsome ⊢
  rw [if_neg (by omega), if_pos hsome, hfind]
  simp only [Option.map_some, hoff, hset, destroyTop]
  rw [← hmark]

theorem release_eq (hl : Linked c (b :: older)) (hblocks : s.blocks = b :: older) :
    release c s b.prev fs = { s with
      arena := { s.arena with offset := b.prev }, stack := fs, blocks := older,
      marks := s.marks.filter fun m => decide (m.offset ≤ b.prev) } := by
  have hdrop : s.blocks.dropWhile (fun x => decide (b.prev < x.stop)) = older := by
    rw [hblocks, List.dropWhile_cons_of_pos (by simpa using hl.1.prev_lt)]
    cases older with
    | nil => rfl
    | cons x older =>
      have hprev : b.prev = x.stop := hl.2.1
      exact List.dropWhile_cons_of_neg (by simp [hprev])
  rw [release, hdrop]

theorem Laid.release (h : Laid c a (b :: older)) : Laid c { a with offset := b.prev } older :=
  ⟨h.linked.tail, h.linked.2.1, fun x hx => h.stored x (List.mem_cons_of_mem _ hx)⟩

theorem inv_release (hi : Inv s) (hblocks : s.blocks = b :: older)
    (hb : ∀ destroy, b.kind ≠ .object destroy) (hstacked : Stacked older fs) (hresumed : Resumed older fs) :
    Inv (release c s b.prev fs) := by
  have hlaid := hi.laid
  have hclock := hi.clock
  have hobjects := hi.objects
  rw [hblocks] at hlaid hclock hobjects
  have hlt := hlaid.linked.1.prev_lt
  rw [release_eq hlaid.linked hblocks]
  refine ⟨hlaid.release, ?_, ?_, hstacked, hresumed, hobjects.release hb⟩
  · have hbirth : nextBirth older ≤ b.birth := hlaid.linked.2.2.1
    rw [nextBirth_cons] at hclock
    exact Nat.le_of_succ_le (Nat.le_trans (Nat.succ_le_succ hbirth) hclock)
  · intro m hm
    obtain ⟨hm, hle⟩ := List.mem_filter.mp hm
    obtain ⟨hmarked, htime⟩ := hi.marks m hm
    rw [hblocks] at hmarked
    have hle' : m.offset ≤ b.prev := of_decide_eq_true hle
    exact ⟨hmarked.older (by omega), htime⟩

/-- What a round of a walk does: it is done, it meets a running destructor, it releases a block, or it
    starts a destructor. It never stops the program. -/
theorem loopStep_cases (hi : Inv s) (hstack : s.stack = .loop t :: fs) :
    (s.arena.offset = t ∧ loopStep c s t fs = some { s with stack := fs }) ∨
    ∃ b older, s.blocks = b :: older ∧ Bound t older ∧
      ((b.kind = .dying ∧ loopStep c s t fs = some { s with stack := fs }) ∨
       (b.kind = .raw ∧ Stacked older fs ∧
          loopStep c s t fs = some (release c s b.prev (.loop t :: fs))) ∨
       ∃ destroy, b.kind = .object destroy ∧ Stacked older fs ∧
          loopStep c s t fs = some (destroyTop s b older t fs)) := by
  have hstacked := hi.stacked
  rw [hstack] at hstacked
  obtain ⟨hbound, hreturns, hrest⟩ := hstacked
  have hle := hbound.le_top hi.laid.linked
  rw [← hi.laid.offset] at hle
  rcases Nat.lt_or_ge t s.arena.offset with hlt | hge
  · right
    have hne : s.blocks ≠ [] := by
      intro hnil
      rw [hi.laid.offset, hnil] at hlt
      exact absurd hlt (Nat.not_lt_zero t)
    obtain ⟨b, older, hblocks⟩ := List.exists_cons_of_ne_nil hne
    have hlaid := hi.laid
    rw [hblocks] at hlaid hbound hrest
    rw [hlaid.offset, top_cons] at hlt
    -- a boundary below the top lies below the whole top block
    have hbound' := hbound.older hlt
    have hprev : t ≤ b.prev := hlaid.linked.2.1 ▸ hbound'.le_top hlaid.linked.tail
    refine ⟨b, older, hblocks, hbound', ?_⟩
    rcases hrest.head hreturns with hquiet | hdying
    · have holder := hrest.older hreturns hquiet
      cases hkind : b.kind with
      | raw => exact .inr (.inl ⟨rfl, holder, loopStep_raw hlaid hprev hkind⟩)
      | object destroy =>
        exact .inr (.inr ⟨destroy, rfl, holder, loopStep_object hlaid hblocks hprev hkind⟩)
      | building => exact absurd hkind hquiet.1
      | dying => exact absurd hkind hquiet.2
    · exact .inl ⟨hdying, loopStep_dying hlaid hprev hdying⟩
  · exact .inl ⟨Nat.le_antisymm hge hle, loopStep_done hge⟩

/-- STEP: a round of a walk. -/
theorem inv_loopStep (hi : Inv s) (hstack : s.stack = .loop t :: fs) :
    ∃ s', loopStep c s t fs = some s' ∧ Inv s' := by
  have hstacked := hi.stacked
  rw [hstack] at hstacked
  obtain ⟨-, hreturns, hrest⟩ := hstacked
  have hdone : Resumed s.blocks fs → Inv { s with stack := fs } := fun hresumed =>
    ⟨hi.laid, hi.clock, hi.marks, hrest, hresumed, hi.objects⟩
  rcases loopStep_cases hi hstack with ⟨hend, heq⟩ | ⟨b, older, hblocks, hbound, hcases⟩
  · refine ⟨_, heq, hdone (hrest.resumed hreturns hi.laid.linked (.inl ?_))⟩
    rw [← hi.laid.offset, hend]
  · rcases hcases with ⟨hdying, heq⟩ | ⟨hkind, holder, heq⟩ | ⟨destroy, hkind, holder, heq⟩
    · exact ⟨_, heq, hdone (hrest.resumed hreturns hi.laid.linked (.inr ⟨b, older, hblocks, hdying⟩))⟩
    · refine ⟨_, heq, ?_⟩
      exact inv_release hi hblocks (by simp [hkind]) ⟨hbound, hreturns, holder⟩ trivial
    · have hlaid := hi.laid
      have hobjects := hi.objects
      have hclock := hi.clock
      rw [hblocks] at hlaid hobjects hclock
      refine ⟨_, heq, hlaid.set [] _ (by simp), hclock, ?_, ?_, trivial,
        hobjects.destroy hlaid.linked hkind⟩
      · intro m hm
        have hmarked := marks_setKind b.stop .dying hi m hm
        rw [hblocks, setKind, if_pos rfl] at hmarked
        exact hmarked
      · exact ⟨⟨[], _, _, rfl, rfl, by simp, rfl, rfl⟩, rfl, hbound, hreturns, holder⟩

/-- STEP: the loop goes on below the object it destroyed, which is released now. -/
theorem inv_after {prev : ℕ} {below : List (Block c.w)} (hi : Inv s)
    (hstack : s.stack = .after prev t below :: fs) : Inv (release c s prev (.loop t :: fs)) := by
  have hstacked := hi.stacked
  have hresumed := hi.resumed
  rw [hstack] at hstacked hresumed
  obtain ⟨⟨new, b, older, rfl, -, -, hdying, rfl⟩, hbound, hreturns, hrest⟩ := hstacked
  exact inv_release hi hresumed (by simp [hdying]) ⟨hbound, hreturns, hrest⟩ trivial

end Walk

/-- What a step can do to a state. -/
inductive Stepped (s : State c.w) : State c.w → Prop
  | allocate (bytes alignment : BitVec c.w) (hu : userRuns s.stack = true) :
    Stepped s (tryAllocate c s bytes alignment).1
  | emplace (bytes alignment : BitVec c.w) {destroy : BitVec c.w} (hu : userRuns s.stack = true)
    (hne : destroy ≠ 0) : Stepped s (tryEmplace c s bytes alignment destroy).1
  | finish {r : ℕ} {destroy : BitVec c.w} {fs : List (Frame c.w)} (h : s.stack = .ctor r destroy :: fs) :
    Stepped s (finish c s r destroy fs)
  | throw {r : ℕ} {destroy : BitVec c.w} {fs : List (Frame c.w)} (h : s.stack = .ctor r destroy :: fs) :
    Stepped s { s with stack := fs, blocks := setKind r .raw s.blocks }
  | write {b : Block c.w} {i : ℕ} (v : UInt8) (hb : b ∈ s.blocks) (hle : b.pay ≤ i)
    (hlt : i < b.pay + b.size) :
    Stepped s { s with arena := { s.arena with storage := Function.update s.arena.storage i v } }
  | mark : Stepped s { s with marks := ⟨s.arena.offset, s.clock⟩ :: s.marks }
  | rewind {t : ℕ} (hb : Bound t s.blocks) (hu : mayRewind s.stack = true) :
    Stepped s { s with stack := .loop t :: s.stack }
  | endDtor {r prev t : ℕ} {below : List (Block c.w)} {fs : List (Frame c.w)}
    (h : s.stack = .dtor r prev t below :: fs) :
    Stepped s { s with stack := .loop r :: .after prev t below :: fs }
  | loop {t : ℕ} {fs : List (Frame c.w)} {s' : State c.w} (h : s.stack = .loop t :: fs)
    (hs : loopStep c s t fs = some s') : Stepped s s'
  | after {prev t : ℕ} {below : List (Block c.w)} {fs : List (Frame c.w)}
    (h : s.stack = .after prev t below :: fs) : Stepped s (release c s prev (.loop t :: fs))

theorem step_cases {a : Act c.w} (hi : Inv s) (h : step c s a = some s') : Stepped s s' := by
  simp only [step] at h
  split at h
  · cases h
  · cases a <;> simp only [act] at h
    case allocate bytes alignment =>
      split at h
      · next hu => exact Option.some.inj h ▸ .allocate bytes alignment hu
      · cases h
    case emplace bytes alignment destroy =>
      split at h
      · next hu => exact Option.some.inj h ▸ .emplace bytes alignment hu.1 hu.2
      · cases h
    case finish =>
      split at h
      · next hstack => exact Option.some.inj h ▸ .finish hstack
      · cases h
    case throw =>
      split at h
      · next hstack => exact Option.some.inj h ▸ .throw hstack
      · cases h
    case write i v =>
      split at h
      · next hu =>
        obtain ⟨-, b, hb, hle, hlt⟩ := hu
        exact Option.some.inj h ▸ .write v hb hle hlt
      · cases h
    case mark =>
      split at h
      · exact Option.some.inj h ▸ .mark
      · cases h
    case rewind m =>
      split at h
      · next hu =>
        have hb := (hi.marks m hu.2).1.bound
        rw [startRewind_eq hi.laid hb] at h
        exact Option.some.inj h ▸ .rewind hb hu.1
      · cases h
    case reset =>
      split at h
      · next hu =>
        rw [startRewind_eq hi.laid (bound_zero _)] at h
        exact Option.some.inj h ▸ .rewind (bound_zero _) hu
      · cases h
    case endDtor =>
      cases hstack : s.stack with
      | nil => simp [endDtor, hstack] at h
      | cons f fs =>
        cases f with
        | dtor r prev t below =>
          rw [(inv_endDtor hi hstack).1] at h
          exact Option.some.inj h ▸ .endDtor hstack
        | _ => simp [endDtor, hstack] at h
    case tick =>
      cases hstack : s.stack with
      | nil => simp [tick, hstack] at h
      | cons f fs =>
        cases f with
        | loop t =>
          simp only [tick, hstack] at h
          exact .loop hstack h
        | after prev t below =>
          simp only [tick, hstack] at h
          exact Option.some.inj h ▸ .after hstack
        | _ => simp [tick, hstack] at h

/-- STEP: every step keeps the invariant. -/
theorem inv_step (s : State c.w) (a : Act c.w) (s' : State c.w) (hi : Inv s) (h : step c s a = some s') :
    Inv s' := by
  cases step_cases hi h with
  | allocate bytes alignment hu => exact inv_tryAllocate hi hu bytes alignment
  | emplace bytes alignment hu hne => exact inv_tryEmplace hi hu bytes alignment hne
  | finish hstack => exact inv_finish hi hstack
  | throw hstack => exact inv_throw hi hstack
  | write v hb hle hlt => exact inv_write hi hb hle hlt
  | mark => exact inv_mark hi
  | rewind hb hu => exact inv_startRewind hi hb hu
  | endDtor hstack => exact (inv_endDtor hi hstack).2
  | loop hstack hs =>
    obtain ⟨s₁, heq, hi₁⟩ := inv_loopStep hi hstack
    exact Option.some.inj (heq.symm.trans hs) ▸ hi₁
  | after hstack => exact inv_after hi hstack

theorem inv_init (storage : ℕ → UInt8) : Inv (State.init c storage) where
  laid := ⟨trivial, rfl, by simp [Stored, State.init]⟩
  clock := Nat.le_refl _
  marks := by simp [State.init]
  stacked := by simp [State.init, Stacked]
  resumed := trivial
  objects := by constructor <;> simp [State.init]

/-- RUN: the invariant holds whatever the constructors and destructors do. -/
theorem inv_run {storage : ℕ → UInt8} {acts : List (Act c.w)}
    (h : run (step c) (State.init c storage) acts = some s) : Inv s :=
  run_inv inv_step acts _ _ (inv_init storage) h

end Metl.ArenaAllocator
