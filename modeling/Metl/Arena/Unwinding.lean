import Metl.Arena.Rewind

/-! What the callers of an arena can rely on. -/

namespace Metl.ArenaAllocator
open Metl.Schemes

variable {c : Cfg} {s s' : State c.w} {b : Block c.w} {above below bs : List (Block c.w)}
  {fs : List (Frame c.w)} {t : ℕ} {m : Mark}

/-! ### Blocks -/

/-- The block is aligned as asked, it and its record lie in the storage in use, and the record can be
    read back. -/
structure Placed (s : State c.w) (b : Block c.w) : Prop where
  aligned : b.alignment ∣ c.base + b.pay
  record_after : b.pay + b.size + c.record.size = b.stop
  used : b.stop ≤ s.arena.offset
  inside : s.arena.offset ≤ c.capacity
  stored : loadRecord c s.arena.storage b.stop = b.record c

theorem placed (hi : Inv s) (hb : b ∈ s.blocks) : Placed s b := by
  obtain ⟨hok, hle⟩ := hi.laid.linked.stop_le_top b hb
  exact ⟨hok.aligned, hok.stop_eq, hi.laid.offset ▸ hle, hi.laid.offset_le, hi.laid.stored b hb⟩

/-- Payload and record of one block lie apart from those of another. -/
theorem Linked.disjoint {b' : Block c.w} (hl : Linked c bs) (hb : b ∈ bs) (hb' : b' ∈ bs) (hne : b ≠ b') :
    b.stop ≤ b'.pay ∨ b'.stop ≤ b.pay := by
  have h1 := (hl.ok hb).prev_le
  have h2 := (hl.ok hb').prev_le
  rcases hl.apart hb hb' with heq | hle | hle
  · exact absurd heq hne
  · left; omega
  · right; omega

/-- How a request for `bytes` at `alignment` is answered. -/
structure Answered (s s' : State c.w) (res : Option ℕ) (bytes alignment : BitVec c.w) : Prop where
  /-- Null exactly when padding, payload and record do not fit, in exact arithmetic. -/
  null : ∃ p < alignment.toNat, alignment.toNat ∣ c.base + (s.arena.offset + p) ∧
    (res = none ↔ bytes = 0 ∨ c.capacity - s.arena.offset < p + bytes.toNat + c.record.size)
  unchanged : res = none → s' = s
  block : ∀ pay, res = some pay → ∃ b, s'.blocks = b :: s.blocks ∧ b.pay = pay ∧
    b.size = bytes.toNat ∧ b.alignment = alignment.toNat

theorem tryAllocate_answered (hi : Inv s) (bytes : BitVec c.w) {alignment : BitVec c.w}
    (halign : isPow2 alignment = true) : Answered s (tryAllocate c s bytes alignment).1
      (tryAllocate c s bytes alignment).2 bytes alignment := by
  obtain ⟨p, hp, hdvd, hnull, hfit⟩ := request_spec bytes hi (.inl rfl) halign
  rw [tryAllocate]
  by_cases hbad : bytes = 0 ∨ c.capacity - s.arena.offset < p + bytes.toNat + c.record.size
  · rw [hnull hbad]
    exact ⟨⟨p, hp, hdvd, by simpa using hbad⟩, fun _ => rfl, by rintro _ ⟨⟩⟩
  · have hgood := hbad
    rw [not_or, Nat.not_lt] at hgood
    rw [(hfit hgood.1 hgood.2).2]
    refine ⟨⟨p, hp, hdvd, by simpa using hgood⟩, by rintro ⟨⟩, ?_⟩
    intro pay hpay
    exact ⟨newBlock s p bytes alignment .raw, rfl, Option.some.inj hpay, rfl, rfl⟩

theorem tryEmplace_answered (hi : Inv s) (bytes destroy : BitVec c.w) {alignment : BitVec c.w}
    (halign : isPow2 alignment = true) : Answered s (tryEmplace c s bytes alignment destroy).1
      (tryEmplace c s bytes alignment destroy).2 bytes alignment := by
  obtain ⟨p, hp, hdvd, hnull, hfit⟩ := request_spec bytes hi (.inr rfl) halign
  by_cases hbad : bytes = 0 ∨ c.capacity - s.arena.offset < p + bytes.toNat + c.record.size
  · -- an object larger than the arena is refused without a look at the arena
    have hres : tryEmplace c s bytes alignment destroy = (s, none) := by
      rw [tryEmplace, hnull hbad]
      split <;> rfl
    rw [hres]
    exact ⟨⟨p, hp, hdvd, by simpa using hbad⟩, fun _ => rfl, by rintro _ ⟨⟩⟩
  · have hgood := hbad
    rw [not_or, Nat.not_lt] at hgood
    have hoff := hi.laid.offset_le
    rw [tryEmplace, if_neg (by omega), (hfit hgood.1 hgood.2).2]
    refine ⟨⟨p, hp, hdvd, by simpa using hgood⟩, by rintro ⟨⟩, ?_⟩
    intro pay hpay
    exact ⟨newBlock s p bytes alignment .building, rfl, Option.some.inj hpay, rfl, rfl⟩

/-! ### Rolling back from outside -/

theorem Linked.births (hl : Linked c bs) : bs.Pairwise fun b b' => b'.birth < b.birth := by
  induction bs with
  | nil => exact .nil
  | cons b bs ih =>
    refine List.pairwise_cons.mpr ⟨?_, ih hl.tail⟩
    intro x hx
    have hlt := hl.tail.birth_lt x hx
    have hge : nextBirth bs ≤ b.birth := hl.2.2.1
    omega

/-- A `rewind` to `t` that began at `s` has ended at `s'`: it destroyed the objects in `gone`, newest
    first, and left `rest`. -/
structure Unwound (s s' : State c.w) (t : ℕ) (gone rest : List (Block c.w)) : Prop where
  returned : s'.stack = [] ∧ s'.stopped = false
  offset : s'.arena.offset = t
  blocks : s'.blocks = rest
  destroyed : s'.destroyed = s.destroyed ++ objectsOf gone
  once : s'.destroyed.Nodup
  storage : ∀ i < t, s'.arena.storage i = s.arena.storage i

/-- A walk from the main program to a boundary runs to its end. -/
theorem unwound (hi : Inv s) (hs : s.stopped = false) (hstack : s.stack = [])
    (hblocks : s.blocks = above ++ below) (htop : top below = t) :
    ∃ s', Settles c (startRewind c s t s.stack) s' ∧ Unwound s s' t above below := by
  have hlaid := hi.laid
  have hquiet := hi.stacked
  rw [hstack] at hquiet
  rw [hblocks] at hlaid hquiet
  have hbound : Bound t s.blocks := by
    rw [hblocks, ← htop]
    exact (bound_top below).append
  have hi₀ : Inv { s with stack := .loop t :: s.stack } := inv_startRewind hi hbound (by rw [hstack]; rfl)
  rw [startRewind_eq hi.laid hbound, hstack] at *
  have habove : ∀ b ∈ above, b.Quiet ∧ t ≤ b.prev := fun b hb =>
    ⟨hquiet b (List.mem_append_left _ hb), htop ▸ hlaid.linked.top_le_prev b hb⟩
  obtain ⟨s₁, hrun, hw⟩ := walk (s := { s with stack := [.loop t] }) hlaid hblocks hs rfl habove
  have hoff : s₁.arena.offset = t := by rw [hw.laid.offset, htop]
  have hlast : Settle c s₁ { s₁ with stack := [] } := settle_loop hw.stopped hw.stack (loopStep_done hoff.le)
  refine ⟨_, hrun.tail hlast, ⟨⟨rfl, hw.stopped⟩, hoff, hw.blocks, hw.destroyed, ?_, ?_⟩⟩
  · exact (inv_settles hi₀ (hrun.tail hlast)).objects.once
  · exact htop ▸ hw.storage

/-- Splitting a list by a test that holds exactly in front. -/
theorem filter_split (above below : List (Block c.w)) {p q : Block c.w → Bool}
    (habove : ∀ b ∈ above, p b = true ∧ q b = false) (hbelow : ∀ b ∈ below, p b = false ∧ q b = true) :
    (above ++ below).filter p = above ∧ (above ++ below).filter q = below := by
  have h1 : above.filter p = above := List.filter_eq_self.mpr fun b hb => (habove b hb).1
  have h2 : below.filter p = [] := List.filter_eq_nil_iff.mpr fun b hb => by simp [(hbelow b hb).1]
  have h3 : above.filter q = [] := List.filter_eq_nil_iff.mpr fun b hb => by simp [(habove b hb).2]
  have h4 : below.filter q = below := List.filter_eq_self.mpr fun b hb => (hbelow b hb).2
  rw [List.filter_append, List.filter_append, h1, h2, h3, h4, List.append_nil, List.nil_append]
  exact ⟨rfl, rfl⟩

/-- RUN: `rewind` to a valid mark takes away what was allocated since. -/
theorem rewind_mark (hi : Inv s) (hs : s.stopped = false) (hstack : s.stack = []) (hm : m ∈ s.marks) :
    ∃ s', Settles c (startRewind c s m.offset s.stack) s' ∧
      Unwound s s' m.offset (s.blocks.filter fun b => decide (m.time ≤ b.birth))
        (s.blocks.filter fun b => decide (b.birth < m.time)) := by
  obtain ⟨above, below, hblocks, htop, habove, hbelow⟩ := (hi.marks m hm).1.split hi.laid.linked
  obtain ⟨hgone, hrest⟩ := filter_split above below (p := fun b => decide (m.time ≤ b.birth))
    (q := fun b => decide (b.birth < m.time)) (fun b hb => by simpa using habove b hb) (fun b hb => by simpa using hbelow b hb)
  rw [hblocks, hgone, hrest]
  exact unwound hi hs hstack hblocks htop

/-- The objects in the blocks since a time are those built since and not destroyed. -/
theorem mem_objectsOf_since (hi : Inv s) (time n : ℕ) :
    n ∈ objectsOf (s.blocks.filter fun b => decide (time ≤ b.birth)) ↔
      n ∈ s.built ∧ n ∉ s.destroyed ∧ time ≤ n := by
  have hresident : ∀ b : Block c.w, b.resident = some n ↔
      b.birth = n ∧ ∃ destroy, b.kind = .object destroy := by
    intro b
    rw [Block.resident]
    cases b.kind <;> simp
  simp only [objectsOf, List.mem_filterMap, List.mem_filter, decide_eq_true_eq, hresident]
  constructor
  · rintro ⟨b, ⟨hb, hle⟩, rfl, destroy, hkind⟩
    obtain ⟨h1, h2⟩ := hi.objects.alive b hb destroy hkind
    exact ⟨h1, h2, hle⟩
  · rintro ⟨hbuilt, hnot, hle⟩
    obtain ⟨b, hb, rfl, hkind⟩ := (hi.objects.kept n hbuilt).resolve_left hnot
    exact ⟨b, ⟨hb, hle⟩, rfl, hkind⟩

/-- A target inside a block splits the blocks there. -/
theorem straddle_split (hl : Linked c bs) (hle : t ≤ top bs) (hnot : ¬ Bound t bs) :
    ∃ above b rest, bs = above ++ b :: rest ∧ (∀ x ∈ above, t ≤ x.prev) ∧ b.prev < t ∧ t < b.stop := by
  induction bs with
  | nil => exact absurd (Nat.le_zero.mp hle) hnot
  | cons b bs ih =>
    have hne : t ≠ b.stop := fun h => hnot (.inl h)
    rw [top_cons] at hle
    rcases Nat.lt_or_ge b.prev t with hlt | hge
    · exact ⟨[], b, bs, rfl, by simp, hlt, by omega⟩
    · have hprev : b.prev = top bs := hl.2.1
      obtain ⟨above, x, rest, rfl, habove, hx⟩ := ih hl.tail (hprev ▸ hge) fun h => hnot (.inr h)
      exact ⟨b :: above, x, rest, rfl, List.forall_mem_cons.mpr ⟨hge, habove⟩, hx⟩

/-- A `rewind` to `t` that began at `s` was stopped at `s'`, with everything at or below `t` as it
    was. -/
structure Halted (s s' : State c.w) (t : ℕ) : Prop where
  stopped : s'.stopped = true
  above : t < s'.arena.offset
  blocks : s'.blocks = s.blocks.filter fun b => decide (b.prev < t)
  destroyed : s'.destroyed = s.destroyed ++ objectsOf (s.blocks.filter fun b => decide (t ≤ b.prev))
  storage : ∀ i < s'.arena.offset, s'.arena.storage i = s.arena.storage i

/-- RUN: `rewind` to an offset that is no boundary is stopped at the block around it. -/
theorem rewind_straddle (hi : Inv s) (hs : s.stopped = false) (hstack : s.stack = [])
    (hle : t ≤ s.arena.offset) (hnot : ¬ Bound t s.blocks) :
    ∃ s', Settles c (startRewind c s t s.stack) s' ∧ Halted s s' t := by
  obtain ⟨above, b, rest, hblocks, habove, hprev, hstop⟩ :=
    straddle_split hi.laid.linked (hi.laid.offset ▸ hle) hnot
  have hlaid := hi.laid
  have hquiet := hi.stacked
  rw [hstack] at hquiet
  rw [hblocks] at hlaid hquiet
  have hbelow : ∀ x ∈ b :: rest, x.prev < t := by
    intro x hx
    rcases List.mem_cons.mp hx with rfl | hx
    · exact hprev
    · have hlink : b.prev = top rest := hlaid.linked.of_append.2.1
      obtain ⟨hok, hxle⟩ := hlaid.linked.of_append.tail.stop_le_top x hx
      have hlt := hok.prev_lt
      omega
  obtain ⟨hgone, hrest⟩ := filter_split above (b :: rest) (p := fun x => decide (t ≤ x.prev))
    (q := fun x => decide (x.prev < t)) (fun x hx => by simpa using habove x hx) (fun x hx => by simpa using hbelow x hx)
  obtain ⟨s₁, hrun, hw⟩ := walk (s := { s with stack := [.loop t] }) (t := t) hlaid hblocks hs rfl
    fun x hx => ⟨hquiet x (List.mem_append_left _ hx), habove x hx⟩
  have hlast : Settle c s₁ { s₁ with stopped := true } :=
    settle_loop hw.stopped hw.stack (loopStep_straddle hw.laid hstop hprev)
  have hoff : s₁.arena.offset = b.stop := hw.laid.offset
  have hstart : startRewind c s t s.stack = { s with stack := [.loop t] } := by
    rw [startRewind, if_pos hle, hstack]
  rw [hstart]
  refine ⟨_, hrun.tail hlast, ⟨rfl, hoff ▸ hstop, ?_, ?_, ?_⟩⟩
  · rw [hblocks, hrest]
    exact hw.blocks
  · rw [hblocks, hgone]
    exact hw.destroyed
  · intro i hi'
    exact hw.storage i (by rw [← hw.laid.offset]; exact hi')

/-- CORRECT: blocks are aligned and disjoint, requests fail only for lack of room, and `rewind` destroys
    exactly what was built since the mark. -/
theorem blocks_disjoint_and_unwound (c : Cfg) (storage : ℕ → UInt8) (acts : List (Act c.w)) (s : State c.w)
    (h : run (step c) (State.init c storage) acts = some s) :
    (∀ b ∈ s.blocks, Placed s b) ∧
    (∀ b ∈ s.blocks, ∀ b' ∈ s.blocks, b ≠ b' → b.stop ≤ b'.pay ∨ b'.stop ≤ b.pay) ∧
    (s.blocks.Pairwise fun b b' => b'.birth < b.birth) ∧
    (∀ bytes alignment destroy, isPow2 alignment = true →
      Answered s (tryAllocate c s bytes alignment).1 (tryAllocate c s bytes alignment).2 bytes alignment ∧
      Answered s (tryEmplace c s bytes alignment destroy).1 (tryEmplace c s bytes alignment destroy).2
        bytes alignment) ∧
    (s.stack = [] → s.stopped = false →
      (∀ m ∈ s.marks, ∃ s', Settles c (startRewind c s m.offset s.stack) s' ∧
        Unwound s s' m.offset (s.blocks.filter fun b => decide (m.time ≤ b.birth))
          (s.blocks.filter fun b => decide (b.birth < m.time))) ∧
      (∀ time n, n ∈ objectsOf (s.blocks.filter fun b => decide (time ≤ b.birth)) ↔
        n ∈ s.built ∧ n ∉ s.destroyed ∧ time ≤ n) ∧
      (∃ s', Settles c (startRewind c s 0 s.stack) s' ∧ Unwound s s' 0 s.blocks []) ∧
      ∀ t ≤ s.arena.offset, ¬ Bound t s.blocks →
        ∃ s', Settles c (startRewind c s t s.stack) s' ∧ Halted s s' t) := by
  have hi := inv_run h
  refine ⟨fun b hb => placed hi hb, fun b hb b' hb' hne => hi.laid.linked.disjoint hb hb' hne,
    hi.laid.linked.births, fun bytes alignment destroy halign => ?_, fun hstack hs => ?_⟩
  · exact ⟨tryAllocate_answered hi bytes halign, tryEmplace_answered hi bytes destroy halign⟩
  · refine ⟨fun m hm => rewind_mark hi hs hstack hm, mem_objectsOf_since hi, ?_, ?_⟩
    · exact unwound hi hs hstack (List.append_nil _).symm rfl
    · exact fun t hle hnot => rewind_straddle hi hs hstack hle hnot

/-- A record of three one-byte fields. -/
def byteRecord : Codec (Record 8) where
  size := 3
  enc := fun r k =>
    match k with
    | 0 => UInt8.ofBitVec r.previousOffset
    | 1 => UInt8.ofBitVec r.payloadOffset
    | _ => UInt8.ofBitVec r.destroy
  dec := fun f => ⟨(f 0).toBitVec, (f 1).toBitVec, (f 2).toBitVec⟩
  dec_congr := fun f g h => by rw [h 0 (by decide), h 1 (by decide), h 2 (by decide)]
  dec_enc := fun _ => rfl

/-- Sixty bytes at an odd address. -/
def sampleCfg : Cfg := ⟨8, 60, 13, byteRecord, by decide, by decide⟩

/-- An object whose constructor allocates, a mark, one whose constructor throws, and one more. -/
def sampleRun : List (Act 8) :=
  [.emplace 4 4 1, .allocate 2 1, .finish, .mark, .emplace 1 1 2, .throw, .allocate 200 1,
    .emplace 2 8 3, .finish]

theorem blocks_disjoint_and_unwound_sampleRun :
    ∃ s, run (step sampleCfg) (State.init sampleCfg fun _ => 0) sampleRun = some s ∧
      s.built = [0, 3] ∧ s.marks = [⟨15, 2⟩] ∧
      ∃ s', Settles sampleCfg (startRewind sampleCfg s 15 s.stack) s' ∧
        Unwound s s' 15 (s.blocks.filter fun b => decide (2 ≤ b.birth))
          (s.blocks.filter fun b => decide (b.birth < 2)) :=
  ⟨_, rfl, rfl, rfl, ((blocks_disjoint_and_unwound sampleCfg (fun _ => 0) sampleRun _ rfl).2.2.2.2 rfl
    rfl).1 ⟨15, 2⟩ (List.mem_singleton_self _)⟩

/-! ### Rolling back from inside destructors -/

/-- While the destructor of the object on top of `below` runs: that object and all older blocks are as
    they were when it started, none of the objects among them was destroyed, and whatever was allocated
    since lies above. -/
structure Guarded (s : State c.w) (below : List (Block c.w)) : Prop where
  kept : below <:+ s.blocks
  dying : ∃ b rest, below = b :: rest ∧ b.kind = .dying
  above : ∀ b ∈ s.blocks, b ∈ below ∨ top below ≤ b.prev
  spared : ∀ b ∈ below, ∀ destroy, b.kind = .object destroy → b.birth ∉ s.destroyed

/-- The blocks a frame keeps in place. -/
def Frame.keeps {w : ℕ} : Frame w → Option (List (Block w))
  | .dtor _ _ _ below => some below
  | .after _ _ below => some below
  | _ => none

theorem Over.suffix {prev : ℕ} (h : Over bs below prev) :
    below <:+ bs ∧ below.tail <:+ bs ∧ ∃ b rest, below = b :: rest ∧ b.kind = .dying := by
  obtain ⟨new, b, rest, rfl, rfl, -, hdying, -⟩ := h
  exact ⟨⟨new, rfl⟩, ⟨new ++ [b], by simp⟩, b, rest, rfl, hdying⟩

/-- Every running destructor has its object and what is older in place. -/
theorem Stacked.suffix (h : Stacked bs fs) : ∀ f ∈ fs, ∀ below, f.keeps = some below →
    below <:+ bs ∧ ∃ b rest, below = b :: rest ∧ b.kind = .dying := by
  induction fs generalizing bs with
  | nil => simp
  | cons g fs ih =>
    -- deeper frames keep a part of what this one keeps
    have hdeep : ∀ {rest : List (Block c.w)}, rest <:+ bs → Stacked rest fs → ∀ f ∈ fs, ∀ below,
        f.keeps = some below → below <:+ bs ∧ ∃ b rest, below = b :: rest ∧ b.kind = .dying := by
      intro rest hsuffix hrest f hf below hbelow
      obtain ⟨h1, h2⟩ := ih hrest f hf below hbelow
      exact ⟨h1.trans hsuffix, h2⟩
    intro f hf below hbelow
    cases g with
    | loop t =>
      rcases List.mem_cons.mp hf with rfl | hf
      · cases hbelow
      · exact hdeep (List.suffix_refl bs) h.2.2 f hf below hbelow
    | dtor r prev t below' =>
      obtain ⟨h1, h2, h3⟩ := h.1.suffix
      rcases List.mem_cons.mp hf with rfl | hf
      · exact Option.some.inj hbelow ▸ ⟨h1, h3⟩
      · exact hdeep h2 h.2.2.2.2 f hf below hbelow
    | after prev t below' =>
      obtain ⟨h1, h2, h3⟩ := h.1.suffix
      rcases List.mem_cons.mp hf with rfl | hf
      · exact Option.some.inj hbelow ▸ ⟨h1, h3⟩
      · exact hdeep h2 h.2.2.2 f hf below hbelow
    | ctor r destroy =>
      obtain ⟨new, b, rest, rfl, -, -, -, -, -, hrest⟩ := h
      rcases List.mem_cons.mp hf with rfl | hf
      · cases hbelow
      · exact hdeep ⟨new ++ [b], by simp⟩ hrest f hf below hbelow

theorem guarded (hi : Inv s) {f : Frame c.w} (hf : f ∈ s.stack) (hbelow : f.keeps = some below) :
    Guarded s below := by
  obtain ⟨hsuffix, hdying⟩ := hi.stacked.suffix f hf below hbelow
  obtain ⟨new, hnew⟩ := hsuffix
  refine ⟨⟨new, hnew⟩, hdying, ?_, ?_⟩
  · intro b hb
    rw [← hnew] at hb
    rcases List.mem_append.mp hb with hb | hb
    · have hl := hi.laid.linked
      rw [← hnew] at hl
      exact .inr (hl.top_le_prev b hb)
    · exact .inl hb
  · intro b hb destroy hkind
    have hmem : b ∈ s.blocks := by
      rw [← hnew]
      exact List.mem_append_right _ hb
    exact (hi.objects.alive b hmem destroy hkind).2

/-- A settling run of the outermost `rewind` ends at its target. -/
theorem outermost_settles {m : ℕ} (hi : Inv s) (hrun : Settles c s s') (hstack : s'.stack = [])
    (hm : outermost s.stack = some m) : s'.arena.offset = m := by
  have hend : outermost s'.stack = some m ∨ (s'.stack = [] ∧ s'.arena.offset = m) := by
    clear hstack
    induction hrun with
    | refl => exact .inl hm
    | tail hpre hstep ih =>
      obtain ⟨a, ha, hs⟩ := hstep
      rcases ih with hout | ⟨hnil, -⟩
      · exact outermost_step (inv_settles hi hpre) hs hout
      · rw [hnil] at ha
        cases ha
  rcases hend with hout | ⟨-, hoff⟩
  · exact absurd hstack (outermost_ne hout)
  · exact hoff

/-- When a loop goes on after a destructor, everything built above the object was destroyed. -/
theorem released_last {prev : ℕ} {rest : List (Block c.w)} (hi : Inv s)
    (hstack : s.stack = .after prev t (b :: rest) :: fs) :
    s.blocks = b :: rest ∧ ∀ n ∈ s.built, b.birth < n → n ∈ s.destroyed := by
  have hresumed := hi.resumed
  rw [hstack] at hresumed
  have hblocks : s.blocks = b :: rest := hresumed
  refine ⟨hblocks, ?_⟩
  intro n hn hlt
  rcases hi.objects.kept n hn with hmem | ⟨x, hx, rfl, -⟩
  · exact hmem
  · have hle := hi.laid.linked.birth_lt x hx
    rw [hblocks, nextBirth_cons] at hle
    omega

/-- CORRECT: `rewind` is safe under destructors that allocate and roll back themselves. -/
theorem reentrant_rewind_safe (c : Cfg) (storage : ℕ → UInt8) (acts : List (Act c.w)) (s : State c.w)
    (h : run (step c) (State.init c storage) acts = some s) :
    -- every object is destroyed once, and is in its block until then
    (s.destroyed.Nodup ∧ (∀ n ∈ s.destroyed, n ∈ s.built) ∧
      ∀ n ∈ s.built, n ∈ s.destroyed ∨ ∃ b ∈ s.blocks, b.birth = n ∧ ∃ destroy, b.kind = .object destroy) ∧
    (∀ b ∈ s.blocks, ∀ b' ∈ s.blocks, b ≠ b' → b.stop ≤ b'.pay ∨ b'.stop ≤ b.pay) ∧
    (∀ f ∈ s.stack, ∀ below, f.keeps = some below → Guarded s below) ∧
    (∀ prev t b rest fs, s.stack = .after prev t (b :: rest) :: fs →
      s.blocks = b :: rest ∧ ∀ n ∈ s.built, b.birth < n → n ∈ s.destroyed) ∧
    -- the outermost call keeps its target until it returns there
    (∀ a s' m, step c s a = some s' → outermost s.stack = some m →
      outermost s'.stack = some m ∨ (s'.stack = [] ∧ s'.arena.offset = m)) ∧
    (s.stack = [] → ∀ b ∈ s.blocks, (loadRecord c s.arena.storage b.stop).payloadOffset ≠ destroying c) ∧
    -- and it does return
    (s.stopped = false → ∃ s', Settles c s s' ∧ s'.stack = [] ∧ s'.stopped = false ∧
      ∀ m, outermost s.stack = some m → s'.arena.offset = m) := by
  have hi := inv_run h
  refine ⟨⟨hi.objects.once, hi.objects.only_built, hi.objects.kept⟩,
    fun b hb b' hb' hne => hi.laid.linked.disjoint hb hb' hne, fun f hf below hbelow => guarded hi hf hbelow,
    fun prev t b rest fs hstack => released_last hi hstack,
    fun a s' m hs hm => outermost_step hi hs hm, fun hstack b hb => ?_, fun hs => ?_⟩
  · have hquiet := hi.stacked
    rw [hstack] at hquiet
    rw [hi.laid.stored b hb, Ne, (hi.laid.linked.ok hb).destroying_iff]
    exact (hquiet b hb).2
  · obtain ⟨s', hrun, hstack, hs'⟩ := settles hi hs
    exact ⟨s', hrun, hstack, hs', fun m hm => outermost_settles hi hrun hstack hm⟩

/-- The destructor of the newest object allocates an object, rolls everything back, and is still
    running. -/
def nestedRun : List (Act 8) :=
  sampleRun ++ [.reset, .tick, .emplace 1 1 4, .finish, .reset, .tick, .endDtor, .tick, .tick, .tick,
    .allocate 1 1]

theorem reentrant_rewind_safe_nestedRun :
    ∃ s, run (step sampleCfg) (State.init sampleCfg fun _ => 0) nestedRun = some s ∧
      s.destroyed = [3, 4] ∧ outermost s.stack = some 0 ∧
      ∃ s', Settles sampleCfg s s' ∧ s'.stack = [] ∧ s'.stopped = false ∧
        ∀ m, outermost s.stack = some m → s'.arena.offset = m :=
  ⟨_, rfl, rfl, rfl, (reentrant_rewind_safe sampleCfg (fun _ => 0) nestedRun _ rfl).2.2.2.2.2.2 rfl⟩

end Metl.ArenaAllocator
