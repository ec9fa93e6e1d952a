import Metl.Arena.ArenaSteps

/-! Walks that run to their end.

    When user code makes no further calls, the next step is determined by the stack. Such a settling
    run takes the quiet blocks above the target away one by one, newest first:

        plain bytes:  offset := prev
        an object:    mark it, destructor, rewind to it (nothing to do), offset := prev -/

namespace Metl.ArenaAllocator
open Metl.Schemes

/-- What happens next when the running constructor or destructor makes no further call. -/
def settleAct {w : ℕ} : List (Frame w) → Option (Act w)
  | [] => none
  | .ctor .. :: _ => some .finish
  | .dtor .. :: _ => some .endDtor
  | _ => some .tick

/-- One step of a settling run. -/
def Settle (c : Cfg) (s s' : State c.w) : Prop :=
  ∃ a, settleAct s.stack = some a ∧ step c s a = some s'

/-- A settling run, by its steps. -/
abbrev Settles (c : Cfg) : State c.w → State c.w → Prop := Relation.ReflTransGen (Settle c)

/-- The object in a block, named by its birth. -/
def Block.resident {w : ℕ} (b : Block w) : Option ℕ :=
  match b.kind with
  | .object _ => some b.birth
  | _ => none

/-- The objects in some blocks, in their order. -/
def objectsOf {w : ℕ} (bs : List (Block w)) : List ℕ := bs.filterMap Block.resident

variable {c : Cfg} {s s' : State c.w} {b : Block c.w} {older below above : List (Block c.w)}
  {fs : List (Frame c.w)} {t : ℕ}

theorem objectsOf_append (bs bs' : List (Block c.w)) :
    objectsOf (bs ++ bs') = objectsOf bs ++ objectsOf bs' := by
  simp [objectsOf]

theorem settle_tick (hs : s.stopped = false) (hstack : settleAct s.stack = some .tick)
    (h : tick c s = some s') : Settle c s s' := by
  refine ⟨.tick, hstack, ?_⟩
  simp only [step, hs, Bool.false_eq_true, if_false, act, h]

theorem settle_loop (hs : s.stopped = false) (hstack : s.stack = .loop t :: fs)
    (h : loopStep c s t fs = some s') : Settle c s s' := by
  refine settle_tick hs (by rw [hstack]; rfl) ?_
  rw [tick, hstack]
  exact h

/-- The walk takes one block away. -/
structure Rounded (s s' : State c.w) (b : Block c.w) (older : List (Block c.w)) : Prop where
  stack : s'.stack = s.stack
  stopped : s'.stopped = false
  blocks : s'.blocks = older
  laid : Laid c s'.arena older
  storage : ∀ i < b.prev, s'.arena.storage i = s.arena.storage i
  destroyed : s'.destroyed = s.destroyed ++ objectsOf [b]
  built : s'.built = s.built

theorem round_raw (hl : Laid c s.arena (b :: older)) (hblocks : s.blocks = b :: older)
    (hs : s.stopped = false) (hstack : s.stack = .loop t :: fs) (hle : t ≤ b.prev) (hkind : b.kind = .raw) :
    ∃ s', Settles c s s' ∧ Rounded s s' b older := by
  refine ⟨_, .single (settle_loop hs hstack (loopStep_raw hl hle hkind)), ?_⟩
  rw [release_eq hl.linked hblocks]
  exact ⟨hstack.symm, hs, rfl, hl.release, fun _ _ => rfl, by simp [objectsOf, Block.resident, hkind], rfl⟩

theorem round_object (hl : Laid c s.arena (b :: older)) (hblocks : s.blocks = b :: older)
    (hs : s.stopped = false) (hstack : s.stack = .loop t :: fs) (hle : t ≤ b.prev)
    {destroy : BitVec c.w} (hkind : b.kind = .object destroy) :
    ∃ s', Settles c s s' ∧ Rounded s s' b older := by
  have hoff := hl.top_record.1
  have hok := hl.linked.1
  have hl' := hl.set [] .dying (by simp)
  -- the destructor runs, and returns
  have h1 : Settle c s (destroyTop s b older t fs) :=
    settle_loop hs hstack (loopStep_object hl hblocks hle hkind)
  have h2 : Settle c (destroyTop s b older t fs) { destroyTop s b older t fs with
      stack := .loop b.stop :: .after b.prev t ({ b with kind := .dying } :: older) :: fs } := by
    refine ⟨.endDtor, rfl, ?_⟩
    simp only [step, destroyTop, hs, Bool.false_eq_true, if_false, act, endDtor, startRewind, hoff,
      Nat.le_refl, if_true]
  -- nothing was allocated above it
  have h3 : Settle c { destroyTop s b older t fs with
        stack := .loop b.stop :: .after b.prev t ({ b with kind := .dying } :: older) :: fs }
      { destroyTop s b older t fs with
        stack := .after b.prev t ({ b with kind := .dying } :: older) :: fs } :=
    settle_loop hs rfl (loopStep_done hoff.le)
  have h4 := settle_tick (c := c) (s := { destroyTop s b older t fs with
      stack := .after b.prev t ({ b with kind := .dying } :: older) :: fs }) hs rfl rfl
  refine ⟨_, ((Relation.ReflTransGen.single h1).tail h2).tail h3 |>.tail h4, ?_⟩
  rw [release_eq (b := { b with kind := .dying }) hl'.linked rfl]
  refine ⟨hstack.symm, hs, rfl, hl'.release, ?_, ?_, rfl⟩
  · intro i hi
    have h5 := hok.prev_le
    have h6 := hok.stop_eq
    exact c.record.store_outside (.inl (by omega))
  · simp only [objectsOf, Block.resident, hkind, List.filterMap_cons, List.filterMap_nil]
    rfl

/-- The walk has taken the blocks `above` away. -/
structure Walked (s s' : State c.w) (above below : List (Block c.w)) : Prop where
  stack : s'.stack = s.stack
  stopped : s'.stopped = false
  blocks : s'.blocks = below
  laid : Laid c s'.arena below
  storage : ∀ i < top below, s'.arena.storage i = s.arena.storage i
  destroyed : s'.destroyed = s.destroyed ++ objectsOf above
  built : s'.built = s.built

/-- RUN: a walk takes the quiet blocks above its target away, newest first. -/
theorem walk (hl : Laid c s.arena (above ++ below)) (hblocks : s.blocks = above ++ below)
    (hs : s.stopped = false) (hstack : s.stack = .loop t :: fs)
    (hquiet : ∀ b ∈ above, b.Quiet ∧ t ≤ b.prev) : ∃ s', Settles c s s' ∧ Walked s s' above below := by
  induction above generalizing s with
  | nil => exact ⟨s, .refl, rfl, hs, hblocks, hl, fun _ _ => rfl, by simp [objectsOf], rfl⟩
  | cons b above ih =>
    obtain ⟨⟨hbquiet, hle⟩, hrest⟩ := List.forall_mem_cons.mp hquiet
    have hround : ∃ s', Settles c s s' ∧ Rounded s s' b (above ++ below) := by
      cases hkind : b.kind with
      | raw => exact round_raw hl hblocks hs hstack hle hkind
      | object destroy => exact round_object hl hblocks hs hstack hle hkind
      | building => exact absurd hkind hbquiet.1
      | dying => exact absurd hkind hbquiet.2
    obtain ⟨s₁, hrun₁, hr⟩ := hround
    obtain ⟨s', hrun, hw⟩ := ih hr.laid hr.blocks hr.stopped (hr.stack.trans hstack) hrest
    refine ⟨s', hrun₁.trans hrun, hw.stack.trans hr.stack, hw.stopped, hw.blocks, hw.laid, ?_, ?_,
      hw.built.trans hr.built⟩
    · intro i hi
      have hle' := hl.linked.top_le_prev b (List.mem_cons_self ..)
      rw [hw.storage i hi, hr.storage i (by omega)]
    · rw [hw.destroyed, hr.destroyed, List.append_assoc, ← objectsOf_append, List.singleton_append]

/-- A walk to a boundary ends there, or at an object whose destructor runs. -/
theorem walk_split {bs : List (Block c.w)} (hl : Linked c bs) (hb : Bound t bs) (hr : Returns t fs)
    (hst : Stacked bs fs) : ∃ above below, bs = above ++ below ∧ (∀ b ∈ above, b.Quiet ∧ t ≤ b.prev) ∧
      (top below = t ∨ ∃ b rest, below = b :: rest ∧ b.kind = .dying ∧ t ≤ b.prev) := by
  induction bs with
  | nil => exact ⟨[], [], rfl, by simp, .inl hb.symm⟩
  | cons b bs ih =>
    rcases Nat.lt_or_ge t b.stop with hlt | hge
    · have hb' := hb.older hlt
      have hle : t ≤ b.prev := hl.2.1 ▸ hb'.le_top hl.tail
      rcases hst.head hr with hquiet | hdying
      · obtain ⟨above, below, rfl, habove, hend⟩ := ih hl.tail hb' (hst.older hr hquiet)
        exact ⟨b :: above, below, rfl, List.forall_mem_cons.mpr ⟨⟨hquiet, hle⟩, habove⟩, hend⟩
      · exact ⟨[], b :: bs, rfl, by simp, .inr ⟨b, bs, rfl, hdying, hle⟩⟩
    · have htop := hb.le_top hl
      rw [top_cons] at htop
      exact ⟨[], b :: bs, rfl, by simp, .inl (Nat.le_antisymm hge htop)⟩

theorem inv_settles (hi : Inv s) (h : Settles c s s') : Inv s' := by
  induction h with
  | refl => exact hi
  | tail _ hstep ih =>
    obtain ⟨a, -, hs⟩ := hstep
    exact inv_step _ a _ ih hs

/-- A walk returns. -/
theorem loop_settles (hi : Inv s) (hs : s.stopped = false) (hstack : s.stack = .loop t :: fs) :
    ∃ s', Settles c s s' ∧ s'.stack = fs ∧ s'.stopped = false := by
  have hstacked := hi.stacked
  rw [hstack] at hstacked
  obtain ⟨hbound, hreturns, hrest⟩ := hstacked
  obtain ⟨above, below, hblocks, habove, hend⟩ := walk_split hi.laid.linked hbound hreturns hrest
  have hlaid := hi.laid
  rw [hblocks] at hlaid
  obtain ⟨s₁, hrun, hw⟩ := walk hlaid hblocks hs hstack habove
  have hreturn : loopStep c s₁ t fs = some { s₁ with stack := fs } := by
    rcases hend with htop | ⟨b, rest, rfl, hdying, hle⟩
    · exact loopStep_done (by rw [hw.laid.offset, htop])
    · exact loopStep_dying hw.laid hle hdying
  exact ⟨_, hrun.tail (settle_loop hw.stopped (hw.stack.trans hstack) hreturn), rfl, hw.stopped⟩

/-- RUN: once user code makes no further calls, all of them return. -/
theorem settles (hi : Inv s) (hs : s.stopped = false) :
    ∃ s', Settles c s s' ∧ s'.stack = [] ∧ s'.stopped = false := by
  induction hstack : s.stack generalizing s with
  | nil => exact ⟨s, .refl, hstack, hs⟩
  | cons f fs ih =>
    -- every frame comes down to a loop, and a loop returns
    have hloop : ∀ {t} {s₁ : State c.w}, Settles c s s₁ → s₁.stopped = false → s₁.stack = .loop t :: fs →
        ∃ s', Settles c s s' ∧ s'.stack = [] ∧ s'.stopped = false := by
      intro t s₁ hrun hs₁ hstack₁
      obtain ⟨s₂, hrun₂, hstack₂, hs₂⟩ := loop_settles (inv_settles hi hrun) hs₁ hstack₁
      obtain ⟨s', hrun', hend⟩ := ih (inv_settles hi (hrun.trans hrun₂)) hs₂ hstack₂
      exact ⟨s', (hrun.trans hrun₂).trans hrun', hend⟩
    have hafter : ∀ {prev t below} {s₁ : State c.w}, Settles c s s₁ → s₁.stopped = false →
        s₁.stack = .after prev t below :: fs → ∃ s', Settles c s s' ∧ s'.stack = [] ∧ s'.stopped = false := by
      intro prev t below s₁ hrun hs₁ hstack₁
      have hstep : Settle c s₁ (release c s₁ prev (.loop t :: fs)) :=
        settle_tick hs₁ (by rw [hstack₁]; rfl) (by rw [tick, hstack₁])
      exact hloop (hrun.tail hstep) hs₁ rfl
    cases f with
    | loop t => exact hloop .refl hs hstack
    | after prev t below => exact hafter .refl hs hstack
    | dtor r prev t below =>
      obtain ⟨heq, hi₁⟩ := inv_endDtor hi hstack
      have hstep : Settle c s { s with stack := .loop r :: .after prev t below :: fs } := by
        refine ⟨.endDtor, by rw [hstack]; rfl, ?_⟩
        simp only [step, hs, Bool.false_eq_true, if_false, act, heq]
      obtain ⟨s₂, hrun₂, hstack₂, hs₂⟩ := loop_settles hi₁ hs rfl
      exact hafter ((Relation.ReflTransGen.single hstep).trans hrun₂) hs₂ hstack₂
    | ctor r destroy =>
      have hstep : Settle c s (finish c s r destroy fs) := by
        refine ⟨.finish, by rw [hstack]; rfl, ?_⟩
        simp only [step, hs, Bool.false_eq_true, if_false, act, hstack]
      obtain ⟨s', hrun', hend⟩ := ih (inv_finish hi hstack) hs rfl
      exact ⟨s', (Relation.ReflTransGen.single hstep).trans hrun', hend⟩

/-! ### Where the outermost `rewind` ends -/

/-- The target of the `rewind` a frame belongs to. -/
def Frame.target {w : ℕ} : Frame w → Option ℕ
  | .loop t => some t
  | .dtor _ _ t _ => some t
  | .after _ t _ => some t
  | .ctor .. => none

/-- The target of the outermost `rewind`. -/
def outermost {w : ℕ} (fs : List (Frame w)) : Option ℕ := fs.getLast?.bind Frame.target

theorem outermost_cons {f : Frame c.w} (hne : fs ≠ []) : outermost (f :: fs) = outermost fs := by
  cases fs with
  | nil => exact absurd rfl hne
  | cons g fs => simp [outermost]

/-- A frame stands for another of the same `rewind`. -/
theorem outermost_congr {f g : Frame c.w} (h : f.target = g.target) : outermost (f :: fs) = outermost (g :: fs) := by
  cases fs with
  | nil => simp [outermost, h]
  | cons x fs => simp [outermost]

theorem outermost_ne {m : ℕ} (h : outermost fs = some m) : fs ≠ [] := by
  rintro rfl
  cases h

/-- A constructor is never the outermost call of a `rewind`. -/
theorem outermost_of_ctor {r m : ℕ} {destroy : BitVec c.w} (h : outermost (.ctor r destroy :: fs) = some m) :
    outermost fs = some m := by
  cases fs with
  | nil => cases h
  | cons f fs => simpa [outermost] using h

theorem stack_request (s : State c.w) (bytes alignment : BitVec c.w) (kind : Kind c.w) :
    (request c s bytes alignment kind).1.stack = s.stack := by
  rw [request]
  split <;> rfl

theorem stack_tryAllocate (s : State c.w) (bytes alignment : BitVec c.w) :
    (tryAllocate c s bytes alignment).1.stack = s.stack := stack_request ..

theorem stack_tryEmplace (s : State c.w) (bytes alignment destroy : BitVec c.w) :
    (tryEmplace c s bytes alignment destroy).1.stack = s.stack ∨
      ∃ r, (tryEmplace c s bytes alignment destroy).1.stack = .ctor r destroy :: s.stack := by
  have hreq := stack_request s bytes alignment .building
  rw [tryEmplace]
  split
  · exact .inl rfl
  · split
    · next s' pay heq =>
      rw [heq] at hreq
      exact .inr ⟨s'.arena.offset, by rw [hreq]⟩
    · next s' heq =>
      rw [heq] at hreq
      exact .inl hreq

/-- A walk goes on with the same target, or returns: the outermost one only when it got there. -/
theorem outermost_loop {m : ℕ} (hi : Inv s) (hstack : s.stack = .loop t :: fs)
    (hs : loopStep c s t fs = some s') (hm : outermost (.loop t :: fs) = some m) :
    outermost s'.stack = some m ∨ (s'.stack = [] ∧ s'.arena.offset = m) := by
  have hstacked := hi.stacked
  rw [hstack] at hstacked
  obtain ⟨-, -, hrest⟩ := hstacked
  rcases loopStep_cases hi hstack with ⟨hend, heq⟩ | ⟨b, older, hblocks, -, hcases⟩
  · obtain rfl := Option.some.inj (hs.symm.trans heq)
    cases fs with
    | nil => exact .inr ⟨rfl, hend.trans (Option.some.inj hm)⟩
    | cons f fs => exact .inl ((outermost_cons (by simp)).symm.trans hm)
  · rcases hcases with ⟨hdying, heq⟩ | ⟨-, -, heq⟩ | ⟨destroy, -, -, heq⟩
    · obtain rfl := Option.some.inj (hs.symm.trans heq)
      cases fs with
      | nil =>
        rw [hblocks] at hrest
        exact absurd hdying (hrest b (List.mem_cons_self ..)).2
      | cons f fs => exact .inl ((outermost_cons (by simp)).symm.trans hm)
    · obtain rfl := Option.some.inj (hs.symm.trans heq)
      exact .inl hm
    · obtain rfl := Option.some.inj (hs.symm.trans heq)
      refine .inl (Eq.trans ?_ hm)
      exact outermost_congr rfl

/-- STEP: the outermost `rewind` keeps its target and ends exactly there. -/
theorem outermost_step (hi : Inv s) {a : Act c.w} {m : ℕ} (h : step c s a = some s')
    (hm : outermost s.stack = some m) :
    outermost s'.stack = some m ∨ (s'.stack = [] ∧ s'.arena.offset = m) := by
  have hne := outermost_ne hm
  cases step_cases hi h with
  | allocate bytes alignment hu => exact .inl (by rw [stack_tryAllocate, hm])
  | emplace bytes alignment hu hdestroy =>
    rcases stack_tryEmplace s bytes alignment _ with heq | ⟨r, heq⟩
    · exact .inl (by rw [heq, hm])
    · exact .inl (by rw [heq, outermost_cons hne, hm])
  | finish hstack =>
    rw [hstack] at hm
    exact .inl (outermost_of_ctor hm)
  | throw hstack =>
    rw [hstack] at hm
    exact .inl (outermost_of_ctor hm)
  | write v hb hle hlt => exact .inl hm
  | mark => exact .inl hm
  | rewind hb hu => exact .inl (by rw [outermost_cons hne, hm])
  | endDtor hstack =>
    rw [hstack] at hm
    left
    rw [outermost_cons (by simp), ← hm]
    exact outermost_congr rfl
  | loop hstack hs => exact outermost_loop hi hstack hs (hstack ▸ hm)
  | after hstack =>
    rw [hstack] at hm
    left
    rw [← hm]
    exact outermost_congr rfl

end Metl.ArenaAllocator
