import Metl.Arena.Blocks

/-! What holds between two steps of an arena.

    The stack of calls mirrors the blocks: below each running destructor lie, untouched, the object it
    destroys and everything older; above it lies what the destructor has allocated. -/

namespace Metl.ArenaAllocator
open Metl.Schemes

variable {c : Cfg}

/-- No constructor and no destructor runs on the block. -/
def Block.Quiet (b : Block c.w) : Prop := b.kind ≠ .building ∧ b.kind ≠ .dying

/-- Where a walk to `t` goes on when it is done: in user code, or in the loop that called it to come
    back to the object it destroys. -/
def Returns (t : ℕ) : List (Frame c.w) → Prop
  | [] => True
  | .dtor .. :: _ => True
  | .after _ _ below :: _ => t = top below
  | _ => False

/-- The blocks `below` with a dying one on top, and quiet ones above. -/
def Over (blocks below : List (Block c.w)) (prev : ℕ) : Prop :=
  ∃ new b rest, below = b :: rest ∧ blocks = new ++ below ∧ (∀ x ∈ new, x.Quiet) ∧
    b.kind = .dying ∧ b.prev = prev

/-- The calls, innermost first, fit the blocks, newest first. -/
def Stacked : List (Block c.w) → List (Frame c.w) → Prop
  | bs, [] => ∀ b ∈ bs, b.Quiet
  | bs, .loop t :: fs => Bound t bs ∧ Returns t fs ∧ Stacked bs fs
  | bs, .dtor r prev t below :: fs =>
    Over bs below prev ∧ top below = r ∧ Bound t below.tail ∧ Returns t fs ∧ Stacked below.tail fs
  | bs, .after prev t below :: fs =>
    Over bs below prev ∧ Bound t below.tail ∧ Returns t fs ∧ Stacked below.tail fs
  | bs, .ctor r destroy :: fs => ∃ new b rest, bs = new ++ b :: rest ∧ (∀ x ∈ new, x.Quiet) ∧
    b.kind = .building ∧ b.stop = r ∧ destroy ≠ 0 ∧ userRuns fs = true ∧ Stacked rest fs

/-- A loop goes on after its inner `rewind` with nothing left above the object it destroyed. -/
def Resumed (bs : List (Block c.w)) : List (Frame c.w) → Prop
  | .after _ _ below :: _ => bs = below
  | _ => True

/-- Every object built lives in one block or was destroyed, once. -/
structure Objects (bs : List (Block c.w)) (clock : ℕ) (built destroyed : List ℕ) : Prop where
  once : destroyed.Nodup
  built_lt : ∀ n ∈ built, n < clock
  only_built : ∀ n ∈ destroyed, n ∈ built
  alive : ∀ b ∈ bs, ∀ destroy, b.kind = .object destroy → b.birth ∈ built ∧ b.birth ∉ destroyed
  unborn : ∀ b ∈ bs, b.kind = .raw ∨ b.kind = .building → b.birth ∉ built
  kept : ∀ n ∈ built, n ∈ destroyed ∨ ∃ b ∈ bs, b.birth = n ∧ ∃ destroy, b.kind = .object destroy

/-- The blocks tile the storage up to the offset, with their records in place. -/
structure Laid (c : Cfg) (a : Arena) (bs : List (Block c.w)) : Prop where
  linked : Linked c bs
  offset : a.offset = top bs
  stored : Stored c a.storage bs

structure Inv (s : State c.w) : Prop where
  laid : Laid c s.arena s.blocks
  clock : nextBirth s.blocks ≤ s.clock
  marks : ∀ m ∈ s.marks, Marked m s.blocks ∧ m.time ≤ s.clock
  stacked : Stacked s.blocks s.stack
  resumed : Resumed s.blocks s.stack
  objects : Objects s.blocks s.clock s.built s.destroyed

variable {b b' : Block c.w} {bs bs' new rest others : List (Block c.w)} {fs : List (Frame c.w)} {t : ℕ}

/-! ### The stack against the blocks -/

/-- The top block of a walk is quiet, or the one being destroyed below it. -/
theorem Stacked.head (h : Stacked (b :: rest) fs) (hr : Returns t fs) : b.Quiet ∨ b.kind = .dying := by
  have hover : ∀ {below prev}, Over (b :: rest) below prev → b.Quiet ∨ b.kind = .dying := by
    rintro below prev ⟨new, x, older, rfl, heq, hquiet, hdying, -⟩
    cases new with
    | nil =>
      obtain ⟨rfl, -⟩ := List.cons.inj heq
      exact .inr hdying
    | cons y new =>
      obtain ⟨rfl, -⟩ := List.cons.inj heq
      exact .inl (hquiet b (List.mem_cons_self ..))
  cases fs with
  | nil => exact .inl (h b (List.mem_cons_self ..))
  | cons f fs =>
    cases f with
    | loop t => exact hr.elim
    | dtor r prev t below => exact hover h.1
    | after prev t below => exact hover h.1
    | ctor r destroy => exact hr.elim

theorem Over.older {below : List (Block c.w)} {prev : ℕ} (h : Over (b :: rest) below prev)
    (hb : b.Quiet) : Over rest below prev := by
  obtain ⟨new, x, older, rfl, heq, hquiet, hdying, hprev⟩ := h
  cases new with
  | nil =>
    obtain ⟨rfl, -⟩ := List.cons.inj heq
    exact absurd hdying hb.2
  | cons y new =>
    obtain ⟨rfl, rfl⟩ := List.cons.inj heq
    exact ⟨new, x, older, rfl, rfl, fun z hz => hquiet z (List.mem_cons_of_mem _ hz), hdying, hprev⟩

/-- A walk may take away a quiet block. -/
theorem Stacked.older (h : Stacked (b :: rest) fs) (hr : Returns t fs) (hb : b.Quiet) :
    Stacked rest fs := by
  cases fs with
  | nil => exact fun x hx => h x (List.mem_cons_of_mem _ hx)
  | cons f fs =>
    cases f with
    | loop t => exact hr.elim
    | dtor r prev t below => exact ⟨h.1.older hb, h.2⟩
    | after prev t below => exact ⟨h.1.older hb, h.2⟩
    | ctor r destroy => exact hr.elim

theorem Over.extend {below : List (Block c.w)} {prev : ℕ} (h : Over bs below prev)
    (hnew : ∀ x ∈ new, x.Quiet) : Over (new ++ bs) below prev := by
  obtain ⟨mid, x, older, rfl, rfl, hquiet, hdying, hprev⟩ := h
  refine ⟨new ++ mid, x, older, rfl, (List.append_assoc ..).symm, ?_, hdying, hprev⟩
  intro z hz
  rcases List.mem_append.mp hz with hz | hz
  · exact hnew z hz
  · exact hquiet z hz

/-- User code puts quiet blocks on top. -/
theorem Stacked.extend (h : Stacked bs fs) (hu : userRuns fs = true) (hnew : ∀ x ∈ new, x.Quiet) :
    Stacked (new ++ bs) fs := by
  cases fs with
  | nil =>
    intro x hx
    rcases List.mem_append.mp hx with hx | hx
    · exact hnew x hx
    · exact h x hx
  | cons f fs =>
    cases f with
    | loop t => cases hu
    | dtor r prev t below => exact ⟨h.1.extend hnew, h.2⟩
    | after prev t below => cases hu
    | ctor r destroy =>
      obtain ⟨mid, x, older, rfl, hquiet, hrest⟩ := h
      refine ⟨new ++ mid, x, older, (List.append_assoc ..).symm, ?_, hrest⟩
      intro z hz
      rcases List.mem_append.mp hz with hz | hz
      · exact hnew z hz
      · exact hquiet z hz

/-- A constructor has ended in `b`, above which it allocated `new`. -/
theorem Stacked.ended (h : Stacked rest fs) (hu : userRuns fs = true) (hnew : ∀ x ∈ new, x.Quiet)
    (hb : b.Quiet) : Stacked (new ++ b :: rest) fs := by
  have hout : ∀ x ∈ new ++ [b], x.Quiet := by
    intro x hx
    rcases List.mem_append.mp hx with hx | hx
    · exact hnew x hx
    · exact List.mem_singleton.mp hx ▸ hb
  simpa using h.extend hu hout

theorem resumed_of_user (hu : userRuns fs = true) : Resumed bs fs := by
  cases fs with
  | nil => trivial
  | cons f fs =>
    cases f with
    | after prev t below => cases hu
    | _ => trivial

theorem returns_of_mayRewind (hu : mayRewind fs = true) : Returns t fs := by
  cases fs with
  | nil => trivial
  | cons f fs =>
    cases f with
    | dtor r prev t below => trivial
    | _ => cases hu

/-- A walk that is done has come back to the object of the loop that called it. -/
theorem Stacked.resumed (h : Stacked bs fs) (hr : Returns t fs) (hl : Linked c bs)
    (hdone : top bs ≤ t ∨ ∃ b rest, bs = b :: rest ∧ b.kind = .dying) : Resumed bs fs := by
  cases fs with
  | nil => trivial
  | cons f fs =>
    cases f with
    | after prev t' below =>
      obtain ⟨⟨new, x, older, rfl, rfl, hquiet, -, -⟩, -⟩ := h
      cases new with
      | nil => rfl
      | cons y new =>
        rcases hdone with hle | ⟨b, rest, heq, hdying⟩
        · have hge := hl.top_le_prev y (List.mem_cons_self ..)
          have hlt := (hl.ok (b := y) (List.mem_cons_self ..)).prev_lt
          have hr' : t = top (x :: older) := hr
          have hle' : y.stop ≤ t := hle
          omega
        · obtain ⟨rfl, -⟩ := List.cons.inj heq
          exact absurd hdying (hquiet y (List.mem_cons_self ..)).2
    | _ => trivial

/-! ### The objects -/

section Objects
variable {clock : ℕ} {built destroyed : List ℕ}

theorem mem_middle {x : Block c.w} : x ∈ new ++ b :: rest ↔ x = b ∨ x ∈ new ++ rest := by
  simp only [List.mem_append, List.mem_cons]
  tauto

/-- The blocks around one block were born at other times. -/
theorem Linked.birth_ne (new : List (Block c.w)) (hl : Linked c (new ++ b :: rest)) :
    ∀ x ∈ new ++ rest, x.birth ≠ b.birth := by
  intro x hx
  rcases List.mem_append.mp hx with hx | hx
  · have hge := hl.birth_ge x hx
    rw [nextBirth_cons] at hge
    omega
  · obtain ⟨-, -, hbirth, hrest⟩ := hl.of_append
    have hlt := hrest.birth_lt x hx
    omega

theorem Objects.push (ho : Objects bs clock built destroyed) (hbirth : b.birth = clock)
    (hkind : b.kind = .raw ∨ b.kind = .building) : Objects (b :: bs) (clock + 1) built destroyed := by
  refine ⟨ho.once, fun n hn => Nat.lt_succ_of_lt (ho.built_lt n hn), ho.only_built, ?_, ?_, ?_⟩
  · intro x hx destroy hx'
    rcases List.mem_cons.mp hx with rfl | hx
    · rcases hkind with hkind | hkind <;> rw [hkind] at hx' <;> cases hx'
    · exact ho.alive x hx destroy hx'
  · intro x hx hx' hmem
    rcases List.mem_cons.mp hx with rfl | hx
    · have hlt := ho.built_lt _ hmem
      omega
    · exact ho.unborn x hx hx' hmem
  · intro n hn
    rcases ho.kept n hn with hmem | ⟨x, hx, hrest⟩
    · exact .inl hmem
    · exact .inr ⟨x, List.mem_cons_of_mem _ hx, hrest⟩

/-- The other blocks hold the same objects after one has changed. -/
theorem Objects.kept_other (new : List (Block c.w))
    (ho : Objects (new ++ b :: rest) clock built destroyed) {n : ℕ} (hn : n ∈ built)
    (hb : ∀ destroy, b.kind ≠ .object destroy) :
    n ∈ destroyed ∨ ∃ x ∈ new ++ rest, x.birth = n ∧ ∃ destroy, x.kind = .object destroy := by
  rcases ho.kept n hn with hmem | ⟨x, hx, hbirth, destroy, hkind⟩
  · exact .inl hmem
  · rcases mem_middle.mp hx with rfl | hx
    · exact absurd hkind (hb destroy)
    · exact .inr ⟨x, hx, hbirth, destroy, hkind⟩

theorem Objects.finish (ho : Objects (new ++ b :: rest) clock built destroyed)
    (hl : Linked c (new ++ b :: rest)) (hb : b.kind = .building) (hlt : b.birth < clock)
    (destroy : BitVec c.w) : Objects (new ++ { b with kind := .object destroy } :: rest) clock
      (built ++ [b.birth]) destroyed := by
  have hfresh : b.birth ∉ built := ho.unborn b (mem_middle.mpr (.inl rfl)) (.inr hb)
  refine ⟨ho.once, ?_, fun n hn => List.mem_append_left _ (ho.only_built n hn), ?_, ?_, ?_⟩
  · intro n hn
    rcases List.mem_append.mp hn with hn | hn
    · exact ho.built_lt n hn
    · rw [List.mem_singleton] at hn
      omega
  · intro x hx d hx'
    rcases mem_middle.mp hx with rfl | hx
    · exact ⟨by simp, fun hmem => hfresh (ho.only_built _ hmem)⟩
    · obtain ⟨h1, h2⟩ := ho.alive x (mem_middle.mpr (.inr hx)) d hx'
      exact ⟨List.mem_append_left _ h1, h2⟩
  · intro x hx hx' hmem
    rcases mem_middle.mp hx with rfl | hx
    · rcases hx' with hx' | hx' <;> cases hx'
    · rcases List.mem_append.mp hmem with hmem | hmem
      · exact ho.unborn x (mem_middle.mpr (.inr hx)) hx' hmem
      · exact hl.birth_ne _ x hx (List.mem_singleton.mp hmem)
  · intro n hn
    rcases List.mem_append.mp hn with hn | hn
    · rcases ho.kept_other _ hn (by simp [hb]) with hmem | ⟨x, hx, hrest⟩
      · exact .inl hmem
      · exact .inr ⟨x, mem_middle.mpr (.inr hx), hrest⟩
    · rw [List.mem_singleton] at hn
      exact .inr ⟨_, mem_middle.mpr (.inl rfl), hn.symm, destroy, rfl⟩

theorem Objects.throw (ho : Objects (new ++ b :: rest) clock built destroyed) (hb : b.kind = .building) :
    Objects (new ++ { b with kind := .raw } :: rest) clock built destroyed := by
  refine ⟨ho.once, ho.built_lt, ho.only_built, ?_, ?_, ?_⟩
  · intro x hx d hx'
    rcases mem_middle.mp hx with rfl | hx
    · cases hx'
    · exact ho.alive x (mem_middle.mpr (.inr hx)) d hx'
  · intro x hx hx'
    rcases mem_middle.mp hx with rfl | hx
    · exact ho.unborn b (mem_middle.mpr (.inl rfl)) (.inr hb)
    · exact ho.unborn x (mem_middle.mpr (.inr hx)) hx'
  · intro n hn
    rcases ho.kept_other _ hn (by simp [hb]) with hmem | ⟨x, hx, hrest⟩
    · exact .inl hmem
    · exact .inr ⟨x, mem_middle.mpr (.inr hx), hrest⟩

theorem Objects.destroy (ho : Objects (b :: rest) clock built destroyed) (hl : Linked c (b :: rest))
    {destroy : BitVec c.w} (hb : b.kind = .object destroy) :
    Objects ({ b with kind := .dying } :: rest) clock built (destroyed ++ [b.birth]) := by
  obtain ⟨hbuilt, hnot⟩ := ho.alive b (List.mem_cons_self ..) destroy hb
  refine ⟨?_, ho.built_lt, ?_, ?_, ?_, ?_⟩
  · refine List.nodup_append.mpr ⟨ho.once, List.nodup_singleton _, ?_⟩
    intro x hx y hy
    rw [List.mem_singleton] at hy
    rintro rfl
    exact hnot (hy ▸ hx)
  · intro n hn
    rcases List.mem_append.mp hn with hn | hn
    · exact ho.only_built n hn
    · rw [List.mem_singleton] at hn
      exact hn ▸ hbuilt
  · intro x hx d hx'
    rcases List.mem_cons.mp hx with rfl | hx
    · cases hx'
    · obtain ⟨h1, h2⟩ := ho.alive x (List.mem_cons_of_mem _ hx) d hx'
      refine ⟨h1, fun hmem => ?_⟩
      rcases List.mem_append.mp hmem with hmem | hmem
      · exact h2 hmem
      · exact hl.birth_ne [] x hx (List.mem_singleton.mp hmem)
  · intro x hx hx'
    rcases List.mem_cons.mp hx with rfl | hx
    · rcases hx' with hx' | hx' <;> cases hx'
    · exact ho.unborn x (List.mem_cons_of_mem _ hx) hx'
  · intro n hn
    rcases ho.kept n hn with hmem | ⟨x, hx, hbirth, hkind⟩
    · exact .inl (List.mem_append_left _ hmem)
    · rcases List.mem_cons.mp hx with rfl | hx
      · exact .inl (by simp [hbirth])
      · exact .inr ⟨x, List.mem_cons_of_mem _ hx, hbirth, hkind⟩

/-- A block that holds no object is released. -/
theorem Objects.release (ho : Objects (b :: rest) clock built destroyed)
    (hb : ∀ destroy, b.kind ≠ .object destroy) : Objects rest clock built destroyed :=
  ⟨ho.once, ho.built_lt, ho.only_built, fun x hx => ho.alive x (List.mem_cons_of_mem _ hx),
    fun x hx => ho.unborn x (List.mem_cons_of_mem _ hx), fun _ hn => ho.kept_other [] hn hb⟩

end Objects

end Metl.ArenaAllocator
