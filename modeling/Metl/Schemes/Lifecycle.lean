import Metl.Schemes.Ledger
import Metl.Schemes.Run

/-! Pools of slots whose elements call back into the pool.

    A pool splits its two operations around the user's code: emplacing claims a slot, runs a
    constructor, and then finishes or unwinds; removing takes the element out of the pool, runs a
    destructor, and then frees the slot. The constructors and destructors make further calls, so the
    calls form a stack. `Lawful` says what each part does to the phase of a slot and to the list of
    free slots; everything proved here about nested calls rests on those laws only.

        free ──claim──▶ building ──construct──▶ live ──startRelease──▶ dying
          ▲                │ unwind                                      │ endRelease
          └────────────────┴─────────────────────────────────────────────┘ -/

namespace Metl.Schemes
open Function

inductive Phase where
  | free | building | live | dying
  deriving DecidableEq

/-- The parts of a pool's operations; `none` where a part would touch a slot it must not. -/
structure PoolOps (σ Name T : Type*) where
  capacity : ℕ
  init : σ
  claim : σ → Option (Option ℕ × σ)
  construct : σ → ℕ → T → σ
  unwind : σ → ℕ → σ
  slotOf : Name → ℕ
  resolves : σ → Name → Bool
  startRelease : σ → ℕ → Option σ
  endRelease : σ → ℕ → σ
  isLive : σ → ℕ → Bool
  size : σ → ℕ

variable {σ Name T : Type*}

/-- A slot counts as in use from its claim until its release starts. -/
def Phase.inUse : Phase → Bool
  | .building => true
  | .live => true
  | _ => false

/-- How many of the first `n` slots are in use. -/
def useCount (n : ℕ) (ph : ℕ → Phase) : ℕ := ((List.range n).filter fun i => (ph i).inUse).length

theorem useCount_succ (n : ℕ) (ph : ℕ → Phase) :
    useCount (n + 1) ph = useCount n ph + (ph n).inUse.toNat := by
  unfold useCount
  rw [List.range_succ, List.filter_append, List.length_append]
  cases h : (ph n).inUse <;> simp [h]

variable {i : ℕ}

/-- Moving one slot to another phase moves the count by what the two phases differ. -/
theorem useCount_update {n : ℕ} (hi : i < n) (ph : ℕ → Phase) (x : Phase) :
    useCount n (update ph i x) + (ph i).inUse.toNat = useCount n ph + x.inUse.toNat := by
  have hout : ∀ m ≤ i, useCount m (update ph i x) = useCount m ph := by
    intro m hm
    induction m with
    | zero => rfl
    | succ m ih =>
      rw [useCount_succ, useCount_succ, ih (by omega), update_of_ne (by omega)]
  induction n with
  | zero => omega
  | succ n ih =>
    rw [useCount_succ, useCount_succ]
    rcases Nat.lt_succ_iff_lt_or_eq.mp hi with hlt | rfl
    · have hstep := ih hlt
      rw [update_of_ne (by omega)]
      omega
    · rw [hout i (Nat.le_refl i), update_self]
      omega

/-- `Rep p free ph`: the pool `p` will hand out the slots `free` in this order, and every slot stands
    at the phase `ph` says. -/
structure Lawful (P : PoolOps σ Name T) (Rep : σ → List ℕ → (ℕ → Phase) → Prop) : Prop where
  init : ∃ free, Rep P.init free fun _ => .free
  nodup : ∀ {p free ph}, Rep p free ph → free.Nodup
  mem : ∀ {p free ph}, Rep p free ph → ∀ i, i ∈ free ↔ i < P.capacity ∧ ph i = .free
  bound : ∀ {p free ph}, Rep p free ph → ∀ i, ph i ≠ .free → i < P.capacity
  claim_full : ∀ {p ph}, Rep p [] ph → P.claim p = some (none, p)
  claim : ∀ {p i free ph}, Rep p (i :: free) ph →
    ∃ p', P.claim p = some (some i, p') ∧ Rep p' free (update ph i .building)
  construct : ∀ {p i free ph} (x : T), Rep p free ph → ph i = .building →
    Rep (P.construct p i x) free (update ph i .live)
  unwind : ∀ {p i free ph}, Rep p free ph → ph i = .building →
    ∃ free', free'.Perm (i :: free) ∧ Rep (P.unwind p i) free' (update ph i .free)
  resolves : ∀ {p free ph name}, Rep p free ph → P.resolves p name = true →
    (ph (P.slotOf name)).inUse = true
  startRelease : ∀ {p i free ph}, Rep p free ph → ph i = .live →
    ∃ p', P.startRelease p i = some p' ∧ Rep p' free (update ph i .dying)
  endRelease : ∀ {p i free ph}, Rep p free ph → ph i = .dying →
    ∃ free', free'.Perm (i :: free) ∧ Rep (P.endRelease p i) free' (update ph i .free)
  isLive : ∀ {p free ph}, Rep p free ph → ∀ i < P.capacity, P.isLive p i = (ph i).inUse
  size : ∀ {p free ph}, Rep p free ph → P.size p = useCount P.capacity ph

/-! ### The slots a pool accounts for -/

/-- `free` lists the free slots among the first `cap`, and `n` counts those in use. -/
structure Census (cap n : ℕ) (free : List ℕ) (ph : ℕ → Phase) : Prop where
  nodup : free.Nodup
  mem : ∀ i, i ∈ free ↔ i < cap ∧ ph i = .free
  bound : ∀ i, ph i ≠ .free → i < cap
  count : n = useCount cap ph

section Census
variable {cap n n' i : ℕ} {free free' : List ℕ} {ph : ℕ → Phase} {x : Phase}

theorem Census.notMem (hc : Census cap n free ph) (hi : ph i ≠ .free) : i ∉ free :=
  fun h => hi ((hc.mem i).mp h).2

/-- The first free slot is taken. -/
theorem Census.claim (hc : Census cap n (i :: free) ph) :
    Census cap (n + 1) free (update ph i .building) := by
  obtain ⟨hnot, hnodup⟩ := List.nodup_cons.mp hc.nodup
  obtain ⟨hlt, hfree⟩ := (hc.mem i).mp (List.mem_cons_self ..)
  refine ⟨hnodup, fun j => ?_, fun j hj => ?_, ?_⟩
  · by_cases hji : j = i
    · simp [hji, hnot]
    · rw [update_of_ne hji, ← hc.mem j, List.mem_cons]
      simp [hji]
  · by_cases hji : j = i
    · exact hji ▸ hlt
    · rw [update_of_ne hji] at hj
      exact hc.bound j hj
  · have hcount := useCount_update hlt ph .building
    rw [hfree, ← hc.count] at hcount
    exact hcount.symm

/-- A slot that is not free moves on without becoming free. -/
theorem Census.move (hc : Census cap n free ph) (hi : ph i ≠ .free) (hx : x ≠ .free)
    (hn : n' + (ph i).inUse.toNat = n + x.inUse.toNat) : Census cap n' free (update ph i x) := by
  have hlt := hc.bound i hi
  refine ⟨hc.nodup, fun j => ?_, fun j hj => ?_, ?_⟩
  · by_cases hji : j = i
    · simp [hji, hc.notMem hi, hx]
    · rw [update_of_ne hji, hc.mem j]
  · by_cases hji : j = i
    · exact hji ▸ hlt
    · rw [update_of_ne hji] at hj
      exact hc.bound j hj
  · have hcount := useCount_update hlt ph x
    rw [← hc.count] at hcount
    omega

/-- A slot that is not free becomes free. -/
theorem Census.give (hc : Census cap n free ph) (hi : ph i ≠ .free) (hperm : free'.Perm (i :: free))
    (hn : n' + (ph i).inUse.toNat = n) : Census cap n' free' (update ph i .free) := by
  have hlt := hc.bound i hi
  refine ⟨hperm.nodup_iff.mpr (List.nodup_cons.mpr ⟨hc.notMem hi, hc.nodup⟩), fun j => ?_,
    fun j hj => ?_, ?_⟩
  · rw [hperm.mem_iff, List.mem_cons, hc.mem j]
    by_cases hji : j = i
    · simp [hji, hlt]
    · simp [hji]
  · by_cases hji : j = i
    · exact hji ▸ hlt
    · rw [update_of_ne hji] at hj
      exact hc.bound j hj
  · have hcount := useCount_update hlt ph .free
    rw [← hc.count, show Phase.free.inUse.toNat = 0 from rfl] at hcount
    omega

/-- A slot in use is counted. -/
theorem Census.pos (hc : Census cap n free ph) (hi : (ph i).inUse = true) : 0 < n := by
  have hlt : i < cap := hc.bound i (by rintro h; rw [h] at hi; cases hi)
  have hcount := useCount_update hlt ph .free
  rw [← hc.count, hi, show Phase.free.inUse.toNat = 0 from rfl, Bool.toNat_true] at hcount
  omega

/-- A flag kept for every slot in use, after one slot changed phase. -/
theorem flag_update {flag flag' : ℕ → Bool} (h : ∀ j < cap, flag j = (ph j).inUse)
    (hother : ∀ j, j ≠ i → flag' j = flag j) (hself : flag' i = x.inUse) :
    ∀ j < cap, flag' j = (update ph i x j).inUse := by
  intro j hj
  rcases eq_or_ne j i with rfl | hji
  · rw [update_self, hself]
  · rw [update_of_ne hji, hother j hji, h j hj]

/-- What the bytes of live and dying slots satisfy, after one slot changed phase. -/
theorem stored_update {S : Type*} {P : S → Prop} {storage storage' : ℕ → S}
    (h : ∀ j, ph j = .live ∨ ph j = .dying → P (storage j))
    (hother : ∀ j, j ≠ i → ph j = .live ∨ ph j = .dying → storage' j = storage j)
    (hself : x = .live ∨ x = .dying → P (storage' i)) :
    ∀ j, update ph i x j = .live ∨ update ph i x j = .dying → P (storage' j) := by
  intro j hj
  rcases eq_or_ne j i with rfl | hji
  · rw [update_self] at hj
    exact hself hj
  · rw [update_of_ne hji] at hj
    rw [hother j hji hj]
    exact h j hj

end Census

/-! ### The machine of nested calls -/

/-- A running constructor or destructor, or the loop of a `clear()` about to look at slot `next`. -/
inductive Frame where
  | ctor (slot : ℕ)
  | dtor (slot : ℕ)
  | clear (next : ℕ)
  deriving DecidableEq

/-- The pool and the stack of running calls. Ghosts: the number of the object in each slot, how many
    were made, and the objects destroyed so far. -/
structure Nest (σ : Type*) where
  pool : σ
  stack : List Frame
  objects : ℕ → Option ℕ
  made : ℕ
  destroyed : List ℕ

inductive PoolAct (Name T : Type*) where
  | tryEmplace
  | finish (x : T)
  | throw
  | destroy (name : Name)
  | endDtor
  | clear
  | clearNext

/-- The slots whose constructor or destructor is running. -/
def running : List Frame → List ℕ
  | [] => []
  | .ctor i :: fs => i :: running fs
  | .dtor i :: fs => i :: running fs
  | .clear _ :: fs => running fs

/-- The main program or a callback runs, rather than the loop of a `clear()`. -/
def userRuns : List Frame → Bool
  | .clear _ :: _ => false
  | _ => true

variable (P : PoolOps σ Name T)

def Nest.init : Nest σ := ⟨P.init, [], fun _ => none, 0, []⟩

/-- Take the object in slot `i` out of the pool and run its destructor. -/
def Nest.release (s : Nest σ) (i : ℕ) (stack : List Frame) : Option (Nest σ) :=
  (P.startRelease s.pool i).map fun p =>
    { s with pool := p, stack := .dtor i :: stack, objects := update s.objects i none,
             destroyed := s.destroyed ++ (s.objects i).toList }

def Nest.step (s : Nest σ) : PoolAct Name T → Option (Nest σ)
  | .tryEmplace =>
    if userRuns s.stack then
      (P.claim s.pool).map fun (slot, p) =>
        match slot with
        | none => { s with pool := p }
        | some i => { s with pool := p, stack := .ctor i :: s.stack }
    else none
  | .finish x =>
    match s.stack with
    | .ctor i :: rest => some { s with
        pool := P.construct s.pool i x, stack := rest,
        objects := update s.objects i (some s.made), made := s.made + 1 }
    | _ => none
  | .throw =>
    match s.stack with
    | .ctor i :: rest => some { s with pool := P.unwind s.pool i, stack := rest }
    | _ => none
  | .destroy name =>
    if userRuns s.stack then
      if P.resolves s.pool name then
        -- the caller names no object still under construction
        if .ctor (P.slotOf name) ∈ s.stack then none else s.release P (P.slotOf name) s.stack
      else some s
    else none
  | .endDtor =>
    match s.stack with
    | .dtor i :: rest => some { s with pool := P.endRelease s.pool i, stack := rest }
    | _ => none
  | .clear => if s.stack = [] then some { s with stack := [.clear 0] } else none
  | .clearNext =>
    match s.stack with
    | .clear i :: rest =>
      if i < P.capacity then
        if P.isLive s.pool i then s.release P i (.clear (i + 1) :: rest)
        else some { s with stack := .clear (i + 1) :: rest }
      else some { s with stack := rest }
    | _ => none

/-- Emplace the values one after the other, with constructors that just finish; the slots obtained. -/
def emplaceMany (p : σ) : List T → Option (List (Option ℕ))
  | [] => some []
  | x :: xs =>
    (P.claim p).bind fun (slot, p') =>
      match slot with
      | none => (emplaceMany p' xs).map (none :: ·)
      | some i => (emplaceMany (P.construct p' i x) xs).map (some i :: ·)

/-! ### What survives nesting -/

/-- A `clear()` is made by the main program only, so its frame is the outermost. -/
def ClearLast : List Frame → Prop
  | [] => True
  | .clear _ :: fs => fs = []
  | _ :: fs => ClearLast fs

/-- The stack holds one frame for every slot under construction or destruction, and no other. -/
structure Frames (stack : List Frame) (ph : ℕ → Phase) : Prop where
  nodup : (running stack).Nodup
  last : ClearLast stack
  building : ∀ i, ph i = .building ↔ .ctor i ∈ stack
  dying : ∀ i, ph i = .dying ↔ .dtor i ∈ stack

/-- Every object made lives in exactly one slot or was destroyed, once. -/
structure Objects (objects : ℕ → Option ℕ) (made : ℕ) (destroyed : List ℕ) (ph : ℕ → Phase) :
    Prop where
  live : ∀ i, ph i = .live ↔ (objects i).isSome
  alive : ∀ i n, objects i = some n → n < made ∧ n ∉ destroyed
  distinct : ∀ i j n, objects i = some n → objects j = some n → i = j
  once : destroyed.Nodup
  old : ∀ n ∈ destroyed, n < made
  kept : ∀ n < made, n ∈ destroyed ∨ ∃ i, objects i = some n

theorem mem_running {fs : List Frame} : i ∈ running fs ↔ .ctor i ∈ fs ∨ .dtor i ∈ fs := by
  induction fs with
  | nil => simp [running]
  | cons f fs ih =>
    cases f <;> simp [running, ih]
    all_goals tauto

section Frames
variable {stack : List Frame} {ph : ℕ → Phase} {i : ℕ}

/-- A slot on which no call runs is free or live. -/
theorem Frames.not_running (hf : Frames stack ph) : i ∉ running stack ↔ ph i = .free ∨ ph i = .live := by
  rw [mem_running, ← hf.building, ← hf.dying]
  cases ph i <;> simp

theorem Frames.pushCtor (hf : Frames stack ph) (hi : ph i = .free) :
    Frames (.ctor i :: stack) (update ph i .building) := by
  have hnot : i ∉ running stack := hf.not_running.mpr (.inl hi)
  refine ⟨List.nodup_cons.mpr ⟨hnot, hf.nodup⟩, hf.last, fun j => ?_, fun j => ?_⟩ <;>
    rw [List.mem_cons] <;> by_cases hji : j = i
  · simp [hji]
  · simp [hji, hf.building j]
  · subst hji
    have hdtor : .dtor j ∉ stack := fun h => hnot (mem_running.mpr (.inr h))
    simp [hdtor]
  · simp [hji, hf.dying j]

theorem Frames.pushDtor (hf : Frames stack ph) (hi : ph i = .live) :
    Frames (.dtor i :: stack) (update ph i .dying) := by
  have hnot : i ∉ running stack := hf.not_running.mpr (.inr hi)
  refine ⟨List.nodup_cons.mpr ⟨hnot, hf.nodup⟩, hf.last, fun j => ?_, fun j => ?_⟩ <;>
    rw [List.mem_cons] <;> rcases eq_or_ne j i with rfl | hji
  · have hctor : .ctor j ∉ stack := fun h => hnot (mem_running.mpr (.inl h))
    simp [hctor]
  · simp [hji, hf.building j]
  · simp
  · simp [hji, hf.dying j]

/-- The innermost call on slot `i` ends and leaves the slot free or live. -/
theorem Frames.pop {f : Frame} (hf : Frames (f :: stack) ph) (hi : f = .ctor i ∨ f = .dtor i) {x : Phase}
    (hx : x = .free ∨ x = .live) : Frames stack (update ph i x) := by
  have hnodup : i ∉ running stack ∧ (running stack).Nodup := by
    rcases hi with rfl | rfl <;> exact List.nodup_cons.mp hf.nodup
  have hlast : ClearLast stack := by
    rcases hi with rfl | rfl <;> exact hf.last
  have hctor : .ctor i ∉ stack := fun h => hnodup.1 (mem_running.mpr (.inl h))
  have hdtor : .dtor i ∉ stack := fun h => hnodup.1 (mem_running.mpr (.inr h))
  refine ⟨hnodup.2, hlast, fun j => ?_, fun j => ?_⟩ <;> rcases eq_or_ne j i with rfl | hji
  · rcases hx with rfl | rfl <;> simp [hctor]
  · rw [update_of_ne hji, hf.building j, List.mem_cons]
    rcases hi with rfl | rfl <;> simp [hji]
  · rcases hx with rfl | rfl <;> simp [hdtor]
  · rw [update_of_ne hji, hf.dying j, List.mem_cons]
    rcases hi with rfl | rfl <;> simp [hji]

/-- The loop of `clear()` comes and goes without touching a slot. -/
theorem Frames.setClear {stack' : List Frame} (hf : Frames stack ph)
    (hsame : ∀ f, (∀ k, f ≠ .clear k) → (f ∈ stack' ↔ f ∈ stack))
    (hrun : running stack' = running stack) (hlast : ClearLast stack') : Frames stack' ph := by
  refine ⟨hrun ▸ hf.nodup, hlast, fun j => ?_, fun j => ?_⟩
  · rw [hf.building j, hsame _ fun k h => (by cases h)]
  · rw [hf.dying j, hsame _ fun k h => (by cases h)]

end Frames

section Objects
variable {objects : ℕ → Option ℕ} {made : ℕ} {destroyed : List ℕ} {ph : ℕ → Phase} {i : ℕ}

section

variable (ho : Objects objects made destroyed ph)
include ho

/-- A slot without an object changes between phases without one. -/
theorem Objects.pass (hi : ph i ≠ .live) {x : Phase} (hx : x ≠ .live) :
    Objects objects made destroyed (update ph i x) := by
  refine ⟨fun j => ?_, ho.alive, ho.distinct, ho.once, ho.old, ho.kept⟩
  rcases eq_or_ne j i with rfl | hji
  · rw [update_self, ← ho.live j]
    simp [hi, hx]
  · rw [update_of_ne hji, ho.live j]

theorem Objects.ledger : Ledger objects made destroyed :=
  ⟨ho.alive, ho.distinct, ho.once, ho.old, ho.kept⟩

/-- A change of the ledger at slot `i`, with a phase that shows whether there is an object. -/
theorem Objects.change {o : Option ℕ} {made' : ℕ} {destroyed' : List ℕ} {x : Phase}
    (hl : Ledger (update objects i o) made' destroyed') (hx : x = .live ↔ o.isSome) :
    Objects (update objects i o) made' destroyed' (update ph i x) := by
  refine ⟨fun j => ?_, hl.fresh, hl.apart, hl.nodup, hl.known, hl.account⟩
  rcases eq_or_ne j i with rfl | hji
  · rw [update_self, update_self, hx]
  · rw [update_of_ne hji, update_of_ne hji, ho.live j]

/-- A finished constructor makes a new object. -/
theorem Objects.finish (hi : ph i ≠ .live) : Objects (update objects i (some made)) (made + 1) destroyed
      (update ph i .live) := by
  have hnone : objects i = none := by
    rw [Ne, ho.live i] at hi
    simpa using hi
  exact ho.change (ho.ledger.build hnone) (by simp)

/-- Starting a release destroys the object in the slot. -/
theorem Objects.release (hi : ph i = .live) :
    Objects (update objects i none) made (destroyed ++ (objects i).toList) (update ph i .dying) := by
  obtain ⟨m, hm⟩ := Option.isSome_iff_exists.mp ((ho.live i).mp hi)
  rw [hm, Option.toList_some]
  exact ho.change (ho.ledger.destroy hm) (by simp)

end

end Objects

/-! ### Runs of the machine -/

variable {P}
variable {Rep : σ → List ℕ → (ℕ → Phase) → Prop} {s s' : Nest σ}

/-- The pool represents some phases, with which the stack and the objects agree. -/
def NestInv (Rep : σ → List ℕ → (ℕ → Phase) → Prop) (s : Nest σ) : Prop :=
  ∃ free ph, Rep s.pool free ph ∧ Frames s.stack ph ∧ Objects s.objects s.made s.destroyed ph

theorem nestInv_init (hP : Lawful P Rep) : NestInv Rep (Nest.init P) := by
  obtain ⟨free, hrep⟩ := hP.init
  refine ⟨free, _, hrep, ?_, ?_⟩ <;> constructor <;> simp [Nest.init, running, ClearLast]

theorem nestInv_release (hP : Lawful P Rep) {free : List ℕ} {ph : ℕ → Phase} {stack : List Frame}
    (hrep : Rep s.pool free ph) (hf : Frames stack ph) (ho : Objects s.objects s.made s.destroyed ph)
    (hi : ph i = .live) (h : s.release P i stack = some s') : NestInv Rep s' := by
  obtain ⟨p, hp, hrep'⟩ := hP.startRelease hrep hi
  rw [Nest.release, hp] at h
  obtain rfl := Option.some.inj h
  exact ⟨free, _, hrep', hf.pushDtor hi, ho.release hi⟩

/-- STEP: every part of every call keeps the invariant. -/
theorem nestInv_step (hP : Lawful P Rep) (s : Nest σ) (a : PoolAct Name T) (s' : Nest σ)
    (hi : NestInv Rep s) (h : s.step P a = some s') : NestInv Rep s' := by
  obtain ⟨free, ph, hrep, hf, ho⟩ := hi
  cases a <;> simp only [Nest.step] at h
  case tryEmplace =>
    split at h
    · cases free with
      | nil =>
        rw [hP.claim_full hrep] at h
        obtain rfl := Option.some.inj h
        exact ⟨[], ph, hrep, hf, ho⟩
      | cons i free =>
        have hfree := ((hP.mem hrep i).mp (List.mem_cons_self ..)).2
        obtain ⟨p, hp, hrep'⟩ := hP.claim hrep
        rw [hp] at h
        obtain rfl := Option.some.inj h
        exact ⟨free, _, hrep', hf.pushCtor hfree, ho.pass (by rw [hfree]; decide) (by decide)⟩
    · cases h
  case finish x =>
    split at h
    · next i rest hstack =>
      rw [hstack] at hf
      have hb := (hf.building i).mpr (List.mem_cons_self ..)
      obtain rfl := Option.some.inj h
      exact ⟨free, _, hP.construct x hrep hb, hf.pop (.inl rfl) (.inr rfl),
        ho.finish (by rw [hb]; decide)⟩
    · cases h
  case throw =>
    split at h
    · next i rest hstack =>
      rw [hstack] at hf
      have hb := (hf.building i).mpr (List.mem_cons_self ..)
      obtain ⟨free', -, hrep'⟩ := hP.unwind hrep hb
      obtain rfl := Option.some.inj h
      exact ⟨free', _, hrep', hf.pop (.inl rfl) (.inl rfl), ho.pass (by rw [hb]; decide) (by decide)⟩
    · cases h
  case destroy name =>
    split at h
    · split at h
      · next hres =>
        split at h
        · cases h
        · next hctor =>
          refine nestInv_release hP hrep hf ho ?_ h
          have huse := hP.resolves hrep hres
          have hnot := (hf.building _).not.mpr hctor
          revert huse hnot
          cases ph (P.slotOf name) <;> simp [Phase.inUse]
      · obtain rfl := Option.some.inj h
        exact ⟨free, ph, hrep, hf, ho⟩
    · cases h
  case endDtor =>
    split at h
    · next i rest hstack =>
      rw [hstack] at hf
      have hd := (hf.dying i).mpr (List.mem_cons_self ..)
      obtain ⟨free', -, hrep'⟩ := hP.endRelease hrep hd
      obtain rfl := Option.some.inj h
      exact ⟨free', _, hrep', hf.pop (.inr rfl) (.inl rfl), ho.pass (by rw [hd]; decide) (by decide)⟩
    · cases h
  case clear =>
    split at h
    · next hstack =>
      obtain rfl := Option.some.inj h
      rw [hstack] at hf
      exact ⟨free, ph, hrep, hf.setClear (fun f hne => by simp [hne]) rfl rfl, ho⟩
    · cases h
  case clearNext =>
    split at h
    · next i rest hstack =>
      rw [hstack] at hf
      obtain rfl : rest = [] := hf.last
      have hnext : ∀ k, Frames [.clear k] ph := fun k =>
        hf.setClear (fun f hne => by simp [hne]) rfl rfl
      split at h
      · next hlt =>
        split at h
        · next hlive =>
          refine nestInv_release hP hrep (hnext _) ho ?_ h
          have huse := (hP.isLive hrep i hlt).symm.trans hlive
          have hnot := (hf.building i).not.mpr (by simp)
          revert huse hnot
          cases ph i <;> simp [Phase.inUse]
        · obtain rfl := Option.some.inj h
          exact ⟨free, ph, hrep, hnext _, ho⟩
      · obtain rfl := Option.some.inj h
        exact ⟨free, ph, hrep, hf.setClear (fun f hne => by simp [hne]) rfl trivial, ho⟩
    · cases h

/-- RUN: the invariant holds whatever the callbacks do. -/
theorem nestInv_run (hP : Lawful P Rep) {acts : List (PoolAct Name T)}
    (h : run (Nest.step P) (Nest.init P) acts = some s) : NestInv Rep s :=
  run_inv (nestInv_step hP) acts _ _ (nestInv_init hP) h

/-! ### What the callers can rely on -/

/-- The promises of a pool in the midst of nested calls. -/
structure Survives (P : PoolOps σ Name T) (s : Nest σ) : Prop where
  /-- No two running constructors or destructors share a slot. -/
  running_nodup : (running s.stack).Nodup
  /-- `try_emplace` is always possible and never claims a slot on which a call runs. -/
  emplace : ∃ slot p, P.claim s.pool = some (slot, p) ∧
    ∀ i, slot = some i → i < P.capacity ∧ s.objects i = none ∧ i ∉ running s.stack
  /-- Nobody else is at work on the slot whose constructor returns or throws. -/
  own_slot : ∀ i rest, s.stack = .ctor i :: rest →
    i < P.capacity ∧ s.objects i = none ∧ i ∉ running rest
  /-- An object is destroyed at most once, and only after its constructor finished. -/
  destroyed_once : s.destroyed.Nodup ∧ ∀ n ∈ s.destroyed, n < s.made
  /-- An object that was not removed is still in its slot. -/
  kept : ∀ n < s.made, n ∉ s.destroyed → ∃ i < P.capacity, s.objects i = some n
  /-- A removal finds the finished object it names. -/
  removes : ∀ name, P.resolves s.pool name = true → .ctor (P.slotOf name) ∉ s.stack →
    (s.objects (P.slotOf name)).isSome ∧ (P.startRelease s.pool (P.slotOf name)).isSome
  /-- `destroy` on an object whose own destructor runs returns false. -/
  own_destroy : ∀ name, .dtor (P.slotOf name) ∈ s.stack → P.resolves s.pool name = false
  /-- When the outermost call has ended, the pool counts exactly the objects. -/
  ended : s.stack = [] →
    P.size s.pool = ((List.range P.capacity).filter fun i => (s.objects i).isSome).length ∧
    ∀ i < P.capacity, P.isLive s.pool i = (s.objects i).isSome
  /-- The other slots are free: later calls obtain each of them once, and then none. -/
  free : ∃ free : List ℕ, free.Nodup ∧
    (∀ i, i ∈ free ↔ i < P.capacity ∧ s.objects i = none ∧ i ∉ running s.stack) ∧
    ∀ xs : List T, emplaceMany P s.pool xs = some ((List.range xs.length).map fun k => free[k]?)

/-- Successive emplacements walk the list of free slots. -/
theorem emplaceMany_free (hP : Lawful P Rep) {xs : List T} {p : σ} {free : List ℕ} {ph : ℕ → Phase}
    (hrep : Rep p free ph) :
    emplaceMany P p xs = some ((List.range xs.length).map fun k => free[k]?) := by
  induction xs generalizing p free ph with
  | nil => simp [emplaceMany]
  | cons x xs ih =>
    rw [List.length_cons, List.range_succ_eq_map, List.map_cons, List.map_map]
    cases free with
    | nil =>
      rw [emplaceMany, hP.claim_full hrep, Option.bind_some]
      simp only [ih hrep]
      simp [comp_def]
    | cons i free =>
      obtain ⟨p', hp', hrep'⟩ := hP.claim hrep
      have hbuilt := hP.construct x hrep' (update_self ..)
      rw [emplaceMany, hp', Option.bind_some]
      simp only [ih hbuilt]
      simp [comp_def]

/-- CORRECT: a lawful pool keeps its promises in every run of nested calls. -/
theorem survives (hP : Lawful P Rep) {acts : List (PoolAct Name T)}
    (h : run (Nest.step P) (Nest.init P) acts = some s) : Survives P s := by
  obtain ⟨free, ph, hrep, hf, ho⟩ := nestInv_run hP h
  have hnone : ∀ i, s.objects i = none ↔ ph i ≠ .live := fun i => by
    rw [Ne, ho.live i]
    simp
  have hmem : ∀ i, i ∈ free ↔ i < P.capacity ∧ s.objects i = none ∧ i ∉ running s.stack := fun i => by
    rw [hP.mem hrep, hnone, hf.not_running]
    cases ph i <;> simp
  constructor
  case running_nodup => exact hf.nodup
  case emplace =>
    cases free with
    | nil => exact ⟨none, s.pool, hP.claim_full hrep, nofun⟩
    | cons i free =>
      obtain ⟨p, hp, -⟩ := hP.claim hrep
      refine ⟨some i, p, hp, fun j hj => ?_⟩
      obtain rfl := Option.some.inj hj
      exact (hmem i).mp (List.mem_cons_self ..)
  case own_slot =>
    intro i rest hstack
    rw [hstack] at hf
    have hb := (hf.building i).mpr (List.mem_cons_self ..)
    exact ⟨hP.bound hrep i (by rw [hb]; decide), (hnone i).mpr (by rw [hb]; decide),
      (List.nodup_cons.mp hf.nodup).1⟩
  case destroyed_once => exact ⟨ho.once, ho.old⟩
  case kept =>
    intro n hn hnot
    obtain ⟨i, hi⟩ := (ho.kept n hn).resolve_left hnot
    have hlive := (ho.live i).mpr (by rw [hi]; rfl)
    exact ⟨i, hP.bound hrep i (by rw [hlive]; decide), hi⟩
  case removes =>
    intro name hres hctor
    have huse := hP.resolves hrep hres
    have hlive : ph (P.slotOf name) = .live := by
      have hnot := (hf.building _).not.mpr hctor
      revert huse hnot
      cases ph (P.slotOf name) <;> simp [Phase.inUse]
    obtain ⟨p, hp, -⟩ := hP.startRelease hrep hlive
    exact ⟨(ho.live _).mp hlive, by rw [hp]; rfl⟩
  case own_destroy =>
    intro name hdtor
    have hd := (hf.dying _).mpr hdtor
    by_contra hres
    have huse := hP.resolves hrep (by simpa using hres)
    rw [hd] at huse
    cases huse
  case ended =>
    intro hstack
    rw [hstack] at hf
    have huse : ∀ i, (ph i).inUse = (s.objects i).isSome := fun i => by
      have hb := (hf.building i).not.mpr (by simp)
      have hl := ho.live i
      revert hb hl
      cases ph i <;> simp [Phase.inUse]
    refine ⟨?_, fun i hi => (hP.isLive hrep i hi).trans (huse i)⟩
    simp only [hP.size hrep, useCount, huse]
  case free => exact ⟨free, hP.nodup hrep, hmem, fun xs => emplaceMany_free hP hrep⟩

end Metl.Schemes
