import Metl.Schemes.EndInsertion
import Metl.Sequences.RingOperations
import Metl.Sequences.VectorReentrancy

/-! End insertion while element constructors insert: `fixed_vector`, `ring_buffer`, `fixed_deque`.

        deque  a b          emplace_front x, whose constructor does emplace_front y, emplace_back z
               · a b        the slot before a is claimed, the head moves to it
               · · a b      y's slot is claimed, y is built, z likewise at the back
               y x a b z    x is built in the slot it claimed

    Each container fills the slot it claimed, wherever the head is by then, and returns a reference to that
    slot. To the constructors it is a list in which every insertion happens when its call starts. -/

namespace Metl.NestedInsertion

open Metl.Schemes Metl.Schemes.Storage Metl.Schemes.Prog Metl.Schemes.Sides

variable {A : Type}

/-- Nothing a constructor can do, or see, tells the container from a bounded list. `holds l w` says that
    in `w` its slots are `l`, those claimed by calls still running as `none`. -/
structure Atomic {S W : Type} (K : EndContainer S W A) (front : S → Bool) (cap : ℕ)
    (holds : List (Option A) → W → Prop) : Prop where
  /-- The contents after any tree of calls, all of them built. -/
  contents : ∀ (t : Script S A) (l : List A) (w : W), holds (l.map some) w →
    (K.play t).Ends w (fun _ w' => holds ((perform front cap t l).map some) w') fun _ => False
  /-- A call, nested in others or not, returns false exactly when the container is full. -/
  flag : ∀ (s : S) (value : A) (t : Script S A) (l : List (Option A)) (w : W), holds l w →
    (K.tryEmplace s value (K.play t)).Ends w (fun b w' => b = decide (l.length < cap) ∧
      (l.length = cap → w' = w)) fun _ => False
  /-- A call, nested in others or not, returns a reference to the element it built. -/
  reference : ∀ (s : S) (value : A) (t : Script S A) (l : List (Option A)) (w : W), holds l w →
    l.length < cap → (K.emplace s value (K.play t)).Ends w (fun r w' =>
      (K.read r).Ends w' (fun x w'' => x = value ∧ w'' = w') fun _ => False) fun _ => False

/-- A container is atomic if from every state on it keeps its slots in place. -/
theorem atomic_of_implements {S W : Type} {K : EndContainer S W A} {front : S → Bool} {cap : ℕ}
    {holds : List (Option A) → W → Prop}
    (h : ∀ l w, holds l w → ∃ keeps : Sides (Option A) → W → Prop, K.Implements front cap keeps ∧
      keeps ⟨[], l⟩ w ∧ ∀ p w', keeps p w' → holds p.sequence w') : Atomic K front cap holds where
  contents := fun t l w hl => by
    obtain ⟨keeps, himp, hstart, hkeeps⟩ := h _ w hl
    refine (himp.play_ends t hstart).mono (fun _ w' hw' => ?_) fun _ hfalse => hfalse
    have hseq : perform front cap t l = (Sides.mk [] l |>.extend
        (growth front cap t (Sides.mk [] l).size)).sequence := perform_sequence front cap t ⟨[], l⟩
    have hbuilt : (⟨[], l.map some⟩ : Sides (Option A)) = (Sides.mk [] l).built := rfl
    rw [hseq, ← sequence_built, built_extend]
    rw [hbuilt, size_built] at hw'
    exact hkeeps _ w' hw'
  flag := fun s value t l w hl => by
    obtain ⟨keeps, himp, hstart, -⟩ := h l w hl
    have hsize : (⟨[], l⟩ : Sides (Option A)).size = l.length := by simp [Sides.size]
    have hbound := himp.bounded hstart
    rw [hsize] at hbound
    rcases Nat.eq_or_lt_of_le hbound with hfull | hroom
    · refine (himp.refuse hstart (hsize.trans hfull)).mono ?_ fun _ hfalse => hfalse
      rintro b w' ⟨rfl, rfl⟩
      exact ⟨by simp [hfull], fun _ => rfl⟩
    · refine (himp.accept hstart (hsize ▸ hroom) fun w₁ h₁ => himp.play_ends t h₁).mono ?_
        fun _ hfalse => hfalse
      rintro b w' ⟨rfl, -⟩
      exact ⟨by simp [hroom], fun hfull => by omega⟩
  reference := fun s value t l w hl hroom => by
    obtain ⟨keeps, himp, hstart, -⟩ := h l w hl
    have hsize : (⟨[], l⟩ : Sides (Option A)).size = l.length := by simp [Sides.size]
    exact (himp.refer hstart (hsize ▸ hroom) fun w₁ h₁ => himp.play_ends t h₁).mono
      (fun _ _ hw' => hw'.2) fun _ hfalse => hfalse

/-! ### `fixed_vector` -/

section Vector
variable (P : FixedVector.Params A)

/-- A vector grows at the back only. -/
def vector : EndContainer Unit (FixedVector.World A) A where
  full := do
    let s ← FixedVector.size
    pure (decide (s = P.capacity))
  tryEmplace := fun _ value ctor => FixedVector.tryEmplaceBack P value ctor
  emplace := fun _ value ctor => FixedVector.emplaceBack P value ctor
  read := readAt

/-- The slots of a vector: its elements, those under construction, and a ledger that balances. -/
def VectorHolds (l : List (Option A)) (w : FixedVector.World A) : Prop :=
  FixedVector.Slots l w ∧ l.length ≤ P.capacity

def VectorKeeps (p : Sides (Option A)) (w : FixedVector.World A) : Prop :=
  p.before = [] ∧ VectorHolds P p.behind w

variable {P}

variable {l : List (Option A)} {w : FixedVector.World A}

/-- The claimed slot is still the one behind `l` when the constructor is done. -/
theorem VectorKeeps.awaits {q : Sides (Option A)} {value : A} {Q : FixedVector.World A → Prop}
    (h : VectorKeeps P ((Sides.mk [] l).push false none |>.extend q) w)
    (hret : ∀ w', VectorKeeps P ((Sides.mk [] l).push false (some value) |>.extend q) w' → Q w') :
    FixedVector.Awaits l value Q w := by
  obtain ⟨hbefore, hslots, hbound⟩ := h
  simp only [push, extend, Bool.false_eq_true, if_false, List.append_assoc, List.singleton_append] at *
  refine ⟨q.behind, hslots, fun w' hw' => hret w' ⟨hbefore, hw', ?_⟩⟩
  simpa using hbound

theorem vector_claimed (h : FixedVector.Slots (l ++ [none]) w) (hroom : l.length < P.capacity) :
    VectorKeeps P ((Sides.mk [] l).push false none) w :=
  ⟨rfl, h, by simp [push]; omega⟩

theorem vector_implements : (vector P).Implements (fun _ => false) P.capacity (VectorKeeps P) where
  bounded := by
    rintro ⟨f, l⟩ w ⟨rfl, -, hbound⟩
    simpa [Sides.size] using hbound
  full := by
    rintro ⟨f, l⟩ w ⟨rfl, hslots, -⟩
    refine ends_bind (ends_getRegs hslots (ends_pure ⟨?_, rfl⟩))
    simp [Sides.size]
  refuse := by
    rintro ⟨f, l⟩ w s value ctor ⟨rfl, hslots, -⟩ hfull
    refine ends_bind (ends_getRegs hslots ?_)
    rw [if_pos (by simpa [Sides.size] using hfull)]
    exact ⟨rfl, rfl⟩
  accept := by
    rintro ⟨f, l⟩ w s value ctor q ⟨rfl, hslots, hbound⟩ hroom hctor
    have hlen : l.length < P.capacity := by simpa [Sides.size] using hroom
    refine FixedVector.ends_tryEmplaceBack hslots hlen fun w₁ h₁ => ?_
    refine (hctor w₁ (vector_claimed h₁ hlen)).mono (fun _ w₂ h₂ => ?_) fun _ hfalse => hfalse
    exact h₂.awaits fun w₃ h₃ => ⟨rfl, h₃⟩
  refer := by
    rintro ⟨f, l⟩ w s value ctor q ⟨rfl, hslots, hbound⟩ hroom hctor
    have hlen : l.length < P.capacity := by simpa [Sides.size] using hroom
    refine FixedVector.ends_emplaceBack hslots hlen fun w₁ h₁ => ?_
    refine (hctor w₁ (vector_claimed h₁ hlen)).mono (fun _ w₂ h₂ => ?_) fun _ hfalse => hfalse
    refine h₂.awaits fun w₃ h₃ => ⟨h₃, ?_⟩
    refine ends_readAt h₃.2.1 ?_ ⟨rfl, rfl⟩
    simp [push, extend]

end Vector

/-! ### `ring_buffer` and `fixed_deque` -/

section Ring

open Metl.RingCore

variable {C S : Type} [DecidableEq C] (P : RingCore.Params A) (c : C) (side : S → End)

/-- The ring of container `c`, with the ends a caller has: `ring_buffer` only the back, `fixed_deque`
    both. -/
def ring : EndContainer S (RingCore.World C A) A where
  full := do
    let s ← sizeOf c
    pure (decide (s = P.capacity))
  tryEmplace := fun s value ctor => tryEmplaceAt P c (do ctor; pure value) (side s)
  emplace := fun s value ctor => emplaceAt P c (do ctor; pure value) (side s)
  read := fun slot => readAt (c, slot)

/-- The slots of the ring in logical order, wherever its head is; `others` are those of the other
    containers. -/
def RingHolds (others : C → List (Option A)) (l : List (Option A)) (w : RingCore.World C A) : Prop :=
  ∃ head, Ring P head (Function.update others c l) w

/-- The same with the slot from which `before` and `behind` go outwards. -/
def RingKeeps (others : C → List (Option A)) (origin : ℕ) (p : Sides (Option A))
    (w : RingCore.World C A) : Prop :=
  ∃ head, Ring P head (Function.update others c p.sequence) w ∧
    around P.capacity (head c) p.before.length = origin

def isFront : End → Bool
  | .back => false
  | .front => true

variable {P c} {others : C → List (Option A)} {origin : ℕ} {p q : Sides (Option A)}
  {w : RingCore.World C A} {value : A}

theorem RingKeeps.bounded (h : RingKeeps P c others origin p w) : p.size ≤ P.capacity := by
  obtain ⟨head, hring, -⟩ := h
  simpa [length_sequence] using hring.fits c

/-- A reference to a slot that holds `value`. -/
def Reads (c : C) (slot : ℕ) (value : A) (w : RingCore.World C A) : Prop :=
  (readAt (c, slot)).Ends w (fun x w' => x = value ∧ w' = w) fun _ => False

variable {head : C → ℕ} {slot : ℕ} {Q : RingCore.World C A → Prop}

theorem awaits_of_split {pre post : List (Option A)}
    (hring : Ring P head (Function.update others c (pre ++ none :: post)) w)
    (hslot : around P.capacity (head c) pre.length = slot)
    (hret : ∀ w', Ring P head (Function.update others c (pre ++ some value :: post)) w' →
      Reads c slot value w' → Q w') : Awaits P c slot Q value w := by
  refine ⟨head, _, pre.length, hring, by simp, hslot, fun w' hw' => ?_⟩
  have hbuilt : Ring P head (Function.update others c (pre ++ some value :: post)) w' := by
    simpa using hw'
  refine hret w' hbuilt (ends_readAt hbuilt.holds ?_ ⟨rfl, rfl⟩)
  rw [← hslot]
  exact hbuilt.shape_at (by simp)

/-- The claimed slot is still the same one, counted from the origin, when the constructor is done. -/
theorem RingKeeps.awaits_back (hhead : head c < P.capacity)
    (horigin : around P.capacity (head c) p.before.length = origin) (hroom : p.size < P.capacity)
    (h : RingKeeps P c others origin ((p.push false none).extend q) w)
    (hret : ∀ w', RingKeeps P c others origin ((p.push false (some value)).extend q) w' →
      Reads c (around P.capacity (head c) p.size) value w' → Q w') :
    Awaits P c (around P.capacity (head c) p.size) Q value w := by
  have hbound := h.bounded
  obtain ⟨head₂, hring, horigin₂⟩ := h
  have hhead₂ := hring.head_lt c (by omega)
  have hbefore : ∀ x, ((p.push false x).extend q).before.length = p.before.length + q.before.length := by
    simp [push, extend]
  rw [hbefore] at horigin₂
  rw [size_extend, size_push] at hbound
  simp only [Sides.size] at hbound hroom
  rw [sequence_extend_behind] at hring
  refine awaits_of_split hring ?_ fun w' hw' => hret w' ⟨head₂, ?_, by rw [hbefore, horigin₂]⟩
  · have hleft : (q.before.reverse ++ p.sequence).length =
        p.before.length + q.before.length + p.behind.length := by
      simp [Sides.sequence]
      omega
    rw [hleft, Sides.size, ← around_add hhead₂ (by omega), horigin₂, ← horigin,
      around_add hhead (by omega)]
  · rwa [sequence_extend_behind]

theorem RingKeeps.awaits_front (hhead : head c < P.capacity)
    (horigin : around P.capacity (head c) p.before.length = origin) (hroom : p.size < P.capacity)
    (h : RingKeeps P c others origin ((p.push true none).extend q) w)
    (hret : ∀ w', RingKeeps P c others origin ((p.push true (some value)).extend q) w' →
      Reads c (before P.capacity (head c)) value w' → Q w') :
    Awaits P c (before P.capacity (head c)) Q value w := by
  have hbound := h.bounded
  obtain ⟨head₂, hring, horigin₂⟩ := h
  have hhead₂ := hring.head_lt c (by omega)
  have hbefore : ∀ x, ((p.push true x).extend q).before.length =
      q.before.length + (p.before.length + 1) := by
    intro x
    simp [push, extend]
    omega
  rw [hbefore] at horigin₂
  rw [size_extend, size_push] at hbound
  simp only [Sides.size] at hbound hroom
  rw [sequence_extend_before] at hring
  refine awaits_of_split hring ?_ fun w' hw' => hret w' ⟨head₂, ?_, by rw [hbefore, horigin₂]⟩
  · rw [List.length_reverse]
    refine around_left_inj (n := p.before.length + 1) (around_lt hhead₂ (by omega)) (before_lt hhead) ?_
    rw [around_before hhead (by omega), horigin, around_add hhead₂ (by omega), horigin₂]
  · rwa [sequence_extend_before]

theorem RingKeeps.claimed_back (horigin : around P.capacity (head c) p.before.length = origin)
    (h : Ring P head (claimBack (Function.update others c p.sequence) c) w) :
    RingKeeps P c others origin (p.push false none) w := by
  refine ⟨head, ?_, horigin⟩
  have hseq : (p.push false none).sequence = p.sequence ++ [none] := by simp [push, Sides.sequence]
  rw [hseq]
  simpa [claimBack] using h

theorem RingKeeps.claimed_front (hhead : head c < P.capacity)
    (horigin : around P.capacity (head c) p.before.length = origin) (hroom : p.size < P.capacity)
    (h : Ring P (retreated P head c) (claimFront (Function.update others c p.sequence) c) w) :
    RingKeeps P c others origin (p.push true none) w := by
  have hseq : (p.push true none).sequence = none :: p.sequence := by simp [push, Sides.sequence]
  simp only [Sides.size] at hroom
  refine ⟨retreated P head c, ?_, ?_⟩
  · rw [hseq]
    simpa [claimFront] using h
  · have hbefore : (p.push true none).before.length = p.before.length + 1 := by simp [push]
    rw [hbefore, retreated, Function.update_self, around_before hhead (by omega), horigin]

/-- What the constructor does, seen from the claimed slot at either end. -/
theorem ring_ctor {ctor : Prog (RingCore.World C A) Unit} {R : RingCore.World C A → Prop}
    {w₁ : RingCore.World C A} {b : Bool}
    (hctor : ctor.Ends w₁ (fun _ w₂ => RingKeeps P c others origin ((p.push b none).extend q) w₂)
      fun _ => False)
    (hawaits : ∀ w₂, RingKeeps P c others origin ((p.push b none).extend q) w₂ →
      Awaits P c slot Q value w₂) :
    (do ctor; pure value : Prog (RingCore.World C A) A).Ends w₁ (Awaits P c slot Q) R :=
  ends_bind (hctor.mono (fun _ w₂ h₂ => ends_pure (hawaits w₂ h₂)) fun _ hfalse => hfalse.elim)

theorem ring_implements : (ring P c side).Implements (fun s => isFront (side s)) P.capacity
    (RingKeeps P c others origin) where
  bounded := RingKeeps.bounded
  full := by
    rintro p w ⟨head, hring, -⟩
    refine ends_bind (ends_sizeOf hring.holds (ends_pure ⟨?_, rfl⟩))
    simp [lengths, length_sequence]
  refuse := by
    rintro p w s value ctor ⟨head, hring, -⟩ hfull
    have hlen : (Function.update others c p.sequence c).length = P.capacity := by
      simpa [length_sequence] using hfull
    change (tryEmplaceAt P c (do ctor; pure value) (side s)).Ends w _ _
    cases side s with
    | back => exact ends_tryEmplaceBack_full hring hlen ⟨rfl, rfl⟩
    | front => exact ends_tryEmplaceFront_full hring hlen ⟨rfl, rfl⟩
  accept := by
    rintro p w s value ctor q ⟨head, hring, horigin⟩ hroom hctor
    have hhead := hring.head_lt c (by omega)
    have hlen : (Function.update others c p.sequence c).length = p.size := by simp [length_sequence]
    change (tryEmplaceAt P c (do ctor; pure value) (side s)).Ends w _ _
    cases hs : side s with
    | back =>
      rw [hs] at hctor
      refine ends_tryEmplaceBack hring (hlen.trans_lt hroom) fun w₁ h₁ => ?_
      rw [hlen]
      refine ring_ctor (hctor w₁ (.claimed_back horigin h₁)) fun w₂ h₂ => ?_
      exact h₂.awaits_back hhead horigin hroom fun w₃ h₃ _ => ⟨rfl, h₃⟩
    | front =>
      rw [hs] at hctor
      refine ends_tryEmplaceFront hring (hlen.trans_lt hroom) fun w₁ h₁ => ?_
      refine ring_ctor (hctor w₁ (.claimed_front hhead horigin hroom h₁)) fun w₂ h₂ => ?_
      exact h₂.awaits_front hhead horigin hroom fun w₃ h₃ _ => ⟨rfl, h₃⟩
  refer := by
    rintro p w s value ctor q ⟨head, hring, horigin⟩ hroom hctor
    have hhead := hring.head_lt c (by omega)
    have hlen : (Function.update others c p.sequence c).length = p.size := by simp [length_sequence]
    change (emplaceAt P c (do ctor; pure value) (side s)).Ends w _ _
    cases hs : side s with
    | back =>
      rw [hs] at hctor
      refine ends_emplaceBack hring (hlen.trans_lt hroom) fun w₁ h₁ => ?_
      rw [hlen]
      refine ring_ctor (hctor w₁ (.claimed_back horigin h₁)) fun w₂ h₂ => ?_
      exact h₂.awaits_back hhead horigin hroom fun w₃ h₃ hreads => ⟨h₃, hreads⟩
    | front =>
      rw [hs] at hctor
      refine ends_emplaceFront hring (hlen.trans_lt hroom) fun w₁ h₁ => ?_
      refine ring_ctor (hctor w₁ (.claimed_front hhead horigin hroom h₁)) fun w₂ h₂ => ?_
      exact h₂.awaits_front hhead horigin hroom fun w₃ h₃ hreads => ⟨h₃, hreads⟩

theorem ring_atomic : Atomic (ring P c side) (fun s => isFront (side s)) P.capacity
    (RingHolds P c others) := by
  refine atomic_of_implements fun l w hl => ?_
  obtain ⟨head, hring⟩ := hl
  refine ⟨RingKeeps P c others (around P.capacity (head c) 0), ring_implements side, ⟨head, hring, rfl⟩, ?_⟩
  rintro p w' ⟨head', hring', -⟩
  exact ⟨head', hring'⟩

end Ring

theorem vector_atomic (P : FixedVector.Params A) :
    Atomic (vector P) (fun _ => false) P.capacity (VectorHolds P) := by
  refine atomic_of_implements fun l w hl => ⟨VectorKeeps P, vector_implements, ⟨rfl, hl⟩, ?_⟩
  rintro ⟨f, l'⟩ w' ⟨rfl, hholds⟩
  exact hholds

/-- CORRECT: in `fixed_vector`, `ring_buffer` and `fixed_deque` of every capacity, from every state and for
    every tree of insertions that element constructors make, the contents are those of a bounded list
    in which every insertion happens when its call starts; a nested `try` form returns false exactly
    when the list is full then, and a nested `emplace` returns a reference to the element it built. -/
theorem end_insertion_atomic {C : Type} [DecidableEq C] (vectorParams : FixedVector.Params A)
    (ringParams : RingCore.Params A) (c : C) (others : C → List (Option A)) :
    Atomic (vector vectorParams) (fun _ => false) vectorParams.capacity (VectorHolds vectorParams) ∧
      Atomic (ring ringParams c fun _ : Unit => .back) (fun _ => false) ringParams.capacity
        (RingHolds ringParams c others) ∧
      Atomic (ring ringParams c fun e : RingCore.End => e) isFront ringParams.capacity
        (RingHolds ringParams c others) :=
  ⟨vector_atomic vectorParams, ring_atomic _, ring_atomic _⟩

example (P : FixedVector.Params A) : VectorHolds P [] ⟨fun _ => none, 0, [], 0⟩ :=
  ⟨⟨fun _ => rfl, rfl, Ledger.init⟩, Nat.zero_le _⟩

example : perform isFront 5 (.insert .front 'x' (.insert .front 'y' .done fun _ =>
    .insert .back 'z' .done fun _ => .done) fun _ => .done) ['a', 'b'] = ['y', 'x', 'a', 'b', 'z'] := by
  decide

end Metl.NestedInsertion
