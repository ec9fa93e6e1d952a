import Metl.Schemes.Circle
import Metl.Sequences.RingCore

/-! What the operations of a ring do to the sequences it holds.

    `Ring P head es w` says that in `w` container `c` holds the sequence `es c`, laid out from `head c`,
    where an entry that is claimed and not yet built is `none`. Every operation is described by the
    sequences before and after it; a rule for an insertion asks what its constructor does in the
    state in which the slot is claimed. -/

namespace Metl.RingCore

open Metl.Schemes Metl.Schemes.Storage Metl.Schemes.Prog Function

/-! ### Indices: the mask and the comparison wrap alike -/

section Indices
variable {cap head i : ℕ}

theorem mod_eq_around (h : head < cap) (hi : i ≤ cap) : (head + i) % cap = around cap head i := by
  unfold around
  split
  · exact Nat.mod_eq_of_lt (by assumption)
  · rw [Nat.mod_eq_sub_mod (by omega), Nat.mod_eq_of_lt (by omega)]

theorem mask_eq_mod (h : powerOfTwoCapacity cap = true) (n : ℕ) : n &&& (cap - 1) = n % cap := by
  unfold powerOfTwoCapacity at h
  obtain ⟨hne, hpow⟩ := of_decide_eq_true h
  obtain ⟨k, rfl⟩ := (Nat.and_sub_one_eq_zero_iff_isPowerOfTwo hne).mp hpow
  exact Nat.and_two_pow_sub_one_eq_mod n k

theorem physicalIndex_eq (h : head < cap) (hi : i ≤ cap) :
    physicalIndex cap head i = around cap head i := by
  unfold physicalIndex
  rw [if_neg (by omega)]
  split
  · rename_i hpow
    rw [mask_eq_mod hpow, mod_eq_around h hi]
  · unfold around
    split <;> split <;> omega

theorem advance_eq (h : head < cap) : advance cap head = around cap head 1 := by
  unfold advance
  rw [if_neg (by omega)]
  split
  · rename_i hpow
    rw [mask_eq_mod hpow, mod_eq_around h (by omega)]
  · unfold around
    split <;> split <;> omega

theorem retreat_eq (h : head < cap) : retreat cap head = before cap head := if_neg (by omega)

end Indices

/-! ### The state -/

variable {C A : Type} {P : Params A} {head : C → ℕ} {es : C → List (Option A)}
  {w : World C A} {c d : C} {l : List (Option A)} {a : A} {i slot : ℕ} {R : World C A → Prop}

/-- What every slot holds. -/
def shape (P : Params A) (head : C → ℕ) (es : C → List (Option A)) (p : C × ℕ) : Option A :=
  circle P.capacity (head p.1) (es p.1) p.2

def lengths (es : C → List (Option A)) (c : C) : ℕ := (es c).length

structure Ring (P : Params A) (head : C → ℕ) (es : C → List (Option A)) (w : World C A) : Prop where
  holds : Holds (shape P head es) ⟨head, lengths es⟩ w
  fits : ∀ c, (es c).length ≤ P.capacity
  head_lt : ∀ c, 0 < P.capacity → head c < P.capacity

theorem Ring.pos (h : Ring P head es w) (hi : i < (es c).length) : head c < P.capacity :=
  h.head_lt c (by have := h.fits c; omega)

theorem Ring.shape_at (h : Ring P head es w) (hget : (es c)[i]? = some (some a)) :
    shape P head es (c, around P.capacity (head c) i) = some a := by
  obtain ⟨hi, -⟩ := List.getElem?_eq_some_iff.mp hget
  have hfit := h.fits c
  rw [shape, circle_around (h.pos hi) (by omega), hget]
  rfl

/-! ### Registers and checks -/

section Rules
variable {τ : C × ℕ → Option A} {r : Regs C}

theorem ends_sizeOf {Q : ℕ → World C A → Prop} (h : Holds τ r w) (hret : Q (r.size c) w) :
    (sizeOf c).Ends w Q R :=
  ends_bind (ends_getRegs h hret)

theorem ends_headOf {Q : ℕ → World C A → Prop} (h : Holds τ r w) (hret : Q (r.head c) w) :
    (headOf c).Ends w Q R :=
  ends_bind (ends_getRegs h hret)

theorem ends_physicalIndexOf {Q : ℕ → World C A → Prop} (h : Holds τ r w)
    (hret : Q (physicalIndex P.capacity (r.head c) i) w) : (physicalIndexOf P c i).Ends w Q R :=
  ends_bind (ends_headOf h hret)

variable {Q : Unit → World C A → Prop} {b : Bool} {n : ℕ}

theorem ends_harden (hb : b = true) (hret : Q () w) : (harden b).Ends w Q R := by
  subst hb
  exact hret

theorem ends_assert (hb : b = true) (hret : Q () w) : (assert P b).Ends w Q R := by
  unfold assert
  split
  · exact ends_harden hb hret
  · exact hret

theorem ends_setHead [DecidableEq C] (h : Holds τ r w)
    (hret : ∀ w', Holds τ ⟨update r.head c n, r.size⟩ w' → Q () w') : (setHead c n).Ends w Q R :=
  ends_modifyRegs h hret

theorem ends_setSize [DecidableEq C] (h : Holds τ r w)
    (hret : ∀ w', Holds τ ⟨r.head, update r.size c n⟩ w' → Q () w') : (setSize c n).Ends w Q R :=
  ends_modifyRegs h hret

end Rules

theorem ends_slotAt {Q : ℕ → World C A → Prop} (h : Ring P head es w) (hi : i < (es c).length)
    (hret : Q (around P.capacity (head c) i) w) : (slotAt P c i).Ends w Q R := by
  refine ends_bind (ends_sizeOf h.holds (ends_bind (ends_assert (decide_eq_true hi) ?_)))
  refine ends_physicalIndexOf h.holds ?_
  have hfit := h.fits c
  dsimp only
  rw [physicalIndex_eq (h.pos hi) (by omega)]
  exact hret

/-! ### Rewriting one container -/

variable [DecidableEq C]

variable {Q : Bool → World C A → Prop} {n head' : ℕ} {x : Option A} {w' : World C A}
  {τ : C × ℕ → Option A} {ctor : Prog (World C A) A}

theorem lengths_update (hn : n = l.length) : update (lengths es) c n = lengths (update es c l) := by
  funext d
  unfold lengths
  rcases eq_or_ne d c with rfl | hd
  · simp [hn]
  · simp [hd]

/-- Writing one slot changes the sequence of one container. -/
theorem shape_update (hc : circle P.capacity head' l = update (circle P.capacity (head c) (es c)) n x) :
    update (shape P head es) (c, n) x = shape P (update head c head') (update es c l) := by
  funext ⟨d, k⟩
  unfold shape
  rcases eq_or_ne d c with rfl | hd
  · rw [update_self, update_self, hc]
    rcases eq_or_ne k n with rfl | hk
    · simp
    · rw [update_of_ne (by simp [hk]), update_of_ne hk]
  · rw [update_of_ne (by simp [hd]), update_of_ne hd, update_of_ne hd]

/-- A layout that holds the same in every slot. -/
theorem shape_congr (hc : circle P.capacity head' l = circle P.capacity (head c) (es c)) :
    shape P head es = shape P (update head c head') (update es c l) := by
  rw [← shape_update (x := circle P.capacity (head c) (es c) 0) (n := 0) (by simp [hc])]
  exact (update_eq_self (c, 0) (shape P head es)).symm

/-- One container was rewritten. -/
theorem Ring.rewrite (h : Ring P head es w) (head' : ℕ)
    (hw : Holds τ ⟨update head c head', update (lengths es) c n⟩ w') (hn : n = l.length)
    (hτ : τ = shape P (update head c head') (update es c l)) (hfit : l.length ≤ P.capacity)
    (hhead : 0 < P.capacity → head' < P.capacity) : Ring P (update head c head') (update es c l) w' := by
  refine ⟨?_, fun d => ?_, fun d hpos => ?_⟩
  · rw [← lengths_update hn, ← hτ]
    exact hw
  · rcases eq_or_ne d c with rfl | hd
    · simpa using hfit
    · simpa [hd] using h.fits d
  · rcases eq_or_ne d c with rfl | hd
    · simpa using hhead hpos
    · simpa [hd] using h.head_lt d hpos

/-- One slot was written. -/
theorem Ring.overwrite (h : Ring P head es w) (hi : i < (es c).length)
    (hw : Holds (update (shape P head es) (c, around P.capacity (head c) i) x)
      ⟨head, lengths es⟩ w') : Ring P head (update es c ((es c).set i x)) w' := by
  have hhead := h.pos hi
  have hsame : update head c (head c) = head := update_eq_self c head
  have hsizes : update (lengths es) c (es c).length = lengths es := update_eq_self c (lengths es)
  have hring := h.rewrite (head c) (by rw [hsame, hsizes]; exact hw) (List.length_set ..).symm
    (shape_update (circle_set hhead hi (h.fits c))) (by simpa using h.fits c) fun _ => hhead
  rwa [hsame] at hring

/-! ### Insertion -/

/-- The slot is claimed and still unbuilt, and building `a` in it gives `Q`. -/
def Awaits (P : Params A) (c : C) (slot : ℕ) (Q : World C A → Prop) (a : A) (w : World C A) : Prop :=
  ∃ head es i, Ring P head es w ∧ (es c)[i]? = some none ∧ around P.capacity (head c) i = slot ∧
    ∀ w', Ring P head (update es c ((es c).set i (some a))) w' → Q w'

theorem ends_constructSlot {Q : World C A → Prop} (h : Awaits P c slot Q a w) :
    (constructSlot P c slot a).Ends w (fun _ => Q) R := by
  obtain ⟨head, es, i, hring, hget, rfl, hret⟩ := h
  obtain ⟨hi, -⟩ := List.getElem?_eq_some_iff.mp hget
  have hfit := hring.fits c
  have hhead := hring.pos hi
  rw [constructSlot, if_pos (around_lt hhead (by omega))]
  refine ends_constructAt hring.holds ?_ fun w' hw' => hret w' ?_
  · rw [shape, circle_around hhead (by omega), hget]
    rfl
  · exact hring.overwrite hi hw'

/-- The slots of `c` with one more claimed at the back, or at the front. -/
def claimBack (es : C → List (Option A)) (c : C) : C → List (Option A) :=
  update es c (es c ++ [none])

def claimFront (es : C → List (Option A)) (c : C) : C → List (Option A) :=
  update es c (none :: es c)

def retreated (P : Params A) (head : C → ℕ) (c : C) : C → ℕ :=
  update head c (before P.capacity (head c))

theorem shape_claimBack (hhead : head c < P.capacity) (hroom : (es c).length < P.capacity) :
    shape P head (claimBack es c) = shape P head es := by
  have hshape : shape P head es = shape P (update head c (head c)) (claimBack es c) :=
    shape_congr (circle_concat_none hhead hroom)
  rw [update_eq_self] at hshape
  exact hshape.symm

theorem shape_claimFront (hhead : head c < P.capacity) (hroom : (es c).length < P.capacity) :
    shape P (retreated P head c) (claimFront es c) = shape P head es :=
  (shape_congr (circle_cons_none hhead hroom)).symm

section

variable (h : Ring P head es w)
include h

theorem Ring.claimBack (hroom : (es c).length < P.capacity)
    (hw : Holds (shape P head es) ⟨head, update (lengths es) c ((es c).length + 1)⟩ w') :
    Ring P head (claimBack es c) w' := by
  have hhead := h.head_lt c (by omega)
  have hsame : update head c (head c) = head := update_eq_self c head
  have hring := h.rewrite (c := c) (l := es c ++ [none]) (head c) (by rw [hsame]; exact hw)
    (by simp) (shape_congr (circle_concat_none hhead hroom)) (by simp; omega) (fun _ => hhead)
  rw [hsame] at hring
  exact hring

theorem Ring.claimFront (hroom : (es c).length < P.capacity) (hw : Holds (shape P head es)
      ⟨retreated P head c, update (lengths es) c ((es c).length + 1)⟩ w') :
    Ring P (retreated P head c) (claimFront es c) w' := by
  have hhead := h.head_lt c (by omega)
  exact h.rewrite _ hw (by simp) (shape_congr (circle_cons_none hhead hroom)) (by simp; omega)
    fun _ => before_lt hhead

/-- A claim given back: the slots hold what they held. -/
theorem Ring.release {size : C → ℕ} (hτ : τ = shape P head es)
    (hsize : ∀ d, d ≠ c → size d = (es d).length) (hn : n = (es c).length)
    (hw : Holds τ ⟨head, update size c n⟩ w') : Ring P head es w' := by
  have hsizes : update size c n = lengths es := by
    funext d
    unfold lengths
    rcases eq_or_ne d c with rfl | hd
    · simpa using hn
    · simpa [hd] using hsize d hd
  rw [hsizes, hτ] at hw
  exact ⟨hw, h.fits, h.head_lt⟩

/-- A full container refuses, and nothing changes. -/
theorem ends_tryEmplaceBack_full (hfull : (es c).length = P.capacity) (hret : Q false w) :
    (tryEmplaceBack P c ctor).Ends w Q R := by
  refine ends_bind (ends_sizeOf h.holds ?_)
  change (ite ((es c).length = P.capacity) _ _ : Prog (World C A) Bool).Ends w _ _
  rw [if_pos hfull]
  exact hret

theorem ends_tryEmplaceFront_full (hfull : (es c).length = P.capacity) (hret : Q false w) :
    (tryEmplaceFront P c ctor).Ends w Q R := by
  refine ends_bind (ends_sizeOf h.holds ?_)
  change (ite ((es c).length = P.capacity) _ _ : Prog (World C A) Bool).Ends w _ _
  rw [if_pos hfull]
  exact hret

section

variable (hroom : (es c).length < P.capacity)
include hroom

/-- STEP: the back slot is claimed, the constructor runs, and the element is built there; if the
    constructor throws, the claim is given back. -/
theorem ends_tryEmplaceBack (hctor : ∀ w₁, Ring P head (claimBack es c) w₁ →
      ctor.Ends w₁ (Awaits P c (around P.capacity (head c) (es c).length) (Q true)) fun w₂ =>
        Ring P head (claimBack es c) w₂ ∧ ∀ w₃, Ring P head es w₃ → R w₃) :
    (tryEmplaceBack P c ctor).Ends w Q R := by
  have hhead := h.head_lt c (by omega)
  refine ends_bind (ends_sizeOf h.holds ?_)
  change (ite ((es c).length = P.capacity) _ _ : Prog (World C A) Bool).Ends w _ _
  rw [if_neg (by omega)]
  refine ends_bind (ends_setSize h.holds fun w₁ h₁ => ?_)
  refine ends_bind (ends_physicalIndexOf h₁ ?_)
  dsimp only [lengths]
  rw [physicalIndex_eq hhead (by omega)]
  refine ends_bind (ends_onThrow (ends_bind ((hctor w₁ (h.claimBack hroom h₁)).mono ?_ ?_)))
  · intro a w₂ hawaits
    exact (ends_constructSlot hawaits).mono (fun _ w₃ hret => ends_pure hret) fun _ hfalse => hfalse
  · rintro w₂ ⟨h₂, hthrow⟩
    refine ends_bind (ends_sizeOf h₂.holds (ends_bind (ends_harden ?_ ?_)))
    · simp [lengths, claimBack]
    · refine ends_setSize h₂.holds fun w₃ h₃ => hthrow w₃ (h.release (shape_claimBack hhead hroom) ?_ ?_ h₃)
      · intro d hd
        simp [lengths, claimBack, hd]
      · simp [lengths, claimBack]

theorem ends_emplaceBack {Q : ℕ → World C A → Prop} (hctor : ∀ w₁, Ring P head (claimBack es c) w₁ →
      ctor.Ends w₁ (Awaits P c (around P.capacity (head c) (es c).length)
        (Q (around P.capacity (head c) (es c).length))) fun w₂ =>
        Ring P head (claimBack es c) w₂ ∧ ∀ w₃, Ring P head es w₃ → R w₃) :
    (emplaceBack P c ctor).Ends w Q R := by
  have hhead := h.head_lt c (by omega)
  refine ends_bind (ends_sizeOf h.holds (ends_bind (ends_physicalIndexOf h.holds ?_)))
  change (tryEmplaceBack P c ctor >>= _ : Prog (World C A) ℕ).Ends w _ _
  refine ends_bind ((ends_tryEmplaceBack (Q := fun b w' => b = true ∧
    Q (around P.capacity (head c) (es c).length) w') h hroom ?_).mono ?_ fun _ hthrow => hthrow)
  · simpa using hctor
  · rintro b w' ⟨rfl, hret⟩
    refine ends_bind (ends_assert rfl ?_)
    rw [if_pos rfl]
    change Q (physicalIndex P.capacity (head c) (es c).length) w'
    rw [physicalIndex_eq hhead (by omega)]
    exact hret

/-- STEP: the same at the front, where the head moves back. -/
theorem ends_tryEmplaceFront (hctor : ∀ w₁, Ring P (retreated P head c) (claimFront es c) w₁ →
      ctor.Ends w₁ (Awaits P c (before P.capacity (head c)) (Q true)) fun w₂ =>
        Ring P (retreated P head c) (claimFront es c) w₂ ∧ ∀ w₃, Ring P head es w₃ → R w₃) :
    (tryEmplaceFront P c ctor).Ends w Q R := by
  have hhead := h.head_lt c (by omega)
  refine ends_bind (ends_sizeOf h.holds ?_)
  change (ite ((es c).length = P.capacity) _ _ : Prog (World C A) Bool).Ends w _ _
  rw [if_neg (by omega)]
  refine ends_bind (ends_headOf h.holds ?_)
  dsimp only [lengths]
  rw [retreat_eq hhead]
  refine ends_bind (ends_setHead h.holds fun w₁ h₁ => ?_)
  refine ends_bind (ends_setSize h₁ fun w₂ h₂ => ?_)
  refine ends_bind (ends_onThrow (ends_bind ((hctor w₂ (h.claimFront hroom h₂)).mono ?_ ?_)))
  · intro a w₃ hawaits
    exact (ends_constructSlot hawaits).mono (fun _ w₄ hret => ends_pure hret) fun _ hfalse => hfalse
  · rintro w₃ ⟨h₃, hthrow⟩
    refine ends_bind (ends_headOf h₃.holds (ends_bind (ends_sizeOf h₃.holds ?_)))
    refine ends_bind (ends_harden ?_ ?_)
    · simp [lengths, claimFront, retreated]
    refine ends_bind (ends_setHead h₃.holds fun w₄ h₄ => ?_)
    refine ends_setSize h₄ fun w₅ h₅ => hthrow w₅ ?_
    have hback : update (retreated P head c) c (head c) = head := by
      rw [retreated, update_idem, update_eq_self]
    rw [hback] at h₅
    refine h.release (shape_claimFront hhead hroom) ?_ ?_ h₅
    · intro d hd
      simp [lengths, claimFront, hd]
    · simp [lengths, claimFront]

theorem ends_emplaceFront {Q : ℕ → World C A → Prop}
    (hctor : ∀ w₁, Ring P (retreated P head c) (claimFront es c) w₁ →
      ctor.Ends w₁ (Awaits P c (before P.capacity (head c)) (Q (before P.capacity (head c)))) fun w₂ =>
        Ring P (retreated P head c) (claimFront es c) w₂ ∧ ∀ w₃, Ring P head es w₃ → R w₃) :
    (emplaceFront P c ctor).Ends w Q R := by
  have hhead := h.head_lt c (by omega)
  refine ends_bind (ends_headOf h.holds ?_)
  dsimp only
  rw [retreat_eq hhead]
  refine ends_bind ((ends_tryEmplaceFront (Q := fun b w' => b = true ∧
    Q (before P.capacity (head c)) w') h hroom ?_).mono ?_ fun _ hthrow => hthrow)
  · simpa using hctor
  · rintro b w' ⟨rfl, hret⟩
    refine ends_bind (ends_assert rfl ?_)
    rw [if_pos rfl]
    exact hret

end

/-! ### Removal -/

/-- STEP: the first element is unlinked and destroyed. -/
theorem ends_popFront {Q : Unit → World C A → Prop} (hes : es c = some a :: l)
    (hret : ∀ w', Ring P (update head c (around P.capacity (head c) 1))
      (update es c l) w' → Q () w') : (popFront P c).Ends w Q R := by
  have hfit := h.fits c
  rw [hes, List.length_cons] at hfit
  have hhead := h.head_lt c (by omega)
  refine ends_bind (ends_sizeOf h.holds (ends_bind (ends_harden ?_ ?_)))
  · simp [lengths, hes]
  refine ends_bind (ends_headOf h.holds ?_)
  dsimp only
  rw [advance_eq hhead]
  refine ends_bind (ends_setHead h.holds fun w₁ h₁ => ends_bind (ends_setSize h₁ fun w₂ h₂ => ?_))
  refine ends_destroyAt h₂ (a := a) ?_ fun w₃ h₃ => hret w₃ (h.rewrite _ h₃ ?_ ?_ ?_ ?_)
  · have hshape := h.shape_at (c := c) (i := 0) (a := a) (by simp [hes])
    rwa [around_zero hhead] at hshape
  · simp [lengths, hes]
  · apply shape_update
    rw [hes, circle_tail hhead (by omega)]
  · omega
  · exact fun _ => around_lt hhead (by omega)

/-- STEP: the last element is unlinked and destroyed. -/
theorem ends_dropBack {Q : Unit → World C A → Prop} (hes : es c = l ++ [some a])
    (hret : ∀ w', Ring P head (update es c l) w' → Q () w') :
    (dropBack P c (es c).length).Ends w Q R := by
  have hfit := h.fits c
  have hlast : (es c).length - 1 = l.length := by simp [hes]
  rw [hes, List.length_append, List.length_singleton] at hfit
  have hhead := h.head_lt c (by omega)
  have hsame : update head c (head c) = head := update_eq_self c head
  refine ends_bind (ends_setSize h.holds fun w₁ h₁ => ends_bind (ends_physicalIndexOf h₁ ?_))
  dsimp only
  rw [hlast, physicalIndex_eq hhead (by omega)]
  refine ends_destroyAt h₁ (a := a) ?_ fun w₂ h₂ => hret w₂ ?_
  · exact h.shape_at (by simp [hes])
  · have hring := h.rewrite (head c) (by rw [hsame]; exact h₂) hlast
      (shape_update (by rw [hes, circle_dropLast hhead (by omega)])) (by omega) fun _ => hhead
    rwa [hsame] at hring

theorem ends_popBack {Q : Unit → World C A → Prop} (hes : es c = l ++ [some a])
    (hret : ∀ w', Ring P head (update es c l) w' → Q () w') : (popBack P c).Ends w Q R := by
  refine ends_bind (ends_sizeOf h.holds (ends_bind (ends_harden ?_ ?_)))
  · simp [lengths, hes]
  · exact ends_dropBack h hes hret

/-! ### Elements in place -/

/-- An element changes its contents. -/
theorem ends_writeElement {Q : Unit → World C A → Prop} {b : A} (hget : (es c)[i]? = some (some a))
    (hret : ∀ w', Ring P head (update es c ((es c).set i (some b))) w' → Q () w') :
    (writeAt (c, around P.capacity (head c) i) b).Ends w Q R := by
  obtain ⟨hi, -⟩ := List.getElem?_eq_some_iff.mp hget
  refine ends_writeAt h.holds (h.shape_at hget) fun w' hw' => hret w' (h.overwrite hi hw')

/-- A constructor that is given a reference reads the element and may change it. -/
theorem ends_construct {Q : A → World C A → Prop} {make leave : A → A} (hget : (es c)[i]? = some (some a))
    (hret : ∀ w', Ring P head (update es c ((es c).set i (some (leave a)))) w' →
      Q (make a) w') : (construct (c, around P.capacity (head c) i) make leave).Ends w Q R :=
  ends_bind (ends_readAt h.holds (h.shape_at hget) (ends_bind (ends_writeElement h hget hret)))

end

end Metl.RingCore
